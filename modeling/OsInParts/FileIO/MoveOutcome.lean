import OsInParts.FileIO.Move

/-!
# MoveOutcome — what the calls of `move_directory` leave behind

The call is described entry by entry: `Fate` is what may become of what is at
`src/r` and at `dest/r` whatever fails, `Arrived` what has become of it if
nothing does. Both are about one relative path, so what one entry's move does
is not touched by the next (`Each`), and the loop over the entries of a
directory gives the fates of all paths below it. No call fails by itself
exactly if the way is `Clear`, and what the path strings lead through is there
for as long as they are used (`Aside`).
-/

namespace OsInParts.FileIO

open Lib.Directories

open scoped List

/-! ## What becomes of a path -/

/-- What may become of what was at `src/r` and at `dest/r`: it stays, or a file
is moved to where nothing was; a directory may be made and may be removed. -/
def Fate (src dest src' dest' : Option (Node (List UInt8))) : Prop :=
  match src with
  | none => src' = none ∧ dest' = dest
  | some .dir =>
      (src' = some .dir ∨ src' = none) ∧ (dest' = dest ∨ dest = none ∧ dest' = some .dir)
  | some (.file c) =>
      src' = some (.file c) ∧ dest' = dest ∨
        src' = none ∧ dest = none ∧ dest' = some (.file c)

/-- What becomes of it if no call fails: a directory is made only where nothing
was. -/
def Arrived (src dest src' dest' : Option (Node (List UInt8))) : Prop :=
  src' = none ∧
    match src with
    | none => dest' = dest
    | some .dir => dest' = some (dest.getD .dir)
    | some (.file c) => dest' = some (.file c)

theorem Fate.refl (src dest : Option (Node (List UInt8))) : Fate src dest src dest := by
  cases src with
  | none => exact ⟨rfl, rfl⟩
  | some x =>
      cases x with
      | dir => exact ⟨.inl rfl, .inl rfl⟩
      | file c => exact .inl ⟨rfl, rfl⟩

/-- **The way is clear** for what is at the relative paths `f` below `src` to go
to those below `dest`, `g`, in a directory with `above` at its path: no call
has to fail. -/
structure Clear (above : Option (Node (List UInt8))) (f g : Path → Option (Node (List UInt8))) :
    Prop where
  makeable : g [] = none → above = some .dir
  noDirForFile : ∀ r c, f r = some (.file c) → g r ≠ some .dir
  nothingBelowFile : ∀ r c a, g r = some (.file c) → f (a :: r) = none

/-- What the strings lead through outlasts their use: `src` leads through nothing
below it, which is gone when it is removed itself, and what `dest` leads through
there is moved last. -/
structure Aside (cwd : Path) (src dest : List UInt8) (S : Path) (files : Files) : Prop where
  src : ∀ q ∈ through cwd src, ∀ e, ¬ (e :: S) <:+ q
  dest : ∀ q ∈ through cwd dest, LastOn files S q

/-- No call has to fail for the entry `e` of `S`. -/
structure EntryClear (cwd : Path) (src dest : List UInt8) (S D : Path) (files : Files) (e : Name) :
    Prop where
  aside : Aside cwd src dest (e :: S) files
  clear : Clear (files.node D) (below files (e :: S)) (below files (e :: D))

/-- The files before and after a call on `S` and `D`: outside these nothing has
changed, and what is below them has met its fate. -/
structure Moved (S D : Path) (files files' : Files) : Prop where
  frame : ∀ q, ¬ S <:+ q → ¬ D <:+ q → files'.node q = files.node q
  order : ∀ q, ¬ S <:+ q → ¬ D <:+ q → q ≠ S.tail → q ≠ D.tail → files'.names q = files.names q
  fate : ∀ r, Fate (below files S r) (below files D r) (below files' S r) (below files' D r)

/-- **The outcome of a call** that has to fail unless `clear` holds, for which it has
to be `reached`. -/
structure Outcome (fails : Nat → Bool) (reached clear : Prop) (S D : Path) (s s' : System) :
    Prop where
  moved : Moved S D s.files s'.files
  success : s'.failed = false → s.failed = false ∧ clear ∧
    ∀ r, Arrived (below s.files S r) (below s.files D r) (below s'.files S r) (below s'.files D r)
  smooth : (∀ k, fails k = false) → reached → clear → s.failed = false → s'.failed = false

variable {cwd : Path} {fails : Nat → Bool} {S D : Path} {s s' : System} {files files' : Files}
  {src dest : List UInt8}

theorem Aside.congr (h : Aside cwd src dest S files) (hsame : SameBelow S files files') :
    Aside cwd src dest S files' :=
  ⟨h.src, fun q hq => (h.dest q hq).congr hsame⟩

theorem EntryClear.congr {e : Name} (h : EntryClear cwd src dest S D files e)
    (hS : SameBelow (e :: S) files files') (hD : below files' (e :: D) = below files (e :: D))
    (hdir : files'.node D = files.node D) : EntryClear cwd src dest S D files' e where
  aside := h.aside.congr hS
  clear := by
    rw [hS.below_eq, hD, hdir]
    exact h.clear

/-- The entries add no path that is below one. -/
theorem aside_entry {e : Name} (hsrc : target cwd src = some S) (hdest : target cwd dest = some D)
    (hapart : Apart S D) : Aside cwd (src ++ slash :: e.val) (dest ++ slash :: e.val) (e :: S) files
      ↔ Aside cwd src dest (e :: S) files := by
  have hS : ∀ e', ¬ (e' :: e :: S) <:+ S := fun e' h => by
    have hlength := h.length_le
    simp only [List.length_cons] at hlength
    omega
  have hD : LastOn files (e :: S) D := fun r a r' heq =>
    absurd ⟨r ++ a :: (r' ++ [e]), by simp [heq]⟩ hapart.left
  have hthrough := Leads.through_entry e (.inl hsrc)
  have hthrough' := Leads.through_entry e (.inl hdest)
  constructor
  · intro h
    exact ⟨fun q hq => h.src q (by rw [hthrough]; exact List.mem_append_left _ hq),
      fun q hq => h.dest q (by rw [hthrough']; exact List.mem_append_left _ hq)⟩
  · intro h
    refine ⟨fun q hq => ?_, fun q hq => ?_⟩
    · rw [hthrough] at hq
      rcases List.mem_append.mp hq with hq | hq
      · exact h.src q hq
      · rw [List.mem_singleton.mp hq]
        exact hS
    · rw [hthrough'] at hq
      rcases List.mem_append.mp hq with hq | hq
      · exact h.dest q hq
      · rw [List.mem_singleton.mp hq]
        exact hD

/-- Where there is no directory, no string leads on. -/
theorem aside_of_not_dir (hS : files.node S ≠ some .dir) (hsrc : Walks cwd files src)
    (hdest : Walks cwd files dest) : Aside cwd src dest S files where
  src := by
    rintro q hq e ⟨r, rfl⟩
    have hdir := hsrc _ hq
    rw [show r ++ e :: S = (r ++ [e]) ++ S by simp, FileTree.below_eq_none hS (by simp)] at hdir
    cases hdir
  dest := by
    rintro q hq r a r' rfl
    have hdir := hdest _ hq
    rw [show r ++ a :: (r' ++ S) = (r ++ a :: r') ++ S by simp,
      FileTree.below_eq_none hS (by simp)] at hdir
    cases hdir

/-- A directory at the destination stays. -/
theorem Fate.dir_stays {src src' dest' : Option (Node (List UInt8))}
    (h : Fate src (some .dir) src' dest') : dest' = some .dir := by
  match src with
  | none => exact h.2
  | some .dir => exact h.2.resolve_right fun hmade => by cases hmade.1
  | some (.file c) =>
      rcases h with ⟨-, heq⟩ | ⟨-, hnone, -⟩
      · exact heq
      · cases hnone

/-- A directory that is not below `S` stays. -/
theorem Moved.dir_stays (h : Moved S D files files') {q : Path} (hq : ¬ S <:+ q)
    (hdir : files.node q = some .dir) : files'.node q = some .dir := by
  by_cases hD : D <:+ q
  · obtain ⟨r, rfl⟩ := hD
    have hfate := h.fate r
    rw [show below files D r = some .dir from hdir] at hfate
    exact hfate.dir_stays
  · rw [h.frame q hq hD, hdir]

/-! ## Moving a file -/

theorem replaceFile_node {b a : Name} {q p : Path} {c : List UInt8}
    (hold : files.node (b :: q) = some (.file c)) (hne : b :: q ≠ a :: p)
    (hnew : files.node (a :: p) ≠ some .dir) (hp : files.node p = some .dir) (x : Path) :
    (replaceFile files b q a p c hold hne hnew hp).node x =
      if x = b :: q then none else if x = a :: p then some (.file c) else files.node x := by
  unfold replaceFile
  by_cases hxb : x = b :: q
  · rw [if_pos hxb, hxb, FileTree.remove_self]
  · rw [if_neg hxb, FileTree.remove_of_ne _ hxb]
    by_cases hxa : x = a :: p
    · rw [if_pos hxa, hxa, FileTree.put_self]
    · rw [if_neg hxa, FileTree.put_of_ne _ _ hxa, FileTree.remove_of_ne _ hxa]

theorem replaceFile_names {b a : Name} {q p : Path} {c : List UInt8}
    (hold : files.node (b :: q) = some (.file c)) (hne : b :: q ≠ a :: p)
    (hnew : files.node (a :: p) ≠ some .dir) (hp : files.node p = some .dir) {x : Path}
    (hq : x ≠ q) (hxp : x ≠ p) :
    (replaceFile files b q a p c hold hne hnew hp).names x = files.names x := by
  unfold replaceFile
  rw [FileTree.remove_names_of_ne _ hq, FileTree.put_names_of_ne _ _ hxp,
    FileTree.remove_names_of_ne _ hxp]

/-- The file is listed last at its new place. -/
theorem replaceFile_order {b a : Name} {q p : Path} {c : List UInt8}
    (hold : files.node (b :: q) = some (.file c)) (hne : b :: q ≠ a :: p)
    (hnew : files.node (a :: p) ≠ some .dir) (hp : files.node p = some .dir) {x : Path} {y z : Name}
    (hz : z :: x ≠ a :: p) (h : [y, z] <+ (replaceFile files b q a p c hold hne hnew hp).names x) :
    [y, z] <+ files.names x := by
  unfold replaceFile at h
  have hput := h.trans (FileTree.remove_names_sublist _ x)
  exact (FileTree.sublist_of_put _ _ hz hput).trans (FileTree.remove_names_sublist _ x)

/-- What `rename` of the file `b :: q` to `a :: p` does. -/
structure Renamed (b : Name) (q : Path) (a : Name) (p : Path) (c : List UInt8)
    (files files' : Files) : Prop where
  node : ∀ x, files'.node x =
    if x = b :: q then none else if x = a :: p then some (.file c) else files.node x
  names : ∀ x, x ≠ q → x ≠ p → files'.names x = files.names x
  order : ∀ x y z, z :: x ≠ a :: p → [y, z] <+ files'.names x → [y, z] <+ files.names x

/-- A string that leads to an entry as the loop builds it. -/
structure EntryString (cwd : Path) (path : List UInt8) (p : Path) : Prop where
  target : target cwd path = some p
  asks : asksDir path = false

theorem entryString {dir : List UInt8} {p : Path} (h : Leads cwd dir p) (a : Name) :
    EntryString cwd (dir ++ slash :: a.val) (a :: p) :=
  ⟨h.entry a, asksDir_entry a⟩

/-- When `rename` of a file to where no file is has no reason to fail. -/
def Renamable (cwd : Path) (src dest : List UInt8) (a : Name) (p : Path) (files : Files) : Prop :=
  Walks cwd files src ∧ Walks cwd files dest ∧ files.node (a :: p) ≠ some .dir ∧
    files.node p = some .dir

/-- `rename` of a file to where no file is. -/
theorem rename_eq {b a : Name} {q p : Path} {c : List UInt8}
    (hsrc : EntryString cwd src (b :: q)) (hdest : EntryString cwd dest (a :: p))
    (hfile : files.node (b :: q) = some (.file c)) (hapart : Apart (b :: q) (a :: p)) :
    (Renamable cwd src dest a p files ∧
        ∃ files', rename cwd files src dest = some files' ∧ Renamed b q a p c files files') ∨
      ¬ Renamable cwd src dest a p files ∧ rename cwd files src dest = none := by
  have hne : b :: q ≠ a :: p := hapart.ne [] []
  unfold rename
  rw [resolve_eq hsrc.target, resolve_eq hdest.target]
  by_cases hwalks : Walks cwd files src
  · by_cases hwalks' : Walks cwd files dest
    · rw [if_pos hwalks, if_pos hwalks']
      simp only [hsrc.asks, hdest.asks, Bool.false_eq_true, or_self, if_false]
      split
      · rename_i c' hc'
        obtain rfl : c' = c := by
          rw [hfile] at hc'
          injection hc' with hnode
          injection hnode with hcc
          exact hcc.symm
        rw [dif_neg hne]
        by_cases h : files.node (a :: p) ≠ some .dir ∧ files.node p = some .dir
        · exact .inl ⟨⟨hwalks, hwalks', h⟩, _, dif_pos h, replaceFile_node hc' hne h.1 h.2,
            fun x => replaceFile_names hc' hne h.1 h.2,
            fun x y z => replaceFile_order hc' hne h.1 h.2⟩
        · exact .inr ⟨fun hr => h hr.2.2, dif_neg h⟩
      · rename_i hnot
        exact absurd hfile (hnot c)
    · rw [if_neg hwalks']
      exact .inr ⟨fun hr => hwalks' hr.2.1, by split <;> simp_all⟩
  · rw [if_neg hwalks]
    exact .inr ⟨fun hr => hwalks hr.1, by split <;> simp_all⟩

/-- The way is clear for a file exactly if `rename` has no reason to fail. -/
theorem clear_file_iff {b a : Name} {q p : Path} {c : List UInt8}
    (hfile : files.node (b :: q) = some (.file c))
    (hnofile : ∀ c', files.node (a :: p) ≠ some (.file c')) :
    Clear (files.node p) (below files (b :: q)) (below files (a :: p)) ↔
      files.node (a :: p) ≠ some .dir ∧ files.node p = some .dir := by
  constructor
  · intro h
    have hdir : files.node (a :: p) ≠ some .dir := h.noDirForFile [] c hfile
    exact ⟨hdir, h.makeable (eq_none_of_ne hdir hnofile)⟩
  · rintro ⟨hdir, hp⟩
    have hnone : ∀ r, r ≠ [] → below files (b :: q) r = none := fun r hr =>
      FileTree.below_eq_none (by rw [hfile]; simp) hr
    refine ⟨fun _ => hp, fun r c' hr => ?_, fun r c' e _ => hnone _ (List.cons_ne_nil e r)⟩
    rcases eq_or_ne r [] with rfl | hne
    · exact hdir
    · rw [hnone r hne] at hr
      cases hr

/-- What a file that is moved leaves behind, and what is then at its
destination. -/
theorem below_moved {files' : Files} {b a : Name} {q p : Path} {c : List UInt8}
    (hapart : Apart (b :: q) (a :: p)) (hfile : files.node (b :: q) = some (.file c))
    (hnode : ∀ x, files'.node x =
      if x = b :: q then none else if x = a :: p then some (.file c) else files.node x) (r : Path) :
    below files' (b :: q) r = none ∧
      below files' (a :: p) r = if r = [] then some (.file c) else below files (a :: p) r := by
  constructor
  · rw [below, hnode]
    split
    · rfl
    · rename_i hne
      rw [if_neg (hapart.ne_right r)]
      exact FileTree.below_eq_none (by rw [hfile]; simp) fun h => hne (by rw [h]; rfl)
  · rw [below, hnode, if_neg (hapart.symm.ne_right r)]
    simp only [List.append_left_eq_self]
    rfl

/-- **`move_file`** on a regular file of `S`, with no file at the destination. -/
theorem moveFile_outcome {e : Name} {c : List UInt8} (hsrc : target cwd src = some S)
    (hdest : target cwd dest = some D) (hfile : s.files.node (e :: S) = some (.file c))
    (hapart : Apart S D) (hnofile : ∀ c', s.files.node (e :: D) ≠ some (.file c')) :
    Outcome fails (Walks cwd s.files src)
      (Walks cwd s.files dest ∧ EntryClear cwd src dest S D s.files e) (e :: S) (e :: D) s
      (moveFile cwd fails (src ++ slash :: e.val) (dest ++ slash :: e.val) s) := by
  have hapart' := hapart.entry e e
  have hclear := clear_file_iff hfile hnofile
  have hdir : s.files.node S = some .dir := s.files.parent S e (by rw [hfile]; simp)
  have hwalks := (Leads.walks_entry e s.files (.inl hsrc)).trans (and_iff_left hdir)
  have hwalks' := Leads.walks_entry e s.files (.inl hdest)
  have hrename := rename_eq (entryString (.inl hsrc) e) (entryString (.inl hdest) e) hfile hapart'
  unfold moveFile
  rcases run_cases fails s
      (rename cwd s.files (src ++ slash :: e.val) (dest ++ slash :: e.val)) with
    ⟨files', hr, hfiles, hfailed⟩ | ⟨hr, hfiles, hfailed⟩
  · obtain ⟨⟨hw, hw', hnodir, hD⟩, files'', hr', hrenamed⟩ := hrename.resolve_right fun hnone => by
      rw [hnone.2] at hr
      cases hr
    obtain rfl : files'' = files' := Option.some.inj (hr'.symm.trans hr)
    have hmoved := below_moved hapart' hfile hrenamed.node
    have hnew : below s.files (e :: D) [] = none := eq_none_of_ne hnodir hnofile
    have hold : below s.files (e :: S) [] = some (.file c) := hfile
    have hnone : ∀ r, r ≠ [] → below s.files (e :: S) r = none := fun r hr =>
      FileTree.below_eq_none (by rw [hfile]; simp) hr
    refine ⟨⟨fun x h1 h2 => ?_, fun x _ _ h3 h4 => ?_, fun r => ?_⟩, fun hf => ⟨hfailed ▸ hf,
      ⟨(hwalks'.mp hw').1, ?_, hclear.mpr ⟨hnodir, hD⟩⟩, fun r => ?_⟩,
      fun _ _ _ hf => hfailed.trans hf⟩
    · have hb : x ≠ e :: S := fun h => h1 (by rw [h])
      have ha : x ≠ e :: D := fun h => h2 (by rw [h])
      rw [hfiles, hrenamed.node, if_neg hb, if_neg ha]
    · rw [hfiles, hrenamed.names x h3 h4]
    · rw [hfiles, (hmoved r).1, (hmoved r).2]
      rcases eq_or_ne r [] with rfl | hne
      · rw [hold, hnew, if_pos rfl]
        exact .inr ⟨rfl, rfl, rfl⟩
      · rw [hnone r hne, if_neg hne]
        exact ⟨rfl, rfl⟩
    · exact aside_of_not_dir (by rw [hfile]; simp) (hwalks.mp hw) (hwalks'.mp hw').1
    · rw [hfiles, (hmoved r).1, (hmoved r).2]
      rcases eq_or_ne r [] with rfl | hne
      · rw [hold, if_pos rfl]
        exact ⟨rfl, rfl⟩
      · rw [hnone r hne, if_neg hne]
        exact ⟨rfl, rfl⟩
  · refine ⟨⟨fun x _ _ => by rw [hfiles], fun x _ _ _ _ => by rw [hfiles],
      fun r => by rw [hfiles]; exact Fate.refl _ _⟩, fun hf => ?_, fun hall hw hc _ => ?_⟩
    · rw [hfailed] at hf
      cases hf
    · rcases hrename with ⟨-, files'', hr', -⟩ | ⟨hnot, -⟩
      · rw [hr hall] at hr'
        cases hr'
      · have hD := hclear.mp hc.2.clear
        exact absurd ⟨hwalks.mpr hw, hwalks'.mpr ⟨hc.1, hD.2⟩, hD⟩ hnot

/-! ## The entries of a directory -/

/-- What `dest` leads through below an entry of `S` is below the last one. -/
def LastOf (cwd : Path) (dest : List UInt8) (S : Path) (es : List Name) : Prop :=
  ∀ e ∈ es, ∀ q ∈ through cwd dest, (e :: S) <:+ q → es.getLast? = some e

/-- **The entries `es` one after the other**: each has the outcome of a call of
its own, as if the others were not there. -/
structure Each (cwd : Path) (fails : Nat → Bool) (src dest : List UInt8) (S D : Path)
    (es : List Name) (s s' : System) : Prop where
  frame : ∀ q, (∀ e ∈ es, ¬ (e :: S) <:+ q ∧ ¬ (e :: D) <:+ q) →
    s'.files.node q = s.files.node q
  order : ∀ q, (∀ e ∈ es, ¬ (e :: S) <:+ q ∧ ¬ (e :: D) <:+ q) → q ≠ S → q ≠ D →
    s'.files.names q = s.files.names q
  fate : ∀ e ∈ es, ∀ r, Fate (below s.files (e :: S) r) (below s.files (e :: D) r)
    (below s'.files (e :: S) r) (below s'.files (e :: D) r)
  success : s'.failed = false → s.failed = false ∧ (es ≠ [] → Walks cwd s.files dest) ∧
    LastOf cwd dest S es ∧ ∀ e ∈ es, EntryClear cwd src dest S D s.files e ∧
      ∀ r, Arrived (below s.files (e :: S) r) (below s.files (e :: D) r)
        (below s'.files (e :: S) r) (below s'.files (e :: D) r)
  smooth : (∀ k, fails k = false) → Walks cwd s.files src →
    (∀ q ∈ through cwd src, ∀ e, ¬ (e :: S) <:+ q) → (es ≠ [] → Walks cwd s.files dest) →
      LastOf cwd dest S es → (∀ e ∈ es, EntryClear cwd src dest S D s.files e) →
        s.failed = false → s'.failed = false

theorem Each.nil (s : System) : Each cwd fails src dest S D [] s s where
  frame := fun _ _ => rfl
  order := fun _ _ _ _ => rfl
  fate := fun e he => by cases he
  success := fun hf => ⟨hf, absurd rfl, (by simp [LastOf]), (by simp)⟩
  smooth := fun _ _ _ _ _ _ hf => hf

theorem not_cons_suffix (e : Name) (p : Path) : ¬ (e :: p) <:+ p := fun hp => by
  have hlength := hp.length_le
  rw [List.length_cons] at hlength
  omega

/-- Moving one entry leaves the others and the directory they go to alone. -/
theorem Moved.other {e e' : Name} (h : Moved (e :: S) (e :: D) files files')
    (hapart : Apart S D) (hne : e ≠ e') :
    SameBelow (e' :: S) files files' ∧ below files' (e' :: D) = below files (e' :: D) ∧
      files'.node D = files.node D := by
  have hD : ∀ r, ¬ (e :: D) <:+ r ++ e' :: S := fun r => hapart.entries e' e r
  refine ⟨⟨fun r => h.frame _ (not_suffix_of_ne hne r) (hD r), fun r =>
      h.order _ (not_suffix_of_ne hne r) (hD r) ?_ ?_⟩,
    funext fun r => h.frame _ (hapart.symm.entries e' e r) (not_suffix_of_ne hne r),
    h.frame _ ?_ (not_cons_suffix e D)⟩
  · intro heq
    exact not_cons_suffix e' S ⟨r, heq⟩
  · intro heq
    exact hapart.ne (r ++ [e']) [] (by simpa using heq)
  · exact fun ⟨r, hr⟩ => hapart.ne (r ++ [e]) [] (by simpa using hr)

/-- Moving the entries leaves any other as it is. -/
theorem Each.other {e : Name} {es : List Name} (h : Each cwd fails src dest S D es s s')
    (hapart : Apart S D) (he : e ∉ es) : below s'.files (e :: S) = below s.files (e :: S) ∧
      below s'.files (e :: D) = below s.files (e :: D) := by
  have hne : ∀ e' ∈ es, e' ≠ e := by
    rintro e' he' rfl
    exact he he'
  constructor
  · exact funext fun r => h.frame _ fun e' he' =>
      ⟨not_suffix_of_ne (hne e' he') r, hapart.entries e e' r⟩
  · exact funext fun r => h.frame _ fun e' he' =>
      ⟨hapart.symm.entries e e' r, not_suffix_of_ne (hne e' he') r⟩

section Cons

variable {e : Name} {es : List Name} {s₁ : System} (hapart : Apart S D) (he : e ∉ es)
  (h : Outcome fails (Walks cwd s.files src)
    (Walks cwd s.files dest ∧ EntryClear cwd src dest S D s.files e) (e :: S) (e :: D) s s₁)
  (h' : Each cwd fails src dest S D es s₁ s')

include hapart he h in
theorem each_rest {e' : Name} (he' : e' ∈ es) : SameBelow (e' :: S) s.files s₁.files ∧
    below s₁.files (e' :: D) = below s.files (e' :: D) ∧
    s₁.files.node D = s.files.node D :=
  h.moved.other hapart fun heq => he (by rw [heq]; exact he')

include hapart he h h'

theorem each_success (hf : s'.failed = false) : s.failed = false ∧ Walks cwd s.files dest ∧
    LastOf cwd dest S (e :: es) ∧ ∀ e' ∈ e :: es, EntryClear cwd src dest S D s.files e' ∧
      ∀ r, Arrived (below s.files (e' :: S) r) (below s.files (e' :: D) r)
        (below s'.files (e' :: S) r) (below s'.files (e' :: D) r) := by
  obtain ⟨hf₁, hwalks₁, hlast, hall⟩ := h'.success hf
  obtain ⟨hf₀, ⟨hwalks, hclear⟩, harrived⟩ := h.success hf₁
  refine ⟨hf₀, hwalks, fun e' he' q hq hsuffix => ?_, fun e' he' => ?_⟩
  · cases es with
    | nil => rw [List.mem_singleton.mp he', List.getLast?_singleton]
    | cons e'' es =>
        rw [List.getLast?_cons_cons]
        rcases List.mem_cons.mp he' with rfl | he'
        · -- the rest is moved when nothing is left of the first
          obtain ⟨r, rfl⟩ := hsuffix
          have hdir := hwalks₁ (List.cons_ne_nil _ _) _ hq
          rw [show s₁.files.node (r ++ e' :: S) = none from (harrived r).1] at hdir
          cases hdir
        · exact hlast e' he' q hq hsuffix
  · rcases List.mem_cons.mp he' with rfl | he'
    · rw [(h'.other hapart he).1, (h'.other hapart he).2]
      exact ⟨hclear, harrived⟩
    · obtain ⟨hS, hD, hdir⟩ := each_rest hapart he h he'
      obtain ⟨hclear', harrived'⟩ := hall e' he'
      rw [hS.below_eq, hD] at harrived'
      exact ⟨hclear'.congr ⟨fun r => (hS.node r).symm, fun r => (hS.names r).symm⟩ hD.symm
        hdir.symm, harrived'⟩

theorem each_smooth (hall : ∀ k, fails k = false) (hwalks : Walks cwd s.files src)
    (hout : ∀ q ∈ through cwd src, ∀ e, ¬ (e :: S) <:+ q)
    (hwalks' : e :: es ≠ [] → Walks cwd s.files dest) (hlast : LastOf cwd dest S (e :: es))
    (hclear : ∀ e' ∈ e :: es, EntryClear cwd src dest S D s.files e')
    (hf : s.failed = false) : s'.failed = false := by
  have hwalks₀ := hwalks' (List.cons_ne_nil e es)
  have hf₁ := h.smooth hall hwalks ⟨hwalks₀, hclear e List.mem_cons_self⟩ hf
  -- the last of the rest is the last of all
  have hget : ∀ e', (e :: es).getLast? = some e' → es ≠ [] → es.getLast? = some e' := by
    intro e' hget hne
    obtain ⟨e'', es', rfl⟩ := List.exists_cons_of_ne_nil hne
    rwa [List.getLast?_cons_cons] at hget
  refine h'.smooth hall (fun q hq => h.moved.dir_stays (hout q hq e) (hwalks q hq)) hout
    (fun hne q hq => h.moved.dir_stays (fun hsuffix => he ?_) (hwalks₀ q hq))
    (fun e' he' q hq hsuffix => ?_) (fun e' he' => ?_) hf₁
  · exact List.mem_of_getLast? (hget e (hlast e List.mem_cons_self q hq hsuffix) hne)
  · exact hget e' (hlast e' (List.mem_cons_of_mem _ he') q hq hsuffix) (List.ne_nil_of_mem he')
  · obtain ⟨hS, hD, hdir⟩ := each_rest hapart he h he'
    exact (hclear e' (List.mem_cons_of_mem _ he')).congr hS hD hdir

theorem Each.cons : Each cwd fails src dest S D (e :: es) s s' where
  frame := by
    intro q hq
    have hhead := hq e List.mem_cons_self
    rw [h'.frame q fun e' he' => hq e' (List.mem_cons_of_mem _ he'),
      h.moved.frame q hhead.1 hhead.2]
  order := by
    intro q hq hS hD
    have hhead := hq e List.mem_cons_self
    rw [h'.order q (fun e' he' => hq e' (List.mem_cons_of_mem _ he')) hS hD,
      h.moved.order q hhead.1 hhead.2 hS hD]
  fate := by
    intro e' he' r
    rcases List.mem_cons.mp he' with rfl | he'
    · rw [(h'.other hapart he).1, (h'.other hapart he).2]
      exact h.moved.fate r
    · have hfate := h'.fate e' he' r
      obtain ⟨hS, hD, -⟩ := each_rest hapart he h he'
      rwa [hS.below_eq, hD] at hfate
  success := fun hf => by
    obtain ⟨hf₀, hwalks, hrest⟩ := each_success hapart he h h' hf
    exact ⟨hf₀, fun _ => hwalks, hrest⟩
  smooth := each_smooth hapart he h h'

end Cons

/-- Moving the entries leaves the two directories themselves. -/
theorem Each.self {es : List Name} (h : Each cwd fails src dest S D es s s')
    (hapart : Apart S D) :
    s'.files.node S = s.files.node S ∧ s'.files.node D = s.files.node D := by
  refine ⟨h.frame S fun e _ => ⟨not_cons_suffix e S, ?_⟩,
    h.frame D fun e _ => ⟨?_, not_cons_suffix e D⟩⟩
  · exact fun ⟨r, hr⟩ => hapart.ne [] (r ++ [e]) (by simpa using hr.symm)
  · exact fun ⟨r, hr⟩ => hapart.ne (r ++ [e]) [] (by simpa using hr)

/-- A directory that is below none of the entries stays. -/
theorem Each.dir_stays {es : List Name} (h : Each cwd fails src dest S D es s s') {q : Path}
    (hq : ∀ e ∈ es, ¬ (e :: S) <:+ q) (hdir : s.files.node q = some .dir) :
    s'.files.node q = some .dir := by
  by_cases hD : ∃ e ∈ es, (e :: D) <:+ q
  · obtain ⟨e, he, r, rfl⟩ := hD
    have hfate := h.fate e he r
    rw [show below s.files (e :: D) r = some .dir from hdir] at hfate
    exact hfate.dir_stays
  · rw [h.frame q fun e he => ⟨hq e he, fun hsuffix => hD ⟨e, he, hsuffix⟩⟩, hdir]

/-- **The loop over the entries**, given the outcome of one turn in any state
that has the entry as it was at the start. -/
theorem each_fold (turn : System → Name → Option System) (s₀ : System) (hapart : Apart S D)
    {es : List Name} (hnodup : es.Nodup)
    (hturn : ∀ e ∈ es, ∀ s : System, below s.files (e :: S) = below s₀.files (e :: S) →
      below s.files (e :: D) = below s₀.files (e :: D) →
        ∃ s', turn s e = some s' ∧ Outcome fails (Walks cwd s.files src)
          (Walks cwd s.files dest ∧ EntryClear cwd src dest S D s.files e) (e :: S) (e :: D) s s')
    (hs : ∀ e ∈ es, below s.files (e :: S) = below s₀.files (e :: S) ∧
      below s.files (e :: D) = below s₀.files (e :: D)) :
    ∃ s', es.foldlM turn s = some s' ∧ Each cwd fails src dest S D es s s' := by
  induction es generalizing s with
  | nil => exact ⟨s, rfl, Each.nil s⟩
  | cons e es ih =>
      obtain ⟨he, hnodup⟩ := List.nodup_cons.mp hnodup
      have hhead := hs e List.mem_cons_self
      obtain ⟨s₁, h1, hout⟩ := hturn e List.mem_cons_self s hhead.1 hhead.2
      obtain ⟨s₂, h2, heach⟩ := ih hnodup
        (fun e' he' => hturn e' (List.mem_cons_of_mem _ he')) fun e' he' => by
          obtain ⟨hS, hD, -⟩ := each_rest hapart he hout he'
          rw [hS.below_eq, hD]
          exact hs e' (List.mem_cons_of_mem _ he')
      exact ⟨s₂, by rw [List.foldlM_cons, h1]; exact h2, Each.cons hapart he hout heach⟩

/-! ## The calls around the loop -/

theorem stat_eq_none_iff (files : Files) {path : List UInt8} {p : Path}
    (h : target cwd path = some p) :
    stat cwd files path = none ↔ ¬ Walks cwd files path ∨
      files.node p = none ∨ asksDir path = true ∧ ∃ c, files.node p = some (.file c) := by
  unfold stat
  rw [resolve_eq h]
  by_cases hwalks : Walks cwd files path
  · rw [if_pos hwalks, Option.bind_some]
    rcases files.node p with _ | _ | c <;> simp [hwalks]
  · simp [hwalks]

theorem opendir_eq {path : List UInt8} {p : Path} (h : target cwd path = some p)
    (hwalks : Walks cwd files path) (hdir : files.node p = some .dir) :
    opendir cwd files path
      = some ({ name := dot, isDir := true } :: { name := dotDot, isDir := true } ::
        (files.names p).map fun e =>
          { name := e.val, isDir := decide (files.node (e :: p) = some .dir) }) := by
  unfold opendir
  rw [resolve_eq h, if_pos hwalks]
  simp only [hdir, if_true]

theorem opendir_eq_none {path : List UInt8} {p : Path} (h : target cwd path = some p)
    (hnot : ¬ (Walks cwd files path ∧ files.node p = some .dir)) :
    opendir cwd files path = none := by
  unfold opendir
  rw [resolve_eq h]
  by_cases hwalks : Walks cwd files path
  · have hdir : ¬ files.node p = some .dir := fun hdir => hnot ⟨hwalks, hdir⟩
    simp [hwalks, hdir]
  · simp [hwalks]

theorem opendir_some {path : List UInt8} {p : Path} {entries : List Dirent}
    (h : target cwd path = some p) (hopen : opendir cwd files path = some entries) :
    Walks cwd files path ∧ files.node p = some .dir := by
  by_contra hnot
  rw [opendir_eq_none h hnot] at hopen
  cases hopen

/-- What it takes that there is something at `dest`. -/
structure Makeable (files : Files) (dest : List UInt8) (D : Path) : Prop where
  above : files.node D = none → endsInDots dest = false ∧ files.node D.tail = some .dir
  found : ∀ c, files.node D = some (.file c) → asksDir dest = false

/-- **The destination directory** is there after the call, or a call has failed. -/
structure MadeDest (cwd : Path) (fails : Nat → Bool) (dest : List UInt8) (D : Path)
    (s s' : System) : Prop where
  frame : ∀ q, q ≠ D → s'.files.node q = s.files.node q
  order : ∀ q, q ≠ D.tail → s'.files.names q = s.files.names q
  made : s'.files.node D = s.files.node D ∨ s.files.node D = none ∧ s'.files.node D = some .dir
  success : s'.failed = false → s.failed = false ∧
    (Walks cwd s.files dest ∧ Makeable s.files dest D) ∧
      s'.files.node D = some ((s.files.node D).getD .dir)
  smooth : (∀ k, fails k = false) → Walks cwd s.files dest → Makeable s.files dest D →
    s.failed = false → s'.failed = false

theorem mkdir_eq (files : Files) {a : Name} {p : Path} (hdest : target cwd dest = some (a :: p)) :
    mkdir cwd files dest = if h : Walks cwd files dest ∧ endsInDots dest = false ∧
        files.node p = some .dir ∧ files.node (a :: p) = none then
      some (files.put p a .dir h.2.2.1 h.2.2.2)
    else none := by
  unfold mkdir
  rw [resolve_eq hdest]
  by_cases hwalks : Walks cwd files dest <;> simp [hwalks]

theorem makeDest_spec (fails : Nat → Bool) (hdest : target cwd dest = some D) (hD : D ≠ []) :
    MadeDest cwd fails dest D s (makeDest cwd fails dest s) := by
  obtain ⟨a, p, rfl⟩ := List.exists_cons_of_ne_nil hD
  have hnone := stat_eq_none_iff s.files hdest
  unfold makeDest
  by_cases hstat : stat cwd s.files dest = none
  · rw [if_pos hstat]
    have hiff : Walks cwd s.files dest ∧ Makeable s.files dest (a :: p) ↔
        Walks cwd s.files dest ∧ endsInDots dest = false ∧ s.files.node p = some .dir ∧
          s.files.node (a :: p) = none := by
      constructor
      · rintro ⟨hwalks, h⟩
        rcases hnone.mp hstat with hnot | hnode | ⟨hasks, c, hc⟩
        · exact absurd hwalks hnot
        · exact ⟨hwalks, (h.above hnode).1, (h.above hnode).2, hnode⟩
        · rw [h.found c hc] at hasks
          cases hasks
      · rintro ⟨hwalks, hdots, hp, hnode⟩
        refine ⟨hwalks, fun _ => ⟨hdots, hp⟩, fun c hc => ?_⟩
        rw [hnode] at hc
        cases hc
    have hmkdir := mkdir_eq s.files hdest
    rcases run_cases fails s (mkdir cwd s.files dest) with
      ⟨files', hr, hfiles, hfailed⟩ | ⟨hr, hfiles, hfailed⟩
    · rw [hmkdir] at hr
      obtain ⟨h, hput⟩ := Option.dite_none_right_eq_some.mp hr
      have hfiles' := hfiles.trans (Option.some.inj hput).symm
      refine ⟨fun q hq => ?_, fun q hq => ?_, .inr ⟨h.2.2.2, ?_⟩,
        fun hf => ⟨hfailed ▸ hf, hiff.mpr h, ?_⟩, fun _ _ _ hf => hfailed.trans hf⟩
      · rw [hfiles', FileTree.put_of_ne _ _ hq]
      · rw [List.tail_cons] at hq
        rw [hfiles', FileTree.put_names_of_ne _ _ hq]
      · rw [hfiles', FileTree.put_self]
      · rw [hfiles', FileTree.put_self, h.2.2.2]
        rfl
    · refine ⟨fun q _ => by rw [hfiles], fun q _ => by rw [hfiles], .inl (by rw [hfiles]),
        fun hf => ?_, fun hall hwalks hmakeable _ => ?_⟩
      · rw [hfailed] at hf
        cases hf
      · have hnone := hr hall
        rw [hmkdir, dif_pos (hiff.mp ⟨hwalks, hmakeable⟩)] at hnone
        cases hnone
  · rw [if_neg hstat]
    obtain ⟨hwalks, hthere⟩ := not_or.mp (mt hnone.mpr hstat)
    obtain ⟨hthere, hfile⟩ := not_or.mp hthere
    obtain ⟨x, hx⟩ := Option.ne_none_iff_exists'.mp hthere
    refine ⟨fun _ _ => rfl, fun _ _ => rfl, .inl rfl, fun hf =>
      ⟨hf, ⟨not_not.mp hwalks, fun hnode => absurd hnode hthere, fun c hc => ?_⟩, ?_⟩,
      fun _ _ _ hf => hf⟩
    · by_contra hasks
      exact hfile ⟨Bool.not_eq_false _ ▸ hasks, c, hc⟩
    · rw [hx]
      rfl

/-- Making the destination changes nothing below `src`, nor below an entry of
the destination. -/
theorem MadeDest.same {s₁ : System} (h : MadeDest cwd fails dest D s s₁) (hapart : Apart S D) :
    SameBelow S s.files s₁.files ∧ ∀ e, below s₁.files (e :: D) = below s.files (e :: D) := by
  refine ⟨⟨fun r => h.frame _ (hapart.ne_right r), fun r => h.order _ fun heq => ?_⟩,
    fun e => funext fun r => h.frame _ fun heq => not_cons_suffix e D ⟨r, heq⟩⟩
  obtain ⟨a, p, rfl⟩ := List.exists_cons_of_ne_nil hapart.ne_nil
  exact hapart.left ⟨a :: r, by rw [List.cons_append, heq, List.tail_cons]⟩

theorem MadeDest.congr {s₁ s₂ : System} (h : MadeDest cwd fails dest D s s₁)
    (hfiles : s₂.files = s₁.files) (hfailed : s₂.failed = s₁.failed) :
    MadeDest cwd fails dest D s s₂ where
  frame := by rw [hfiles]; exact h.frame
  order := by rw [hfiles]; exact h.order
  made := by rw [hfiles]; exact h.made
  success := by rw [hfiles, hfailed]; exact h.success
  smooth := by rw [hfailed]; exact h.smooth

/-- A directory stays when the destination is made. -/
theorem MadeDest.dir_stays {s₁ : System} (h : MadeDest cwd fails dest D s s₁) {q : Path}
    (hdir : s.files.node q = some .dir) : s₁.files.node q = some .dir := by
  by_cases hq : q = D
  · subst hq
    rcases h.made with heq | ⟨-, heq⟩
    · rw [heq, hdir]
    · exact heq
  · rw [h.frame q hq, hdir]

/-- **The directory at `src`** is gone after the call, or a call has failed. -/
structure RemovedSrc (cwd : Path) (fails : Nat → Bool) (src : List UInt8) (S : Path)
    (s s' : System) : Prop where
  frame : ∀ q, q ≠ S → s'.files.node q = s.files.node q
  order : ∀ q, q ≠ S.tail → s'.files.names q = s.files.names q
  removed : s'.files.node S = some .dir ∨ s'.files.node S = none
  success : s'.failed = false → s.failed = false ∧ Walks cwd s.files src ∧
    endsInDots src = false ∧ s'.files.node S = none
  smooth : (∀ k, fails k = false) → Walks cwd s.files src → endsInDots src = false →
    s.files.names S = [] → s.failed = false → s'.failed = false

theorem rmdir_eq (files : Files) {b : Name} {q : Path} (hsrc : target cwd src = some (b :: q)) :
    rmdir cwd files src = if h : Walks cwd files src ∧ endsInDots src = false ∧
        files.node (b :: q) = some .dir ∧ files.names (b :: q) = [] then
      some (files.remove q b h.2.2.2)
    else none := by
  unfold rmdir
  rw [resolve_eq hsrc]
  by_cases hwalks : Walks cwd files src <;> simp [hwalks]

theorem rmdir_spec (hsrc : target cwd src = some S) (hS : S ≠ [])
    (hdir : s.files.node S = some .dir) :
    RemovedSrc cwd fails src S s (s.run fails (rmdir cwd s.files src)) := by
  obtain ⟨b, q, rfl⟩ := List.exists_cons_of_ne_nil hS
  have hrmdir := rmdir_eq s.files hsrc
  rcases run_cases fails s (rmdir cwd s.files src) with
    ⟨files', hr, hfiles, hfailed⟩ | ⟨hr, hfiles, hfailed⟩
  · rw [hrmdir] at hr
    obtain ⟨h, hremove⟩ := Option.dite_none_right_eq_some.mp hr
    have hfiles' := hfiles.trans (Option.some.inj hremove).symm
    have hgone : (s.run fails (rmdir cwd s.files src)).files.node (b :: q) = none := by
      rw [hfiles', FileTree.remove_self]
    refine ⟨fun x hx => ?_, fun x hx => ?_, .inr hgone,
      fun hf => ⟨hfailed ▸ hf, h.1, h.2.1, hgone⟩, fun _ _ _ _ hf => hfailed.trans hf⟩
    · rw [hfiles', FileTree.remove_of_ne _ hx]
    · rw [List.tail_cons] at hx
      rw [hfiles', FileTree.remove_names_of_ne _ hx]
  · refine ⟨fun x _ => by rw [hfiles], fun x _ => by rw [hfiles], .inl (by rw [hfiles, hdir]),
      fun hf => ?_, fun hall hwalks hdots hnames _ => ?_⟩
    · rw [hfailed] at hf
      cases hf
    · have hnone := hr hall
      rw [hrmdir, dif_pos ⟨hwalks, hdots, hdir, hnames⟩] at hnone
      cases hnone

theorem RemovedSrc.below_dest {s₁ : System} (h : RemovedSrc cwd fails src S s s₁)
    (hapart : Apart S D) : below s₁.files D = below s.files D :=
  funext fun r => h.frame _ (hapart.symm.ne_right r)

/-- Removing `src` changes nothing below the entries. -/
theorem RemovedSrc.entry {s₁ : System} (h : RemovedSrc cwd fails src S s s₁)
    (hapart : Apart S D) (e : Name) : below s₁.files (e :: S) = below s.files (e :: S) ∧
      below s₁.files (e :: D) = below s.files (e :: D) := by
  constructor
  · exact funext fun r => h.frame _ fun heq => not_cons_suffix e S ⟨r, heq⟩
  · exact funext fun r => by rw [below_entry, below_entry, h.below_dest hapart]

end OsInParts.FileIO
