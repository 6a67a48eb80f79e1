import OsInParts.FileIO.MoveOutcome

/-!
# MoveCount — how deep `move_directory` goes and how many directories it makes

`moveCounted` is `move_directory` with the directories it has made counted, and
with the way in which a path string is built left open: with `entryPath` it is
the code, with `longPath` the path buffers are as long as they have to be.

A call only removes directories below `src` and only makes some below `dest`.
So as long as none is made in a directory of `src` that is yet to be read
(`Undisturbed`), the recursion walks the tree that was there at the start: it goes
no deeper, and makes at most one directory for each that it finds
(`moveCounted_level`).
-/

namespace OsInParts.FileIO

open Lib.Directories

open scoped List

/-! ## The code with a counter -/

/-- The number of directories made so far is not in the code. -/
structure Counted extends System where
  created : Nat

/-- The path of an entry in a buffer that holds it. -/
def longPath (dir name : List UInt8) : List UInt8 := dir ++ slash :: name

section Counting

variable (cwd : Path) (fails : Nat → Bool)

def makeDestCounted (dest : List UInt8) (s : Counted) : Counted :=
  if stat cwd s.files dest = none then
    match s.toSystem.call fails ((mkdir cwd s.files dest).map fun files => (files, ())) with
    | (s', some _) => { toSystem := s', created := s.created + 1 }
    | (s', none) => { toSystem := s', created := s.created }
  else s

variable (path : List UInt8 → List UInt8 → List UInt8)

def entryCounted (recurse : List UInt8 → List UInt8 → Counted → Option Counted)
    (src dest : List UInt8) (s : Counted) (entry : Dirent) : Option Counted :=
  if entry.name = dot ∨ entry.name = dotDot then some s
  else
    let srcPath := path src entry.name
    let destPath := path dest entry.name
    if entry.isDir = true then recurse srcPath destPath s
    else some { s with toSystem := moveFile cwd fails srcPath destPath s.toSystem }

def moveCounted : Nat → List UInt8 → List UInt8 → Counted → Option Counted
  | 0, _, _, _ => none
  | depth + 1, src, dest, s =>
      let s := makeDestCounted cwd fails dest s
      match s.toSystem.call fails
        ((opendir cwd s.files src).map fun entries => (s.files, entries)) with
      | (s', none) => some { s with toSystem := s' }
      | (s', some entries) =>
          (entries.foldlM (entryCounted cwd fails path (moveCounted depth) src dest)
            { s with toSystem := s' }).map fun s =>
              { s with toSystem := s.toSystem.run fails (rmdir cwd s.files src) }

end Counting

variable {cwd : Path} {fails : Nat → Bool} {S D : Path} {files files' : Files}
  {src dest : List UInt8}

theorem makeDestCounted_toSystem (dest : List UInt8) (s : Counted) :
    (makeDestCounted cwd fails dest s).toSystem = makeDest cwd fails dest s.toSystem := by
  unfold makeDestCounted makeDest System.run
  split
  · split <;> rename_i hcall <;> rw [hcall]
  · rfl

theorem entryCounted_toSystem {recurse : List UInt8 → List UInt8 → Counted → Option Counted}
    {recurse' : List UInt8 → List UInt8 → System → Option System}
    (h : ∀ src dest s, (recurse src dest s).map Counted.toSystem = recurse' src dest s.toSystem)
    (src dest : List UInt8) (s : Counted) (entry : Dirent) :
    (entryCounted cwd fails entryPath recurse src dest s entry).map Counted.toSystem
      = moveEntry cwd fails recurse' src dest s.toSystem entry := by
  unfold entryCounted moveEntry
  split
  · rfl
  · dsimp only
    split
    · exact h _ _ s
    · rfl

/-- **The counter changes nothing.** -/
theorem moveCounted_toSystem (depth : Nat) (src dest : List UInt8) (s : Counted) :
    (moveCounted cwd fails entryPath depth src dest s).map Counted.toSystem
      = moveDirectory cwd fails depth src dest s.toSystem := by
  induction depth generalizing src dest s with
  | zero => rfl
  | succ depth ih =>
      have hfold : ∀ (entries : List Dirent) (s : Counted),
          (entries.foldlM (entryCounted cwd fails entryPath
              (moveCounted cwd fails entryPath depth) src dest) s).map Counted.toSystem
            = entries.foldlM (moveEntry cwd fails (moveDirectory cwd fails depth) src dest)
                s.toSystem := by
        intro entries
        induction entries with
        | nil => exact fun s => rfl
        | cons entry entries ihe =>
            intro s
            rw [List.foldlM_cons, List.foldlM_cons, ← entryCounted_toSystem ih src dest s entry]
            cases entryCounted cwd fails entryPath (moveCounted cwd fails entryPath depth) src dest
              s entry with
            | none => rfl
            | some s' => exact ihe s'
      unfold moveCounted moveDirectory
      rw [← makeDestCounted_toSystem]
      generalize makeDestCounted cwd fails dest s = s₁
      dsimp only
      rcases s₁.toSystem.call fails
        ((opendir cwd s₁.files src).map fun entries => (s₁.files, entries)) with ⟨s', _ | entries⟩
      · rfl
      · dsimp only
        rw [← hfold entries { s₁ with toSystem := s' }, Option.map_map, Option.map_map]
        rfl

/-! ## What a call does to the directories -/

/-- `rename` of a file. -/
theorem rename_cases {old new : List UInt8} (h : rename cwd files old new = some files') :
    files' = files ∨ ∃ b q a p c, target cwd old = some (b :: q) ∧
      target cwd new = some (a :: p) ∧ files.node (b :: q) = some (.file c) ∧
      files.node (a :: p) ≠ some .dir ∧ Renamed b q a p c files files' := by
  unfold rename at h
  split at h
  · rename_i b q a p hold hnew
    split at h
    · cases h
    · split at h
      · rename_i c hfile
        split at h
        · cases h
          exact .inl rfl
        · rename_i hne
          obtain ⟨hok, heq⟩ := Option.dite_none_right_eq_some.mp h
          cases heq
          exact .inr ⟨b, q, a, p, c, (resolve_eq_some_iff.mp hold).1,
            (resolve_eq_some_iff.mp hnew).1, hfile, hok.1,
            replaceFile_node hfile hne hok.1 hok.2,
            fun x => replaceFile_names hfile hne hok.1 hok.2,
            fun x y z => replaceFile_order hfile hne hok.1 hok.2⟩
      · cases h
  · cases h

/-- Moving a file leaves all directories. -/
theorem moveFile_within {e : Name} {made : Path → Prop} (hsrc : target cwd src = some (e :: S))
    (s : System) : Within (e :: S) made s.files (moveFile cwd fails src dest s).files := by
  unfold moveFile
  rcases run_cases fails s (rename cwd s.files src dest) with
    ⟨files', hr, hfiles, -⟩ | ⟨-, hfiles, -⟩
  · rw [hfiles]
    rcases rename_cases hr with rfl | ⟨b, q, a, p, c, hold, -, hfile, hnodir, hrenamed⟩
    · exact Within.refl _ _ _
    · obtain ⟨rfl, rfl⟩ := List.cons.inj (Option.some.inj (hold.symm.trans hsrc))
      refine ⟨fun x hdir hno => ?_, fun x hne hnone => ?_, fun x hdir hno => absurd ?_ hno,
        fun x y z _ _ _ hz => hrenamed.order x y z fun heq => hnodir (heq ▸ hz)⟩
      · exfalso
        rw [hrenamed.node] at hno
        split at hno
        · rename_i hx
          rw [hx, hfile] at hdir
          cases hdir
        · split at hno
          · rename_i hx
            exact hnodir (hx ▸ hdir)
          · exact hno hdir
      · rw [hrenamed.node] at hnone
        split at hnone
        · rename_i hx
          rw [hx]
        · split at hnone
          · cases hnone
          · exact absurd hnone hne
      · rw [hrenamed.node] at hdir
        split at hdir
        · cases hdir
        · split at hdir
          · cases hdir
          · exact hdir
  · rw [hfiles]
    exact Within.refl _ _ _

/-- `rmdir` takes away what is at `src`, or nothing. -/
theorem rmdir_node (fails : Nat → Bool) (hsrc : target cwd src = some S) (s : System) :
    (s.run fails (rmdir cwd s.files src)).files = s.files ∨
      (∀ q, (s.run fails (rmdir cwd s.files src)).files.node q
        = if q = S then none else s.files.node q) ∧
      ∀ q, (s.run fails (rmdir cwd s.files src)).files.names q <+ s.files.names q := by
  rcases run_cases fails s (rmdir cwd s.files src) with
    ⟨files', hr, hfiles, -⟩ | ⟨-, hfiles, -⟩
  · rw [hfiles]
    unfold rmdir at hr
    split at hr
    · rename_i b q hresolve
      obtain rfl : S = b :: q :=
        Option.some.inj (hsrc.symm.trans (resolve_eq_some_iff.mp hresolve).1)
      obtain ⟨hok, heq⟩ := Option.dite_none_right_eq_some.mp hr
      cases heq
      refine .inr ⟨fun x => ?_, fun x => FileTree.remove_names_sublist _ x⟩
      split
      · rename_i hx
        rw [hx, FileTree.remove_self]
      · rename_i hx
        rw [FileTree.remove_of_ne _ hx]
    · cases hr
  · exact .inl hfiles

theorem rmdir_within {made : Path → Prop} (hsrc : target cwd src = some S) (s : System) :
    Within S made s.files (s.run fails (rmdir cwd s.files src)).files := by
  rcases rmdir_node fails hsrc s with hfiles | ⟨hnode, hnames⟩
  · rw [hfiles]
    exact Within.refl _ _ _
  · refine ⟨fun q hdir hno => ?_, fun q hne hnone => ?_, fun q hdir hno => absurd ?_ hno,
      fun q a b _ _ _ _ hlisted => hlisted.trans (hnames q)⟩
    · rw [hnode] at hno
      split at hno
      · rename_i hq
        rw [hq]
      · exact absurd hdir hno
    · rw [hnode] at hnone
      split at hnone
      · rename_i hq
        rw [hq]
      · exact absurd hnone hne
    · rw [hnode] at hdir
      split at hdir
      · cases hdir
      · exact hdir

/-! ## Making the destination -/

/-- **What making the destination does**: nothing, or there is one more directory. -/
theorem makeDestCounted_cases (fails : Nat → Bool) (hdest : Leads cwd dest D) (s : Counted) :
    ((makeDestCounted cwd fails dest s).files = s.files ∧
        (makeDestCounted cwd fails dest s).created = s.created) ∨
      Walks cwd s.files dest ∧ s.files.node D = none ∧ s.files.node D.tail = some .dir ∧
        (∀ q, (makeDestCounted cwd fails dest s).files.node q
          = if q = D then some .dir else s.files.node q) ∧
        (∀ q a b, b :: q ≠ D →
          [a, b] <+ (makeDestCounted cwd fails dest s).files.names q →
            [a, b] <+ s.files.names q) ∧
        (makeDestCounted cwd fails dest s).created = s.created + 1 := by
  unfold makeDestCounted
  split
  · rcases call_cases fails s.toSystem
      ((mkdir cwd s.files dest).map fun files => (files, ())) with
      ⟨files', u, hr, hcall⟩ | ⟨-, hcall⟩
    · obtain ⟨files'', hmk, heq⟩ := Option.map_eq_some_iff.mp hr
      cases heq
      rw [hcall]
      unfold mkdir at hmk
      split at hmk
      · rename_i a p hresolve
        obtain ⟨htarget, hwalks⟩ := resolve_eq_some_iff.mp hresolve
        obtain ⟨hok, heq⟩ := Option.dite_none_right_eq_some.mp hmk
        obtain rfl : D = a :: p := by
          rcases hdest with h | ⟨rfl, -⟩
          · exact Option.some.inj (h.symm.trans htarget)
          · cases htarget
        cases heq
        refine .inr ⟨hwalks, hok.2.2, hok.2.1, fun q => ?_, fun q b c hne hlisted => ?_, rfl⟩
        · dsimp only
          split
          · rename_i hq
            rw [hq, FileTree.put_self]
          · rename_i hq
            rw [FileTree.put_of_ne _ _ hq]
        · exact FileTree.sublist_of_put hok.2.1 hok.2.2 hne hlisted
      · cases hmk
    · rw [hcall]
      exact .inl ⟨rfl, rfl⟩
  · exact .inl ⟨rfl, rfl⟩

theorem makeDestCounted_within (fails : Nat → Bool) (hdest : Leads cwd dest D) (s : Counted) :
    Within S (fun q => q = D ∧ Walks cwd s.files dest ∧ s.files.node D = none ∧
      s.files.node D.tail = some .dir) s.files (makeDestCounted cwd fails dest s).files := by
  rcases makeDestCounted_cases fails hdest s with
    ⟨hfiles, -⟩ | ⟨hwalks, hnone, htail, hnode, horder, -⟩
  · rw [hfiles]
    exact Within.refl _ _ _
  · refine ⟨fun q hdir hno => absurd ?_ hno, fun q hne hgone => absurd ?_ hne,
      fun q hdir hno => ?_, fun q a b _ _ _ hb => horder q a b fun heq => ?_⟩
    · rw [hnode]
      split
      · rfl
      · exact hdir
    · rw [hnode] at hgone
      split at hgone
      · cases hgone
      · exact hgone
    · rw [hnode] at hdir
      split at hdir
      · exact ⟨‹_›, hwalks, hnone, htail⟩
      · exact absurd hdir hno
    · rw [heq, hnone] at hb
      cases hb

/-! ## One level of the recursion -/

/-- **The loop over the entries**, where what is made for one of them leaves those to
come as they are. -/
theorem entries_fold (turn : Counted → Name → Option Counted) (n : ℕ) {files₀ : Files}
    {made : Path → Prop} (places : Name → Files → Path → Prop) {es : List Name}
    (hmade : ∀ e ∈ es, ∀ t q, Within S made files₀ t → Intact (e :: S) files t →
      places e t q → made q)
    (hother : ∀ e e' t t', [e, e'] <+ es → Within S made files₀ t → Intact (e :: S) files t →
      Intact (e' :: S) files t → Within (e :: S) (places e t) t t' → Intact (e' :: S) t t')
    (hturn : ∀ e ∈ es, ∀ t : Counted, Within S made files₀ t.files →
      Intact (e :: S) files t.files →
        ∃ t', turn t e = some t' ∧ t'.created ≤ t.created + (files.dirs n (e :: S)).length ∧
          Within (e :: S) (places e t.files) t.files t'.files)
    {t : Counted} (ht : Within S made files₀ t.files)
    (hsame : ∀ e ∈ es, Intact (e :: S) files t.files) :
    ∃ t', es.foldlM turn t = some t' ∧
      t'.created ≤ t.created + (es.map fun e => (files.dirs n (e :: S)).length).sum ∧
      Within S made files₀ t'.files := by
  induction es generalizing t with
  | nil => exact ⟨t, rfl, Nat.le_refl _, ht⟩
  | cons e es ih =>
      have hfirst := hsame e List.mem_cons_self
      obtain ⟨t₁, hturn₁, hcreated₁, hwithin₁⟩ := hturn e List.mem_cons_self t ht hfirst
      have hsame₁ : ∀ e' ∈ es, Intact (e' :: S) files t₁.files := fun e' he' =>
        have hnext := hsame e' (List.mem_cons_of_mem _ he')
        hnext.trans (hother e e' _ _ ((List.singleton_sublist.mpr he').cons_cons e) ht hfirst hnext
          hwithin₁)
      obtain ⟨t', hfold, hcreated, hwithin⟩ := ih
        (fun e' he' => hmade e' (List.mem_cons_of_mem _ he'))
        (fun e₁ e₂ t t' hlisted => hother e₁ e₂ t t' (hlisted.cons e))
        (fun e' he' => hturn e' (List.mem_cons_of_mem _ he'))
        (ht.trans (hwithin₁.of_entry.mono fun q =>
          hmade e List.mem_cons_self t.files q ht hfirst)) hsame₁
      refine ⟨t', by rw [List.foldlM_cons, hturn₁]; exact hfold, ?_, hwithin⟩
      rw [List.map_cons, List.sum_cons]
      omega

theorem entryCounted_dots {path : List UInt8 → List UInt8 → List UInt8}
    {recurse : List UInt8 → List UInt8 → Counted → Option Counted} {s : Counted} {entry : Dirent}
    (h : entry.name = dot ∨ entry.name = dotDot) :
    entryCounted cwd fails path recurse src dest s entry = some s :=
  if_pos h

/-- One turn of the loop, given the outcome of the recursive call. -/
theorem entryCounted_within {recurse : List UInt8 → List UInt8 → Counted → Option Counted}
    {e : Name} {n : ℕ} {t : Counted} {places : Path → Prop} (hsrc : target cwd src = some S)
    (hsame : Intact (e :: S) files t.files)
    (hrecurse : files.node (e :: S) = some .dir →
      ∃ t', recurse (longPath src e.val) (longPath dest e.val) t = some t' ∧
        t'.created ≤ t.created + (t.files.dirs n (e :: S)).length ∧
        Within (e :: S) places t.files t'.files) :
    ∃ t', entryCounted cwd fails longPath recurse src dest t
        { name := e.val, isDir := decide (files.node (e :: S) = some .dir) } = some t' ∧
      t'.created ≤ t.created + (files.dirs n (e :: S)).length ∧
      Within (e :: S) places t.files t'.files := by
  have hdots : ¬ (e.val = dot ∨ e.val = dotDot) :=
    not_or.mpr ⟨e.property.2.2.2.1, e.property.2.2.2.2⟩
  unfold entryCounted
  rw [if_neg hdots, FileTree.length_dirs_congr fun r => (hsame.dirs r).symm]
  simp only [decide_eq_true_eq]
  split
  · exact hrecurse ‹_›
  · exact ⟨_, rfl, Nat.le_add_right _ _, moveFile_within (Leads.entry e (.inl hsrc)) t.toSystem⟩

/-- **One level**: a directory is made for `src`, and those that its entries
take. -/
theorem moveCounted_level {n : ℕ} {s s₁ : Counted} {made : Path → Prop}
    (places : Name → Files → Path → Prop) (hsrc : target cwd src = some S)
    (hmake : makeDestCounted cwd fails dest s = s₁) (hdir : s.files.node S = some .dir)
    (hcreated : s₁.created ≤ s.created + 1) (hsame : Intact S s.files s₁.files)
    (hwithin : Within S made s.files s₁.files)
    (hmade : ∀ e t q, Within S made s.files t → Intact (e :: S) s₁.files t →
      places e t q → made q)
    (hother : ∀ e e' t t', [e, e'] <+ s₁.files.names S → Within S made s.files t →
      Intact (e :: S) s₁.files t → Intact (e' :: S) s₁.files t →
        Within (e :: S) (places e t) t t' → Intact (e' :: S) t t')
    (hrec : ∀ e, s₁.files.node (e :: S) = some .dir → ∀ t : Counted,
      Within S made s.files t.files → Intact (e :: S) s₁.files t.files →
        ∃ t', moveCounted cwd fails longPath n (longPath src e.val) (longPath dest e.val) t
            = some t' ∧
          t'.created ≤ t.created + (t.files.dirs n (e :: S)).length ∧
          Within (e :: S) (places e t.files) t.files t'.files) :
    ∃ s', moveCounted cwd fails longPath (n + 1) src dest s = some s' ∧
      s'.created ≤ s.created + (s.files.dirs (n + 1) S).length ∧
      Within S made s.files s'.files := by
  have hdir₁ : s₁.files.node S = some .dir := (hsame.dirs []).mpr hdir
  rw [FileTree.length_dirs_congr fun r => (hsame.dirs r).symm, FileTree.length_dirs_succ hdir₁]
  unfold moveCounted
  rw [hmake]
  dsimp only
  rcases call_cases fails s₁.toSystem
    ((opendir cwd s₁.files src).map fun entries => (s₁.files, entries)) with
    ⟨files', entries, hr, hcall⟩ | ⟨-, hcall⟩
  · obtain ⟨entries', hopen, heq⟩ := Option.map_eq_some_iff.mp hr
    obtain ⟨rfl, rfl⟩ := Prod.mk.inj heq
    rw [opendir_eq hsrc (opendir_some hsrc hopen).1 hdir₁] at hopen
    cases hopen
    simp only [hcall]
    -- `.` and `..` are skipped, so the loop is over the names
    obtain ⟨t', hfold, hcreated', hwithin'⟩ := entries_fold (fun t e =>
        entryCounted cwd fails longPath (moveCounted cwd fails longPath n) src dest t
          { name := e.val, isDir := decide (s₁.files.node (e :: S) = some .dir) })
      n places (fun e _ => hmade e) hother
      (fun e _ t ht hsame => entryCounted_within hsrc hsame fun he => hrec e he t ht hsame)
      (t := { s₁ with toSystem := { s₁.toSystem with calls := s₁.calls + 1 } }) hwithin
      fun _ _ => Intact.refl _ _
    refine ⟨{ t' with toSystem := t'.toSystem.run fails (rmdir cwd t'.files src) }, ?_, ?_,
      hwithin'.trans (rmdir_within hsrc t'.toSystem)⟩
    · rw [List.foldlM_cons, entryCounted_dots (.inl rfl), Option.bind_eq_bind, Option.bind_some,
        List.foldlM_cons, entryCounted_dots (.inr rfl), Option.bind_eq_bind, Option.bind_some,
        List.foldlM_map, hfold, Option.map_some]
    · show t'.created ≤ _
      dsimp only at hcreated'
      omega
  · -- `opendir` has failed
    simp only [hcall]
    exact ⟨_, rfl, by dsimp only; omega, hwithin⟩

/-! ## Trees that are walked as they are -/

/-- **No directory is made in one that is still to be read**: where the place that a
directory of `S` has below `D` lies in a directory of `S` that is not read before it,
something is there. -/
def Undisturbed (files : Files) (S D : Path) : Prop :=
  ∀ r₁ r a, files.node (r₁ ++ S) = some .dir → files.node (r ++ S) = some .dir →
    NotAfter files S r₁ r → r₁ ++ D = a :: (r ++ S) → files.node (r₁ ++ D) ≠ none

theorem Undisturbed.congr (h : Undisturbed files S D) (hintact : Intact S files files') :
    Undisturbed files' S D := by
  intro r₁ r a h1 h2 hafter heq hnone
  have h1' := (hintact.dirs r₁).mp h1
  have h2' := (hintact.dirs r).mp h2
  refine h r₁ r a h1' h2' (hafter.congr hintact h1' h2') heq ?_
  rw [heq] at hnone ⊢
  exact hintact.kept (a :: r) hnone

theorem Undisturbed.entry (h : Undisturbed files S D) (e : Name) :
    Undisturbed files (e :: S) (e :: D) := by
  intro r₁ r a h1 h2 hafter heq
  simpa using h (r₁ ++ [e]) (r ++ [e]) a (by simpa using h1) (by simpa using h2) hafter.entry
    (by simpa using heq)

/-- What a call on `S` and `D` may make: for a directory of `S`, what is its place below
`D` and was not there. -/
def Reached (cwd : Path) (files : Files) (dest : List UInt8) (S D : Path) (q : Path) : Prop :=
  Walks cwd files dest ∧ ∃ r, q = r ++ D ∧ files.node (r ++ S) = some .dir ∧
    (files.node q = none ∨ S <:+ q)

/-- If `dest` leads nowhere, nothing is made there. -/
theorem walks_of_within (h : Within S (Reached cwd files dest S D) files files')
    (hwalks : Walks cwd files' dest) : Walks cwd files dest := by
  by_contra hnot
  refine hnot fun q hq => ?_
  by_contra hno
  exact hnot (h.made q (hwalks q hq) hno).1

/-- The destination is not made in a directory of `src`. -/
theorem Undisturbed.makeDest (fails : Nat → Bool) (h : Walks cwd files dest → Undisturbed files S D)
    (hdest : Leads cwd dest D) {s : Counted} (hs : s.files = files)
    (hdir : files.node S = some .dir) :
    Intact S files (makeDestCounted cwd fails dest s).files := by
  subst hs
  rcases makeDestCounted_cases fails hdest s with
    ⟨hfiles, -⟩ | ⟨hwalks, hnone, htail, hnode, horder, -⟩
  · rw [hfiles]
    exact Intact.refl _ _
  · have hne : ∀ r, r ++ S ≠ D := by
      rintro r rfl
      cases r with
      | nil =>
          rw [List.nil_append, hdir] at hnone
          cases hnone
      | cons a r => exact h hwalks [] r a hdir htail (.inl List.nil_suffix) rfl hnone
    refine ⟨fun r => by rw [hnode, if_neg (hne r)], fun r hgone => ?_, fun r a b _ _ =>
      horder _ a b (hne (b :: r))⟩
    rwa [hnode, if_neg (hne r)] at hgone

theorem makeDestCounted_reached (fails : Nat → Bool) (hdest : Leads cwd dest D) {s : Counted}
    (hdir : s.files.node S = some .dir) :
    Within S (Reached cwd s.files dest S D) s.files (makeDestCounted cwd fails dest s).files := by
  refine (makeDestCounted_within fails hdest s).mono ?_
  rintro q ⟨rfl, hwalks, hnone, -⟩
  exact ⟨hwalks, [], rfl, hdir, .inl hnone⟩

section Level

variable {s : Counted} {files₁ t t' : Files} (hdest : Leads cwd dest D)
  (hsame : Intact S files files₁) (ht : Within S (Reached cwd files dest S D) files t)

include hdest hsame ht

/-- What is made for an entry is made for `src`. -/
theorem reached_entry {e : Name} (he : Intact (e :: S) files₁ t) {q : Path}
    (h : Reached cwd t (longPath dest e.val) (e :: S) (e :: D) q) :
    Reached cwd files dest S D q := by
  obtain ⟨hwalks, r, rfl, hdir, hplace⟩ := h
  have hdir' := ((hsame.entry e).trans he).dirs r
  refine ⟨walks_of_within ht ((hdest.walks_entry e _).mp hwalks).1, r ++ [e], by simp, ?_, ?_⟩
  · simpa using hdir'.mp hdir
  · rcases hplace with hnone | hsuffix
    · by_cases hnone' : files.node (r ++ e :: D) = none
      · exact .inl hnone'
      · exact .inr (ht.vacated _ hnone' hnone)
    · exact .inr ((List.suffix_cons e S).trans hsuffix)

/-- What is done for an entry leaves one that is listed later as it is. -/
theorem intact_entry (hgood : Walks cwd files dest → Undisturbed files S D) {e e' : Name}
    (hlisted : [e, e'] <+ files₁.names S) (he : Intact (e :: S) files₁ t)
    (he' : Intact (e' :: S) files₁ t)
    (h : Within (e :: S) (Reached cwd t (longPath dest e.val) (e :: S) (e :: D)) t t') :
    Intact (e' :: S) t t' := by
  have hne : e ≠ e' := by
    rintro rfl
    have hnodup := (files₁.nodup S).sublist hlisted
    simp at hnodup
  refine h.intact (not_suffix_of_ne hne) fun r hreached habove => ?_
  obtain ⟨hwalks, r₁, heq, hdir, hplace⟩ := hreached
  have hnone := hplace.resolve_right (not_suffix_of_ne hne r)
  have hundisturbed :=
    (hgood (walks_of_within ht ((hdest.walks_entry e _).mp hwalks).1)).congr hsame
  have hnone₁ := he'.kept r hnone
  cases r with
  | nil =>
      have hmem : e' ∈ files₁.names S := hlisted.subset (by simp)
      exact absurd hnone₁ ((files₁.mem_names S e').mp hmem)
  | cons a r =>
      refine absurd ?_ (hundisturbed (r₁ ++ [e]) (r ++ [e']) a ?_ ?_ ?_ ?_)
      · have hplace : (r₁ ++ [e]) ++ D = a :: r ++ e' :: S := by simpa using heq.symm
        rw [hplace]
        exact hnone₁
      · simpa using (he.dirs r₁).mp hdir
      · simpa using (he'.dirs r).mp (habove a r rfl)
      · exact .inr ⟨r₁, r, [], e, e', rfl, rfl, hlisted⟩
      · simpa using heq.symm

end Level

/-- **A good call**, to the depth `n`: the recursion goes no deeper than the tree at
`src`, and makes at most as many directories as there are in it. -/
def GoodCalls (cwd : Path) (fails : Nat → Bool) (n : ℕ) : Prop :=
  ∀ (src dest : List UInt8) (S D : Path) (s : Counted), target cwd src = some S →
    Leads cwd dest D → s.files.node S = some .dir →
    (Walks cwd s.files dest → Undisturbed s.files S D) →
    (∀ r, s.files.node (r ++ S) = some .dir → r.length < n) →
      ∃ s', moveCounted cwd fails longPath n src dest s = some s' ∧
        s'.created ≤ s.created + (s.files.dirs n S).length ∧
        Within S (Reached cwd s.files dest S D) s.files s'.files

theorem goodCalls (cwd : Path) (fails : Nat → Bool) (n : ℕ) : GoodCalls cwd fails n := by
  induction n with
  | zero =>
      intro src dest S D s hsrc hdest hdir hgood hdepth
      exact absurd (hdepth [] hdir) (Nat.not_lt_zero _)
  | succ n ih =>
      intro src dest S D s hsrc hdest hdir hgood hdepth
      have hsame := Undisturbed.makeDest fails hgood hdest rfl hdir
      have hcreated : (makeDestCounted cwd fails dest s).created ≤ s.created + 1 := by
        rcases makeDestCounted_cases fails hdest s with ⟨-, h⟩ | ⟨-, -, -, -, -, h⟩
        · omega
        · exact h.le
      refine moveCounted_level (fun e t => Reached cwd t (longPath dest e.val) (e :: S) (e :: D))
        hsrc rfl hdir hcreated hsame (makeDestCounted_reached fails hdest hdir)
        (fun e t q ht he => reached_entry hdest hsame ht he)
        (fun e e' t t' hlisted ht => intact_entry hdest hsame ht hgood hlisted)
        fun e he t ht hentry => ?_
      have hdirs := fun r => ((hsame.entry e).trans hentry).dirs r
      refine ih _ _ _ _ t (Leads.entry e (.inl hsrc)) (.inl (hdest.entry e))
        ((hentry.dirs []).mpr he) (fun hwalks => ?_) fun r hr => ?_
      · have hundisturbed := hgood (walks_of_within ht ((hdest.walks_entry e _).mp hwalks).1)
        exact ((hundisturbed.congr hsame).entry e).congr hentry
      · have hlength := hdepth (r ++ [e]) (by simpa using (hdirs r).mp hr)
        rw [List.length_append, List.length_singleton] at hlength
        omega

end OsInParts.FileIO
