import OsInParts.FileIO.MoveCount
import OsInParts.FileIO.MoveSafety

/-!
# MoveDepth — whether `move_directory` comes to an end

Nothing checks that the destination is not inside `src`. If it is, the
directory is made before `src` is read, and is then moved into itself: the
call for it finds the same situation one level further down, and no depth is
enough (`moveCounted_endless`). If no directory is made where one is still to be
read, the recursion walks the tree that was there, whichever of its calls fail.
-/

namespace OsInParts.FileIO

open Lib.Directories

variable {cwd : Path} {fails : Nat → Bool} {S D : Path} {files : Files} {src dest : List UInt8}

/-- The directory below which the entries go; they go below the root if the
string is empty. -/
def destOf (cwd : Path) (dest : List UInt8) : Path := (target cwd dest).getD []

theorem leads_destOf (cwd : Path) (dest : List UInt8) : Leads cwd dest (destOf cwd dest) := by
  unfold Leads destOf
  cases h : target cwd dest with
  | some p => exact .inl rfl
  | none =>
      refine .inr ⟨?_, rfl⟩
      unfold target at h
      split at h
      · assumption
      · cases h

/-- There is a directory at `dest`, or nothing and `mkdir` can make one. -/
def Live (files : Files) (dest : List UInt8) (D : Path) : Prop :=
  files.node D = some .dir ∨
    files.node D = none ∧ files.node D.tail = some .dir ∧ endsInDots dest = false

/-- **No directory is made where one is still to be read**, or nothing can be put at
`dest`. -/
def KeepsClear (cwd : Path) (files : Files) (dest : List UInt8) (S : Path) : Prop :=
  Walks cwd files dest → Undisturbed files S (destOf cwd dest)

/-- Before the call. -/
def Counted.start (files : Files) : Counted :=
  { files := files, calls := 0, failed := false, created := 0 }

/-- **Resources**, whatever calls fail: the recursion goes no deeper than the tree at
`S`, and makes at most as many directories as there are in it. -/
def Bounded (cwd : Path) (src dest : List UInt8) (S : Path) (files : Files) : Prop :=
  ∀ (fails : Nat → Bool) (depth : ℕ),
    (∀ r, below files S r = some .dir → r.length < depth) →
      ∃ s', moveCounted cwd fails longPath depth src dest (Counted.start files) = some s' ∧
        s'.created ≤ (files.dirs depth S).length

/-! ## Calls that come to an end -/

theorem bounded_of_keepsClear (hsrc : target cwd src = some S) (hdir : files.node S = some .dir)
    (h : KeepsClear cwd files dest S) : Bounded cwd src dest S files := by
  intro fails depth hdepth
  obtain ⟨s', hmove, hcreated, -⟩ := goodCalls cwd fails depth src dest S (destOf cwd dest)
    (Counted.start files) hsrc (leads_destOf cwd dest) hdir h hdepth
  exact ⟨s', hmove, by simpa [Counted.start] using hcreated⟩

/-- Neither path inside the other. -/
theorem undisturbed_of_apart (h : Apart S D) : Undisturbed files S D :=
  fun r₁ r a _ _ _ heq => absurd heq.symm (h.ne (a :: r) r₁)

theorem undisturbed_self (files : Files) (S : Path) : Undisturbed files S S := by
  intro r₁ r a h1 _ _ _ hnone
  rw [h1] at hnone
  cases hnone

/-- `src` inside `dest`, without a directory of the name that leads there. -/
theorem undisturbed_of_name {x : Path} {e : Name}
    (hno : files.node (e :: (x ++ e :: D)) ≠ some .dir) : Undisturbed files (x ++ e :: D) D := by
  intro r₁ r a h1 _ _ heq
  have hr₁ : r₁ = (a :: (r ++ x)) ++ [e] :=
    (List.append_left_inj D).mp (by simpa using heq)
  refine absurd ?_ hno
  refine FileTree.above (r := a :: (r ++ x)) ?_ (List.cons_ne_nil _ _)
  have hdir : files.node (a :: (r ++ x) ++ e :: (x ++ e :: D)) = some .dir := by
    simpa [hr₁] using h1
  rw [hdir]
  exact Option.some_ne_none _

/-- No directory for `dest`. -/
theorem undisturbed_of_tail (h : files.node D.tail ≠ some .dir) : Undisturbed files S D := by
  intro r₁ r a _ h2 _ heq
  refine absurd ?_ h
  cases r₁ with
  | nil =>
      rw [List.nil_append] at heq
      rw [heq]
      exact h2
  | cons b r₁ =>
      have htail : r₁ ++ D = r ++ S := (List.cons.inj heq).2
      cases D with
      | nil => exact files.root
      | cons d D =>
          rw [List.tail_cons]
          refine FileTree.above (r := r₁ ++ [d]) ?_ (by simp)
          rw [List.append_assoc, List.singleton_append, htail, h2]
          exact Option.some_ne_none _

/-! ## Calls that do not -/

/-- The path `S` with `k` times `r` below it. -/
def way (r S : Path) (k : ℕ) : Path := (List.replicate k r).flatten ++ S

theorem way_zero (r S : Path) : way r S 0 = S := rfl

theorem way_succ (r S : Path) (k : ℕ) : way r S (k + 1) = r ++ way r S k := by
  rw [way, way, List.replicate_succ, List.flatten_cons, List.append_assoc]

theorem way_add (r S : Path) (j k : ℕ) : way r (way r S j) k = way r S (j + k) := by
  induction k with
  | zero => rfl
  | succ k ih => rw [way_succ, ih, ← Nat.add_assoc, way_succ]

/-- One name further down the same way leads on. -/
theorem way_rotate (r S : Path) (e : Name) (k : ℕ) :
    r ++ way (e :: r) (e :: S) k = way (r ++ [e]) S (k + 1) := by
  induction k with
  | zero => simp [way]
  | succ k ih =>
      rw [way_succ, way_succ, ← ih]
      simp

/-- Only one name leads on along the way. -/
theorem way_other {r S : Path} {e e' : Name} (hne : e' ≠ e) (j k : ℕ) :
    ¬ (e' :: way (r ++ [e]) S j) <:+ way (r ++ [e]) S k := by
  intro hsuffix
  rcases Nat.lt_or_ge j k with hlt | hle
  · -- the way goes on with `e`, or is too short
    obtain ⟨m, rfl⟩ := Nat.exists_eq_add_of_lt hlt
    have hnext : way (r ++ [e]) S (j + m + 1)
        = ((List.replicate m (r ++ [e])).flatten ++ r) ++ e :: way (r ++ [e]) S j := by
      rw [Nat.add_assoc, Nat.add_comm m 1, ← Nat.add_assoc, ← way_add, way_succ, way]
      simp
    rw [hnext] at hsuffix
    exact not_suffix_of_ne hne _ hsuffix
  · obtain ⟨m, rfl⟩ := Nat.exists_eq_add_of_le hle
    have hlength := hsuffix.length_le
    rw [List.length_cons, ← way_add, way, List.length_append] at hlength
    omega

/-- `q` is on the way from `S` on which each `r` follows the last. -/
def OnWay (r S q : Path) : Prop := ∃ k, q <:+ way r S k

theorem OnWay.rotate {r S q : Path} {e : Name} (h : OnWay (e :: r) (e :: S) q) :
    OnWay (r ++ [e]) S q := by
  obtain ⟨k, hk⟩ := h
  refine ⟨k + 1, hk.trans ?_⟩
  rw [← way_rotate]
  exact List.suffix_append r _

theorem OnWay.unrotate {r S q : Path} {e : Name} (h : OnWay (r ++ [e]) S q) :
    OnWay (e :: r) (e :: S) q := by
  obtain ⟨k, hk⟩ := h
  have hnext : way (e :: r) (e :: S) (k + 1) = e :: (r ++ [e] ++ way (r ++ [e]) S k) := by
    rw [way_succ, List.cons_append, way_rotate, way_succ]
  refine ⟨k + 1, hk.trans ?_⟩
  rw [hnext]
  exact (List.suffix_append _ _).trans (List.suffix_cons e _)

/-- What an entry off the way and its destination contain is off the way. -/
theorem OnWay.other {r S q : Path} {e e' : Name} (h : OnWay (r ++ [e]) S q) (hne : e' ≠ e) (j : ℕ) :
    ¬ (e' :: way (r ++ [e]) S j) <:+ q := by
  obtain ⟨k, hk⟩ := h
  exact fun hq => way_other hne j k (hq.trans hk)

/-! ### What a call leaves alone -/

theorem moveFile_frame {e e' : Name} (hsrc : target cwd src = some (e :: S))
    (hdest : target cwd dest = some (e' :: D)) (s : System) {q : Path} (hS : ¬ (e :: S) <:+ q)
    (hD : ¬ (e' :: D) <:+ q) : (moveFile cwd fails src dest s).files.node q = s.files.node q := by
  unfold moveFile
  rcases run_cases fails s (rename cwd s.files src dest) with
    ⟨files', hr, hfiles, -⟩ | ⟨-, hfiles, -⟩
  · rw [hfiles]
    rcases rename_cases hr with rfl | ⟨b, p, a, p', c, hb, ha, -, -, hrenamed⟩
    · rfl
    · have hsrc' : e :: S = b :: p := Option.some.inj (hsrc.symm.trans hb)
      have hdest' : e' :: D = a :: p' := Option.some.inj (hdest.symm.trans ha)
      have hq : q ≠ e :: S := fun heq => hS (by rw [heq])
      have hq' : q ≠ e' :: D := fun heq => hD (by rw [heq])
      rw [hrenamed.node, ← hsrc', ← hdest', if_neg hq, if_neg hq']
  · rw [hfiles]

/-- What `readdir` returns is `.`, `..` or a name. -/
theorem opendir_names (hsrc : target cwd src = some S) {entries : List Dirent}
    (h : opendir cwd files src = some entries) {entry : Dirent} (hentry : entry ∈ entries) :
    (entry.name = dot ∨ entry.name = dotDot) ∨ ∃ e : Name, entry.name = e.val := by
  obtain ⟨hwalks, hdir⟩ := opendir_some hsrc h
  rw [opendir_eq hsrc hwalks hdir] at h
  cases h
  rcases List.mem_cons.mp hentry with rfl | hentry
  · exact .inl (.inl rfl)
  · rcases List.mem_cons.mp hentry with rfl | hentry
    · exact .inl (.inr rfl)
    · obtain ⟨e, -, rfl⟩ := List.mem_map.mp hentry
      exact .inr ⟨e, rfl⟩

/-- A call changes nothing that is neither below `src` nor below the destination. -/
def Frames (cwd : Path) (fails : Nat → Bool) (n : ℕ) : Prop :=
  ∀ (src dest : List UInt8) (S D : Path) (s s' : Counted), target cwd src = some S →
    Leads cwd dest D → moveCounted cwd fails longPath n src dest s = some s' →
      ∀ q, ¬ S <:+ q → ¬ D <:+ q → s'.files.node q = s.files.node q

theorem Frames.entry {n : ℕ} (h : Frames cwd fails n)
    (hsrc : target cwd src = some S) (hdest : Leads cwd dest D) {t t' : Counted} {e : Name}
    {isDir : Bool}
    (ht : entryCounted cwd fails longPath (moveCounted cwd fails longPath n) src dest t
      { name := e.val, isDir := isDir } = some t') {q : Path} (hS : ¬ (e :: S) <:+ q)
    (hD : ¬ (e :: D) <:+ q) : t'.files.node q = t.files.node q := by
  have hdots : ¬ (e.val = dot ∨ e.val = dotDot) :=
    not_or.mpr ⟨e.property.2.2.2.1, e.property.2.2.2.2⟩
  unfold entryCounted at ht
  rw [if_neg hdots] at ht
  dsimp only at ht
  split at ht
  · exact h _ _ _ _ t t' (Leads.entry e (.inl hsrc)) (.inl (hdest.entry e)) ht q hS hD
  · cases ht
    exact moveFile_frame (Leads.entry e (.inl hsrc)) (hdest.entry e) t.toSystem hS hD

theorem frames (cwd : Path) (fails : Nat → Bool) (n : ℕ) : Frames cwd fails n := by
  induction n with
  | zero =>
      intro src dest S D s s' hsrc hdest hmove
      cases hmove
  | succ n ih =>
      intro src dest S D s s' hsrc hdest hmove q hS hD
      have hqS : q ≠ S := fun heq => hS (by rw [heq])
      have hqD : q ≠ D := fun heq => hD (by rw [heq])
      have hmake : (makeDestCounted cwd fails dest s).files.node q = s.files.node q := by
        rcases makeDestCounted_cases fails hdest s with
          ⟨hfiles, -⟩ | ⟨-, -, -, hnode, -⟩
        · rw [hfiles]
        · rw [hnode, if_neg hqD]
      unfold moveCounted at hmove
      generalize makeDestCounted cwd fails dest s = s₁ at hmove hmake
      dsimp only at hmove
      rcases call_cases fails s₁.toSystem
        ((opendir cwd s₁.files src).map fun entries => (s₁.files, entries)) with
        ⟨files', entries, hr, hcall⟩ | ⟨-, hcall⟩
      · obtain ⟨entries', hopen, heq⟩ := Option.map_eq_some_iff.mp hr
        obtain ⟨rfl, rfl⟩ := Prod.mk.inj heq
        simp only [hcall] at hmove
        obtain ⟨t', hfold, rfl⟩ := Option.map_eq_some_iff.mp hmove
        have hloop : ∀ (es : List Dirent) (t : Counted), (∀ entry ∈ es, entry ∈ entries') →
            es.foldlM (entryCounted cwd fails longPath (moveCounted cwd fails longPath n)
              src dest) t = some t' → t'.files.node q = t.files.node q := by
          intro es
          -- by induction on the entries that are left
          induction es with
          | nil =>
              intro t _ hes
              cases hes
              rfl
          | cons entry es ihe =>
              intro t hmem hes
              rw [List.foldlM_cons] at hes
              obtain ⟨t₁, h1, h2⟩ := Option.bind_eq_some_iff.mp hes
              rw [ihe t₁ (fun e he => hmem e (List.mem_cons_of_mem _ he)) h2]
              rcases opendir_names hsrc hopen (hmem entry List.mem_cons_self) with hdots | ⟨e, he⟩
              · rw [entryCounted_dots hdots] at h1
                cases h1
                rfl
              · obtain ⟨name, isDir⟩ := entry
                obtain rfl : name = e.val := he
                exact ih.entry hsrc hdest h1 (fun h => hS ((List.suffix_cons e S).trans h))
                  fun h => hD ((List.suffix_cons e D).trans h)
        have hentries := hloop entries' _ (fun _ h => h) hfold
        rcases rmdir_node fails hsrc t'.toSystem with hfiles | ⟨hnode, -⟩
        · dsimp only
          rw [hfiles, hentries]
          exact hmake
        · dsimp only
          rw [hnode, if_neg hqS, hentries]
          exact hmake
      · simp only [hcall] at hmove
        cases hmove
        exact hmake

/-! ### The destination inside `src` -/

/-- Where it can be made, it is. -/
theorem makeDestCounted_live (hdest : Leads cwd dest D) (s : Counted)
    (hlive : Live s.files dest D) (hwalks : Walks cwd s.files dest) :
    (makeDestCounted cwd (fun _ => false) dest s).files.node D = some .dir := by
  rcases makeDestCounted_cases (fun _ => false) hdest s with
    ⟨hfiles, hcreated⟩ | ⟨-, -, -, hnode, -⟩
  · rcases hlive with hdir | ⟨hnone, htail, hdots⟩
    · rw [hfiles, hdir]
    · -- `mkdir` has no reason to fail
      exfalso
      have hD : D ≠ [] := by
        rintro rfl
        rw [s.files.root] at hnone
        cases hnone
      obtain ⟨a, p, rfl⟩ := List.exists_cons_of_ne_nil hD
      have htarget : target cwd dest = some (a :: p) := hdest.resolve_right fun h => hD h.2
      have hstat := (stat_eq_none_iff s.files htarget).mpr (.inr (.inl hnone))
      have hmkdir := mkdir_eq s.files htarget
      rw [dif_pos ⟨hwalks, hdots, htail, hnone⟩] at hmkdir
      unfold makeDestCounted at hcreated
      simp only [if_pos hstat, hmkdir, Option.map_some] at hcreated
      simp [System.call] at hcreated
  · rw [hnode, if_pos rfl]

/-- What a turn of the loop needs of the way: the destination is there, no regular
file is, and the strings lead nowhere that is taken away. -/
structure Passable (cwd : Path) (src dest : List UInt8) (r S : Path) (files : Files) : Prop where
  there : files.node (r ++ S) = some .dir
  noFile : ∀ q c, OnWay r S q → files.node q ≠ some (.file c)
  walks : ∀ q ∈ through cwd src ++ through cwd dest, files.node q = some .dir
  along : ∀ q ∈ through cwd src ++ through cwd dest, S <:+ q → OnWay r S q

/-- An entry that does not lead to the destination leaves the way as it is. -/
theorem Passable.other {r : Path} {n : ℕ} {e e' : Name} {isDir : Bool} {t t' : Counted}
    (h : Passable cwd src dest (r ++ [e]) S t.files) (hsrc : target cwd src = some S)
    (hdest : Leads cwd dest (r ++ [e] ++ S)) (hne : e' ≠ e)
    (ht : entryCounted cwd fails longPath (moveCounted cwd fails longPath n) src dest t
      { name := e'.val, isDir := isDir } = some t') :
    Passable cwd src dest (r ++ [e]) S t'.files := by
  have hsame : ∀ q, (S <:+ q → OnWay (r ++ [e]) S q) → t'.files.node q = t.files.node q := by
    intro q hq
    have hS : ¬ (e' :: S) <:+ q := fun hsuffix =>
      (hq ((List.suffix_cons e' S).trans hsuffix)).other hne 0 hsuffix
    have hD : ¬ (e' :: (r ++ [e] ++ S)) <:+ q := fun hsuffix => by
      have hway := hq (((List.suffix_append _ S).trans (List.suffix_cons e' _)).trans hsuffix)
      exact hway.other hne 1 (by simpa only [way_succ, way_zero] using hsuffix)
    exact (frames cwd fails n).entry hsrc hdest ht hS hD
  refine ⟨?_, fun q c hq => ?_, fun q hq => ?_, h.along⟩
  · rw [hsame _ fun _ => ⟨1, by rw [way_succ, way_zero]⟩]
    exact h.there
  · rw [hsame q fun _ => hq]
    exact h.noFile q c hq
  · rw [hsame q (h.along q hq)]
    exact h.walks q hq

/-- The entry that leads there meets the same situation. -/
theorem Passable.live {r : Path} {e : Name} (h : Passable cwd src dest (r ++ [e]) S files)
    (dest : List UInt8) : Live files (longPath dest e.val) (e :: (r ++ [e] ++ S)) := by
  have hway : OnWay (r ++ [e]) S (e :: (r ++ [e] ++ S)) := by
    refine ⟨2, r, ?_⟩
    rw [way_succ, way_succ, way_zero]
    simp
  rcases hnode : files.node (e :: (r ++ [e] ++ S)) with _ | _ | c
  · exact .inr ⟨hnode, h.there, endsInDots_entry e⟩
  · exact .inl hnode
  · exact absurd hnode (h.noFile _ c hway)

/-- The strings of that entry lead along the way. -/
theorem Passable.through_entry {r : Path} {e : Name} (h : Passable cwd src dest (r ++ [e]) S files)
    (hsrc : target cwd src = some S) (hdest : Leads cwd dest (r ++ [e] ++ S)) {q : Path}
    (hq : q ∈ through cwd (longPath src e.val) ++ through cwd (longPath dest e.val)) :
    files.node q = some .dir ∧ ((e :: S) <:+ q → OnWay (e :: r) (e :: S) q) := by
  have hthrough := Leads.through_entry e (.inl hsrc)
  have hthrough' := hdest.through_entry e
  have hcases : q ∈ through cwd src ++ through cwd dest ∨ q = S ∨ q = r ++ [e] ++ S := by
    unfold longPath at hq
    rw [hthrough, hthrough'] at hq
    simp only [List.mem_append, List.mem_singleton] at hq ⊢
    tauto
  rcases hcases with hq | rfl | rfl
  · exact ⟨h.walks q hq, fun hsuffix =>
      (h.along q hq ((List.suffix_cons e S).trans hsuffix)).unrotate⟩
  · exact ⟨FileTree.above (by rw [h.there]; simp) (by simp), fun hsuffix =>
      absurd hsuffix (not_cons_suffix e q)⟩
  · exact ⟨h.there, fun _ => OnWay.unrotate ⟨1, by rw [way_succ, way_zero]⟩⟩

/-- The loop comes to the entry that leads to the destination, if it does not
fail before. -/
theorem Passable.fold {r : Path} {n : ℕ} {e : Name} {t : Counted}
    (ht : Passable cwd src dest (r ++ [e]) S t.files) (hsrc : target cwd src = some S)
    (hdest : Leads cwd dest (r ++ [e] ++ S)) (hdir : files.node (e :: S) = some .dir)
    (hrec : ∀ t : Counted, Passable cwd src dest (r ++ [e]) S t.files →
      moveCounted cwd fails longPath n (longPath src e.val) (longPath dest e.val) t = none)
    {es : List Name} (he : e ∈ es) :
    es.foldlM (fun t e' => entryCounted cwd fails longPath (moveCounted cwd fails longPath n)
      src dest t { name := e'.val, isDir := decide (files.node (e' :: S) = some .dir) }) t
        = none := by
  induction es generalizing t with
  | nil => cases he
  | cons e' es ih =>
      rw [List.foldlM_cons]
      by_cases hne : e' = e
      · have hdots : ¬ (e.val = dot ∨ e.val = dotDot) :=
          not_or.mpr ⟨e.property.2.2.2.1, e.property.2.2.2.2⟩
        -- the call for this entry needs more depth than there is
        rw [hne, entryCounted, if_neg hdots, if_pos (decide_eq_true hdir), hrec t ht]
        rfl
      · cases hturn : entryCounted cwd fails longPath (moveCounted cwd fails longPath n) src dest t
          { name := e'.val, isDir := decide (files.node (e' :: S) = some .dir) } with
        | none => rfl
        | some t' =>
            exact ih (ht.other hsrc hdest hne hturn)
              ((List.mem_cons.mp he).resolve_left fun heq => hne heq.symm)

/-- **No depth is enough** where the destination lies inside `src`, is there or can be
made, no regular file is in the way, and the strings lead along it. -/
theorem moveCounted_endless (cwd : Path) (n : ℕ) {r : Path} {s : Counted}
    (hr : r ≠ []) (hsrc : target cwd src = some S) (hdest : Leads cwd dest (r ++ S))
    (hlive : Live s.files dest (r ++ S))
    (hway : ∀ q c, OnWay r S q → s.files.node q ≠ some (.file c))
    (hthrough : ∀ q ∈ through cwd src ++ through cwd dest,
      s.files.node q = some .dir ∧ (S <:+ q → OnWay r S q)) :
    moveCounted cwd (fun _ => false) longPath n src dest s = none := by
  induction n generalizing src dest S r s with
  | zero => rfl
  | succ n ih =>
      obtain ⟨r, e, rfl⟩ := (List.eq_nil_or_concat r).resolve_left hr
      simp only [List.concat_eq_append] at hdest hlive hway hthrough
      have hmade := makeDestCounted_live hdest s hlive fun q hq =>
        (hthrough q (List.mem_append_right _ hq)).1
      have hpass : Passable cwd src dest (r ++ [e]) S
          (makeDestCounted cwd (fun _ => false) dest s).files := by
        rcases makeDestCounted_cases (fun _ => false) hdest s with
          ⟨hfiles, -⟩ | ⟨-, -, -, hnode, -⟩
        · rw [hfiles] at hmade ⊢
          exact ⟨hmade, hway, fun q hq => (hthrough q hq).1, fun q hq => (hthrough q hq).2⟩
        · refine ⟨hmade, fun q c hq => ?_, fun q hq => ?_, fun q hq => (hthrough q hq).2⟩
          · rw [hnode]
            split
            · simp
            · exact hway q c hq
          · rw [hnode]
            split
            · rfl
            · exact (hthrough q hq).1
      unfold moveCounted
      generalize makeDestCounted cwd (fun _ => false) dest s = s₁ at hmade hpass
      -- `src` has the entry on the way to the destination
      have hdirE : s₁.files.node (e :: S) = some .dir := by
        rw [List.append_assoc, List.singleton_append] at hmade
        rcases eq_or_ne r [] with rfl | hne
        · exact hmade
        · exact FileTree.above (by rw [hmade]; simp) hne
      have hdirS : s₁.files.node S = some .dir := s₁.files.parent S e (by rw [hdirE]; simp)
      have hmem : e ∈ s₁.files.names S := (s₁.files.mem_names S e).mpr (by rw [hdirE]; simp)
      have hopens := opendir_eq hsrc (fun q hq => hpass.walks q (List.mem_append_left _ hq)) hdirS
      rcases call_cases (fun _ => false) s₁.toSystem
        ((opendir cwd s₁.files src).map fun entries => (s₁.files, entries)) with
        ⟨files', entries, hopen, hcall⟩ | ⟨hopen, -⟩
      · rw [hopens, Option.map_some] at hopen
        obtain ⟨rfl, rfl⟩ := Prod.mk.inj (Option.some.inj hopen)
        simp only [hcall]
        have hstart : Passable cwd src dest (r ++ [e]) S
            ({ s₁ with toSystem := { s₁.toSystem with calls := s₁.calls + 1 } } : Counted).files :=
          hpass
        rw [List.foldlM_cons, entryCounted_dots (.inl rfl), Option.bind_eq_bind, Option.bind_some,
          List.foldlM_cons, entryCounted_dots (.inr rfl), Option.bind_eq_bind, Option.bind_some,
          List.foldlM_map, hstart.fold hsrc hdest hdirE (fun t ht => ?_) hmem, Option.map_none]
        -- the call for `e`: the way from there to its destination is as long
        refine ih (r := e :: r) (List.cons_ne_nil e r) (Leads.entry e (.inl hsrc)) (.inl ?_) ?_ ?_
          fun q hq => ht.through_entry hsrc hdest hq
        · rw [longPath, hdest.entry e]
          simp
        · simpa using ht.live dest
        · exact fun q c hq => ht.noFile q c hq.rotate
      · have hnone := hopen fun _ => rfl
        rw [hopens] at hnone
        cases hnone

/-! ## When the recursion is bounded -/

/-- **`move_directory` stays within the tree at `src`** if no directory is made where
one is still to be read. With the destination inside `src`, in a place where it is or
can be made, no regular file in the way and strings that lead along it, no depth is
enough. -/
theorem moveDirectory_bounded (hsrc : resolve cwd files src = some S)
    (hdir : files.node S = some .dir)
    (hfinite : ∃ depth, ∀ r, below files S r = some .dir → r.length < depth) :
    (KeepsClear cwd files dest S → Bounded cwd src dest S files) ∧
      ∀ r, r ≠ [] → resolve cwd files dest = some (r ++ S) → Live files dest (r ++ S) →
        (∀ q c, OnWay r S q → files.node q ≠ some (.file c)) →
        (∀ q ∈ through cwd src ++ through cwd dest, S <:+ q → OnWay r S q) →
          ¬ Bounded cwd src dest S files := by
  obtain ⟨htarget, hwalks⟩ := resolve_eq_some_iff.mp hsrc
  refine ⟨bounded_of_keepsClear htarget hdir, fun r hr hdest hlive hway halong hbounded => ?_⟩
  obtain ⟨htarget', hwalks'⟩ := resolve_eq_some_iff.mp hdest
  obtain ⟨depth, hdepth⟩ := hfinite
  obtain ⟨s', hmove, -⟩ := hbounded (fun _ => false) depth hdepth
  have hendless := moveCounted_endless cwd depth (s := Counted.start files) hr htarget
    (.inl htarget') hlive hway fun q hq =>
      ⟨(List.mem_append.mp hq).elim (hwalks q) (hwalks' q), halong q hq⟩
  rw [hendless] at hmove
  cases hmove

theorem emptySrc_free : emptySrc.node [freeName, srcName] = none := by decide

/-- `/s` with a directory `f`. -/
def freeInside : Files := emptySrc.put [srcName] freeName .dir emptySrc_dir emptySrc_free

theorem freeInside_dir : freeInside.node [freeName, srcName] = some .dir := by decide

theorem freeInside_absent : freeInside.node [freeName, freeName, srcName] = none := by decide

/-- `/s` with a directory `f` that has a regular file `f`. -/
def fileInside : Files :=
  freeInside.put [freeName, srcName] freeName (.file [1]) freeInside_dir freeInside_absent

theorem fileInside_dirs {r : Path} (h : below fileInside [srcName] r = some .dir) :
    r = [] ∨ r = [freeName] := by
  match r with
  | [] => exact .inl rfl
  | [a] =>
      by_cases ha : a = freeName
      · exact .inr (by rw [ha])
      · simp [below, fileInside, freeInside, emptySrc, FileTree.put, FileTree.bare, srcName,
          ha] at h
  | [a, b] =>
      simp [below, fileInside, freeInside, emptySrc, FileTree.put, FileTree.bare,
        Function.update_apply] at h
  | _ :: _ :: _ :: _ =>
      simp [below, fileInside, freeInside, emptySrc, FileTree.put, FileTree.bare] at h

/-- `/s` to `/s/f`, where a regular file ends the way. -/
theorem moveDirectory_bounded_file : Bounded [] [115] [115, 47, 102] [srcName] fileInside := by
  refine (moveDirectory_bounded (by decide) (by decide) ⟨2, fun r hr => ?_⟩).1
    fun _ r₁ r a h1 _ _ _ => ?_
  · rcases fileInside_dirs hr with rfl | rfl <;> decide
  · rcases fileInside_dirs h1 with rfl | rfl <;> decide

theorem emptyAndFile_dirs {r : Path} (h : below emptyAndFile [srcName] r = some .dir) :
    r.length < 2 := by
  rcases below_srcName_ne_none (by rw [h]; simp) with rfl | rfl <;> decide

/-- `/s` to `/s/f`. -/
theorem moveDirectory_not_bounded :
    ¬ ∀ (cwd : Path) (src dest : List UInt8) (S : Path) (files : Files),
      resolve cwd files src = some S → files.node S = some .dir →
        (∃ depth, ∀ r, below files S r = some .dir → r.length < depth) →
          Bounded cwd src dest S files := by
  intro hbounded
  obtain ⟨s', hmove, -⟩ := hbounded [] [115] [115, 47, 102] [srcName] emptyAndFile (by decide)
    (by decide) ⟨2, fun _ h => emptyAndFile_dirs h⟩ (fun _ => false) 2
    fun _ h => emptyAndFile_dirs h
  have hnone : moveCounted [] (fun _ => false) longPath 2 [115] [115, 47, 102]
      (Counted.start emptyAndFile) = none := by decide
  rw [hnone] at hmove
  cases hmove

end OsInParts.FileIO
