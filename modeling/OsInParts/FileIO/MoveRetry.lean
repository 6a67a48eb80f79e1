import OsInParts.FileIO.MoveSafety

/-!
# MoveRetry — a move that failed is taken up again

The program is run again with the same two paths until nothing fails. A run that is
killed is one whose calls all fail from some moment on.

What a run leaves behind is again a state from which the way is clear (`Moved.clearWay`),
as long as the strings lead through nothing that it may have removed, and the fates of
two runs are the fate of one (`Fate.trans`). So the last run finishes whatever the
others have begun, also where they have already removed `src` itself. Only an empty
directory may get lost: `mkdir` fails for it and `rmdir` does not.
-/

namespace OsInParts.FileIO

open Lib.Directories

variable {cwd : Path} {fails : Nat → Bool} {S D : Path} {s : System} {files files' files'' : Files}

/-! ## One run after another -/

theorem Fate.trans {src dest src' dest' src'' dest'' : Option (Node (List UInt8))}
    (h : Fate src dest src' dest') (h' : Fate src' dest' src'' dest'') :
    Fate src dest src'' dest'' := by
  match src, h with
  | none, ⟨hsrc, hdest⟩ =>
      subst hsrc hdest
      exact h'
  | some .dir, ⟨hsrc, hdest⟩ =>
      rcases hsrc with rfl | rfl
      · obtain ⟨hsrc', hdest'⟩ := h'
        refine ⟨hsrc', ?_⟩
        rcases hdest with rfl | ⟨hnone, rfl⟩
        · exact hdest'
        · rcases hdest' with rfl | ⟨hnone', -⟩
          · exact .inr ⟨hnone, rfl⟩
          · cases hnone'
      · obtain ⟨rfl, rfl⟩ := h'
        exact ⟨.inr rfl, hdest⟩
  | some (.file c), h =>
      rcases h with ⟨rfl, rfl⟩ | ⟨rfl, hnone, rfl⟩
      · exact h'
      · obtain ⟨rfl, rfl⟩ := h'
        exact .inr ⟨rfl, hnone, rfl⟩

theorem Moved.refl (files : Files) : Moved S D files files :=
  ⟨fun _ _ _ => rfl, fun _ _ _ _ _ => rfl, fun _ => Fate.refl _ _⟩

theorem Moved.trans (h : Moved S D files files') (h' : Moved S D files' files'') :
    Moved S D files files'' :=
  ⟨fun q hS hD => (h'.frame q hS hD).trans (h.frame q hS hD),
    fun q hS hD hS' hD' => (h'.order q hS hD hS' hD').trans (h.order q hS hD hS' hD'),
    fun r => (h.fate r).trans (h'.fate r)⟩

/-- What is still below `src` was there before. -/
theorem Moved.source (h : Moved S D files files') {r : Path} {x : Node (List UInt8)}
    (hx : below files' S r = some x) : below files S r = some x := by
  have hfate := h.fate r
  rw [hx] at hfate
  rcases hsrc : below files S r with _ | _ | c <;> rw [hsrc] at hfate
  · cases hfate.1
  · rcases hfate.1 with heq | heq
    · exact heq.symm
    · cases heq
  · rcases hfate with ⟨heq, -⟩ | ⟨heq, -⟩
    · exact heq.symm
    · cases heq

/-- What is now below `dest` was there before, or has come from `src`. -/
theorem Moved.dest (h : Moved S D files files') {r : Path} {x : Node (List UInt8)}
    (hx : below files' D r = some x) : below files D r = some x ∨
      below files D r = none ∧ below files S r = some x ∧
        ((∃ c, x = .file c) → below files' S r = none) := by
  have hfate := h.fate r
  rw [hx] at hfate
  rcases hsrc : below files S r with _ | _ | c <;> rw [hsrc] at hfate
  · exact .inl hfate.2.symm
  · rcases hfate.2 with heq | ⟨hnone, heq⟩
    · exact .inl heq.symm
    · cases heq
      exact .inr ⟨hnone, rfl, fun ⟨c, hc⟩ => by cases hc⟩
  · rcases hfate with ⟨-, heq⟩ | ⟨hgone, hnone, heq⟩
    · exact .inl heq.symm
    · cases heq
      exact .inr ⟨hnone, rfl, fun _ => hgone⟩

variable {src dest : List UInt8}

/-- **A run can be taken up again** while there is something at `src`. -/
theorem Moved.movable (h : Moved S D files files') (hmovable : Movable cwd src dest S D files)
    (hdir : files'.node S = some .dir) : Movable cwd src dest S D files' where
  srcPath := hmovable.srcPath
  destPath := hmovable.destPath
  apart := hmovable.apart
  dir := hdir
  noFileTwice := by
    intro r c c' hsrc hdest
    rcases h.dest hdest with hold | ⟨-, -, hgone⟩
    · exact hmovable.noFileTwice r c c' (h.source hsrc) hold
    · rw [hgone ⟨c', rfl⟩] at hsrc
      cases hsrc
  short := by
    intro r hr hne
    obtain ⟨x, hx⟩ := Option.ne_none_iff_exists'.mp hne
    exact hmovable.short r hr (by rw [h.source hx]; simp)

/-- What a string leads through is still there, if it is not below `src`. -/
theorem Moved.walks {path : List UInt8} (h : Moved S D files files')
    (hdir : files'.node S = some .dir) (hout : ∀ q ∈ through cwd path, ∀ e, ¬ (e :: S) <:+ q)
    (hwalks : Walks cwd files path) : Walks cwd files' path := by
  intro q hq
  by_cases hS : S <:+ q
  · obtain ⟨r, rfl⟩ := hS
    rcases List.eq_nil_or_concat r with rfl | ⟨r, e, rfl⟩
    · exact hdir
    · exact absurd ⟨r, by simp⟩ (hout _ hq e)
  · exact h.dir_stays hS (hwalks q hq)

theorem Moved.clearWay (h : Moved S D files files') (hmovable : Movable cwd src dest S D files)
    (hdir : files'.node S = some .dir) (hout : ∀ q ∈ through cwd dest, ∀ e, ¬ (e :: S) <:+ q)
    (hclear : ClearWay cwd src dest S D files) : ClearWay cwd src dest S D files' where
  reached := h.walks hdir hout hclear.reached
  aside := aside_of_outside fun q hq => (List.mem_append.mp hq).elim (hclear.aside.src q) (hout q)
  removable := hclear.removable
  makeable := by
    constructor
    · intro hnone
      have hold : files.node D = none := by
        have hfate := h.fate []
        rw [below_nil, below_nil, hmovable.dir, below_nil files' D, hnone] at hfate
        rcases hfate.2 with heq | ⟨heq, -⟩
        · exact heq.symm
        · exact heq
      obtain ⟨hdots, habove⟩ := hclear.makeable.above hold
      refine ⟨hdots, ?_⟩
      obtain ⟨a, p, rfl⟩ := List.exists_cons_of_ne_nil hmovable.apart.ne_nil
      rw [List.tail_cons] at habove ⊢
      rw [h.frame p (fun hS => hmovable.apart.left (hS.trans (List.suffix_cons a p))) fun hD => ?_,
        habove]
      have hlength := hD.length_le
      rw [List.length_cons] at hlength
      omega
    · intro c hc
      rcases h.dest (r := []) hc with hold | ⟨-, hdir, -⟩
      · exact hclear.makeable.found c hold
      · rw [below_nil, hmovable.dir] at hdir
        cases hdir
  noDirForFile := by
    intro r c hsrc hdest
    rcases h.dest hdest with hold | ⟨-, hdir, -⟩
    · exact hclear.noDirForFile r c (h.source hsrc) hold
    · rw [h.source hsrc] at hdir
      cases hdir
  nothingBelowFile := by
    intro r c a hdest
    rcases h.dest hdest with hold | ⟨-, hfile, -⟩
    · by_contra hne
      obtain ⟨x, hx⟩ := Option.ne_none_iff_exists'.mp hne
      have hx' := h.source hx
      rw [hclear.nothingBelowFile r c a hold] at hx'
      cases hx'
    · by_contra hne
      obtain ⟨x, hx⟩ := Option.ne_none_iff_exists'.mp hne
      -- there was a file at `src/r`, so nothing was below it
      have hentry : files.node (a :: (r ++ S)) = some x := h.source hx
      have hdir := files.parent (r ++ S) a (by rw [hentry]; simp)
      rw [show files.node (r ++ S) = some (.file c) from hfile] at hdir
      cases hdir

/-- Where `src` is gone, at most the destination is made. -/
theorem moveDirectory_gone (fails : Nat → Bool) {depth : ℕ} (hdepth : 0 < depth)
    (hsrc : target cwd src = some S)
    (hgone : (makeDest cwd fails dest s).files.node S = none) :
    ∃ s', moveDirectory cwd fails depth src dest s = some s' ∧
      s'.files = (makeDest cwd fails dest s).files := by
  obtain ⟨depth, rfl⟩ := Nat.exists_eq_add_one_of_ne_zero hdepth.ne'
  have hopen : opendir cwd (makeDest cwd fails dest s).files src = none :=
    opendir_eq_none hsrc fun hand => by
      rw [hgone] at hand
      cases hand.2
  unfold moveDirectory
  dsimp only
  rcases call_cases fails (makeDest cwd fails dest s)
    ((opendir cwd (makeDest cwd fails dest s).files src).map fun entries =>
      ((makeDest cwd fails dest s).files, entries)) with ⟨files', entries, hr, -⟩ | ⟨-, hcall⟩
  · rw [hopen] at hr
    cases hr
  · rw [hcall]
    exact ⟨_, rfl, rfl⟩

/-- Making the destination again after `src` has gone. -/
theorem Moved.makeDest {s₁ : System} (h : Moved S D files s.files)
    (hmovable : Movable cwd src dest S D files)
    (hmade : MadeDest cwd fails dest D s s₁) : Moved S D files s₁.files := by
  obtain ⟨hsame, hdest⟩ := hmade.same hmovable.apart
  have hsrc := hsame.below_eq
  refine ⟨fun q hS hD => ?_, fun q hS hD hS' hD' => ?_, fun r => ?_⟩
  · rw [hmade.frame q fun heq => hD (by rw [heq]), h.frame q hS hD]
  · rw [hmade.order q hD', h.order q hS hD hS' hD']
  · have hfate := h.fate r
    rcases List.eq_nil_or_concat r with rfl | ⟨r, e, rfl⟩
    · rw [hsrc]
      rw [below_nil, hmovable.dir] at hfate ⊢
      refine ⟨hfate.1, ?_⟩
      rcases hmade.made with heq | ⟨hnone, hdir⟩
      · rw [below_nil s₁.files, heq]
        exact hfate.2
      · refine .inr ⟨?_, hdir⟩
        rcases hfate.2 with heq | ⟨heq, -⟩
        · rw [← heq]
          exact hnone
        · exact heq
    · rw [List.concat_eq_append, ← below_entry s₁.files e D, hdest, below_entry, hsrc]
      rwa [List.concat_eq_append] at hfate

/-! ## Run after run -/

/-- The state before a run: nothing has failed yet. -/
def System.start (files : Files) : System := { files := files, calls := 0, failed := false }

/-- One more run: it returns, and if nothing fails in it `src` is gone afterwards. -/
theorem Moved.run {depth : ℕ} (h : Moved S D files files')
    (hmovable : Movable cwd src dest S D files)
    (hdepth : ∀ r, below files S r ≠ none → r.length < depth) (fails : ℕ → Bool) :
    ∃ s', moveDirectory cwd fails depth src dest (System.start files') = some s' ∧
      Moved S D files s'.files ∧ (s'.failed = false → s'.files.node S = none) ∧
      ((∀ k, fails k = false) → Walks cwd files src → ClearWay cwd src dest S D files →
        (∀ q ∈ through cwd dest, ∀ e, ¬ (e :: S) <:+ q) → s'.files.node S = none) := by
  cases hnode : files'.node S with
  | some x =>
      have hdir : files'.node S = some .dir := by
        have hold := h.source (r := []) hnode
        rw [below_nil, hmovable.dir] at hold
        rw [hnode, ← hold]
      obtain ⟨s', hs', hout⟩ := moveDirectory_outcome fails
        (s := System.start files') (h.movable hmovable hdir)
        fun r hr => hdepth r fun hnone => by
          obtain ⟨x, hx⟩ := Option.ne_none_iff_exists'.mp hr
          have hold := h.source hx
          rw [hnone] at hold
          cases hold
      have hgone : s'.failed = false → s'.files.node S = none := fun hfailed =>
        ((hout.success hfailed).2.2 []).1
      refine ⟨s', hs', h.trans hout.moved, hgone, fun hall hwalks hclear houtside => ?_⟩
      exact hgone (hout.smooth hall (h.walks hdir hclear.aside.src hwalks)
        (h.clearWay hmovable hdir houtside hclear) rfl)
  | none =>
      have hmade := makeDest_spec fails (s := System.start files')
        hmovable.destPath hmovable.apart.ne_nil
      have hgone := hmade.frame S (hmovable.apart.ne_right [])
      obtain ⟨s', hs', hfiles⟩ := moveDirectory_gone fails
        (hdepth [] (by rw [below_nil, hmovable.dir]; simp)) hmovable.srcPath (hgone.trans hnode)
      have hnone : s'.files.node S = none := by
        rw [hfiles]
        exact hgone.trans hnode
      refine ⟨s', hs', ?_, fun _ => hnone, fun _ _ _ _ => hnone⟩
      rw [hfiles]
      exact h.makeDest hmovable hmade

/-- What is there after all of `src` has been moved into `dest`. -/
structure Merged (S D : Path) (files files' : Files) : Prop where
  gone : files'.node S = none
  arrived : ∀ r c, below files S r = some (.file c) → below files' D r = some (.file c)
  kept : ∀ r x, below files D r = some x → below files' D r = some x
  origin : ∀ r x, below files' D r = some x → below files D r = some x ∨ below files S r = some x
  frame : ∀ q, ¬ S <:+ q → ¬ D <:+ q → files'.node q = files.node q

/-- Where there is nothing at `dest`, nothing is in the way. -/
theorem clearWay_of_absent (hreached : Walks cwd files dest) (haside : Aside cwd src dest S files)
    (hsrc : endsInDots src = false) (hdest : endsInDots dest = false)
    (habsent : files.node D = none) (habove : files.node D.tail = some .dir) :
    ClearWay cwd src dest S D files where
  reached := hreached
  aside := haside
  removable := hsrc
  makeable := ⟨fun _ => ⟨hdest, habove⟩, fun c hc => by rw [habsent] at hc; cases hc⟩
  noDirForFile := fun r c _ hdir => by
    rw [below, FileTree.below_none habsent r] at hdir
    cases hdir
  nothingBelowFile := fun r c a hfile => by
    rw [below, FileTree.below_none habsent r] at hfile
    cases hfile

end OsInParts.FileIO
