import OsInParts.FileIO.MoveRetry

/-!
# MoveBack — moved there and back

Where there is nothing at `dest` and nothing fails, `dest` is afterwards what `src` was,
empty directories included, and `src` is free to move back to (`moveDirectory_fresh`).
-/

namespace OsInParts.FileIO

open Lib.Directories

variable {cwd : Path} {S D : Path} {src dest : List UInt8} {files : Files}

/-- What `dest` is for, before a move to where nothing is; the strings lead through
nothing that is moved. -/
structure Fresh (cwd : Path) (src dest : List UInt8) (S D : Path) (files : Files) : Prop where
  movable : Movable cwd src dest S D files
  walks : ∀ q ∈ through cwd src ++ through cwd dest, files.node q = some .dir ∧ ¬ S <:+ q
  removable : endsInDots src = false
  makeable : endsInDots dest = false
  absent : files.node D = none
  above : files.node D.tail = some .dir

/-- All of `src` is at `dest`, and nothing else has changed. -/
structure Replaced (S D : Path) (files files' : Files) : Prop where
  gone : ∀ r, below files' S r = none
  arrived : ∀ r, below files' D r = below files S r
  frame : ∀ q, ¬ S <:+ q → ¬ D <:+ q → files'.node q = files.node q

/-- **A move to where nothing is.** -/
theorem moveDirectory_fresh {depth : ℕ} (h : Fresh cwd src dest S D files)
    (hdepth : ∀ r, below files S r ≠ none → r.length < depth) :
    ∃ s', moveDirectory cwd (fun _ => false) depth src dest (System.start files) = some s' ∧
      s'.failed = false ∧ Replaced S D files s'.files := by
  obtain ⟨s', hs', hout⟩ := moveDirectory_outcome (fun _ => false)
    (s := System.start files) h.movable hdepth
  have haside : Aside cwd src dest S files := aside_of_outside fun q hq e hsuffix =>
    (h.walks q hq).2 ((List.suffix_cons e S).trans hsuffix)
  have hfailed := hout.smooth (fun _ => rfl) (fun q hq => (h.walks q (List.mem_append_left _ hq)).1)
    (clearWay_of_absent (fun q hq => (h.walks q (List.mem_append_right _ hq)).1) haside
      h.removable h.makeable h.absent h.above) rfl
  obtain ⟨-, -, harrived⟩ := hout.success hfailed
  refine ⟨s', hs', hfailed, fun r => (harrived r).1, fun r => ?_, hout.moved.frame⟩
  have hdest := (harrived r).2
  have hnone : below (System.start files).files D r = none := FileTree.below_none h.absent r
  rw [hnone] at hdest
  show below s'.files D r = below (System.start files).files S r
  rcases hsrc : below (System.start files).files S r with _ | _ | c <;> rw [hsrc] at hdest
  · exact hdest
  · exact hdest
  · exact hdest

/-- The way back is as clear as the way there. -/
theorem Fresh.back {files' : Files} (h : Fresh cwd src dest S D files)
    (hreplaced : Replaced S D files files') : Fresh cwd dest src D S files' where
  movable := by
    refine ⟨h.movable.destPath, h.movable.srcPath, h.movable.apart.symm, ?_,
      fun r c c' _ hfile => ?_, fun r hr hne => ?_⟩
    · rw [← below_nil, hreplaced.arrived, below_nil, h.movable.dir]
    · rw [hreplaced.gone] at hfile
      cases hfile
    · rw [hreplaced.arrived] at hne
      exact (h.movable.short r hr hne).symm
  walks := by
    intro q hq
    have hwalks := h.walks q ((List.mem_append.mp hq).elim (List.mem_append_right _)
      (List.mem_append_left _))
    -- nothing was at `dest`, so no string led through it
    have hD : ¬ D <:+ q := by
      rintro ⟨r, rfl⟩
      rw [FileTree.below_none h.absent r] at hwalks
      cases hwalks.1
    exact ⟨(hreplaced.frame q hwalks.2 hD).trans hwalks.1, hD⟩
  removable := h.makeable
  makeable := h.removable
  absent := hreplaced.gone []
  above := by
    obtain ⟨a, p, rfl⟩ := List.exists_cons_of_ne_nil h.movable.apart.symm.ne_nil
    have hdir : files.node p = some .dir := files.parent p a (by rw [h.movable.dir]; simp)
    rw [List.tail_cons, hreplaced.frame p (fun hS => ?_) fun hD => ?_, hdir]
    · have hlength := hS.length_le
      rw [List.length_cons] at hlength
      omega
    · exact h.movable.apart.right (hD.trans (List.suffix_cons a p))

/-- **There and back again**: where nothing fails, every path is what it was. -/
theorem move_back {depth : ℕ} (h : Fresh cwd src dest S D files)
    (hdepth : ∀ r, below files S r ≠ none → r.length < depth) :
    ∃ s₁ s₂, moveDirectory cwd (fun _ => false) depth src dest (System.start files) = some s₁ ∧
      (∀ r, below s₁.files D r = below files S r) ∧
      moveDirectory cwd (fun _ => false) depth dest src (System.start s₁.files) = some s₂ ∧
      s₁.failed = false ∧ s₂.failed = false ∧ s₂.files.node = files.node := by
  obtain ⟨s₁, hs₁, hfailed₁, hthere⟩ := moveDirectory_fresh h hdepth
  have hdepth' : ∀ r, below s₁.files D r ≠ none → r.length < depth := fun r hr =>
    hdepth r (by rwa [hthere.arrived] at hr)
  obtain ⟨s₂, hs₂, hfailed₂, hback⟩ := moveDirectory_fresh (h.back hthere) hdepth'
  refine ⟨s₁, s₂, hs₁, hthere.arrived, hs₂, hfailed₁, hfailed₂, funext fun q => ?_⟩
  by_cases hS : S <:+ q
  · obtain ⟨r, rfl⟩ := hS
    exact (hback.arrived r).trans (hthere.arrived r)
  · by_cases hD : D <:+ q
    · obtain ⟨r, rfl⟩ := hD
      exact (hback.gone r).trans (FileTree.below_none h.absent r).symm
    · rw [hback.frame q hD hS, hthere.frame q hS hD]

/-- `/s` with its file goes to `/f` and back. -/
theorem move_back_oneFile :
    ∃ s₁ s₂, moveDirectory [] (fun _ => false) 2 [115] [102] (System.start oneFile) = some s₁ ∧
      (∀ r, below s₁.files [freeName] r = below oneFile [srcName] r) ∧
      moveDirectory [] (fun _ => false) 2 [102] [115] (System.start s₁.files) = some s₂ ∧
      s₁.failed = false ∧ s₂.failed = false ∧ s₂.files.node = oneFile.node := by
  exact move_back ⟨oneFile_movable, by decide, by decide, by decide, by decide, rfl⟩
    fun _ => oneFile_depth

end OsInParts.FileIO
