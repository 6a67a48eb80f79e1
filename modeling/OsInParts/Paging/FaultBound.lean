import OsInParts.Lib.ClockWindow
import OsInParts.Paging.ClockRefinement

/-!
# FaultBound — at most one fault per page in a small window

The simulator never uses an empty frame as such, so its hand always moves as
in `SecondChance.clockRequest`: the two memories agree frame by frame, with
the hands on the same frame, from the initialised memory on (`Follows`). The
bound for windows of requests comes from there.
-/

namespace OsInParts.Clock

open Lib Lib.Machine

variable {n : Nat}

/-- The simulator and the clock that has no rule for empty frames. -/
structure Follows (s : State n) (r : Reference n) : Prop where
  same : SameFrames s r
  hand : s.clockHand = r.hand
  distinct : SecondChance.Distinct r

theorem follows_initial (hn : 0 < n) :
    Follows (initializeMemory (initial hn)) (SecondChance.empty hn) where
  same := (matches_initial hn).same
  hand := rfl
  distinct := by
    intro i j p hi
    cases hi

/-- A request for a resident page is a hit. -/
theorem Follows.hit {s : State n} {r : Reference n} (h : Follows s r) {p : PageNumber}
    (hres : SecondChance.Resident r p) :
    ∃ s', handlePageRequest s p.1 = some s' ∧ Follows s' (SecondChance.clockRequest r p) ∧
      s'.totalFaults = s.totalFaults := by
  cases hlow : SecondChance.lowest fun i => decide (r.frames i = some p) with
  | none =>
      obtain ⟨i, hi⟩ := hres
      have hnot := SecondChance.lowest_none.mp hlow i
      simp [hi] at hnot
  | some i =>
      rw [handlePageRequest_hit h.same hlow]
      refine ⟨_, rfl, ⟨?_, ?_, SecondChance.clockRequest_distinct h.distinct p⟩, rfl⟩
      · have hsame := h.same.setBit i true
        simp only [SecondChance.clockRequest, hlow]
        exact ⟨hsame.page, hsame.bit, hsame.clean⟩
      · simp only [SecondChance.clockRequest, hlow]
        exact h.hand

/-- Any other request is a fault. -/
theorem Follows.miss {s : State n} {r : Reference n} (h : Follows s r) {p : PageNumber}
    (hres : ¬ SecondChance.Resident r p) :
    ∃ s', handlePageRequest s p.1 = some s' ∧ Follows s' (SecondChance.clockRequest r p) ∧
      s'.totalFaults = s.totalFaults + 1 := by
  have hlow : SecondChance.lowest (fun i => decide (r.frames i = some p)) = none := by
    rw [SecondChance.lowest_none]
    intro i
    rw [decide_eq_false_iff_not]
    exact fun hi => hres ⟨i, hi⟩
  obtain ⟨s', hs', hsame, hnext, -, hfaults⟩ := handlePageRequest_miss
    (r := { r with faults := r.faults + 1 }) ⟨h.same.page, h.same.bit, h.same.clean⟩ h.hand hlow
  refine ⟨s', hs', ⟨?_, ?_, SecondChance.clockRequest_distinct h.distinct p⟩, hfaults⟩
  · rw [SecondChance.clockRequest_miss hres]
    exact ⟨hsame.page, hsame.bit, hsame.clean⟩
  · rw [SecondChance.clockRequest_miss hres]
    exact hnext

/-! ## Runs -/

/-- The requests of a run that raise `total_faults`, in order. -/
def faultedPages : State n → List PageNumber → List PageNumber
  | _, [] => []
  | s, p :: reqs =>
      match handlePageRequest s p.1 with
      | none => []
      | some s' =>
          if s.totalFaults < s'.totalFaults then p :: faultedPages s' reqs
          else faultedPages s' reqs

/-- A run of the simulator faults where the clock does. -/
theorem Follows.run {s : State n} {r : Reference n} (h : Follows s r) (reqs : List PageNumber) :
    ∃ s' r', final step s reqs = some s' ∧ Follows s' r' ∧
      faultedPages s reqs = SecondChance.missed r reqs ∧
      s'.totalFaults = s.totalFaults + (faultedPages s reqs).length := by
  induction reqs generalizing s r with
  | nil => exact ⟨s, r, rfl, h, rfl, rfl⟩
  | cons p reqs ih =>
      by_cases hres : SecondChance.Resident r p
      · obtain ⟨s₁, hs₁, h₁, hcount₁⟩ := h.hit hres
        obtain ⟨s', r', hfinal, h', hmissed, hcount⟩ := ih h₁
        have hpages : faultedPages s (p :: reqs) = faultedPages s₁ reqs := by
          simp only [faultedPages, hs₁]
          rw [if_neg (by omega)]
        refine ⟨s', r', ?_, h', ?_, ?_⟩
        · simp [final, step, hs₁, hfinal]
        · rw [hpages, hmissed, SecondChance.missed, if_pos hres]
        · rw [hpages, hcount, hcount₁]
      · obtain ⟨s₁, hs₁, h₁, hcount₁⟩ := h.miss hres
        obtain ⟨s', r', hfinal, h', hmissed, hcount⟩ := ih h₁
        have hpages : faultedPages s (p :: reqs) = p :: faultedPages s₁ reqs := by
          simp only [faultedPages, hs₁]
          rw [if_pos (by omega)]
        refine ⟨s', r', ?_, h', ?_, ?_⟩
        · simp [final, step, hs₁, hfinal]
        · rw [hpages, hmissed, SecondChance.missed, if_neg hres]
        · rw [hpages, hcount, hcount₁, List.length_cons]
          omega

/-- **The fault bound**: in any window of any run that asks for at most
`num_frames` pages no page faults twice, so the window has at most
`num_frames` faults. -/
theorem window_faults (hn : 0 < n) (before window : List PageNumber)
    (hwindow : window.toFinset.card ≤ n) :
    ∃ s s', final step (initializeMemory (initial hn)) before = some s ∧
      final step s window = some s' ∧
      (faultedPages s window).Nodup ∧
      s'.totalFaults = s.totalFaults + (faultedPages s window).length ∧
      (faultedPages s window).length ≤ n := by
  obtain ⟨s, r, hbefore, hs, -, -⟩ := (follows_initial hn).run before
  obtain ⟨s', -, hfinal, -, hmissed, hcount⟩ := hs.run window
  refine ⟨s, s', hbefore, hfinal, ?_, hcount, ?_⟩
  · rw [hmissed]
    exact SecondChance.missed_nodup hs.distinct hwindow
  · rw [hmissed]
    exact SecondChance.length_missed_le hs.distinct hwindow

/-- The sample line with five pages, and a window of it with three frames
that asks for three of them. -/
theorem window_faults_sample :
    ∃ s s', final step (initializeMemory (initial (Nat.succ_pos 2)))
        (sampleRequests.take 5) = some s ∧
      final step s ((sampleRequests.drop 5).take 4) = some s' ∧
      (faultedPages s ((sampleRequests.drop 5).take 4)).Nodup ∧
      s'.totalFaults
        = s.totalFaults + (faultedPages s ((sampleRequests.drop 5).take 4)).length ∧
      (faultedPages s ((sampleRequests.drop 5).take 4)).length ≤ 3 :=
  window_faults (Nat.succ_pos 2) (sampleRequests.take 5) ((sampleRequests.drop 5).take 4)
    (by decide)

end OsInParts.Clock
