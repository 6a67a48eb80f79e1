import OsInParts.Lib.Caching
import OsInParts.Paging.FaultBound

/-!
# ClockCompetitive — the simulator against the best schedule

The faults of a whole run, against the cost of any way to answer the same requests with
as many frames or fewer, also one that is made up afterwards. The simulator faults where
the clock does (`Follows.run`), and the clock is conservative (`clock_conservative`).
-/

namespace OsInParts.Clock

open Lib Lib.Machine

variable {n h : ℕ}

/-- The clock as a policy. -/
def clock (n : ℕ) : Caching.Policy (Reference n) PageNumber where
  holds r p := SecondChance.Resident r p
  next := SecondChance.clockRequest

theorem clock_missed (r : Reference n) (pages : List PageNumber) :
    (clock n).missed r pages = SecondChance.missed r pages := by
  induction pages generalizing r with
  | nil => rfl
  | cons p pages ih =>
      have hholds : ((clock n).holds r p = true) = SecondChance.Resident r p :=
        decide_eq_true_eq
      rw [Caching.Policy.missed, SecondChance.missed, ih]
      simp only [hholds]
      rfl

theorem clock_conservative : Caching.Conservative (clock n) n SecondChance.Distinct where
  keeps page hr := SecondChance.clockRequest_distinct hr page
  bound {r pages} hr hcard := by
    rw [clock_missed]
    exact SecondChance.length_missed_le hr hcard

/-- **The fault ratio**: a run that starts with empty frames faults at most `n` times as
often as any schedule with `n` frames has to bring in a page, and `n / (n + 1 - h)` times
as often, up to a constant, as one with `h` frames. -/
theorem clock_competitive (hn : 0 < n) {pages : List PageNumber} {cost : ℕ}
    (hserves : Caching.Serves h ∅ pages cost) :
    ∃ s, final step (initializeMemory (initial hn)) pages = some s ∧
      (n + 1 - h) * s.totalFaults ≤ n * (cost + (n - h)) := by
  have hfollows := follows_initial hn
  obtain ⟨s, r, hfinal, -, hmissed, hcount⟩ := hfollows.run pages
  have hstart : (initializeMemory (initial hn)).totalFaults = 0 := rfl
  rw [hmissed, hstart, Nat.zero_add] at hcount
  refine ⟨s, hfinal, ?_⟩
  rw [hcount, ← clock_missed]
  exact clock_conservative.competitive hn hfollows.distinct hserves

/-- Three frames, and a schedule with two for the first four requests of the sample. -/
theorem clock_competitive_sample :
    ∃ s, final step (initializeMemory (initial (Nat.succ_pos 2))) (sampleRequests.take 4)
        = some s ∧ (3 + 1 - 2) * s.totalFaults ≤ 3 * (3 + (3 - 2)) := by
  let zero : PageNumber := ⟨0, by decide⟩
  let one : PageNumber := ⟨1, by decide⟩
  let four : PageNumber := ⟨4, by decide⟩
  have hlast : Caching.Serves 2 {one, four} [four] (0 + 0) :=
    .request {one, four} (by decide) (by decide) (.nil _)
  have hthird : Caching.Serves 2 {zero, four} [one, four] (1 + (0 + 0)) :=
    .request {one, four} (by decide) (by decide) hlast
  have hsecond : Caching.Serves 2 {zero} [four, one, four] (1 + (1 + (0 + 0))) :=
    .request {zero, four} (by decide) (by decide) hthird
  have hfirst : Caching.Serves 2 ∅ (sampleRequests.take 4) (1 + (1 + (1 + (0 + 0)))) :=
    .request {zero} (by decide) (by decide) hsecond
  exact clock_competitive (Nat.succ_pos 2) hfirst

end OsInParts.Clock
