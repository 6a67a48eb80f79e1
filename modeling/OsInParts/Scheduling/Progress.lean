import OsInParts.Lib.Schedule
import OsInParts.Scheduling.Schedulers

/-!
# Progress — what every scheduler keeps account of

`Ledger` relates the slices executed before time `t` to the work that is
left: a scheduler that waits only when no released work is left is busy in
the slots of `Lib.Schedule.Busy` and in no others. `Progress` adds the
variables that `sjf`, `srtf` and `rr` share. Both are kept by the two things
a scheduler can do, wait and execute (`Progress.tick`, `Progress.execute`),
so a loop only has to say which of the two it does and to which process.
-/

namespace OsInParts.Scheduling

open Lib.Schedule

variable {n : Nat}

/-- The processes as jobs with release times and work. -/
def jobs (p : Fin n → Process) : Jobs (Fin n) :=
  { release := fun i => (p i).arrivalTime.toNat, work := fun i => (p i).burstTime.toNat }

/-- Arrival times from 0 on and burst times from 1 on. -/
structure Valid (p : Fin n → Process) : Prop where
  arrival : ∀ i, 0 ≤ (p i).arrivalTime
  burst : ∀ i, 1 ≤ (p i).burstTime

section Valid

variable {p : Fin n → Process} (h : Valid p)

include h

theorem Valid.release (i : Fin n) : ((jobs p).release i : Int) = (p i).arrivalTime :=
  Int.toNat_of_nonneg (h.arrival i)

theorem Valid.work (i : Fin n) : ((jobs p).work i : Int) = (p i).burstTime :=
  Int.toNat_of_nonneg (by have := h.burst i; omega)

theorem Valid.work_pos (i : Fin n) : 0 < (jobs p).work i := by
  have := h.work i
  have := h.burst i
  omega

theorem Valid.release_le_iff (i j : Fin n) :
    (jobs p).release i ≤ (jobs p).release j ↔ (p i).arrivalTime ≤ (p j).arrivalTime := by
  rw [← h.release i, ← h.release j, Int.ofNat_le]

variable (hfit : TimesFit p)

include hfit

theorem Valid.fit_nat (i : Fin n) :
    ((jobs p).release i : Int) + (∑ j, if (jobs p).release i ≤ (jobs p).release j
      then (jobs p).work j else 0 : ℕ) ≤ intMax := by
  refine le_of_eq_of_le ?_ (hfit i)
  rw [h.release i, Nat.cast_sum]
  congr 1
  refine Finset.sum_congr rfl fun j _ => ?_
  by_cases hj : (jobs p).release i ≤ (jobs p).release j
  · rw [if_pos hj, if_pos ((h.release_le_iff i j).mp hj), h.work j]
  · rw [if_neg hj, if_neg (mt (h.release_le_iff i j).mpr hj), Nat.cast_zero]

theorem Valid.release_le (i : Fin n) : ((jobs p).release i : Int) ≤ intMax := by
  have := h.fit_nat hfit i
  omega

/-- The clock stays in range while a process is executed. -/
theorem Valid.busy_le {t : ℕ} (ht : Busy (jobs p) t) : ((t + 1 : ℕ) : Int) ≤ intMax := by
  have := busy_succ_le (b := intMax.toNat)
    (fun i => by have := h.fit_nat hfit i; omega) ht
  have hpos := intMax_nonneg
  omega

end Valid

/-! ## The ledger -/

/-- **The account at time `t`**: `rem` is the work that is left. -/
structure Ledger (J : Jobs (Fin n)) (rem : Fin n → ℕ) (t : ℕ) (slices : List (Slice n)) :
    Prop where
  le : ∀ i, rem i ≤ J.work i
  fresh : ∀ i, t < J.release i → rem i = J.work i
  account : executed J t + ∑ i, rem i = ∑ i, J.work i
  busy : ∀ u : Int, u ∈ busyUnits slices ↔ ∃ v : ℕ, u = v ∧ v < t ∧ Busy J v

variable {J : Jobs (Fin n)} {rem : Fin n → ℕ} {t : ℕ} {slices : List (Slice n)}

theorem Ledger.start (J : Jobs (Fin n)) : Ledger J J.work 0 [] where
  le := fun _ => le_rfl
  fresh := fun _ _ => rfl
  account := Nat.zero_add _
  busy := fun u => by simp [busyUnits]

/-- What has been released and not been done is outstanding. -/
theorem Ledger.arrived_eq (h : Ledger J rem t slices) :
    arrived J t = executed J t + ∑ i, J.outstanding rem t i := by
  have hsum : arrived J t + ∑ i, rem i = ∑ i, J.work i + ∑ i, J.outstanding rem t i := by
    rw [arrived, ← Finset.sum_add_distrib, ← Finset.sum_add_distrib]
    refine Finset.sum_congr rfl fun i _ => ?_
    unfold Jobs.outstanding
    by_cases hi : J.release i ≤ t
    · rw [if_pos hi, if_pos hi]
    · rw [if_neg hi, if_neg hi, h.fresh i (by omega), Nat.zero_add, Nat.add_zero]
  have := h.account
  omega

/-- Waiting for `d` units in which no work is released that is not done. -/
theorem Ledger.wait (h : Ledger J rem t slices) {d : ℕ}
    (hidle : ∀ i, rem i ≠ 0 → ∀ u, t ≤ u → u < t + d → u < J.release i) :
    Ledger J rem (t + d) slices := by
  have harrived : ∀ u, t ≤ u → u < t + d → arrived J u = executed J t := fun u h1 h2 => by
    have hsum : arrived J u + ∑ i, rem i = ∑ i, J.work i := by
      rw [arrived, ← Finset.sum_add_distrib]
      refine Finset.sum_congr rfl fun i _ => ?_
      by_cases hi : J.release i ≤ u
      · have hzero : rem i = 0 := by
          by_contra hne
          exact absurd (hidle i hne u h1 h2) (not_lt.mpr hi)
        rw [if_pos hi, hzero, Nat.add_zero]
      · rw [if_neg hi, h.fresh i (by omega), Nat.zero_add]
    have := h.account
    omega
  obtain ⟨hex, hbusy⟩ := idle_of_done harrived
  refine ⟨h.le, fun i hi => h.fresh i (by omega), by rw [hex]; exact h.account, fun u => ?_⟩
  rw [h.busy u]
  refine exists_congr fun v => and_congr_right fun _ => ⟨fun ⟨h1, h2⟩ => ⟨by omega, h2⟩,
    fun ⟨h1, h2⟩ => ⟨by_contra fun hv => hbusy v (by omega) h1 h2, h2⟩⟩

/-- Executing `d` units of a process that has arrived. -/
theorem Ledger.execute (h : Ledger J rem t slices) {i : Fin n} {d : ℕ}
    (hi : J.release i ≤ t) (hd : d ≤ rem i) :
    Ledger J (Function.update rem i (rem i - d)) (t + d)
        (slices ++ [{ process := i, start := t, stop := (t + d : ℕ) }]) ∧
      ∀ u, t ≤ u → u < t + d → Busy J u := by
  have hwork : executed J t + d ≤ arrived J t := by
    have hle : rem i ≤ ∑ i, J.outstanding rem t i := by
      refine le_trans (le_of_eq ?_) (Finset.single_le_sum (f := fun i => J.outstanding rem t i)
        (fun _ _ => Nat.zero_le _) (Finset.mem_univ i))
      exact (if_pos hi).symm
    rw [h.arrived_eq]
    omega
  obtain ⟨hex, hbusy⟩ := busy_of_work hwork
  refine ⟨⟨fun j => ?_, fun j hj => ?_, ?_, fun u => ?_⟩, hbusy⟩
  · by_cases hji : j = i
    · subst hji
      rw [Function.update_self]
      exact (Nat.sub_le _ _).trans (h.le j)
    · rw [Function.update_of_ne hji]
      exact h.le j
  · rw [Function.update_of_ne (by rintro rfl; omega)]
    exact h.fresh j (by omega)
  · have hsum : ∑ j, Function.update rem i (rem i - d) j + d = ∑ j, rem j := by
      rw [Finset.sum_update_of_mem (Finset.mem_univ i), Finset.sdiff_singleton_eq_erase,
        ← Finset.add_sum_erase Finset.univ rem (Finset.mem_univ i)]
      omega
    have := h.account
    rw [hex]
    omega
  · have hmem : u ∈ busyUnits (slices ++ [{ process := i, start := t, stop := (t + d : ℕ) }])
        ↔ u ∈ busyUnits slices ∨ ((t : Int) ≤ u ∧ u < (t + d : ℕ)) := by
      simp [busyUnits, or_and_right, exists_or]
    rw [hmem, h.busy u]
    constructor
    · rintro (⟨v, rfl, hv, hb⟩ | ⟨h1, h2⟩)
      · exact ⟨v, rfl, by omega, hb⟩
      · refine ⟨u.toNat, by omega, by omega, hbusy _ (by omega) (by omega)⟩
    · rintro ⟨v, rfl, hv, hb⟩
      by_cases hvt : v < t
      · exact .inl ⟨v, rfl, hvt, hb⟩
      · exact .inr ⟨by omega, by omega⟩

/-- With no work left, the slices are all the busy slots there are. -/
theorem Ledger.all_busy (h : Ledger J rem t slices) (hrem : ∀ i, rem i = 0) :
    busyUnits slices = { u : Int | ∃ v : ℕ, u = v ∧ Busy J v } ∧ ∀ u, t ≤ u → ¬ Busy J u := by
  have hdone : executed J t = ∑ i, J.work i := by
    have hex := h.account
    rw [Finset.sum_eq_zero (s := Finset.univ) fun i _ => hrem i] at hex
    omega
  refine ⟨Set.ext fun u => ?_, fun u hu => not_busy_of_done hdone hu⟩
  rw [h.busy u]
  refine exists_congr fun v => and_congr_right fun _ => ⟨fun h => h.2, fun hb => ⟨?_, hb⟩⟩
  by_contra hv
  exact not_busy_of_done hdone (by omega) hb

/-! ## The shared variables -/

/-- **The state of a loop at time `t`**, with `rem` left of each process of the
array `p`. -/
structure Progress (p : Fin n → Process) (rem : Fin n → ℕ) (t : ℕ) (s : Cpu n) : Prop where
  ledger : Ledger (jobs p) rem t s.slices
  time : s.currentTime = t
  arrival : ∀ i, (s.p i).arrivalTime = (p i).arrivalTime
  burst : ∀ i, (s.p i).burstTime = (p i).burstTime
  isCompleted : ∀ i, s.isCompleted i = true ↔ rem i = 0
  completed : s.completed = (Finset.univ.filter fun i => s.isCompleted i = true).card
  completion_le : ∀ i, s.isCompleted i = true → (s.p i).completionTime ≤ t
  completion_ge : ∀ i, s.isCompleted i = true → (p i).arrivalTime ≤ (s.p i).completionTime
  turnaround : s.totalTurnaroundTime = intValue
    (∑ i, if s.isCompleted i = true then (s.p i).completionTime - (p i).arrivalTime else 0)
  /-- the last thing done is to complete the last process -/
  last : s.completed = n → 0 < n →
    0 < t ∧ Busy (jobs p) (t - 1) ∧ ∃ i, (s.p i).completionTime = t

variable {p : Fin n → Process} {s : Cpu n}

theorem Progress.start (h : Valid p) : Progress p (jobs p).work 0 (Cpu.initial p) where
  ledger := Ledger.start _
  time := rfl
  arrival := fun _ => rfl
  burst := fun _ => rfl
  isCompleted := fun i => by
    have := h.work_pos i
    simp only [Cpu.initial, Bool.false_eq_true, false_iff]
    omega
  completed := by simp [Cpu.initial]
  completion_le := fun i hi => by cases hi
  completion_ge := fun i hi => by cases hi
  turnaround := by simp [Cpu.initial]
  last := fun h0 hn => absurd h0 (Nat.ne_of_lt hn)

/-- Eligible for a scan at this state: arrived, with work left. -/
theorem Progress.eligible_iff (hv : Valid p) (h : Progress p rem t s) (i : Fin n) :
    ((s.p i).arrivalTime ≤ s.currentTime ∧ s.isCompleted i = false) ↔
      (jobs p).release i ≤ t ∧ rem i ≠ 0 := by
  have h1 : (s.p i).arrivalTime ≤ s.currentTime ↔ (jobs p).release i ≤ t := by
    rw [h.arrival i, h.time, ← hv.release i, Int.ofNat_le]
  rw [h1, ← Bool.not_eq_true, h.isCompleted i]

/-- While the loop runs some process is not finished. -/
theorem Progress.exists_unfinished (h : Progress p rem t s) (hopen : s.completed ≠ n) :
    ∃ i, rem i ≠ 0 := by
  by_contra hnone
  simp only [not_exists, not_not] at hnone
  refine hopen ?_
  rw [h.completed, Finset.filter_true_of_mem fun i _ => (h.isCompleted i).mpr (hnone i),
    Finset.card_univ, Fintype.card_fin]

theorem Progress.all_finished (h : Progress p rem t s) (hdone : s.completed = n) (i : Fin n) :
    s.isCompleted i = true := by
  have hcard : (Finset.univ.filter fun i => s.isCompleted i = true).card
      = (Finset.univ : Finset (Fin n)).card := by
    rw [← h.completed, hdone, Finset.card_univ, Fintype.card_fin]
  exact Finset.card_filter_eq_iff.mp hcard i (Finset.mem_univ i)

theorem Progress.completed_le (h : Progress p rem t s) : s.completed ≤ n := by
  rw [h.completed]
  exact (Finset.card_filter_le _ _).trans (by rw [Finset.card_univ, Fintype.card_fin])

theorem Progress.sum_nonneg (h : Progress p rem t s) :
    0 ≤ ∑ i, if s.isCompleted i = true then (s.p i).completionTime - (p i).arrivalTime else 0 :=
  Finset.sum_nonneg fun i _ => by
    split
    · exact Int.sub_nonneg_of_le (h.completion_ge i ‹_›)
    · exact le_rfl

/-- Writing fields of a process that none of this depends on. -/
theorem Progress.setProcess (h : Progress p rem t s) (i : Fin n) (process : Process)
    (harr : process.arrivalTime = (s.p i).arrivalTime)
    (hburst : process.burstTime = (s.p i).burstTime)
    (hcomp : process.completionTime = (s.p i).completionTime) :
    Progress p rem t (s.setProcess i process) := by
  have hcompletion : ∀ j, ((s.setProcess i process).p j).completionTime
      = (s.p j).completionTime := fun j => by
    by_cases hj : j = i
    · subst hj
      simpa only [Cpu.setProcess, Function.update_self] using hcomp
    · simp only [Cpu.setProcess, Function.update_of_ne hj]
  refine ⟨h.ledger, h.time, fun j => ?_, fun j => ?_, h.isCompleted, h.completed,
    fun j hj => ?_, fun j hj => ?_, ?_, fun h1 h2 => ?_⟩
  · by_cases hj : j = i
    · subst hj
      simp only [Cpu.setProcess, Function.update_self]
      exact harr.trans (h.arrival j)
    · simp only [Cpu.setProcess, Function.update_of_ne hj]
      exact h.arrival j
  · by_cases hj : j = i
    · subst hj
      simp only [Cpu.setProcess, Function.update_self]
      exact hburst.trans (h.burst j)
    · simp only [Cpu.setProcess, Function.update_of_ne hj]
      exact h.burst j
  · rw [hcompletion j]
    exact h.completion_le j hj
  · rw [hcompletion j]
    exact h.completion_ge j hj
  · simp only [hcompletion]
    exact h.turnaround
  · obtain ⟨hpos, hbusy, j, hj⟩ := h.last h1 h2
    exact ⟨hpos, hbusy, j, by rw [hcompletion j, hj]⟩

section Complete

variable (s) (i : Fin n)

theorem complete_isCompleted (j : Fin n) :
    (s.complete i).isCompleted j = true ↔ j = i ∨ s.isCompleted j = true := by
  by_cases hj : j = i
  · subst hj
    simp [Cpu.complete]
  · simp [Cpu.complete, hj]

theorem complete_of_ne {j : Fin n} (hj : j ≠ i) : (s.complete i).p j = s.p j :=
  Function.update_of_ne hj ..

theorem complete_times (j : Fin n) :
    ((s.complete i).p j).arrivalTime = (s.p j).arrivalTime ∧
      ((s.complete i).p j).burstTime = (s.p j).burstTime ∧
      ((s.complete i).p j).remainingTime = (s.p j).remainingTime := by
  by_cases hj : j = i
  · subst hj
    simp only [Cpu.complete, Function.update_self, and_self]
  · rw [complete_of_ne s i hj]
    exact ⟨rfl, rfl, rfl⟩

theorem complete_completionTime : ((s.complete i).p i).completionTime = s.currentTime := by
  simp only [Cpu.complete, Function.update_self]

theorem filter_complete :
    (Finset.univ.filter fun j => (s.complete i).isCompleted j = true)
      = insert i (Finset.univ.filter fun j => s.isCompleted j = true) := by
  ext j
  simp only [Finset.mem_filter, Finset.mem_univ, true_and, Finset.mem_insert,
    complete_isCompleted]

end Complete

/-- **Waiting** for one unit, when nothing that has arrived is unfinished. -/
theorem Progress.tick (hv : Valid p) (hfit : TimesFit p) (h : Progress p rem t s)
    (hopen : s.completed ≠ n) (hidle : ∀ i, rem i ≠ 0 → t < (jobs p).release i) :
    ∃ s', s.tick = some s' ∧ s'.p = s.p ∧ s'.isCompleted = s.isCompleted ∧
      s'.currentTime ≤ intMax ∧ Progress p rem (t + 1) s' := by
  obtain ⟨i, hi⟩ := h.exists_unfinished hopen
  have hlate := hidle i hi
  have hmax := hv.release_le hfit i
  have htime := h.time
  have hadd : addInt s.currentTime 1 = some ((t + 1 : ℕ) : Int) :=
    addInt_eq_some.mpr ⟨by omega, by unfold intMin; omega, by omega⟩
  refine ⟨{ s with currentTime := ((t + 1 : ℕ) : Int) }, by rw [Cpu.tick, hadd]; rfl, rfl, rfl,
    by show ((t + 1 : ℕ) : Int) ≤ intMax; omega, ?_⟩
  refine ⟨h.ledger.wait fun i hi u h1 h2 => ?_, rfl, h.arrival, h.burst, h.isCompleted,
    h.completed, fun j hj => (h.completion_le j hj).trans (by omega), h.completion_ge,
    h.turnaround,
    fun hdone => absurd hdone hopen⟩
  have := hidle i hi
  omega

/-- There is room on the clock for a process that has arrived. -/
theorem Progress.exists_execute (hv : Valid p) (hfit : TimesFit p) (h : Progress p rem t s)
    {i : Fin n} {d : ℕ} (hi : (jobs p).release i ≤ t) (hpos : 0 < d) (hd : d ≤ rem i) :
    ∃ s', s.execute i d = some s' := by
  have hmax := hv.busy_le hfit ((h.ledger.execute hi hd).2 (t + d - 1) (by omega) (by omega))
  have htime := h.time
  have hadd : addInt s.currentTime d = some ((t + d : ℕ) : Int) :=
    addInt_eq_some.mpr ⟨by omega, by unfold intMin; omega, by omega⟩
  exact ⟨_, by rw [Cpu.execute, hadd]; rfl⟩

/-- **Executing** a process that has arrived and is not finished, short of its
completion or up to it. -/
theorem Progress.execute (h : Progress p rem t s) {i : Fin n} {d : ℕ}
    (hi : (jobs p).release i ≤ t) (hpos : 0 < d) (hd : d ≤ rem i) {s' : Cpu n}
    (hs : s.execute i d = some s') :
    s'.p = s.p ∧ s'.isCompleted = s.isCompleted ∧ s'.currentTime ≤ intMax ∧
      (d < rem i → Progress p (Function.update rem i (rem i - d)) (t + d) s') ∧
      (d = rem i → Progress p (Function.update rem i 0) (t + d) (s'.complete i)) := by
  obtain ⟨hledger, hbusy⟩ := h.ledger.execute hi hd
  have hlast : Busy (jobs p) (t + d - 1) := hbusy _ (by omega) (by omega)
  have hnot : s.isCompleted i ≠ true := fun hc => by
    have := (h.isCompleted i).mp hc
    omega
  obtain ⟨c, hadd, rfl⟩ := Option.map_eq_some_iff.mp hs
  obtain ⟨hc, -, hmax⟩ := addInt_eq_some.mp hadd
  obtain rfl : c = ((t + d : ℕ) : Int) := by rw [← hc, h.time, Nat.cast_add]
  rw [h.time]
  have harrived : (p i).arrivalTime ≤ ((t + d : ℕ) : Int) := by
    have hrelease : (p i).arrivalTime ≤ (jobs p).release i := Int.self_le_toNat _
    omega
  refine ⟨rfl, rfl, hmax, fun hlt => ?_, fun heq => ?_⟩
  · refine ⟨hledger, rfl, h.arrival, h.burst, fun j => ?_, h.completed,
      fun j hj => (h.completion_le j hj).trans (by omega), h.completion_ge, h.turnaround,
      fun hdone => ?_⟩
    · rw [h.isCompleted j]
      by_cases hj : j = i
      · subst hj
        rw [Function.update_self]
        omega
      · rw [Function.update_of_ne hj]
    · exact absurd (h.all_finished hdone i) hnot
  · have hzero : rem i - d = 0 := by omega
    rw [hzero] at hledger
    refine ⟨hledger, rfl, fun j => ?_, fun j => ?_, fun j => ?_, ?_, fun j hj => ?_,
      fun j hj => ?_, ?_, fun _ _ => ⟨by omega, hlast, i, complete_completionTime _ i⟩⟩
    · rw [(complete_times _ i j).1]
      exact h.arrival j
    · rw [(complete_times _ i j).2.1]
      exact h.burst j
    · rw [complete_isCompleted]
      by_cases hj : j = i
      · subst hj
        simp
      · simpa [hj] using h.isCompleted j
    · rw [filter_complete, Finset.card_insert_of_notMem (by simpa using hnot)]
      exact congrArg (· + 1) h.completed
    · rcases (complete_isCompleted _ i j).mp hj with rfl | hj
      · rw [complete_completionTime]
      · rw [complete_of_ne _ i (by rintro rfl; exact hnot hj)]
        exact (h.completion_le j hj).trans (by omega)
    · rcases (complete_isCompleted _ i j).mp hj with rfl | hj
      · rw [complete_completionTime]
        exact harrived
      · rw [complete_of_ne _ i (by rintro rfl; exact hnot hj)]
        exact h.completion_ge j hj
    · -- the total grows by the turnaround time of the completed process
      rw [← Finset.sum_filter, filter_complete, Finset.sum_insert (by simpa using hnot),
        complete_completionTime, Finset.sum_congr rfl fun j hj => by
          rw [complete_of_ne _ i (by rintro rfl; exact hnot (Finset.mem_filter.mp hj).2)],
        Finset.sum_filter, Int.add_comm]
      refine Eq.trans ?_ (addTotal_intValue h.sum_nonneg (Int.sub_nonneg_of_le harrived))
      show addTotal s.totalTurnaroundTime (_ - (s.p i).arrivalTime) = _
      rw [h.turnaround, h.arrival i]

end OsInParts.Scheduling
