import Mathlib.Data.Int.ConditionallyCompleteOrder
import Mathlib.Order.ConditionallyCompleteLattice.Basic
import OsInParts.Scheduling.BusyTime
import OsInParts.Scheduling.EntryOrder

/-!
# FifoSchedule — the schedule of `fifo`

After the sort the times that `fifo` writes depend only on the clock, which
`fifoClock` gives before each turn: a process starts when the one before it
is completed, or when it arrives if that is later. The clock stays in range
because what is left from any position on fits from the arrival there.
-/

namespace OsInParts.Scheduling

open Lib Lib.Loop

variable {n : Nat} {p : Fin n → Process}

/-! ## The times of a sorted array -/

/-- The clock before turn `k`. -/
def fifoClock (p : Fin n → Process) : ℕ → Int
  | 0 => 0
  | k + 1 =>
      if h : k < n then
        max (fifoClock p k) (p ⟨k, h⟩).arrivalTime + (p ⟨k, h⟩).burstTime
      else fifoClock p k

/-- When process `i` is started. -/
def fifoStart (p : Fin n → Process) (i : Fin n) : Int :=
  max (fifoClock p i) (p i).arrivalTime

theorem fifoClock_succ (p : Fin n → Process) (i : Fin n) :
    fifoClock p (i.val + 1) = fifoStart p i + (p i).burstTime := by
  rw [fifoClock, dif_pos i.isLt, fifoStart]

/-- Process `i` as `fifo` leaves it. -/
def fifoRecord (p : Fin n → Process) (i : Fin n) : Process :=
  { p i with
    startTime := fifoStart p i
    completionTime := fifoClock p (i.val + 1)
    turnaroundTime := fifoClock p (i.val + 1) - (p i).arrivalTime
    responseTime := fifoStart p i - (p i).arrivalTime }

def fifoSlice (p : Fin n → Process) (i : Fin n) : Slice n :=
  { process := i, start := fifoStart p i, stop := fifoClock p (i.val + 1) }

section Clock

variable (hburst : ∀ i, 0 ≤ (p i).burstTime)

include hburst

theorem fifoClock_mono : Monotone (fifoClock p) :=
  monotone_nat_of_le_succ fun k => by
    rw [fifoClock]
    split
    · rename_i hk
      have hle := le_max_left (fifoClock p k) (p ⟨k, hk⟩).arrivalTime
      have hpos := hburst ⟨k, hk⟩
      omega
    · exact le_rfl

/-- The clock has room for all that is left. -/
theorem fifoClock_fits (harrival : ∀ i, 0 ≤ (p i).arrivalTime)
    (hsorted : ∀ i j : Fin n, i ≤ j → (p i).arrivalTime ≤ (p j).arrivalTime) (hfit : TimesFit p)
    {k : ℕ} (hk : k ≤ n) :
    fifoClock p k + (∑ j : Fin n, if k ≤ j.val then (p j).burstTime else 0) ≤ intMax := by
  -- what is left from a position on fits from the arrival there
  have hfrom : ∀ i : Fin n,
      (p i).arrivalTime + (∑ j : Fin n, if i.val ≤ j.val then (p j).burstTime else 0) ≤ intMax :=
    fun i => by
      refine le_trans (Int.add_le_add_left (Finset.sum_le_sum fun j _ => ?_) _) (hfit i)
      by_cases hij : i.val ≤ j.val
      · rw [if_pos hij, if_pos (hsorted i j hij)]
      · rw [if_neg hij]
        split
        · exact hburst j
        · exact le_rfl
  induction k with
  | zero =>
      rcases Nat.eq_zero_or_pos n with rfl | hn
      · simpa [fifoClock] using intMax_nonneg
      · have hfirst := hfrom ⟨0, hn⟩
        have hpos := harrival ⟨0, hn⟩
        rw [fifoClock]
        refine le_trans (Int.add_le_add_right hpos _) hfirst
  | succ k ih =>
      have hlt : k < n := hk
      have hbefore := ih hlt.le
      have hhere := hfrom ⟨k, hlt⟩
      have hsplit : (∑ j : Fin n, if k ≤ j.val then (p j).burstTime else 0)
          = (p ⟨k, hlt⟩).burstTime + ∑ j : Fin n, if k + 1 ≤ j.val then (p j).burstTime else 0 := by
        rw [← Finset.add_sum_erase Finset.univ _ (Finset.mem_univ (⟨k, hlt⟩ : Fin n)),
          if_pos le_rfl, ← Finset.add_sum_erase Finset.univ
            (fun j : Fin n => if k + 1 ≤ j.val then (p j).burstTime else 0)
            (Finset.mem_univ (⟨k, hlt⟩ : Fin n)), if_neg (Nat.not_succ_le_self k), Int.zero_add]
        congr 1
        refine Finset.sum_congr rfl fun j hj => ?_
        have hne : j.val ≠ k := fun h => (Finset.mem_erase.mp hj).1 (Fin.ext h)
        have hiff : k ≤ j.val ↔ k + 1 ≤ j.val := by omega
        simp only [hiff]
      dsimp only at hhere
      rw [fifoClock, dif_pos hlt]
      rcases le_total (fifoClock p k) (p ⟨k, hlt⟩).arrivalTime with hle | hle
      · rw [max_eq_right hle]
        omega
      · rw [max_eq_left hle]
        omega

end Clock

/-! ## The execution loop -/

/-- Before turn `k` of the execution loop on the sorted array `p`. -/
structure FifoTrace (p : Fin n → Process) (k : ℕ) (s : Fifo n) : Prop where
  clock : s.currTime = fifoClock p k
  written : ∀ i, i.val < k → s.process i = fifoRecord p i
  rest : ∀ i, k ≤ i.val → s.process i = p i
  slices : s.slices = ((List.finRange n).take k).map (fifoSlice p)

theorem FifoTrace.start (p : Fin n → Process) :
    FifoTrace p 0 { process := p, currTime := 0, slices := [] } :=
  ⟨rfl, fun _ hi => absurd hi (Nat.not_lt_zero _), fun _ _ => rfl, rfl⟩

theorem FifoTrace.step {s : Fifo n} {i : Fin n} (h : FifoTrace p i s)
    (hrange : InRange (fifoClock p (i.val + 1))) :
    ∃ s', fifoStep s i = some s' ∧ FifoTrace p (i + 1) s' := by
  have hproc := h.rest i le_rfl
  have hstart : (if s.currTime < (s.process i).arrivalTime then (s.process i).arrivalTime
      else s.currTime) = fifoStart p i := by
    rw [h.clock, hproc, fifoStart]
    split
    · exact (max_eq_right (le_of_lt ‹_›)).symm
    · exact (max_eq_left (not_lt.mp ‹_›)).symm
  have hadd : addInt (fifoStart p i) (s.process i).burstTime = some (fifoClock p (i.val + 1)) := by
    rw [hproc, fifoClock_succ]
    exact addInt_isSome (fifoClock_succ p i ▸ hrange)
  refine ⟨_, by unfold fifoStep; dsimp only; rw [hstart, hadd]; rfl, rfl, fun j hj => ?_,
    fun j hj => ?_, ?_⟩
  · by_cases hji : j = i
    · subst hji
      simp only [Function.update_self, hproc, fifoRecord]
    · have hne : j.val ≠ i.val := fun h => hji (Fin.ext h)
      simp only [Function.update_of_ne hji]
      exact h.written j (by omega)
  · have hji : j ≠ i := by
      rintro rfl
      omega
    simp only [Function.update_of_ne hji]
    exact h.rest j (by omega)
  · have hlt : i.val < (List.finRange n).length := by simp
    rw [h.slices, List.take_succ_eq_append_getElem hlt, List.map_append]
    simp [fifoSlice]

/-! ## The whole run -/

/-- The time at which the process before position `i` is completed, 0 before
the first. -/
def previousCompletion (process : Fin n → Process) (i : Fin n) : Int :=
  if 0 < i.val then (process ⟨i.val - 1, by omega⟩).completionTime else 0

/-- **The schedule that `fifo` ends with**: position `i` holds process `e i`
of the input. -/
structure FifoSchedule (p : Fin n → Process) (e : Equiv.Perm (Fin n)) (s : Fifo n) : Prop where
  /-- only the four times are written -/
  record : ∀ i, ∃ startTime completionTime turnaroundTime responseTime,
    s.process i = { p (e i) with
      startTime := startTime
      completionTime := completionTime
      turnaroundTime := turnaroundTime
      responseTime := responseTime }
  sorted : ∀ i j, i < j → toLex ((s.process i).arrivalTime, (s.process i).pid)
    < toLex ((s.process j).arrivalTime, (s.process j).pid)
  startTime : ∀ i, (s.process i).startTime
    = max (s.process i).arrivalTime (previousCompletion s.process i)
  completionTime : ∀ i,
    (s.process i).completionTime = (s.process i).startTime + (s.process i).burstTime
  turnaroundTime : ∀ i, (s.process i).turnaroundTime
    = (s.process i).completionTime - (s.process i).arrivalTime
  responseTime : ∀ i, (s.process i).responseTime
    = (s.process i).startTime - (s.process i).arrivalTime
  /-- no two intervals overlap -/
  disjoint : ∀ i j, i < j → (s.process i).completionTime ≤ (s.process j).startTime
  earlier : ∀ i j, toLex ((s.process i).arrivalTime, (s.process i).pid)
    < toLex ((s.process j).arrivalTime, (s.process j).pid) →
      (s.process i).startTime ≤ (s.process j).startTime
  slices : s.slices = (List.finRange n).map fun i =>
    { process := i, start := (s.process i).startTime, stop := (s.process i).completionTime }

/-- `fifo` writes the times of the sorted array. -/
theorem fifo_eq (harrival : ∀ i, 0 ≤ (p i).arrivalTime) (hburst : ∀ i, 0 ≤ (p i).burstTime)
    (hfit : TimesFit p) :
    ∃ (s : Fifo n) (e : Equiv.Perm (Fin n)), fifo p = some s ∧
      BubbleSort.sort Process.After p = p ∘ e ∧ s.process = fifoRecord (p ∘ e) ∧
      s.slices = (List.finRange n).map (fifoSlice (p ∘ e)) := by
  obtain ⟨e, he⟩ := BubbleSort.sort_perm Process.After p
  have hsorted : ∀ i j : Fin n, i ≤ j → ((p ∘ e) i).arrivalTime ≤ ((p ∘ e) j).arrivalTime :=
    fun i j hij => he ▸ sorted_arrival p hij
  have hburst' : ∀ i, 0 ≤ ((p ∘ e) i).burstTime := fun i => hburst (e i)
  have hrange : ∀ i : Fin n, InRange (fifoClock (p ∘ e) (i.val + 1)) := fun i => by
    have hfits := fifoClock_fits hburst' (fun i => harrival (e i)) hsorted
      ((rearrange e).2.1 hfit) (k := i.val + 1) i.isLt
    have hrest := Finset.sum_nonneg fun (j : Fin n) (_ : j ∈ Finset.univ) =>
      show 0 ≤ if i.val + 1 ≤ j.val then ((p ∘ e) j).burstTime else 0 by
        split
        · exact hburst' j
        · exact le_rfl
    have hpos : fifoClock (p ∘ e) 0 ≤ fifoClock (p ∘ e) (i.val + 1) :=
      fifoClock_mono hburst' (Nat.zero_le _)
    rw [fifoClock] at hpos
    exact ⟨by unfold intMin; omega, by omega⟩
  obtain ⟨s, hs, h⟩ := for_rule (f := fifoStep) (FifoTrace (p ∘ e))
    (fun i s h => h.step (hrange i)) (FifoTrace.start (p ∘ e))
  refine ⟨s, e, by rw [fifo, he]; exact hs, he, funext fun i => h.written i i.isLt, ?_⟩
  rw [h.slices, List.take_of_length_le List.length_finRange.le]

/-- With distinct pids the sort is strict. -/
theorem sorted_strict (hpid : Function.Injective fun i => (p i).pid) {i j : Fin n} (hij : i < j) :
    toLex ((BubbleSort.sort Process.After p i).arrivalTime, (BubbleSort.sort Process.After p i).pid)
      < toLex ((BubbleSort.sort Process.After p j).arrivalTime,
        (BubbleSort.sort Process.After p j).pid) := by
  obtain ⟨e, he⟩ := BubbleSort.sort_perm Process.After p
  have hle := BubbleSort.sort_monotone (fun q : Process => toLex (q.arrivalTime, q.pid))
    after_iff p hij.le
  refine lt_of_le_of_ne hle fun heq => hij.ne ?_
  have hsame : (p (e i)).pid = (p (e j)).pid := by
    have hpair := congrArg (fun x => (ofLex x).2) heq
    rw [he] at hpair
    exact hpair
  exact e.injective (hpid hsame)

/-- **`fifo` sorts and executes in that order**, for all processes with
distinct pids, arrival and burst times from 0 on and times in the range of
`int`. -/
theorem fifo_schedule (hpid : Function.Injective fun i => (p i).pid)
    (harrival : ∀ i, 0 ≤ (p i).arrivalTime) (hburst : ∀ i, 0 ≤ (p i).burstTime)
    (hfit : TimesFit p) : ∃ s, fifo p = some s ∧ ∃ e, FifoSchedule p e s := by
  obtain ⟨s, e, hs, he, hprocess, hslices⟩ := fifo_eq harrival hburst hfit
  have hburst' : ∀ i, 0 ≤ ((p ∘ e) i).burstTime := fun i => hburst (e i)
  have hstrict : ∀ i j, i < j → toLex ((s.process i).arrivalTime, (s.process i).pid)
      < toLex ((s.process j).arrivalTime, (s.process j).pid) := fun i j hij => by
    have hlt := sorted_strict hpid hij
    rw [he] at hlt
    rw [hprocess]
    exact hlt
  have hdisjoint : ∀ i j, i < j → (s.process i).completionTime ≤ (s.process j).startTime :=
    fun i j hij => by
      rw [hprocess]
      calc fifoClock (p ∘ e) (i.val + 1) ≤ fifoClock (p ∘ e) j :=
            fifoClock_mono hburst' hij
        _ ≤ fifoStart (p ∘ e) j := le_max_left _ _
  have hcompletion : ∀ i,
      (s.process i).completionTime = (s.process i).startTime + (s.process i).burstTime :=
    fun i => by
      rw [hprocess]
      exact fifoClock_succ (p ∘ e) i
  refine ⟨s, hs, e, fun i => ⟨_, _, _, _, congrFun hprocess i⟩, hstrict, fun i => ?_,
    hcompletion, fun i => by rw [hprocess]; rfl, fun i => by rw [hprocess]; rfl, hdisjoint,
    fun i j hij => ?_, ?_⟩
  · rw [hprocess, max_comm]
    show fifoStart (p ∘ e) i = _
    rw [fifoStart, previousCompletion]
    congr 1
    split
    · rename_i hpos
      show _ = fifoClock (p ∘ e) (i.val - 1 + 1)
      rw [Nat.sub_add_cancel hpos]
    · rename_i hzero
      rw [Nat.eq_zero_of_not_pos hzero, fifoClock]
  · rcases lt_trichotomy i j with hlt | rfl | hgt
    · have hdone := hdisjoint i j hlt
      have hend := hcompletion i
      have hpos : 0 ≤ (s.process i).burstTime := by
        rw [hprocess]
        exact hburst' i
      omega
    · exact absurd hij (lt_irrefl _)
    · exact absurd hij (hstrict j i hgt).asymm
  · rw [hslices, hprocess]
    rfl

/-- Two processes that arrive together after a gap, and one of no length. -/
theorem fifo_schedule_sample :
    ∃ s, fifo (inputProcesses (fun _ => Process.zero) ![(4, 2), (1, 0), (4, 3)]) = some s ∧
      ∃ e, FifoSchedule (inputProcesses (fun _ => Process.zero) ![(4, 2), (1, 0), (4, 3)]) e s :=
  fifo_schedule (by decide) (by decide) (by decide) (by unfold TimesFit; decide)

end OsInParts.Scheduling
