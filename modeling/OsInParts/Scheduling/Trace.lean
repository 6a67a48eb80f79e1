import Mathlib.Data.Prod.Lex
import OsInParts.Lib.Timeline
import OsInParts.Scheduling.EntryOrder

/-!
# Trace — what the slices of a run say about its processes

A turn of `sjf`, `srtf` or `rr` that executes a process does so for a time
`d` and completes the process if nothing is left of it (`Cpu.serve`). `Traced`
relates the slices executed so far to the array: the slices lie one after the
other, a process has been given what is not left of its burst, its start time
is the start of its first slice, and its completion time the end of its last
one. Turns keep it (`Traced.tick`, `Traced.serve`), whatever process is
chosen; bursts of 0 are allowed. `Room` and `Idle` hold of the two loops that
wait only if nothing can be executed.
-/

namespace OsInParts.Scheduling

open Lib.Timeline

variable {n : Nat}

/-! ## What a list of slices says -/

/-- Process `i` has been executed. -/
def Ran (slices : List (Slice n)) (i : Fin n) : Prop := ∃ x ∈ slices, x.process = i

instance (slices : List (Slice n)) : DecidablePred (Ran slices) := fun i =>
  inferInstanceAs (Decidable (∃ x ∈ slices, x.process = i))

/-- The times at which slices of process `i` start. -/
def startsOf (slices : List (Slice n)) (i : Fin n) : Set Int :=
  { u | ∃ x ∈ slices, x.process = i ∧ x.start = u }

/-- The times at which slices of process `i` end. -/
def stopsOf (slices : List (Slice n)) (i : Fin n) : Set Int :=
  { u | ∃ x ∈ slices, x.process = i ∧ x.stop = u }

/-- The time that process `i` has been given. -/
def givenTo (slices : List (Slice n)) (i : Fin n) : Int :=
  ((slices.filter fun x => x.process = i).map fun x => x.stop - x.start).sum

section Concat

variable {slices : List (Slice n)} {a : Slice n} {i : Fin n}

theorem ran_concat : Ran (slices ++ [a]) i ↔ Ran slices i ∨ a.process = i := by
  simp [Ran, or_and_right, exists_or]

theorem startsOf_concat_of_ne (h : a.process ≠ i) :
    startsOf (slices ++ [a]) i = startsOf slices i := by
  simp [startsOf, or_and_right, exists_or, h]

theorem stopsOf_concat_of_ne (h : a.process ≠ i) :
    stopsOf (slices ++ [a]) i = stopsOf slices i := by
  simp [stopsOf, or_and_right, exists_or, h]

theorem mem_startsOf_concat {u : Int} :
    u ∈ startsOf (slices ++ [a]) a.process ↔ u ∈ startsOf slices a.process ∨ a.start = u := by
  simp [startsOf, or_and_right, exists_or]

theorem mem_stopsOf_concat {u : Int} :
    u ∈ stopsOf (slices ++ [a]) a.process ↔ u ∈ stopsOf slices a.process ∨ a.stop = u := by
  simp [stopsOf, or_and_right, exists_or]

theorem givenTo_concat_self :
    givenTo (slices ++ [a]) a.process = givenTo slices a.process + (a.stop - a.start) := by
  simp [givenTo]

theorem givenTo_concat_of_ne (h : a.process ≠ i) :
    givenTo (slices ++ [a]) i = givenTo slices i := by
  simp [givenTo, h]

theorem mem_busyUnits_concat {u : Int} :
    u ∈ busyUnits (slices ++ [a]) ↔ u ∈ busyUnits slices ∨ (a.start ≤ u ∧ u < a.stop) := by
  simp [busyUnits, or_and_right, exists_or]

end Concat

/-! ## One turn -/

/-- Process `i` is written as `process` and executed for `d` units. -/
def Cpu.grant (s : Cpu n) (i : Fin n) (process : Process) (d : Int) : Cpu n :=
  { s with
    p := Function.update s.p i process
    currentTime := s.currentTime + d
    slices := s.slices ++ [{ process := i, start := s.currentTime, stop := s.currentTime + d }] }

/-- The same, and the process is completed if this is the last of it. -/
def Cpu.serve (s : Cpu n) (i : Fin n) (process : Process) (d : Int) (last : Prop)
    [Decidable last] : Cpu n :=
  if last then (s.grant i process d).complete i else s.grant i process d

section Serve

variable (s : Cpu n) (i : Fin n) (process : Process) (d : Int) (last : Prop) [Decidable last]

@[simp] theorem serve_currentTime : (s.serve i process d last).currentTime = s.currentTime + d := by
  unfold Cpu.serve
  split <;> rfl

@[simp] theorem serve_slices : (s.serve i process d last).slices
    = s.slices ++ [{ process := i, start := s.currentTime, stop := s.currentTime + d }] := by
  unfold Cpu.serve
  split <;> rfl

theorem grant_self : (s.grant i process d).p i = process := Function.update_self ..

theorem grant_of_ne {j : Fin n} (h : j ≠ i) : (s.grant i process d).p j = s.p j :=
  Function.update_of_ne h ..

/-- What `process` has in common with process `i` stays as it is everywhere. -/
theorem grant_keeps {α : Type} (f : Process → α) (hf : f process = f (s.p i)) (j : Fin n) :
    f ((s.grant i process d).p j) = f (s.p j) := by
  by_cases hj : j = i
  · rw [hj, grant_self, hf]
  · rw [grant_of_ne s i process d hj]

theorem serve_other {j : Fin n} (h : j ≠ i) :
    (s.serve i process d last).p j = s.p j ∧
      ((s.serve i process d last).isCompleted j = s.isCompleted j) := by
  unfold Cpu.serve
  split
  · rw [complete_of_ne _ i h, grant_of_ne s i process d h]
    exact ⟨rfl, Function.update_of_ne h ..⟩
  · exact ⟨grant_of_ne s i process d h, rfl⟩

end Serve

/-- The turn executes a process that has arrived and is not completed, for no
more than is left of it, and marks its start if this is its first slice. -/
structure Serves (left : Fin n → Int) (s : Cpu n) (i : Fin n) (process : Process) (d : Int) :
    Prop where
  pid : process.pid = (s.p i).pid
  arrivalTime : process.arrivalTime = (s.p i).arrivalTime
  burstTime : process.burstTime = (s.p i).burstTime
  startTime : process.startTime =
    if Ran s.slices i then (s.p i).startTime else s.currentTime
  arrived : (s.p i).arrivalTime ≤ s.currentTime
  unfinished : s.isCompleted i = false
  nonneg : 0 ≤ d
  le : d ≤ left i

/-! ## The slices and the array -/

/-- **The slices explain the array**, with `left` left of each process of `p`. -/
structure Traced (p : Fin n → Process) (left : Fin n → Int) (s : Cpu n) : Prop where
  pid : ∀ i, (s.p i).pid = (p i).pid
  arrivalTime : ∀ i, (s.p i).arrivalTime = (p i).arrivalTime
  burstTime : ∀ i, (s.p i).burstTime = (p i).burstTime
  ordered : s.slices.Pairwise fun x y => x.stop ≤ y.start
  within : ∀ x ∈ s.slices,
    (p x.process).arrivalTime ≤ x.start ∧ x.start ≤ x.stop ∧ x.stop ≤ s.currentTime
  given : ∀ i, givenTo s.slices i + left i = (p i).burstTime
  startTime : ∀ i, Ran s.slices i → IsLeast (startsOf s.slices i) (s.p i).startTime
  finished : ∀ i, s.isCompleted i = true →
    left i = 0 ∧ IsGreatest (stopsOf s.slices i) (s.p i).completionTime ∧
      (s.p i).turnaroundTime = (s.p i).completionTime - (p i).arrivalTime ∧
      (s.p i).responseTime = (s.p i).startTime - (p i).arrivalTime
  completed : s.completed = (Finset.univ.filter fun i => s.isCompleted i = true).card
  turnaround : s.totalTurnaroundTime = intValue
    (∑ i, if s.isCompleted i = true then (s.p i).completionTime - (p i).arrivalTime else 0)
  response : s.totalResponseTime = intValue
    (∑ i, if s.isCompleted i = true then (s.p i).startTime - (p i).arrivalTime else 0)

variable {p : Fin n → Process} {left : Fin n → Int} {s : Cpu n}

theorem Traced.start (p : Fin n → Process) :
    Traced p (fun i => (p i).burstTime) (Cpu.initial p) where
  pid := fun _ => rfl
  arrivalTime := fun _ => rfl
  burstTime := fun _ => rfl
  ordered := .nil
  within := fun x hx => by cases hx
  given := fun _ => Int.zero_add _
  startTime := fun i ⟨x, hx, _⟩ => by cases hx
  finished := fun i hi => by cases hi
  completed := by simp [Cpu.initial]
  turnaround := by simp [Cpu.initial]
  response := by simp [Cpu.initial]

/-- Waiting leaves the trace as it is. -/
theorem Traced.tick (h : Traced p left s) :
    Traced p left { s with currentTime := s.currentTime + 1 } where
  pid := h.pid
  arrivalTime := h.arrivalTime
  burstTime := h.burstTime
  ordered := h.ordered
  within := fun x hx => by
    obtain ⟨h1, h2, h3⟩ := h.within x hx
    exact ⟨h1, h2, h3.trans (Int.le_add_one le_rfl)⟩
  given := h.given
  startTime := h.startTime
  finished := h.finished
  completed := h.completed
  turnaround := h.turnaround
  response := h.response

theorem Traced.all_completed (h : Traced p left s) (hdone : s.completed = n) (i : Fin n) :
    s.isCompleted i = true := by
  have hcard : (Finset.univ.filter fun i => s.isCompleted i = true).card
      = (Finset.univ : Finset (Fin n)).card := by
    rw [← h.completed, hdone, Finset.card_univ, Fintype.card_fin]
  exact Finset.card_filter_eq_iff.mp hcard i (Finset.mem_univ i)

theorem Traced.exists_open (h : Traced p left s) (hopen : s.completed ≠ n) :
    ∃ i, s.isCompleted i = false := by
  by_contra hnone
  refine hopen ?_
  rw [h.completed, Finset.filter_true_of_mem fun i _ => ?_, Finset.card_univ, Fintype.card_fin]
  simpa using fun hi => hnone ⟨i, hi⟩

section Grant

variable (h : Traced p left s) {i : Fin n} {process : Process} {d : Int}
  (hs : Serves left s i process d)

include h hs

theorem Traced.grant_within : ∀ x ∈ (s.grant i process d).slices,
    (p x.process).arrivalTime ≤ x.start ∧ x.start ≤ x.stop ∧
      x.stop ≤ (s.grant i process d).currentTime := by
  intro x hx
  rcases List.mem_append.mp hx with hx | hx
  · obtain ⟨h1, h2, h3⟩ := h.within x hx
    exact ⟨h1, h2, h3.trans (Int.le_add_of_nonneg_right hs.nonneg)⟩
  · rw [List.mem_singleton.mp hx]
    exact ⟨h.arrivalTime i ▸ hs.arrived, Int.le_add_of_nonneg_right hs.nonneg, le_rfl⟩

omit hs in
theorem Traced.grant_given (j : Fin n) : givenTo (s.grant i process d).slices j
    + Function.update left i (left i - d) j = (p j).burstTime := by
  have hgiven := h.given j
  by_cases hj : j = i
  · subst hj
    show givenTo (s.slices ++ [_]) _ + _ = _
    rw [givenTo_concat_self (a := ⟨j, s.currentTime, s.currentTime + d⟩), Function.update_self]
    dsimp only
    omega
  · show givenTo (s.slices ++ [_]) _ + _ = _
    rw [givenTo_concat_of_ne (Ne.symm hj), Function.update_of_ne hj]
    exact hgiven

/-- The first slice of a process is where it started. -/
theorem Traced.grant_startTime (j : Fin n) (hj : Ran (s.grant i process d).slices j) :
    IsLeast (startsOf (s.grant i process d).slices j) ((s.grant i process d).p j).startTime := by
  by_cases hji : j = i
  · subst hji
    show IsLeast (startsOf (s.slices ++ [_]) _) _
    rw [grant_self, hs.startTime]
    split
    · rename_i hran
      obtain ⟨hmem, hleast⟩ := h.startTime j hran
      refine ⟨(mem_startsOf_concat (a := ⟨j, _, _⟩)).mpr (.inl hmem), fun u hu => ?_⟩
      rcases (mem_startsOf_concat (a := ⟨j, _, _⟩)).mp hu with hu | rfl
      · exact hleast hu
      · obtain ⟨x, hx, -, hstart⟩ := hmem
        obtain ⟨-, h2, h3⟩ := h.within x hx
        rw [← hstart]
        exact h2.trans h3
    · rename_i hran
      refine ⟨(mem_startsOf_concat (a := ⟨j, _, _⟩)).mpr (.inr rfl), fun u hu => ?_⟩
      rcases (mem_startsOf_concat (a := ⟨j, _, _⟩)).mp hu with ⟨x, hx, hxj, -⟩ | rfl
      · exact absurd ⟨x, hx, hxj⟩ hran
      · exact le_rfl
  · show IsLeast (startsOf (s.slices ++ [_]) _) _
    rw [grant_of_ne s i process d hji, startsOf_concat_of_ne (Ne.symm hji)]
    exact h.startTime j ((ran_concat.mp hj).resolve_right (Ne.symm hji))

/-- Executing a process without completing it. -/
theorem Traced.grant : Traced p (Function.update left i (left i - d)) (s.grant i process d) := by
  have hother : ∀ j, s.isCompleted j = true → j ≠ i := fun j hj hji => by
    rw [hji, hs.unfinished] at hj
    cases hj
  have hsum : ∀ f : Process → Int,
      (∑ j, if s.isCompleted j = true then f ((s.grant i process d).p j) - (p j).arrivalTime else 0)
        = ∑ j, if s.isCompleted j = true then f (s.p j) - (p j).arrivalTime else 0 := fun f => by
    refine Finset.sum_congr rfl fun j _ => ?_
    split
    · rw [grant_of_ne s i process d (hother j ‹_›)]
    · rfl
  refine ⟨fun j => (grant_keeps s i process d Process.pid hs.pid j).trans (h.pid j),
    fun j => (grant_keeps s i process d Process.arrivalTime hs.arrivalTime j).trans
      (h.arrivalTime j),
    fun j => (grant_keeps s i process d Process.burstTime hs.burstTime j).trans (h.burstTime j),
    ?_, h.grant_within hs, h.grant_given, h.grant_startTime hs, fun j hj => ?_, h.completed,
    h.turnaround.trans (congrArg intValue (hsum Process.completionTime).symm),
    h.response.trans (congrArg intValue (hsum Process.startTime).symm)⟩
  · refine List.pairwise_append.mpr ⟨h.ordered, List.pairwise_singleton .., fun x hx y hy => ?_⟩
    rw [List.mem_singleton.mp hy]
    exact (h.within x hx).2.2
  · have hji := hother j hj
    rw [grant_of_ne s i process d hji, Function.update_of_ne hji]
    show _ ∧ IsGreatest (stopsOf (s.slices ++ [_]) _) _ ∧ _
    rw [stopsOf_concat_of_ne (Ne.symm hji)]
    exact h.finished j hj

end Grant

/-- A process starts and stops at its arrival or later. -/
theorem Traced.arrived (h : Traced p left s) {i : Fin n} {u : Int} (hu : u ∈ stopsOf s.slices i) :
    (p i).arrivalTime ≤ (s.p i).startTime ∧ (p i).arrivalTime ≤ u := by
  obtain ⟨x, hx, rfl, rfl⟩ := hu
  obtain ⟨y, hy, hsame, hstart⟩ := (h.startTime x.process ⟨x, hx, rfl⟩).1
  obtain ⟨h1, -, -⟩ := h.within y hy
  obtain ⟨h2, h3, -⟩ := h.within x hx
  rw [← hstart, ← hsame]
  exact ⟨h1, hsame ▸ h2.trans h3⟩

theorem Traced.turnaround_nonneg (h : Traced p left s) :
    0 ≤ ∑ i, if s.isCompleted i = true then (s.p i).completionTime - (p i).arrivalTime else 0 :=
  Finset.sum_nonneg fun i _ => by
    split
    · exact Int.sub_nonneg_of_le (h.arrived (h.finished i ‹_›).2.1.1).2
    · exact le_rfl

theorem Traced.response_nonneg (h : Traced p left s) :
    0 ≤ ∑ i, if s.isCompleted i = true then (s.p i).startTime - (p i).arrivalTime else 0 :=
  Finset.sum_nonneg fun i _ => by
    split
    · exact Int.sub_nonneg_of_le (h.arrived (h.finished i ‹_›).2.1.1).1
    · exact le_rfl

/-- A sum over the completed processes grows by the one that is completed. -/
theorem sum_complete (s : Cpu n) {i : Fin n} (hi : s.isCompleted i = false) (f : Process → Int)
    (g : Fin n → Int) :
    (∑ j, if (s.complete i).isCompleted j = true then f ((s.complete i).p j) - g j else 0)
      = (∑ j, if s.isCompleted j = true then f (s.p j) - g j else 0)
        + (f ((s.complete i).p i) - g i) := by
  have hnot : i ∉ Finset.univ.filter fun j => s.isCompleted j = true := by simp [hi]
  rw [← Finset.sum_filter, filter_complete, Finset.sum_insert hnot, Int.add_comm,
    ← Finset.sum_filter]
  congr 1
  refine Finset.sum_congr rfl fun j hj => ?_
  rw [complete_of_ne _ i (by rintro rfl; exact hnot hj)]

/-- Completing the process that has just been executed. -/
theorem Traced.complete (h : Traced p left s) {i : Fin n} (hi : s.isCompleted i = false)
    (hleft : left i = 0) (hstop : IsGreatest (stopsOf s.slices i) s.currentTime) :
    Traced p left (s.complete i) := by
  have hkeep : ∀ {α : Type} (f : Process → α), f ((s.complete i).p i) = f (s.p i) → ∀ j,
      f ((s.complete i).p j) = f (s.p j) := fun f hf j => by
    by_cases hj : j = i
    · rw [hj, hf]
    · rw [complete_of_ne s i hj]
  have hself : (s.complete i).p i = { s.p i with
      completionTime := s.currentTime
      turnaroundTime := s.currentTime - (s.p i).arrivalTime
      responseTime := (s.p i).startTime - (s.p i).arrivalTime } := Function.update_self ..
  have hstart : ∀ j, ((s.complete i).p j).startTime = (s.p j).startTime :=
    hkeep Process.startTime (by rw [hself])
  obtain ⟨hstarted, hstopped⟩ := h.arrived hstop.1
  refine ⟨fun j => (hkeep Process.pid (by rw [hself]) j).trans (h.pid j),
    fun j => (hkeep Process.arrivalTime (by rw [hself]) j).trans (h.arrivalTime j),
    fun j => (hkeep Process.burstTime (by rw [hself]) j).trans (h.burstTime j),
    h.ordered, h.within, h.given, fun j hj => (hstart j).symm ▸ h.startTime j hj,
    fun j hj => ?_, ?_, ?_, ?_⟩
  · by_cases hji : j = i
    · subst hji
      rw [hself, ← h.arrivalTime j]
      exact ⟨hleft, hstop, rfl, rfl⟩
    · rw [complete_of_ne s i hji]
      exact h.finished j (((complete_isCompleted s i j).mp hj).resolve_left hji)
  · rw [filter_complete, Finset.card_insert_of_notMem (by simp [hi])]
    exact congrArg (· + 1) h.completed
  · rw [sum_complete s hi, hself]
    refine Eq.trans ?_ (addTotal_intValue h.turnaround_nonneg (Int.sub_nonneg_of_le hstopped))
    rw [← h.turnaround, ← h.arrivalTime i]
    rfl
  · rw [sum_complete s hi, hself]
    refine Eq.trans ?_ (addTotal_intValue h.response_nonneg (Int.sub_nonneg_of_le hstarted))
    rw [← h.response, ← h.arrivalTime i]
    rfl

/-- **Executing a process**, short of its completion or up to it. -/
theorem Traced.serve (h : Traced p left s) {i : Fin n} {process : Process} {d : Int}
    (hs : Serves left s i process d) :
    Traced p (Function.update left i (left i - d)) (s.serve i process d (left i - d = 0)) := by
  have hgrant := h.grant hs
  unfold Cpu.serve
  split
  · rename_i hzero
    refine hgrant.complete hs.unfinished (by rw [Function.update_self, hzero]) ⟨?_, fun u hu => ?_⟩
    · exact (mem_stopsOf_concat (a := ⟨i, _, _⟩)).mpr (.inr rfl)
    · obtain ⟨x, hx, -, rfl⟩ := hu
      exact (hgrant.within x hx).2.2
  · exact hgrant

theorem Traced.left_le (h : Traced p left s) (i : Fin n) : left i ≤ (p i).burstTime := by
  have hgiven := h.given i
  have hnonneg : 0 ≤ givenTo s.slices i := by
    refine List.sum_nonneg fun d hd => ?_
    obtain ⟨x, hx, rfl⟩ := List.mem_map.mp hd
    exact Int.sub_nonneg_of_le (h.within x (List.mem_filter.mp hx).1).2.1
  omega

theorem Traced.completion_le (h : Traced p left s) {i : Fin n} (hi : s.isCompleted i = true) :
    (s.p i).completionTime ≤ s.currentTime := by
  obtain ⟨-, ⟨⟨x, hx, -, hstop⟩, -⟩, -⟩ := h.finished i hi
  exact hstop ▸ (h.within x hx).2.2

/-! ## Loops that wait only if nothing can be executed -/

/-- The clock has room for all that is left. -/
structure Room (left : Fin n → Int) (s : Cpu n) : Prop where
  nonneg : 0 ≤ s.currentTime
  fits : s.currentTime + ∑ i, left i ≤ intMax

section Room

/-- There is room from `a` on if no process that is not completed arrives
before. -/
theorem Traced.room_from (h : Traced p left s) (hfit : TimesFit p)
    (hburst : ∀ i, 0 ≤ (p i).burstTime) {a : Int} (hopen : ∃ i, s.isCompleted i = false)
    (hlate : ∀ i, s.isCompleted i = false → a ≤ (p i).arrivalTime) :
    a + ∑ i, left i ≤ intMax := by
  obtain ⟨i₀, hi₀⟩ := hopen
  obtain ⟨k, hk, hmin⟩ := Finset.exists_min_image
    (Finset.univ.filter fun i => s.isCompleted i = false) (fun i => (p i).arrivalTime)
    ⟨i₀, Finset.mem_filter.mpr ⟨Finset.mem_univ i₀, hi₀⟩⟩
  refine le_trans (Int.add_le_add (hlate k (Finset.mem_filter.mp hk).2)
    (Finset.sum_le_sum fun i _ => ?_)) (hfit k)
  cases hi : s.isCompleted i with
  | true =>
      rw [(h.finished i hi).1]
      split
      · exact hburst i
      · exact le_rfl
  | false =>
      rw [if_pos (hmin i (Finset.mem_filter.mpr ⟨Finset.mem_univ i, hi⟩))]
      exact h.left_le i

theorem Room.start (harrival : ∀ i, 0 ≤ (p i).arrivalTime) (hburst : ∀ i, 0 ≤ (p i).burstTime)
    (hfit : TimesFit p) : Room (fun i => (p i).burstTime) (Cpu.initial p) := by
  refine ⟨le_rfl, ?_⟩
  rcases Nat.eq_zero_or_pos n with rfl | hn
  · simpa [Cpu.initial] using intMax_nonneg
  · exact (Traced.start p).room_from hfit hburst ⟨⟨0, hn⟩, rfl⟩ fun i _ => harrival i

variable (h : Room left s)

include h

theorem Room.tick (ht : Traced p left s) (hfit : TimesFit p)
    (hburst : ∀ i, 0 ≤ (p i).burstTime) (hopen : s.completed ≠ n)
    (hidle : ∀ i, s.isCompleted i = false → s.currentTime < (p i).arrivalTime) :
    Room left { s with currentTime := s.currentTime + 1 } :=
  ⟨Int.le_add_one h.nonneg, ht.room_from hfit hburst (ht.exists_open hopen) hidle⟩

/-- The clock does not pass `INT_MAX`. -/
theorem Room.currentTime_le (hleft : ∀ i, 0 ≤ left i) : s.currentTime ≤ intMax := by
  have hsum := Finset.sum_nonneg fun i (_ : i ∈ Finset.univ) => hleft i
  have hfits := h.fits
  omega

theorem Room.tick_eq (hle : s.currentTime + 1 ≤ intMax) :
    s.tick = some { s with currentTime := s.currentTime + 1 } := by
  have hnonneg := h.nonneg
  rw [Cpu.tick, addInt_isSome ⟨by unfold intMin; omega, hle⟩]
  rfl

theorem Room.serve {i : Fin n} {process : Process} {d : Int} (hs : Serves left s i process d)
    (last : Prop) [Decidable last] :
    Room (Function.update left i (left i - d)) (s.serve i process d last) := by
  have hsum : ∑ j, Function.update left i (left i - d) j + d = ∑ j, left j := by
    rw [Finset.sum_update_of_mem (Finset.mem_univ i), Finset.sdiff_singleton_eq_erase,
      ← Finset.add_sum_erase Finset.univ left (Finset.mem_univ i)]
    omega
  have hfits := h.fits
  have hnonneg := h.nonneg
  have hd := hs.nonneg
  constructor
  · rw [serve_currentTime]
    omega
  · rw [serve_currentTime]
    omega

end Room

/-- In a time unit in which nothing was executed, all that had arrived was
completed. -/
def Idle (p : Fin n → Process) (s : Cpu n) : Prop :=
  ∀ u, 0 ≤ u → u < s.currentTime → u ∉ busyUnits s.slices → ∀ i, (p i).arrivalTime ≤ u →
    s.isCompleted i = true ∧ (s.p i).completionTime ≤ u

theorem Idle.start (p : Fin n → Process) : Idle p (Cpu.initial p) :=
  fun _ h0 hlt => absurd hlt (not_lt.mpr h0)

theorem Idle.tick (h : Idle p s) (ht : Traced p left s)
    (hidle : ∀ i, s.isCompleted i = false → s.currentTime < (p i).arrivalTime) :
    Idle p { s with currentTime := s.currentTime + 1 } := by
  intro u h0 hlt hbusy i hi
  rcases Int.lt_or_eq_of_le (Int.le_of_lt_add_one hlt) with hlt | rfl
  · exact h u h0 hlt hbusy i hi
  · have hdone : s.isCompleted i = true := by
      by_contra hopen
      exact absurd hi (not_le.mpr (hidle i (by simpa using hopen)))
    exact ⟨hdone, ht.completion_le hdone⟩

/-- After the last turn this holds of all time units. -/
theorem Idle.completed_by (h : Idle p s) (ht : Traced p left s) (hdone : s.completed = n)
    (harrival : ∀ i, 0 ≤ (p i).arrivalTime) {u : Int} (hu : u ∉ busyUnits s.slices) (i : Fin n)
    (hi : (p i).arrivalTime ≤ u) : (s.p i).completionTime ≤ u := by
  rcases lt_or_ge u s.currentTime with hlt | hge
  · exact (h u ((harrival i).trans hi) hlt hu i hi).2
  · exact (ht.completion_le (ht.all_completed hdone i)).trans hge

theorem Idle.serve (h : Idle p s) {i : Fin n} {process : Process} {d : Int}
    (hs : Serves left s i process d) (last : Prop) [Decidable last] :
    Idle p (s.serve i process d last) := by
  intro u h0 hlt hbusy j hj
  rw [serve_currentTime] at hlt
  rw [serve_slices, mem_busyUnits_concat, not_or] at hbusy
  obtain ⟨hbusy, hnot⟩ := hbusy
  have hbefore : u < s.currentTime := by
    by_contra hge
    exact hnot ⟨not_lt.mp hge, hlt⟩
  obtain ⟨hdone, hle⟩ := h u h0 hbefore hbusy j hj
  have hji : j ≠ i := by
    rintro rfl
    rw [hs.unfinished] at hdone
    cases hdone
  obtain ⟨hp, hflag⟩ := serve_other s i process d last hji
  rw [hp, hflag]
  exact ⟨hdone, hle⟩

/-! ## The choice -/

/-- Process `k` is the first of `S` by key, arrival time and index. -/
structure First (p : Fin n → Process) (key : Fin n → Int) (S : Fin n → Prop) (k : Fin n) :
    Prop where
  mem : S k
  least : ∀ i, S i → toLex (key k, toLex ((p k).arrivalTime, k))
    ≤ toLex (key i, toLex ((p i).arrivalTime, i))

/-- **The scan** of a waiting loop finds nothing, or the first of the processes
that have arrived and are not completed. -/
theorem Traced.scan (h : Traced p left s) {key : Fin n → Int} (hkey : ∀ i, key i < intMax) :
    (Candidates.scan ⟨s.p, key, s.isCompleted, s.currentTime⟩ = some none ∧
        ∀ i, s.isCompleted i = false → s.currentTime < (p i).arrivalTime) ∨
      ∃ k, Candidates.scan ⟨s.p, key, s.isCompleted, s.currentTime⟩ = some (some k) ∧
        First p key (fun i => (p i).arrivalTime ≤ s.currentTime ∧ s.isCompleted i = false) k := by
  have heligible : ∀ i, Candidates.Eligible ⟨s.p, key, s.isCompleted, s.currentTime⟩ i ↔
      (p i).arrivalTime ≤ s.currentTime ∧ s.isCompleted i = false := fun i => by
    rw [Candidates.Eligible, h.arrivalTime i]
  rcases Candidates.scan_spec (c := ⟨s.p, key, s.isCompleted, s.currentTime⟩)
    (.of_lt fun i _ => hkey i) with ⟨hscan, hnone⟩ | ⟨k, hscan, hk, hbest⟩
  · refine .inl ⟨hscan, fun i hi => ?_⟩
    by_contra hlate
    exact hnone i ((heligible i).mpr ⟨not_lt.mp hlate, hi⟩)
  · refine .inr ⟨k, hscan, (heligible k).mp hk, fun i hi => ?_⟩
    rw [Prod.Lex.toLex_le_toLex]
    rcases hbest i ((heligible i).mpr hi) with hlt | ⟨heq, hle⟩
    · exact .inl hlt
    · rw [h.arrivalTime, h.arrivalTime] at hle
      exact .inr ⟨heq, Prod.Lex.toLex_le_toLex.mpr hle⟩

end OsInParts.Scheduling
