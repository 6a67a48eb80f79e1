import OsInParts.Scheduling.Trace

/-!
# SrtfSchedule — the schedule of `srtf`

A turn of the loop executes one unit of the chosen process or waits for one.
All slices being units, `burst_remaining` is the burst less the number of
slices, and the test that marks the start of a process succeeds exactly
before its first slice.
-/

namespace OsInParts.Scheduling

open Lib.Loop Lib.Timeline

variable {n : Nat} {p : Fin n → Process} {s : Srtf n}

/-- What `before` leaves of process `i`. -/
def remainingAfter (p : Fin n → Process) (before : List (Slice n)) (i : Fin n) : Int :=
  (p i).burstTime - givenTo before i

/-- A unit goes to the first by remaining time of the processes that have
arrived and are not finished. -/
def SrtfChoice (p : Fin n → Process) (before : List (Slice n)) (x : Slice n) : Prop :=
  First p (remainingAfter p before)
    (fun i => (p i).arrivalTime ≤ x.start ∧ 0 < remainingAfter p before i) x.process

/-- **Between two turns of `srtf`.** -/
structure SrtfTrace (p : Fin n → Process) (s : Srtf n) : Prop where
  traced : Traced p s.burstRemaining s.toCpu
  room : Room s.burstRemaining s.toCpu
  idle : Idle p s.toCpu
  nonneg : ∀ i, 0 ≤ s.burstRemaining i
  finished : ∀ i, s.isCompleted i = true ↔ s.burstRemaining i = 0
  unit : ∀ x ∈ s.slices, x.stop = x.start + 1
  choice : History (SrtfChoice p) s.slices

theorem SrtfTrace.start (harrival : ∀ i, 0 ≤ (p i).arrivalTime)
    (hburst : ∀ i, 1 ≤ (p i).burstTime) (hfit : TimesFit p) : SrtfTrace p (Srtf.initial p) where
  traced := Traced.start p
  room := Room.start harrival (fun i => Int.le_trans (by decide) (hburst i)) hfit
  idle := Idle.start p
  nonneg := fun i => Int.le_trans (by decide) (hburst i)
  finished := fun i => by
    have hpos := hburst i
    simp only [Srtf.initial, Cpu.initial, Bool.false_eq_true, false_iff]
    omega
  unit := fun x hx => by cases hx
  choice := .nil

/-- Units are counted. -/
theorem givenTo_units {slices : List (Slice n)} (h : ∀ x ∈ slices, x.stop = x.start + 1)
    (i : Fin n) : givenTo slices i = ((slices.filter fun x => x.process = i).length : Int) := by
  have hone : (slices.filter fun x => decide (x.process = i)).map (fun x => x.stop - x.start)
      = List.replicate (slices.filter fun x => decide (x.process = i)).length 1 :=
    List.map_eq_replicate_iff.mpr fun x hx => by
      have hx := h x (List.mem_filter.mp hx).1
      omega
  rw [givenTo, hone, List.sum_replicate, nsmul_one]

theorem SrtfTrace.remaining (h : SrtfTrace p s) (i : Fin n) :
    s.burstRemaining i = remainingAfter p s.slices i := by
  have hgiven := h.traced.given i
  rw [remainingAfter]
  omega

/-- The test that marks the start. -/
theorem SrtfTrace.ran_iff (h : SrtfTrace p s) (i : Fin n) :
    Ran s.slices i ↔ s.burstRemaining i ≠ (s.p i).burstTime := by
  have hgiven := h.traced.given i
  rw [h.traced.burstTime i, ← hgiven, givenTo_units h.unit]
  constructor
  · rintro ⟨x, hx, hxi⟩
    have hpos := List.length_pos_of_mem (List.mem_filter.mpr ⟨hx, by simpa using hxi⟩ :
      x ∈ s.slices.filter fun x => decide (x.process = i))
    omega
  · intro hne
    have hpos : 0 < (s.slices.filter fun x => decide (x.process = i)).length := by omega
    obtain ⟨x, hx⟩ := List.exists_mem_of_length_pos hpos
    obtain ⟨hmem, hxi⟩ := List.mem_filter.mp hx
    exact ⟨x, hmem, by simpa using hxi⟩

/-! ## The two kinds of turn -/

theorem SrtfTrace.tick (h : SrtfTrace p s) (hfit : TimesFit p)
    (hburst : ∀ i, 1 ≤ (p i).burstTime) (hopen : s.completed ≠ n)
    (hidle : ∀ i, s.isCompleted i = false → s.currentTime < (p i).arrivalTime) :
    SrtfTrace p { s with currentTime := s.currentTime + 1 } where
  traced := h.traced.tick
  room := h.room.tick h.traced hfit (fun i => Int.le_trans (by decide) (hburst i)) hopen hidle
  idle := h.idle.tick h.traced hidle
  nonneg := h.nonneg
  finished := h.finished
  unit := h.unit
  choice := h.choice

/-- Process `i` as it is when it is served. -/
def Srtf.begun (s : Srtf n) (i : Fin n) : Process := { s.p i with startTime := s.startOf i }

/-- The state after a unit of process `i`. -/
def Srtf.afterUnit (s : Srtf n) (i : Fin n) : Srtf n :=
  { toCpu := s.serve i (s.begun i) 1 (s.burstRemaining i - 1 = 0)
    burstRemaining := Function.update s.burstRemaining i (s.burstRemaining i - 1) }

theorem runUnit_eq {i : Fin n} (h : InRange (s.currentTime + 1)) :
    s.runUnit i = some (s.afterUnit i) := by
  rw [Srtf.runUnit, mark_start]
  simp only [Cpu.execute, Cpu.setProcess, addInt_isSome h, Option.map_some, Function.update_self]
  rfl

/-- A turn executes one unit of a process that has arrived and is not finished. -/
theorem SrtfTrace.serves (h : SrtfTrace p s) {i : Fin n}
    (hi : (p i).arrivalTime ≤ s.currentTime ∧ s.isCompleted i = false) :
    Serves s.burstRemaining s.toCpu i (s.begun i) 1 where
  pid := rfl
  arrivalTime := rfl
  burstTime := rfl
  startTime := by
    simp only [Srtf.begun, Srtf.startOf, h.ran_iff i]
    by_cases hfresh : s.burstRemaining i = (s.p i).burstTime
    · rw [if_pos hfresh, if_neg (not_not.mpr hfresh)]
    · rw [if_neg hfresh, if_pos hfresh]
  arrived := h.traced.arrivalTime i ▸ hi.1
  unfinished := hi.2
  nonneg := by decide
  le := by
    have hnonneg := h.nonneg i
    have hne : s.burstRemaining i ≠ 0 := fun hzero => by
      have hopen := hi.2
      rw [(h.finished i).mpr hzero] at hopen
      cases hopen
    omega

/-- **A unit** for the first process that has arrived and is not finished. -/
theorem SrtfTrace.unitStep (h : SrtfTrace p s) {i : Fin n}
    (hi : First p s.burstRemaining
      (fun i => (p i).arrivalTime ≤ s.currentTime ∧ s.isCompleted i = false) i) :
    SrtfTrace p (s.afterUnit i) := by
  have hopen := hi.mem.2
  have hs := h.serves hi.mem
  have hpos := hs.le
  constructor
  · exact h.traced.serve hs
  · exact h.room.serve hs _
  · exact h.idle.serve hs _
  · intro j
    by_cases hj : j = i
    · subst hj
      simp only [Srtf.afterUnit, Function.update_self]
      omega
    · simp only [Srtf.afterUnit, Function.update_of_ne hj]
      exact h.nonneg j
  · intro j
    by_cases hj : j = i
    · subst hj
      simp only [Srtf.afterUnit, Function.update_self, Cpu.serve]
      split
      · rename_i hzero
        simp only [complete_isCompleted, true_or, hzero]
      · rename_i hmore
        simp only [Cpu.grant, hopen, hmore, Bool.false_eq_true]
    · simp only [Srtf.afterUnit, Function.update_of_ne hj, serve_other _ _ _ _ _ hj]
      exact h.finished j
  · intro x hx
    rw [Srtf.afterUnit, serve_slices] at hx
    rcases List.mem_append.mp hx with hx | hx
    · exact h.unit x hx
    · rw [List.mem_singleton.mp hx]
  · rw [Srtf.afterUnit, serve_slices]
    refine history_concat.mpr ⟨h.choice, ?_⟩
    have hleft : remainingAfter p s.slices = s.burstRemaining :=
      funext fun j => (h.remaining j).symm
    have hsame : (fun j => (p j).arrivalTime ≤ s.currentTime ∧ 0 < s.burstRemaining j)
        = fun j => (p j).arrivalTime ≤ s.currentTime ∧ s.isCompleted j = false := by
      funext j
      rw [← Bool.not_eq_true, h.finished j, (h.nonneg j).lt_iff_ne, ne_comm]
    rw [SrtfChoice, hleft, hsame]
    exact hi

/-- **One turn** waits, or executes a unit of the first process that has arrived
and is not finished. -/
theorem SrtfTrace.turn (h : SrtfTrace p s) (hfit : TimesFit p)
    (hburst : ∀ i, 1 ≤ (p i).burstTime) (hmax : ∀ i, (p i).burstTime < intMax)
    (hopen : s.completed ≠ n) :
    (srtfBody s = some { s with currentTime := s.currentTime + 1 } ∧
        SrtfTrace p { s with currentTime := s.currentTime + 1 } ∧
        ∀ i, s.isCompleted i = false → s.currentTime < (p i).arrivalTime) ∨
      ∃ i, srtfBody s = some (s.afterUnit i) ∧ SrtfTrace p (s.afterUnit i) ∧
        First p s.burstRemaining
          (fun i => (p i).arrivalTime ≤ s.currentTime ∧ s.isCompleted i = false) i := by
  have hnonneg := h.room.nonneg
  unfold srtfBody
  rcases h.traced.scan fun i => (h.traced.left_le i).trans_lt (hmax i) with
    ⟨hscan, hidle⟩ | ⟨i, hscan, hfirst⟩
  · have h' := h.tick hfit hburst hopen hidle
    have hle : s.currentTime + 1 ≤ intMax := h'.room.currentTime_le h.nonneg
    refine .inl ⟨?_, h', hidle⟩
    rw [hscan]
    exact congrArg (Option.map _) (h.room.tick_eq hle)
  · have h' := h.unitStep hfirst
    have hclock : (s.afterUnit i).currentTime = s.currentTime + 1 := serve_currentTime ..
    have hle := h'.room.currentTime_le h'.nonneg
    rw [hclock] at hle
    refine .inr ⟨i, ?_, h', hfirst⟩
    rw [hscan]
    exact runUnit_eq ⟨by unfold intMin; omega, hle⟩

/-- Every turn moves the clock on. -/
theorem SrtfTrace.body (h : SrtfTrace p s) (hfit : TimesFit p)
    (hburst : ∀ i, 1 ≤ (p i).burstTime) (hmax : ∀ i, (p i).burstTime < intMax)
    (hopen : s.completed ≠ n) :
    ∃ s', srtfBody s = some s' ∧ SrtfTrace p s' ∧ s.currentTime < s'.currentTime ∧
      s'.currentTime ≤ intMax := by
  rcases h.turn hfit hburst hmax hopen with ⟨hbody, h', -⟩ | ⟨i, hbody, h', -⟩
  · exact ⟨_, hbody, h', Int.lt_add_one_of_le le_rfl, h'.room.currentTime_le h.nonneg⟩
  · have hclock : (s.afterUnit i).currentTime = s.currentTime + 1 := serve_currentTime ..
    exact ⟨_, hbody, h', by rw [hclock]; omega, h'.room.currentTime_le h'.nonneg⟩

/-! ## The whole run -/

/-- **The schedule that `srtf` ends with.** -/
structure SrtfSchedule (p : Fin n → Process) (s : Cpu n) : Prop where
  completed : ∀ i, s.isCompleted i = true
  count : s.completed = n
  /-- every slice is one unit, and there is one for each unit of a burst -/
  unit : ∀ x ∈ s.slices, x.stop = x.start + 1
  units : ∀ i, ((s.slices.filter fun x => x.process = i).length : Int) = (p i).burstTime
  ordered : s.slices.Pairwise fun x y => x.stop ≤ y.start
  arrived : ∀ x ∈ s.slices, (p x.process).arrivalTime ≤ x.start
  /-- the CPU is idle only if all that has arrived is completed -/
  idle : ∀ u, u ∉ busyUnits s.slices → ∀ i, (p i).arrivalTime ≤ u → (s.p i).completionTime ≤ u
  choice : History (SrtfChoice p) s.slices
  startTime : ∀ i, IsLeast (startsOf s.slices i) (s.p i).startTime
  completionTime : ∀ i, IsGreatest (stopsOf s.slices i) (s.p i).completionTime
  responseTime : ∀ i, (s.p i).responseTime = (s.p i).startTime - (p i).arrivalTime
  turnaroundTime : ∀ i, (s.p i).turnaroundTime = (s.p i).completionTime - (p i).arrivalTime

theorem SrtfTrace.schedule (h : SrtfTrace p s) (harrival : ∀ i, 0 ≤ (p i).arrivalTime)
    (hdone : s.completed = n) : SrtfSchedule p s.toCpu := by
  have hall := h.traced.all_completed hdone
  constructor
  · exact hall
  · exact hdone
  · exact h.unit
  · intro i
    have hgiven := h.traced.given i
    rw [(h.finished i).mp (hall i), givenTo_units h.unit, Int.add_zero] at hgiven
    exact hgiven
  · exact h.traced.ordered
  · exact fun x hx => (h.traced.within x hx).1
  · exact fun u hu => h.idle.completed_by h.traced hdone harrival hu
  · exact h.choice
  · intro i
    obtain ⟨-, ⟨⟨x, hx, hxi, -⟩, -⟩, -⟩ := h.traced.finished i (hall i)
    exact h.traced.startTime i ⟨x, hx, hxi⟩
  · exact fun i => (h.traced.finished i (hall i)).2.1
  · exact fun i => (h.traced.finished i (hall i)).2.2.2
  · exact fun i => (h.traced.finished i (hall i)).2.2.1

/-- **`srtf` completes every process with a valid schedule** that takes the
shortest remaining time first at every unit, for all processes with arrival
times from 0 on, burst times from 1 up to below `INT_MAX` and times in the
range of `int`. -/
theorem srtf_schedule (harrival : ∀ i, 0 ≤ (p i).arrivalTime)
    (hburst : ∀ i, 1 ≤ (p i).burstTime) (hmax : ∀ i, (p i).burstTime < intMax)
    (hfit : TimesFit p) :
    ∃ s, Returns srtfLoop (Srtf.initial p) s ∧ SrtfSchedule p s.toCpu := by
  obtain ⟨s, hs, h, hdone⟩ := returns_of_clock (c := fun s : Srtf n => s.completed != n)
    (fun s : Srtf n => s.currentTime) (SrtfTrace p)
    (fun s h hc => h.body hfit hburst hmax (by simpa using hc))
    (SrtfTrace.start harrival hburst hfit)
  exact ⟨s, hs, h.schedule harrival (by simpa using hdone)⟩

theorem srtf_schedule_threeTied :
    ∃ s, Returns srtfLoop (Srtf.initial threeTied) s ∧ SrtfSchedule threeTied s.toCpu :=
  srtf_schedule (by decide) (by decide) (by decide) (by unfold TimesFit; decide)

end OsInParts.Scheduling
