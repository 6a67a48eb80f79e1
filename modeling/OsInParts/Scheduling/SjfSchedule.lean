import OsInParts.Scheduling.Trace

/-!
# SjfSchedule — the schedule of `sjf`

A turn of the loop executes a whole burst or waits for a unit. A burst of 0
does not move the clock, so the loop returns because each turn completes a
process or moves the clock on. `SjfTrace` is what holds between two turns.
-/

namespace OsInParts.Scheduling

open Lib.Loop Lib.Timeline

variable {n : Nat} {p : Fin n → Process} {s : Cpu n}

/-- What is left of process `i` by its flag. -/
def wholeLeft (p : Fin n → Process) (s : Cpu n) (i : Fin n) : Int :=
  if s.isCompleted i = true then 0 else (p i).burstTime

/-- At a dispatch the chosen process is the first by burst time of those that
have arrived and have not been executed. -/
def SjfChoice (p : Fin n → Process) (before : List (Slice n)) (x : Slice n) : Prop :=
  First p (fun i => (p i).burstTime)
    (fun i => (p i).arrivalTime ≤ x.start ∧ ¬ Ran before i) x.process

/-- **Between two turns of `sjf`.** -/
structure SjfTrace (p : Fin n → Process) (s : Cpu n) : Prop where
  traced : Traced p (wholeLeft p s) s
  room : Room (wholeLeft p s) s
  idle : Idle p s
  ran : ∀ i, Ran s.slices i ↔ s.isCompleted i = true
  once : (s.slices.map Slice.process).Nodup
  interval : ∀ x ∈ s.slices,
    x.start = (s.p x.process).startTime ∧ x.stop = x.start + (p x.process).burstTime
  choice : History (SjfChoice p) s.slices

theorem SjfTrace.start (harrival : ∀ i, 0 ≤ (p i).arrivalTime)
    (hburst : ∀ i, 0 ≤ (p i).burstTime) (hfit : TimesFit p) : SjfTrace p (Cpu.initial p) where
  traced := Traced.start p
  room := Room.start harrival hburst hfit
  idle := Idle.start p
  ran := fun i => by simp [Ran, Cpu.initial]
  once := List.nodup_nil
  interval := fun x hx => by cases hx
  choice := .nil

/-! ## The two kinds of turn -/

theorem SjfTrace.tick (h : SjfTrace p s) (hfit : TimesFit p) (hburst : ∀ i, 0 ≤ (p i).burstTime)
    (hopen : s.completed ≠ n)
    (hidle : ∀ i, s.isCompleted i = false → s.currentTime < (p i).arrivalTime) :
    SjfTrace p { s with currentTime := s.currentTime + 1 } where
  traced := h.traced.tick
  room := h.room.tick h.traced hfit hburst hopen hidle
  idle := h.idle.tick h.traced hidle
  ran := h.ran
  once := h.once
  interval := h.interval
  choice := h.choice

/-- Process `i` as it is when its burst begins. -/
def Cpu.begun (s : Cpu n) (i : Fin n) : Process := { s.p i with startTime := s.currentTime }

theorem runBurst_eq {i : Fin n} (h : InRange (s.currentTime + (s.p i).burstTime)) :
    s.runBurst i = some (s.serve i (s.begun i) (s.p i).burstTime True) := by
  simp only [Cpu.runBurst, Cpu.setProcess, Cpu.execute, Function.update_self, addInt_isSome h,
    Option.map_some]
  rfl

theorem SjfTrace.not_ran (h : SjfTrace p s) {i : Fin n} (hopen : s.isCompleted i = false) :
    ¬ Ran s.slices i := fun hran => by
  rw [(h.ran i).mp hran] at hopen
  cases hopen

theorem wholeLeft_of_open {i : Fin n} (hopen : s.isCompleted i = false) :
    wholeLeft p s i = (p i).burstTime := by
  simp [wholeLeft, hopen]

/-- A dispatch executes all of a process that has arrived and is not completed. -/
theorem SjfTrace.serves (h : SjfTrace p s) (hburst : ∀ i, 0 ≤ (p i).burstTime) {i : Fin n}
    (hi : (p i).arrivalTime ≤ s.currentTime ∧ s.isCompleted i = false) :
    Serves (wholeLeft p s) s i (s.begun i) (s.p i).burstTime where
  pid := rfl
  arrivalTime := rfl
  burstTime := rfl
  startTime := (if_neg (h.not_ran hi.2)).symm
  arrived := h.traced.arrivalTime i ▸ hi.1
  unfinished := hi.2
  nonneg := h.traced.burstTime i ▸ hburst i
  le := by rw [wholeLeft_of_open hi.2, h.traced.burstTime i]

theorem SjfTrace.left_zero (h : SjfTrace p s) {i : Fin n} (hopen : s.isCompleted i = false) :
    wholeLeft p s i - (s.p i).burstTime = 0 := by
  rw [wholeLeft_of_open hopen, h.traced.burstTime i, Int.sub_self]

/-- Nothing is left of it then. -/
theorem SjfTrace.update_wholeLeft (h : SjfTrace p s) {i : Fin n}
    (hopen : s.isCompleted i = false) :
    Function.update (wholeLeft p s) i (wholeLeft p s i - (s.p i).burstTime)
      = wholeLeft p (s.serve i (s.begun i) (s.p i).burstTime True) := by
  have hflag : ∀ j, (s.serve i (s.begun i) (s.p i).burstTime True).isCompleted j = true
      ↔ j = i ∨ s.isCompleted j = true := fun j => complete_isCompleted _ i j
  funext j
  by_cases hj : j = i
  · subst hj
    have hzero : wholeLeft p (s.serve j (s.begun j) (s.p j).burstTime True) j = 0 :=
      if_pos ((hflag j).mpr (.inl rfl))
    rw [Function.update_self, hzero, h.left_zero hopen]
  · rw [Function.update_of_ne hj]
    simp only [wholeLeft, hflag, hj, false_or]

/-- **A dispatch** of the first process that has arrived and is not completed. -/
theorem SjfTrace.dispatch (h : SjfTrace p s) (hburst : ∀ i, 0 ≤ (p i).burstTime) {i : Fin n}
    (hi : First p (fun i => (p i).burstTime)
      (fun i => (p i).arrivalTime ≤ s.currentTime ∧ s.isCompleted i = false) i) :
    SjfTrace p (s.serve i (s.begun i) (s.p i).burstTime True) := by
  have hopen := hi.mem.2
  have hnot := h.not_ran hopen
  have hs := h.serves hburst hi.mem
  have hlast : (wholeLeft p s i - (s.p i).burstTime = 0) = True := by
    rw [h.left_zero hopen, eq_self_iff_true]
  have hflag : ∀ j, (s.serve i (s.begun i) (s.p i).burstTime True).isCompleted j = true
      ↔ j = i ∨ s.isCompleted j = true := fun j => complete_isCompleted _ i j
  have hupdate := h.update_wholeLeft hopen
  have hprocess : ∀ x ∈ s.slices, x.process ≠ i := fun x hx hxi => hnot ⟨x, hx, hxi⟩
  constructor
  · have htraced := h.traced.serve hs
    simp only [hlast] at htraced
    rw [← hupdate]
    exact htraced
  · rw [← hupdate]
    exact h.room.serve hs True
  · exact h.idle.serve hs True
  · intro j
    rw [serve_slices, ran_concat, hflag, h.ran j]
    exact ⟨fun hj => hj.symm.imp_left Eq.symm, fun hj => hj.symm.imp_right Eq.symm⟩
  · rw [serve_slices, List.map_append, List.map_singleton]
    refine List.nodup_append.mpr ⟨h.once, List.nodup_singleton _, fun a ha b hb => ?_⟩
    obtain ⟨x, hx, rfl⟩ := List.mem_map.mp ha
    rw [List.mem_singleton.mp hb]
    exact hprocess x hx
  · intro x hx
    rw [serve_slices] at hx
    rcases List.mem_append.mp hx with hx | hx
    · rw [(serve_other s i _ _ True (hprocess x hx)).1]
      exact h.interval x hx
    · rw [List.mem_singleton.mp hx]
      refine ⟨?_, congrArg (s.currentTime + ·) (h.traced.burstTime i)⟩
      simp [Cpu.serve, Cpu.complete, Cpu.grant, Cpu.begun]
  · rw [serve_slices]
    refine history_concat.mpr ⟨h.choice, ?_⟩
    have hsame : (fun j => (p j).arrivalTime ≤ s.currentTime ∧ ¬ Ran s.slices j)
        = fun j => (p j).arrivalTime ≤ s.currentTime ∧ s.isCompleted j = false := by
      funext j
      rw [h.ran j, Bool.not_eq_true]
    rw [SjfChoice, hsame]
    exact hi

theorem wholeLeft_nonneg (hburst : ∀ i, 0 ≤ (p i).burstTime) (s : Cpu n) (i : Fin n) :
    0 ≤ wholeLeft p s i := by
  unfold wholeLeft
  split
  · exact le_rfl
  · exact hburst i

/-- **One turn** waits, or executes the first process that has arrived and is not
completed. -/
theorem SjfTrace.turn (h : SjfTrace p s) (hfit : TimesFit p) (hburst : ∀ i, 0 ≤ (p i).burstTime)
    (hmax : ∀ i, (p i).burstTime < intMax) (hopen : s.completed ≠ n) :
    (sjfBody s = some { s with currentTime := s.currentTime + 1 } ∧
        SjfTrace p { s with currentTime := s.currentTime + 1 } ∧
        ∀ i, s.isCompleted i = false → s.currentTime < (p i).arrivalTime) ∨
      ∃ i, sjfBody s = some (s.serve i (s.begun i) (s.p i).burstTime True) ∧
        SjfTrace p (s.serve i (s.begun i) (s.p i).burstTime True) ∧
        First p (fun i => (p i).burstTime)
          (fun i => (p i).arrivalTime ≤ s.currentTime ∧ s.isCompleted i = false) i := by
  have hleft := wholeLeft_nonneg hburst s
  have hnonneg := h.room.nonneg
  unfold sjfBody
  rcases h.traced.scan fun i => (h.traced.burstTime i).trans_lt (hmax i) with
    ⟨hscan, hidle⟩ | ⟨i, hscan, hfirst⟩
  · have h' := h.tick hfit hburst hopen hidle
    have hle : s.currentTime + 1 ≤ intMax := h'.room.currentTime_le hleft
    refine .inl ⟨?_, h', hidle⟩
    rw [hscan]
    exact h.room.tick_eq hle
  · rw [funext h.traced.burstTime] at hfirst
    have h' := h.dispatch hburst hfirst
    have hle := h'.room.currentTime_le (wholeLeft_nonneg hburst _)
    rw [serve_currentTime] at hle
    have hpos := hburst i
    have hsame := h.traced.burstTime i
    refine .inr ⟨i, ?_, h', hfirst⟩
    rw [hscan]
    exact runBurst_eq ⟨by unfold intMin; omega, hle⟩

/-- Every turn completes a process or moves the clock on. -/
theorem SjfTrace.body (h : SjfTrace p s) (hfit : TimesFit p) (hburst : ∀ i, 0 ≤ (p i).burstTime)
    (hmax : ∀ i, (p i).burstTime < intMax) (hopen : s.completed ≠ n) :
    ∃ s', sjfBody s = some s' ∧ SjfTrace p s' ∧
      (n - s'.completed) + (intMax - s'.currentTime).toNat
        < (n - s.completed) + (intMax - s.currentTime).toNat := by
  rcases h.turn hfit hburst hmax hopen with ⟨hbody, h', -⟩ | ⟨i, hbody, h', -⟩
  · have hle : s.currentTime + 1 ≤ intMax := h'.room.currentTime_le (wholeLeft_nonneg hburst s)
    exact ⟨_, hbody, h', by dsimp only; omega⟩
  · refine ⟨_, hbody, h', ?_⟩
    have hpos := hburst i
    have hsame := h.traced.burstTime i
    have hcount : (s.serve i (s.begun i) (s.p i).burstTime True).completed = s.completed + 1 :=
      rfl
    have hle : s.completed ≤ n := by
      rw [h.traced.completed]
      exact (Finset.card_filter_le _ _).trans (by rw [Finset.card_univ, Fintype.card_fin])
    rw [hcount, serve_currentTime]
    omega

/-! ## The whole run -/

/-- **The schedule that `sjf` ends with.** -/
structure SjfSchedule (p : Fin n → Process) (s : Cpu n) : Prop where
  completed : ∀ i, s.isCompleted i = true
  count : s.completed = n
  /-- every process is executed exactly once, in one piece -/
  once : (s.slices.map Slice.process).Perm (List.finRange n)
  interval : ∀ x ∈ s.slices,
    x.start = (s.p x.process).startTime ∧ x.stop = x.start + (p x.process).burstTime
  completionTime : ∀ i, (s.p i).completionTime = (s.p i).startTime + (p i).burstTime
  /-- the intervals do not overlap -/
  ordered : s.slices.Pairwise fun x y => x.stop ≤ y.start
  arrived : ∀ i, (p i).arrivalTime ≤ (s.p i).startTime
  /-- the CPU is idle only if all that has arrived is completed -/
  idle : ∀ u, u ∉ busyUnits s.slices → ∀ i, (p i).arrivalTime ≤ u → (s.p i).completionTime ≤ u
  choice : History (SjfChoice p) s.slices
  /-- the totals are the sums, as far as `int` can hold them -/
  turnaround : s.totalTurnaroundTime
    = intValue (∑ i, ((s.p i).completionTime - (p i).arrivalTime))
  response : s.totalResponseTime = intValue (∑ i, ((s.p i).startTime - (p i).arrivalTime))

theorem SjfTrace.schedule (h : SjfTrace p s) (harrival : ∀ i, 0 ≤ (p i).arrivalTime)
    (hdone : s.completed = n) : SjfSchedule p s := by
  have hall := h.traced.all_completed hdone
  -- the slice of each process
  have hslice : ∀ i, ∃ x ∈ s.slices, x.process = i := fun i => (h.ran i).mpr (hall i)
  constructor
  · exact hall
  · exact hdone
  · refine (List.perm_ext_iff_of_nodup h.once (List.nodup_finRange n)).mpr fun i => ?_
    obtain ⟨x, hx, hxi⟩ := hslice i
    exact ⟨fun _ => List.mem_finRange i, fun _ => List.mem_map.mpr ⟨x, hx, hxi⟩⟩
  · exact h.interval
  · intro i
    obtain ⟨-, ⟨⟨x, hx, rfl, hstop⟩, -⟩, -⟩ := h.traced.finished i (hall i)
    obtain ⟨hstart, hlength⟩ := h.interval x hx
    rw [← hstop, hlength, hstart]
  · exact h.traced.ordered
  · intro i
    obtain ⟨x, hx, rfl⟩ := hslice i
    rw [← (h.interval x hx).1]
    exact (h.traced.within x hx).1
  · exact fun u hu => h.idle.completed_by h.traced hdone harrival hu
  · exact h.choice
  · rw [h.traced.turnaround]
    exact congrArg intValue (Finset.sum_congr rfl fun i _ => if_pos (hall i))
  · rw [h.traced.response]
    exact congrArg intValue (Finset.sum_congr rfl fun i _ => if_pos (hall i))

/-- **`sjf` terminates with a valid schedule** that takes the shortest job
first, and with the sums of its times as far as these are in range, for all
processes with arrival times from 0 on, burst times from 0 up to below
`INT_MAX` and times in the range of `int`. -/
theorem sjf_schedule (harrival : ∀ i, 0 ≤ (p i).arrivalTime)
    (hburst : ∀ i, 0 ≤ (p i).burstTime) (hmax : ∀ i, (p i).burstTime < intMax)
    (hfit : TimesFit p) :
    ∃ s, Returns sjfLoop (Cpu.initial p) s ∧ SjfSchedule p s := by
  obtain ⟨s, hs, h, hdone⟩ := while_returns (c := fun s : Cpu n => s.completed != n) (f := sjfBody)
    (SjfTrace p) (fun s => (n - s.completed) + (intMax - s.currentTime).toNat)
    (fun s h hc => h.body hfit hburst hmax (by simpa using hc))
    (SjfTrace.start harrival hburst hfit)
  exact ⟨s, hs, h.schedule harrival (by simpa using hdone)⟩

/-- A long job, and while it runs a short one and one of no length arrive. -/
theorem sjf_schedule_sample :
    ∃ s, Returns sjfLoop (Cpu.initial (inputProcesses (fun _ => Process.zero)
        ![(1, 5), (2, 3), (4, 0)])) s ∧
      SjfSchedule (inputProcesses (fun _ => Process.zero) ![(1, 5), (2, 3), (4, 0)]) s :=
  sjf_schedule (by decide) (by decide) (by decide) (by unfold TimesFit; decide)

/-- Three processes whose times are in range; the sum of their turnaround times
is 4200000000. -/
def threeLong : Fin 3 → Process :=
  inputProcesses (fun _ => Process.zero) ![(0, 700000000), (0, 700000000), (0, 700000000)]

theorem sjf_threeLong :
    ∃ s, Returns sjfLoop (Cpu.initial threeLong) s ∧ s.totalTurnaroundTime = none :=
  ⟨_, ⟨4, rfl⟩, by decide⟩

/-- The totals are not always the sums. -/
theorem not_sjf_sums : ¬ ∀ (n : Nat) (p : Fin n → Process), (∀ i, 0 ≤ (p i).arrivalTime) →
    (∀ i, 0 ≤ (p i).burstTime) → (∀ i, (p i).burstTime < intMax) → TimesFit p →
    ∃ s, Returns sjfLoop (Cpu.initial p) s ∧ SjfSchedule p s ∧
      s.totalTurnaroundTime = some (∑ i, ((s.p i).completionTime - (p i).arrivalTime)) ∧
      s.totalResponseTime = some (∑ i, ((s.p i).startTime - (p i).arrivalTime)) := by
  intro h
  obtain ⟨s, hs, -, hsum, -⟩ := h 3 threeLong (by decide) (by decide) (by decide)
    (by unfold TimesFit; decide)
  obtain ⟨s', hs', hnone⟩ := sjf_threeLong
  rw [hs.unique hs', hnone] at hsum
  cases hsum

end OsInParts.Scheduling
