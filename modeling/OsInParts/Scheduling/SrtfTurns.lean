import Mathlib.Order.Lattice.Nat
import OsInParts.Scheduling.SrtfOptimal
import OsInParts.Scheduling.SrtfSchedule

/-!
# SrtfTurns — how many turns `srtf` takes

A turn that executes a process lowers what is left of the bursts, and a turn
that waits brings the last arrival nearer, so the loop leaves after at most
the largest arrival time plus the sum of the bursts. It leaves at all only if
no burst is 0: the remaining time of such a process is decremented to `-1` and
the test for 0 never succeeds.
-/

namespace OsInParts.Scheduling

open Lib.Loop

variable {n : Nat} {p : Fin n → Process} {s : Srtf n}

/-- The largest arrival time. -/
def lastArrival (p : Fin n → Process) : Nat := Finset.univ.sup fun i => (p i).arrivalTime.toNat

/-- The largest arrival time, the sum of the bursts and the number of processes. -/
def turnBound (p : Fin n → Process) : Nat :=
  lastArrival p + (∑ i, (p i).burstTime).toNat + n

/-- The loop exits within the bound, with every process completed. -/
def ExitsInTime (p : Fin n → Process) : Prop :=
  ∃ s, run srtfLoop (turnBound p + 1) (Srtf.initial p) = .exit s ∧ ∀ i, s.isCompleted i = true

/-! ## The variant -/

/-- The waiting and the work that are left. -/
def turnsLeft (p : Fin n → Process) (s : Srtf n) : Nat :=
  (lastArrival p - s.currentTime).toNat + (∑ i, s.burstRemaining i).toNat

theorem le_lastArrival (p : Fin n → Process) (i : Fin n) :
    (p i).arrivalTime ≤ lastArrival p := by
  have hle := Finset.le_sup (f := fun i => (p i).arrivalTime.toNat) (Finset.mem_univ i)
  have hself := Int.self_le_toNat (p i).arrivalTime
  unfold lastArrival
  omega

section AfterUnit

variable (s) (i j : Fin n)

theorem afterUnit_remaining : (s.afterUnit i).burstRemaining j
    = s.burstRemaining j - if j = i then 1 else 0 := by
  by_cases hj : j = i
  · subst hj
    simp [Srtf.afterUnit]
  · simp [Srtf.afterUnit, hj]

theorem afterUnit_isCompleted : (s.afterUnit i).isCompleted j = true ↔
    s.isCompleted j = true ∨ j = i ∧ s.burstRemaining i - 1 = 0 := by
  simp only [Srtf.afterUnit, Cpu.serve]
  split
  · rename_i hlast
    rw [complete_isCompleted, or_comm]
    simp [Cpu.grant, hlast]
  · rename_i hmore
    simp [Cpu.grant, hmore]

theorem afterUnit_arrivalTime : ((s.afterUnit i).p j).arrivalTime = (s.p j).arrivalTime := by
  have hgrant := grant_keeps s.toCpu i (s.begun i) 1 Process.arrivalTime rfl j
  simp only [Srtf.afterUnit, Cpu.serve]
  split
  · exact (complete_times _ i j).1.trans hgrant
  · exact hgrant

/-- A sum of remaining times loses the unit if it counts the process. -/
theorem sum_afterUnit (S : Finset (Fin n)) :
    ∑ j ∈ S, (s.afterUnit i).burstRemaining j
      = ∑ j ∈ S, s.burstRemaining j - if i ∈ S then 1 else 0 := by
  simp only [afterUnit_remaining, Finset.sum_sub_distrib, Finset.sum_ite_eq']

end AfterUnit

/-- **Every turn lowers the variant.** -/
theorem SrtfTrace.turnsLeft_lt (h : SrtfTrace p s) (hfit : TimesFit p)
    (hburst : ∀ i, 1 ≤ (p i).burstTime) (hmax : ∀ i, (p i).burstTime < intMax)
    (hopen : s.completed ≠ n) :
    ∃ s', srtfBody s = some s' ∧ SrtfTrace p s' ∧ turnsLeft p s' < turnsLeft p s := by
  rcases h.turn hfit hburst hmax hopen with ⟨hbody, h', hidle⟩ | ⟨i, hbody, h', hfirst⟩
  · refine ⟨_, hbody, h', ?_⟩
    obtain ⟨i, hi⟩ := h.traced.exists_open hopen
    have hlate := hidle i hi
    have hle := le_lastArrival p i
    simp only [turnsLeft]
    omega
  · refine ⟨_, hbody, h', ?_⟩
    have hsum := sum_afterUnit s i Finset.univ
    rw [if_pos (Finset.mem_univ i)] at hsum
    have hnonneg := Finset.sum_nonneg fun j (_ : j ∈ Finset.univ) => h'.nonneg j
    have hclock : (s.afterUnit i).currentTime = s.currentTime + 1 := serve_currentTime ..
    simp only [turnsLeft, hclock]
    omega

theorem exitsInTime_of_positive (harrival : ∀ i, 0 ≤ (p i).arrivalTime)
    (hburst : ∀ i, 1 ≤ (p i).burstTime) (hmax : ∀ i, (p i).burstTime < intMax)
    (hfit : TimesFit p) : ExitsInTime p := by
  obtain ⟨s, hrun, h, hdone⟩ := while_run (c := fun s : Srtf n => s.completed != n)
    (f := srtfBody) (SrtfTrace p) (turnsLeft p)
    (fun s h hc => h.turnsLeft_lt hfit hburst hmax (by simpa using hc))
    (SrtfTrace.start harrival hburst hfit)
  have hstart : turnsLeft p (Srtf.initial p) + n = turnBound p := by
    simp [turnsLeft, turnBound, Srtf.initial, Cpu.initial]
  refine ⟨s, ?_, h.traced.all_completed (by simpa using hdone)⟩
  have hmore := run_exit_mono hrun n
  rwa [show turnsLeft p (Srtf.initial p) + 1 + n = turnBound p + 1 by omega] at hmore

/-! ## What any run does -/

/-- Whatever the keys are, the scan chooses a process that has arrived and is
not completed. -/
theorem Candidates.scan_eligible {c : Candidates n} {k : Fin n} (h : c.scan = some (some k)) :
    c.Eligible k := by
  have hfold : ∀ (l : List (Fin n)) (acc acc' : Int × Option (Fin n)),
      l.foldlM c.scanStep acc = some acc' → (∀ j, acc.2 = some j → c.Eligible j) →
      ∀ j, acc'.2 = some j → c.Eligible j := by
    intro l
    induction l with
    | nil =>
        intro acc acc' hacc hel
        cases hacc
        exact hel
    | cons i l ih =>
        intro acc acc' hacc hel
        rw [List.foldlM_cons] at hacc
        obtain ⟨acc₁, hstep, hrest⟩ := Option.bind_eq_some_iff.mp hacc
        refine ih acc₁ acc' hrest fun j hj => ?_
        rcases Candidates.scanStep_choice hstep with hsame | ⟨hnew, hi⟩
        · exact hel j (hsame ▸ hj)
        · rw [hnew] at hj
          cases hj
          exact hi
  obtain ⟨acc, hacc, hk⟩ := Option.map_eq_some_iff.mp h
  exact hfold _ _ acc hacc (fun j hj => by cases hj) k hk

theorem runUnit_some {s' : Srtf n} {i : Fin n} (h : s.runUnit i = some s') :
    s.currentTime + 1 ≤ intMax ∧ s' = s.afterUnit i := by
  have hrange : InRange (s.currentTime + 1) := by
    have hunit := h
    rw [Srtf.runUnit, mark_start] at hunit
    obtain ⟨cpu, hcpu, -⟩ := Option.map_eq_some_iff.mp hunit
    obtain ⟨now, hadd, -⟩ := Option.map_eq_some_iff.mp hcpu
    exact (addInt_inRange hadd).2
  rw [runUnit_eq hrange] at h
  exact ⟨hrange.2, (Option.some.inj h).symm⟩

/-- **A turn of any run**: the clock moves on by one, within `int`, and a unit is
executed only of a process that has arrived and is not completed. -/
theorem srtfBody_some {s' : Srtf n} (h : srtfBody s = some s') :
    s.currentTime + 1 ≤ intMax ∧
      (s' = { s with currentTime := s.currentTime + 1 } ∨
        ∃ i, s' = s.afterUnit i ∧ (s.p i).arrivalTime ≤ s.currentTime ∧
          s.isCompleted i = false) := by
  unfold srtfBody at h
  split at h
  · cases h
  · obtain ⟨cpu, htick, rfl⟩ := Option.map_eq_some_iff.mp h
    obtain ⟨now, hadd, rfl⟩ := Option.map_eq_some_iff.mp htick
    obtain ⟨rfl, hrange⟩ := addInt_inRange hadd
    exact ⟨hrange.2, .inl rfl⟩
  · rename_i i hscan
    obtain ⟨hle, rfl⟩ := runUnit_some h
    obtain ⟨harrived, hopen⟩ := Candidates.scan_eligible hscan
    exact ⟨hle, .inr ⟨i, rfl, harrived, hopen⟩⟩

/-! ## A burst of 0 -/

/-- Below 1 a remaining time never becomes 0 again. -/
theorem overdue_step {s' : Srtf n} {i : Fin n} (h : srtfBody s = some s')
    (hi : s.burstRemaining i ≤ 0 ∧ s.isCompleted i = false) :
    s'.burstRemaining i ≤ 0 ∧ s'.isCompleted i = false := by
  obtain ⟨hover, hopen⟩ := hi
  rcases (srtfBody_some h).2 with rfl | ⟨k, rfl, -, -⟩
  · exact ⟨hover, hopen⟩
  · constructor
    · rw [afterUnit_remaining]
      split <;> omega
    · rw [← Bool.not_eq_true, afterUnit_isCompleted, not_or, not_and]
      refine ⟨by simp [hopen], ?_⟩
      rintro rfl
      omega

/-- A process without a burst is never completed. -/
theorem not_completed_of_zero {i : Fin n} (hi : (p i).burstTime ≤ 0)
    (h : Returns srtfLoop (Srtf.initial p) s) : s.isCompleted i = false :=
  (h.while_rule (fun s => s.burstRemaining i ≤ 0 ∧ s.isCompleted i = false)
    (fun _ _ hs _ hbody => overdue_step hbody hs) ⟨hi, rfl⟩).1.2

/-! ## Times out of range -/

/-- The processes that arrive from `a` on. -/
def arriveFrom (p : Fin n → Process) (a : Int) : Finset (Fin n) :=
  Finset.univ.filter fun j => a ≤ (p j).arrivalTime

/-- What any run has done by the current time. -/
structure SrtfSoFar (p : Fin n → Process) (s : Srtf n) : Prop where
  arrivalTime : ∀ i, (s.p i).arrivalTime = (p i).arrivalTime
  clock : s.currentTime ≤ intMax
  finished : ∀ i, s.isCompleted i = true → s.burstRemaining i = 0
  /-- no more than the time since `a` has gone to processes that arrive from then on -/
  done : ∀ a, ∑ j ∈ arriveFrom p a, (p j).burstTime
    ≤ ∑ j ∈ arriveFrom p a, s.burstRemaining j + max 0 (s.currentTime - a)

theorem SrtfSoFar.start (p : Fin n → Process) : SrtfSoFar p (Srtf.initial p) where
  arrivalTime := fun _ => rfl
  clock := intMax_nonneg
  finished := fun _ h => by cases h
  done := fun a => Int.le_add_of_nonneg_right (Int.le_max_left ..)

theorem SrtfSoFar.step {s' : Srtf n} (h : SrtfSoFar p s) (hbody : srtfBody s = some s') :
    SrtfSoFar p s' := by
  obtain ⟨hle, rfl | ⟨i, rfl, harrived, hopen⟩⟩ := srtfBody_some hbody
  · refine ⟨h.arrivalTime, hle, h.finished, fun a => ?_⟩
    have hdone := h.done a
    dsimp only
    omega
  · rw [h.arrivalTime i] at harrived
    have hclock : (s.afterUnit i).currentTime = s.currentTime + 1 := serve_currentTime ..
    refine ⟨fun j => (afterUnit_arrivalTime s i j).trans (h.arrivalTime j),
      by rw [hclock]; exact hle, fun j hj => ?_, fun a => ?_⟩
    · rw [afterUnit_remaining]
      rcases (afterUnit_isCompleted s i j).mp hj with hdone | ⟨rfl, hlast⟩
      · have hji : j ≠ i := by
          rintro rfl
          rw [hopen] at hdone
          cases hdone
        rw [if_neg hji, h.finished j hdone]
        rfl
      · rw [if_pos rfl, hlast]
    · have hdone := h.done a
      rw [sum_afterUnit, hclock]
      split
      · rename_i hi
        have hlate := (Finset.mem_filter.mp hi).2
        omega
      · omega

/-- A run that completes every process has had time for all of them. -/
theorem timesFit_of_completed (hburst : ∀ i, 1 ≤ (p i).burstTime)
    (h : Returns srtfLoop (Srtf.initial p) s) (hall : ∀ i, s.isCompleted i = true) :
    TimesFit p := by
  have hend := (h.while_rule (SrtfSoFar p) (fun _ _ hs _ hbody => hs.step hbody)
    (SrtfSoFar.start p)).1
  intro i
  have hdone := hend.done (p i).arrivalTime
  have hclock := hend.clock
  have hzero : ∑ j ∈ arriveFrom p (p i).arrivalTime, s.burstRemaining j = 0 :=
    Finset.sum_eq_zero fun j _ => hend.finished j (hall j)
  have hmem : i ∈ arriveFrom p (p i).arrivalTime :=
    Finset.mem_filter.mpr ⟨Finset.mem_univ i, le_rfl⟩
  have hself : (p i).burstTime ≤ ∑ j ∈ arriveFrom p (p i).arrivalTime, (p j).burstTime :=
    Finset.single_le_sum (f := fun j => (p j).burstTime)
      (fun j _ => Int.le_trans (by decide) (hburst j)) hmem
  have hpos := hburst i
  rw [← Finset.sum_filter]
  show (p i).arrivalTime + ∑ j ∈ arriveFrom p (p i).arrivalTime, (p j).burstTime ≤ intMax
  omega

/-! ## When the loop exits in time -/

theorem ExitsInTime.returns (h : ExitsInTime p) :
    ∃ s, Returns srtfLoop (Srtf.initial p) s ∧ ∀ i, s.isCompleted i = true := by
  obtain ⟨s, hrun, hall⟩ := h
  exact ⟨s, ⟨_, hrun⟩, hall⟩

/-- **The loop of `srtf` exits in time exactly if every burst is from 1 up to
below `INT_MAX` and all times are in the range of `int`.** -/
theorem srtf_exitsInTime_iff (harrival : ∀ i, 0 ≤ (p i).arrivalTime) :
    ExitsInTime p ↔ (∀ i, 1 ≤ (p i).burstTime) ∧ (∀ i, (p i).burstTime < intMax) ∧
      TimesFit p := by
  constructor
  · intro h
    obtain ⟨s, hs, hall⟩ := h.returns
    have hpos : ∀ i, 1 ≤ (p i).burstTime := fun i => by
      by_contra hi
      have hopen := not_completed_of_zero (i := i) (by omega) hs
      rw [hall i] at hopen
      cases hopen
    have hfit := timesFit_of_completed hpos hs hall
    refine ⟨hpos, fun i => ?_, hfit⟩
    by_contra hi
    exact srtf_undefined ⟨harrival, hpos⟩ hfit (not_lt.mp hi) s hs
  · rintro ⟨hpos, hmax, hfit⟩
    exact exitsInTime_of_positive harrival hpos hmax hfit

theorem srtf_exitsInTime_iff_sample : ExitsInTime longShort :=
  (srtf_exitsInTime_iff (p := longShort) (by decide)).mpr
    ⟨by decide, by decide, by unfold TimesFit; decide⟩

/-- What the loop promises to every array that can be entered. -/
def AlwaysExitsInTime : Prop :=
  ∀ (n : Nat) (p : Fin n → Process), (∀ i, 0 ≤ (p i).arrivalTime) →
    (∀ i, 0 ≤ (p i).burstTime) → ExitsInTime p

/-- A process that arrives at 0 and has nothing to do. -/
def nothingToDo (n : Nat) : Fin n → Process :=
  inputProcesses (fun _ => Process.zero) fun _ => (0, 0)

/-- It is never completed. -/
theorem srtf_not_alwaysExitsInTime : ¬ AlwaysExitsInTime := by
  intro h
  obtain ⟨s, hs, hall⟩ := (h 1 (nothingToDo 1) (fun _ => le_rfl) fun _ => le_rfl).returns
  have hopen := not_completed_of_zero (i := 0) le_rfl hs
  rw [hall 0] at hopen
  cases hopen

end OsInParts.Scheduling
