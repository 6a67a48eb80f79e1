import Mathlib.Data.Prod.Lex
import OsInParts.Scheduling.Loops
import OsInParts.Scheduling.RoundRobin

/-!
# BusyTime — the four schedulers execute something at the same times

None of them waits while a process that has arrived is unfinished, so each
ends with the slots of `Lib.Schedule.Busy` as its busy time units, and with
the end of the last one as its largest completion time (`Outcome`). For
`fifo` this is a statement about the sorted array, and `Busy` does not
depend on the order of the jobs.
-/

namespace OsInParts.Scheduling

open Lib Lib.Loop Lib.Schedule

variable {n : Nat} {p : Fin n → Process} {rem : Fin n → ℕ} {t : ℕ}

/-- What a scheduler ends with on the jobs `J`. -/
structure Outcome (J : Jobs (Fin n)) (p : Fin n → Process) (slices : List (Slice n)) :
    Prop where
  busy : busyUnits slices = { u : Int | ∃ v : ℕ, u = v ∧ Busy J v }
  last : 0 < n → ∃ t : ℕ, 0 < t ∧ Busy J (t - 1) ∧ (∀ u, t ≤ u → ¬ Busy J u) ∧
    (∀ i, (p i).completionTime ≤ t) ∧ ∃ i, (p i).completionTime = t

theorem largestCompletion_eq {i : Fin n} (hle : ∀ j, (p j).completionTime ≤ (p i).completionTime) :
    largestCompletion p = some (p i).completionTime := by
  rw [largestCompletion, List.max?_eq_some_iff]
  refine ⟨List.mem_map.mpr ⟨i, List.mem_finRange i, rfl⟩, fun b hb => ?_⟩
  obtain ⟨j, -, rfl⟩ := List.mem_map.mp hb
  exact hle j

/-- **Two outcomes on the same jobs** agree on the busy time units and on the
largest completion time. -/
theorem Outcome.agree {J : Jobs (Fin n)} {p p' : Fin n → Process} {slices slices' : List (Slice n)}
    (h : Outcome J p slices) (h' : Outcome J p' slices') :
    busyUnits slices = busyUnits slices' ∧ largestCompletion p = largestCompletion p' := by
  refine ⟨h.busy.trans h'.busy.symm, ?_⟩
  rcases Nat.eq_zero_or_pos n with rfl | hn
  · rfl
  · obtain ⟨t, hpos, hbusy, hidle, hle, i, hi⟩ := h.last hn
    obtain ⟨t', hpos', hbusy', hidle', hle', i', hi'⟩ := h'.last hn
    obtain rfl : t = t' := by
      by_contra hne
      rcases Nat.lt_or_gt_of_ne hne with hlt | hlt
      · exact hidle (t' - 1) (by omega) hbusy'
      · exact hidle' (t - 1) (by omega) hbusy
    rw [largestCompletion_eq (i := i) (fun j => hi ▸ hle j),
      largestCompletion_eq (i := i') (fun j => hi' ▸ hle' j), hi, hi']

theorem Progress.outcome {s : Cpu n} (h : Progress p rem t s) (hdone : s.completed = n) :
    Outcome (jobs p) s.p s.slices := by
  have hall := h.all_finished hdone
  obtain ⟨hbusy, hidle⟩ := h.ledger.all_busy fun i => (h.isCompleted i).mp (hall i)
  refine ⟨hbusy, fun hn => ?_⟩
  obtain ⟨hpos, hlast, hex⟩ := h.last hdone hn
  exact ⟨t, hpos, hlast, hidle, fun i => h.completion_le i (hall i), hex⟩

/-! ## `fifo` -/

theorem after_iff (x y : Process) :
    x.After y ↔ toLex (y.arrivalTime, y.pid) < toLex (x.arrivalTime, x.pid) := by
  rw [Prod.Lex.toLex_lt_toLex, Process.After]
  simp only [gt_iff_lt, eq_comm]

/-- After the sort the processes are in order of arrival. -/
theorem sorted_arrival (p : Fin n → Process) {i j : Fin n} (hij : i ≤ j) :
    (BubbleSort.sort Process.After p i).arrivalTime
      ≤ (BubbleSort.sort Process.After p j).arrivalTime := by
  have hle := BubbleSort.sort_monotone (fun q : Process => toLex (q.arrivalTime, q.pid))
    after_iff p hij
  rcases Prod.Lex.toLex_le_toLex.mp hle with h | h
  · exact h.le
  · exact h.1.le

/-- After the first `k` turns, at time `t`. -/
structure FifoInv (p : Fin n → Process) (k t : ℕ) (s : Fifo n) : Prop where
  ledger : Ledger (jobs p) (fun i => if i.val < k then 0 else (jobs p).work i) t s.slices
  time : s.currTime = t
  rest : ∀ i, k ≤ i.val → s.process i = p i
  completion_le : ∀ i, i.val < k → (s.process i).completionTime ≤ t
  last : 0 < k → 0 < t ∧ Busy (jobs p) (t - 1) ∧ ∃ i, (s.process i).completionTime = t

theorem fifo_step (hv : Valid p) (hfit : TimesFit p)
    (hsorted : ∀ i j : Fin n, i ≤ j → (p i).arrivalTime ≤ (p j).arrivalTime) {s : Fifo n}
    {i : Fin n} (h : FifoInv p i t s) :
    ∃ s', fifoStep s i = some s' ∧ ∃ t', FifoInv p (i + 1) t' s' := by
  have hproc := h.rest i le_rfl
  -- the time at which `i` is started: its arrival if that is still to come
  obtain ⟨start, hstart⟩ : ∃ start, start = max t ((jobs p).release i) := ⟨_, rfl⟩
  have hwait : Ledger (jobs p) (fun j => if j.val < i.val then 0 else (jobs p).work j)
      start s.slices := by
    rw [show start = t + ((jobs p).release i - t) by omega]
    refine h.ledger.wait fun j hj u h1 h2 => ?_
    have hij : i ≤ j := not_lt.mp fun hlt => hj (if_pos hlt)
    have hle := (hv.release_le_iff i j).mpr (hsorted i j hij)
    omega
  have hself : (if i.val < i.val then 0 else (jobs p).work i) = (jobs p).work i :=
    if_neg (Nat.lt_irrefl _)
  obtain ⟨hledger, hbusy⟩ := hwait.execute (i := i) (d := (jobs p).work i) (by omega) hself.ge
  have hpos := hv.work_pos i
  have hmax := hv.busy_le hfit (hbusy (start + (jobs p).work i - 1) (by omega) (by omega))
  have hclock : (if s.currTime < (s.process i).arrivalTime then (s.process i).arrivalTime
      else s.currTime) = (start : Int) := by
    rw [h.time, hproc, ← hv.release i]
    split <;> omega
  have hadd : addInt start (s.process i).burstTime
      = some ((start + (jobs p).work i : ℕ) : Int) := by
    rw [hproc, ← hv.work i]
    exact addInt_eq_some.mpr ⟨(Nat.cast_add _ _).symm, by unfold intMin; omega, by omega⟩
  refine ⟨_, by unfold fifoStep; dsimp only; rw [hclock, hadd]; rfl, start + (jobs p).work i,
    ?_, rfl, fun j hj => ?_, fun j hj => ?_, fun _ => ⟨by omega, hbusy _ (by omega) (by omega),
      i, by simp only [Function.update_self]⟩⟩
  · have hrem : Function.update (fun j : Fin n => if j.val < i.val then 0 else (jobs p).work j) i
        ((if i.val < i.val then 0 else (jobs p).work i) - (jobs p).work i)
        = fun j => if j.val < i.val + 1 then 0 else (jobs p).work j := by
      funext j
      by_cases hj : j = i
      · subst hj
        rw [Function.update_self, hself, Nat.sub_self, if_pos (Nat.lt_succ_self _)]
      · have hne : j.val ≠ i.val := fun h => hj (Fin.ext h)
        have hiff : j.val < i.val + 1 ↔ j.val < i.val := by omega
        rw [Function.update_of_ne hj]
        simp only [hiff]
    rw [← hrem]
    exact hledger
  · have hne : j ≠ i := by
      rintro rfl
      omega
    simp only [Function.update_of_ne hne]
    exact h.rest j (by omega)
  · by_cases hji : j = i
    · subst hji
      simp only [Function.update_self, le_refl]
    · have hne : j.val ≠ i.val := fun h => hji (Fin.ext h)
      simp only [Function.update_of_ne hji]
      have := h.completion_le j (by omega)
      omega

theorem FifoInv.outcome {s : Fifo n} (h : FifoInv p n t s) :
    Outcome (jobs p) s.process s.slices := by
  obtain ⟨hbusy, hidle⟩ := h.ledger.all_busy fun i => if_pos i.isLt
  refine ⟨hbusy, fun hn => ?_⟩
  obtain ⟨hpos, hlast, hex⟩ := h.last hn
  exact ⟨t, hpos, hlast, hidle, fun i => h.completion_le i i.isLt, hex⟩

/-- Rearranging the array changes neither its times nor its busy slots. -/
theorem rearrange (e : Equiv.Perm (Fin n)) :
    (Valid p → Valid (p ∘ e)) ∧ (TimesFit p → TimesFit (p ∘ e)) ∧
      Busy (jobs (p ∘ e)) = Busy (jobs p) := by
  refine ⟨fun hv => ⟨fun i => hv.arrival (e i), fun i => hv.burst (e i)⟩, fun hfit i => ?_,
    funext fun t => ?_⟩
  · refine le_of_eq_of_le (congrArg _ ?_) (hfit (e i))
    exact Equiv.sum_comp e fun j =>
      if (p (e i)).arrivalTime ≤ (p j).arrivalTime then (p j).burstTime else 0
  · obtain ⟨harrived, hexecuted⟩ := executed_comp_equiv (J := jobs p) e t
    show (executed _ t < arrived _ t) = (executed _ t < arrived _ t)
    rw [← harrived, ← hexecuted]
    rfl

/-- **`fifo` ends** with the busy slots of its array. -/
theorem fifo_outcome (hv : Valid p) (hfit : TimesFit p) :
    ∃ s, fifo p = some s ∧ Outcome (jobs p) s.process s.slices := by
  obtain ⟨e, he⟩ := BubbleSort.sort_perm Process.After p
  have hsorted : ∀ i j : Fin n, i ≤ j → ((p ∘ e) i).arrivalTime ≤ ((p ∘ e) j).arrivalTime :=
    fun i j hij => he ▸ sorted_arrival p hij
  obtain ⟨hvalid, hfits, hbusy⟩ := rearrange (p := p) e
  have hstart : FifoInv (p ∘ e) 0 0 { process := p ∘ e, currTime := 0, slices := [] } :=
    ⟨by simpa using Ledger.start (jobs (p ∘ e)), rfl, fun _ _ => rfl,
      fun i hi => absurd hi (Nat.not_lt_zero _), fun h => absurd h (Nat.lt_irrefl 0)⟩
  obtain ⟨s, hs, t, hI⟩ := for_rule (f := fifoStep) (fun k s => ∃ t, FifoInv (p ∘ e) k t s)
    (fun i s ⟨t, hI⟩ => fifo_step (hvalid hv) (hfits hfit) hsorted hI) ⟨0, hstart⟩
  refine ⟨s, by rw [fifo, he]; exact hs, ?_⟩
  have hout := hI.outcome
  exact ⟨by rw [hout.busy, hbusy], fun hn => by simpa only [hbusy] using hout.last hn⟩

/-! ## The four schedulers -/

/-- **The schedulers agree on when the CPU is busy.** For processes with
arrival times from 0 on, burst times from 1 up to below `INT_MAX` and times
in the range of `int`, `fifo`, `sjf` and `srtf` end with the same busy time
units and the same largest completion time; so does `rr` with any time
quantum, if it ends, on an array as `input_processes` leaves it. -/
theorem busy_time_agrees (harrival : ∀ i, 0 ≤ (p i).arrivalTime)
    (hburst : ∀ i, 1 ≤ (p i).burstTime) (hmax : ∀ i, (p i).burstTime < intMax)
    (hfit : TimesFit p) :
    ∃ f j s, fifo p = some f ∧ Returns sjfLoop (Cpu.initial p) j ∧
      Returns srtfLoop (Srtf.initial p) s ∧
      (busyUnits f.slices = busyUnits j.slices ∧
        largestCompletion f.process = largestCompletion j.p) ∧
      (busyUnits s.slices = busyUnits j.slices ∧
        largestCompletion s.p = largestCompletion j.p) ∧
      (Built p → ∀ timeQuantum, 1 ≤ timeQuantum → ∀ r,
        Returns (rrLoop timeQuantum) (Rr.initial p) r →
          busyUnits r.slices = busyUnits j.slices ∧
            largestCompletion r.p = largestCompletion j.p) := by
  have hv : Valid p := ⟨harrival, hburst⟩
  obtain ⟨f, hf, hfout⟩ := fifo_outcome hv hfit
  obtain ⟨j, _, _, hj, hjprog, hjdone⟩ := sjf_returns hv hfit hmax
  obtain ⟨s, _, _, hs, hsprog, hsdone, -⟩ := srtf_returns hv hfit hmax (fun _ _ _ => True)
    trivial fun _ _ _ _ _ _ _ _ _ _ => trivial
  have hjout := hjprog.outcome hjdone
  refine ⟨f, j, s, hf, hj, hs, hfout.agree hjout,
    (hsprog.progress.outcome hsdone).agree hjout, fun hb q hq r hr => ?_⟩
  obtain ⟨_, _, hrinv, hrdone, -⟩ := rr_returns_imp hb hv hq hr
  exact (hrinv.progress.outcome hrdone).agree hjout

/-- Two processes without a gap between them, the later one entered first. -/
def twoMeeting : Fin 2 → Process := inputProcesses (fun _ => Process.zero) ![(3, 2), (0, 3)]

/-- `rr` reaches the end as well. -/
theorem busy_time_agrees_twoMeeting :
    ∃ f j s r, fifo twoMeeting = some f ∧ Returns sjfLoop (Cpu.initial twoMeeting) j ∧
      Returns srtfLoop (Srtf.initial twoMeeting) s ∧
      Returns (rrLoop 2) (Rr.initial twoMeeting) r ∧
      busyUnits f.slices = busyUnits j.slices ∧ busyUnits s.slices = busyUnits j.slices ∧
      busyUnits r.slices = busyUnits j.slices ∧
      largestCompletion r.p = largestCompletion j.p := by
  obtain ⟨f, j, s, hf, hj, hs, hfj, hsj, hrr⟩ := busy_time_agrees (p := twoMeeting) (by decide)
    (by decide) (by decide) (by unfold TimesFit; decide)
  have hr : Returns (rrLoop 2) (Rr.initial twoMeeting) _ := ⟨6, rfl⟩
  obtain ⟨hbusy, hlargest⟩ := hrr (built_inputProcesses _ _) 2 (by decide) _ hr
  exact ⟨f, j, s, _, hf, hj, hs, hr, hfj.1, hsj.1, hbusy, hlargest⟩

end OsInParts.Scheduling
