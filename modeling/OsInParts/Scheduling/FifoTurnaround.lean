import Mathlib.Algebra.Order.Ring.Cast
import Mathlib.Algebra.Order.Ring.Int
import Mathlib.Order.Interval.Finset.Fin
import OsInParts.Scheduling.FifoSchedule
import OsInParts.Scheduling.RrFairness
import OsInParts.Scheduling.SjfSchedule
import OsInParts.Scheduling.SrtfOptimal
import OsInParts.Scheduling.SrtfSchedule

/-!
# FifoTurnaround — `fifo` keeps the worst turnaround time least

Each process that `fifo` completes ends a block of processes executed without
a pause, the first of them at its arrival (`exists_block`). Any schedule has
the whole block to do from that arrival on, so one of its processes is done no
earlier than `fifo` is with all of them; and that one has arrived no later
than the last of the block.

The schedules compared with are the plans of `Lib.Timeline` over any ordered
ring of times, preemptive or not; the slices of `sjf`, `srtf` and `rr` are
such plans (`Traced.plan`).
-/

namespace OsInParts.Scheduling

open Lib Lib.Loop Lib.Timeline

variable {n : Nat} {p : Fin n → Process}

/-- The largest of some times. -/
def worst {T : Type*} [LinearOrder T] (times : Fin n → T) : WithBot T :=
  Finset.univ.sup fun i => (times i : WithBot T)

theorem worst_le_worst {T : Type*} [LinearOrder T] {f g : Fin n → T}
    (h : ∀ i, ∃ j, f i ≤ g j) : worst f ≤ worst g :=
  Finset.sup_le fun i _ => by
    obtain ⟨j, hj⟩ := h i
    exact (WithBot.coe_le_coe.mpr hj).trans
      (Finset.le_sup (f := fun j => (g j : WithBot T)) (Finset.mem_univ j))

/-! ## The blocks of `fifo` -/

/-- **The block that process `k` ends** starts with an arrival. -/
theorem exists_block (harrival : ∀ i, 0 ≤ (p i).arrivalTime) {k : ℕ} (hk : k < n) :
    ∃ i : Fin n, i.val ≤ k ∧ fifoClock p (k + 1)
      = (p i).arrivalTime + ∑ j ∈ Finset.Icc i ⟨k, hk⟩, (p j).burstTime := by
  -- a block that starts with `k` itself
  have hfresh : ∀ k (hk : k < n), fifoClock p k ≤ (p ⟨k, hk⟩).arrivalTime →
      fifoClock p (k + 1)
        = (p ⟨k, hk⟩).arrivalTime + ∑ j ∈ Finset.Icc ⟨k, hk⟩ ⟨k, hk⟩, (p j).burstTime :=
    fun k hk hle => by
      rw [fifoClock, dif_pos hk, max_eq_right hle, Finset.Icc_self, Finset.sum_singleton]
  induction k with
  | zero => exact ⟨⟨0, hk⟩, le_rfl, hfresh 0 hk (harrival _)⟩
  | succ k ih =>
      by_cases hidle : fifoClock p (k + 1) ≤ (p ⟨k + 1, hk⟩).arrivalTime
      · exact ⟨⟨k + 1, hk⟩, le_rfl, hfresh (k + 1) hk hidle⟩
      · obtain ⟨i, hi, hclock⟩ := ih (Nat.lt_of_succ_lt hk)
        have hnew : (⟨k + 1, hk⟩ : Fin n) ∉ Finset.Icc i ⟨k, Nat.lt_of_succ_lt hk⟩ := by
          simp [Fin.le_def]
        have hmore : Finset.Icc i ⟨k + 1, hk⟩
            = insert ⟨k + 1, hk⟩ (Finset.Icc i ⟨k, Nat.lt_of_succ_lt hk⟩) := by
          ext j
          simp only [Finset.mem_Icc, Finset.mem_insert, Fin.le_def, Fin.ext_iff]
          omega
        refine ⟨i, by omega, ?_⟩
        rw [fifoClock, dif_pos hk, max_eq_left (le_of_not_ge hidle), hclock, hmore,
          Finset.sum_insert hnew]
        omega

section Plans

variable {T : Type*} [CommRing T] [LinearOrder T] [IsStrictOrderedRing T]

/-- **`fifo` against a plan** for the same processes. -/
theorem fifo_worst_le (harrival : ∀ i, 0 ≤ (p i).arrivalTime) {e : Equiv.Perm (Fin n)}
    (hsorted : ∀ i j : Fin n, i ≤ j → ((p ∘ e) i).arrivalTime ≤ ((p ∘ e) j).arrivalTime)
    {l : List (Stretch (Fin n) T)} {c : Fin n → T}
    (hplan : Plan (fun i => ((p i).arrivalTime : T)) (fun i => ((p i).burstTime : T)) l)
    (hc : ∀ i, Finishes l i (c i)) :
    worst (fun i => ((fifoRecord (p ∘ e) i).turnaroundTime : T))
      ≤ worst fun i => c i - ((p i).arrivalTime : T) := by
  refine worst_le_worst fun k => ?_
  obtain ⟨i, hik, hclock⟩ := exists_block (p := p ∘ e) (fun i => harrival (e i)) k.isLt
  -- one job of the block is late in the plan
  obtain ⟨j', hj', hlate⟩ := hplan.exists_late hc
    (S := (Finset.Icc i k).map e.toEmbedding) (a := ((p (e i)).arrivalTime : T))
    ((Finset.nonempty_Icc.mpr (Fin.le_def.mpr hik)).map) fun j' hj' => by
      obtain ⟨j, hj, rfl⟩ := Finset.mem_map.mp hj'
      exact Int.cast_le.mpr (hsorted i j (Finset.mem_Icc.mp hj).1)
  obtain ⟨j, hj, rfl⟩ := Finset.mem_map.mp hj'
  refine ⟨e j, ?_⟩
  have hjk : ((p (e j)).arrivalTime : T) ≤ (p (e k)).arrivalTime :=
    Int.cast_le.mpr (hsorted j k (Finset.mem_Icc.mp hj).2)
  have hsum : ((∑ j ∈ Finset.Icc i k, ((p ∘ e) j).burstTime : ℤ) : T)
      = ∑ j' ∈ (Finset.Icc i k).map e.toEmbedding, ((p j').burstTime : T) := by
    rw [Int.cast_sum, Finset.sum_map]
    rfl
  calc ((fifoRecord (p ∘ e) k).turnaroundTime : T)
      = ((fifoClock (p ∘ e) (k.val + 1) : ℤ) : T) - (p (e k)).arrivalTime := by
        rw [fifoRecord, Int.cast_sub]
        rfl
    _ = (p (e i)).arrivalTime + ∑ j' ∈ (Finset.Icc i k).map e.toEmbedding, ((p j').burstTime : T)
          - (p (e k)).arrivalTime := by
        rw [hclock, Int.cast_add, hsum]
        rfl
    _ ≤ c (e j) - (p (e j)).arrivalTime := sub_le_sub hlate hjk

end Plans

/-! ## The plans of the other schedulers -/

def Slice.stretch (x : Slice n) : Stretch (Fin n) Int :=
  { job := x.process, start := x.start, stop := x.stop }

theorem given_stretch (slices : List (Slice n)) (i : Fin n) :
    given (slices.map Slice.stretch) i = givenTo slices i := by
  rw [given, givenTo, List.filter_map, List.map_map]
  rfl

theorem Traced.plan {left : Fin n → Int} {s : Cpu n} (h : Traced p left s)
    (hleft : ∀ i, left i = 0) :
    Plan (fun i => (p i).arrivalTime) (fun i => (p i).burstTime)
      (s.slices.map Slice.stretch) where
  ordered := List.pairwise_map.mpr h.ordered
  forward := fun x hx => by
    obtain ⟨y, hy, rfl⟩ := List.mem_map.mp hx
    exact (h.within y hy).2.1
  released := fun x hx => by
    obtain ⟨y, hy, rfl⟩ := List.mem_map.mp hx
    exact (h.within y hy).1
  complete := fun i => by
    rw [given_stretch, ← h.given i, hleft i, Int.add_zero]

theorem finishes_stretch {slices : List (Slice n)} {i : Fin n} {c : Int}
    (h : IsGreatest (stopsOf slices i) c) : Finishes (slices.map Slice.stretch) i c := by
  have hset : { u | ∃ x ∈ slices.map Slice.stretch, x.job = i ∧ x.stop = u }
      = stopsOf slices i := by
    ext u
    constructor
    · rintro ⟨x, hx, hjob, hstop⟩
      obtain ⟨y, hy, rfl⟩ := List.mem_map.mp hx
      exact ⟨y, hy, hjob, hstop⟩
    · rintro ⟨y, hy, hjob, hstop⟩
      exact ⟨y.stretch, List.mem_map_of_mem hy, hjob, hstop⟩
  rw [Finishes, hset]
  exact h

/-- **`fifo` against the slices of a run** that has completed every process. -/
theorem Traced.worst_le {left : Fin n → Int} {s : Cpu n} (h : Traced p left s)
    (hdone : s.completed = n) (harrival : ∀ i, 0 ≤ (p i).arrivalTime) {e : Equiv.Perm (Fin n)}
    (hsorted : ∀ i j : Fin n, i ≤ j → ((p ∘ e) i).arrivalTime ≤ ((p ∘ e) j).arrivalTime) :
    worst (fun i => (fifoRecord (p ∘ e) i).turnaroundTime)
      ≤ worst fun i => (s.p i).turnaroundTime := by
  have hall := h.all_completed hdone
  have hplan := h.plan fun i => (h.finished i (hall i)).1
  have hworst := fifo_worst_le (T := Int) harrival hsorted (c := fun i => (s.p i).completionTime)
    (by simpa only [Int.cast_id] using hplan)
    (fun i => finishes_stretch (h.finished i (hall i)).2.1)
  simpa only [Int.cast_id, (h.finished _ (hall _)).2.2.1] using hworst

/-! ## What a run that returns has done -/

section Returned

variable (harrival : ∀ i, 0 ≤ (p i).arrivalTime) (hburst : ∀ i, 1 ≤ (p i).burstTime)
  (hfit : TimesFit p)

include harrival hburst hfit

theorem sjf_returned {s : Cpu n} (h : Returns sjfLoop (Cpu.initial p) s) :
    ∃ left, Traced p left s ∧ s.completed = n := by
  have hmax : ∀ i, (p i).burstTime < intMax := fun i => by
    by_contra hi
    exact sjf_undefined ⟨harrival, hburst⟩ hfit (not_lt.mp hi) s h
  have hnonneg : ∀ i, 0 ≤ (p i).burstTime := fun i => Int.le_trans (by decide) (hburst i)
  obtain ⟨htrace, hdone⟩ := h.while_rule (I := SjfTrace p) (fun s s' hs hc hbody => by
    obtain ⟨s₁, hbody₁, hs₁, -⟩ := hs.body hfit hnonneg hmax (by simpa using hc)
    rw [hbody] at hbody₁
    rwa [Option.some.inj hbody₁]) (SjfTrace.start harrival hnonneg hfit)
  exact ⟨_, htrace.traced, by simpa using hdone⟩

theorem srtf_returned {s : Srtf n} (h : Returns srtfLoop (Srtf.initial p) s) :
    ∃ left, Traced p left s.toCpu ∧ s.completed = n := by
  have hmax : ∀ i, (p i).burstTime < intMax := fun i => by
    by_contra hi
    exact srtf_undefined ⟨harrival, hburst⟩ hfit (not_lt.mp hi) s h
  obtain ⟨htrace, hdone⟩ := h.while_rule (I := SrtfTrace p) (fun s s' hs hc hbody => by
    obtain ⟨s₁, hbody₁, hs₁, -⟩ := hs.body hfit hburst hmax (by simpa using hc)
    rw [hbody] at hbody₁
    rwa [Option.some.inj hbody₁]) (SrtfTrace.start harrival hburst hfit)
  exact ⟨_, htrace.traced, by simpa using hdone⟩

end Returned

/-- A turn of the loop of `rr` is the turn of some process. -/
theorem exists_turn {timeQuantum : Int} {s s' : Rr n} (h : rrBody timeQuantum s = some s') :
    ∃ i, s.turn timeQuantum i = some s'.toCpu := by
  unfold rrBody at h
  obtain ⟨hlt, h⟩ := Option.dite_none_right_eq_some.mp h
  obtain ⟨hrange, h⟩ := Option.dite_none_right_eq_some.mp h
  obtain ⟨c, hc, rfl⟩ := Option.map_eq_some_iff.mp h
  exact ⟨_, hc⟩

/-- With a quantum below 1 no process is ever completed. -/
theorem rr_quantum_pos (hfresh : Fresh p) (hburst : ∀ i, 1 ≤ (p i).burstTime) (hn : 0 < n)
    {timeQuantum : Int} {r : Rr n} (h : Returns (rrLoop timeQuantum) (Rr.initial p) r) :
    1 ≤ timeQuantum := by
  by_contra hq
  obtain ⟨⟨hnone, -⟩, hdone⟩ := h.while_rule
    (I := fun s => s.completed = 0 ∧ ∀ i, 1 ≤ (s.p i).remainingTime)
    (fun s s' ⟨hnone, hleft⟩ _ hbody => by
      obtain ⟨i, hturn⟩ := exists_turn hbody
      rcases turn_cases hturn with ⟨-, -, heq⟩ | ⟨-, heq⟩
      · have htime : executionTime timeQuantum (s.p i).remainingTime = timeQuantum :=
          if_pos (by have hpos := hleft i; omega)
        have hopen : ¬ (s.p i).remainingTime
            - executionTime timeQuantum (s.p i).remainingTime = 0 := by
          have hpos := hleft i
          omega
        rw [heq]
        refine ⟨by rw [Cpu.afterTurn, Cpu.serve, if_neg hopen]; exact hnone, fun j => ?_⟩
        by_cases hj : j = i
        · subst hj
          have hpos := hleft j
          rw [afterTurn_self.1]
          omega
        · rw [(afterTurn_of_ne hj).1]
          exact hleft j
      · rw [heq]
        exact ⟨hnone, hleft⟩)
    ⟨rfl, fun i => (hfresh.remainingTime i).symm ▸ hburst i⟩
  have hall : n ≤ r.completed := by simpa using hdone
  omega

theorem rr_returned (hfresh : Fresh p) (hburst : ∀ i, 1 ≤ (p i).burstTime) {timeQuantum : Int}
    (hq : 1 ≤ timeQuantum) {r : Rr n} (h : Returns (rrLoop timeQuantum) (Rr.initial p) r) :
    ∃ left, Traced p left r.toCpu ∧ r.completed = n := by
  obtain ⟨htrace, hdone⟩ := h.while_rule (I := fun s => RrTrace p s.toCpu)
    (fun s s' hs _ hbody => by
      obtain ⟨i, hturn⟩ := exists_turn hbody
      rcases turn_cases hturn with ⟨harrived, hi, heq⟩ | ⟨-, heq⟩
      · rw [heq]
        exact hs.afterTurn hq harrived hi
      · rw [heq]
        exact hs) (RrTrace.start hfresh hburst)
  have hle : r.completed ≤ n := by
    rw [htrace.traced.completed]
    exact (Finset.card_filter_le _ _).trans (by rw [Finset.card_univ, Fintype.card_fin])
  have hge : n ≤ r.completed := by simpa using hdone
  exact ⟨_, htrace.traced, le_antisymm hle hge⟩

/-! ## The comparison -/

/-- **`fifo` minimises the worst turnaround time**, for all processes with
arrival times from 0 on, burst times from 1 on and times in the range of
`int`: it is at most that of every plan for the same processes, and at most
that of `sjf`, of `srtf` and, if it returns on an array that is not written
yet, of `rr`. -/
theorem fifo_minimises_worst {T : Type*} [CommRing T] [LinearOrder T] [IsStrictOrderedRing T]
    (harrival : ∀ i, 0 ≤ (p i).arrivalTime) (hburst : ∀ i, 1 ≤ (p i).burstTime)
    (hfit : TimesFit p) :
    ∃ f, fifo p = some f ∧
      (∀ (l : List (Stretch (Fin n) T)) (c : Fin n → T),
        Plan (fun i => ((p i).arrivalTime : T)) (fun i => ((p i).burstTime : T)) l →
        (∀ i, Finishes l i (c i)) →
          worst (fun i => ((f.process i).turnaroundTime : T))
            ≤ worst fun i => c i - ((p i).arrivalTime : T)) ∧
      (∀ s, Returns sjfLoop (Cpu.initial p) s →
        worst (fun i => (f.process i).turnaroundTime) ≤ worst fun i => (s.p i).turnaroundTime) ∧
      (∀ s, Returns srtfLoop (Srtf.initial p) s →
        worst (fun i => (f.process i).turnaroundTime) ≤ worst fun i => (s.p i).turnaroundTime) ∧
      (Fresh p → ∀ timeQuantum s, Returns (rrLoop timeQuantum) (Rr.initial p) s →
        worst (fun i => (f.process i).turnaroundTime)
          ≤ worst fun i => (s.p i).turnaroundTime) := by
  obtain ⟨f, e, hf, he, hprocess, -⟩ :=
    fifo_eq harrival (fun i => Int.le_trans (by decide) (hburst i)) hfit
  have hsorted : ∀ i j : Fin n, i ≤ j → ((p ∘ e) i).arrivalTime ≤ ((p ∘ e) j).arrivalTime :=
    fun i j hij => he ▸ sorted_arrival p hij
  refine ⟨f, hf, ?_⟩
  simp only [hprocess]
  refine ⟨fun l c hplan hc => fifo_worst_le harrival hsorted hplan hc, fun s hs => ?_,
    fun s hs => ?_, fun hfresh timeQuantum s hs => ?_⟩
  · obtain ⟨left, htraced, hdone⟩ := sjf_returned harrival hburst hfit hs
    exact htraced.worst_le hdone harrival hsorted
  · obtain ⟨left, htraced, hdone⟩ := srtf_returned harrival hburst hfit hs
    exact htraced.worst_le hdone harrival hsorted
  · rcases Nat.eq_zero_or_pos n with rfl | hn
    · exact worst_le_worst fun i => i.elim0
    · have hq := rr_quantum_pos hfresh hburst hn hs
      obtain ⟨left, htraced, hdone⟩ := rr_returned hfresh hburst hq hs
      exact htraced.worst_le hdone harrival hsorted

/-- A long job, preempted by a short one. -/
def preempted {ι : Type} (long short : ι) : List (Stretch ι Int) :=
  [⟨long, 0, 1⟩, ⟨short, 1, 3⟩, ⟨long, 3, 7⟩]

theorem fifo_minimises_worst_longShort :
    ∃ f j, fifo longShort = some f ∧ Returns sjfLoop (Cpu.initial longShort) j ∧
      worst (fun i => (f.process i).turnaroundTime) ≤ worst (fun i => (j.p i).turnaroundTime) ∧
      worst (fun i => (f.process i).turnaroundTime)
        ≤ worst fun i => ![7, 3] i - (longShort i).arrivalTime := by
  obtain ⟨f, hf, hplans, hsjf, -⟩ := fifo_minimises_worst (T := Int) (p := longShort)
    (by decide) (by decide) (by unfold TimesFit; decide)
  obtain ⟨j, hj, -⟩ := sjf_schedule (p := longShort) (by decide) (by decide) (by decide)
    (by unfold TimesFit; decide)
  have hplan : Plan (fun i => ((longShort i).arrivalTime : Int))
      (fun i => ((longShort i).burstTime : Int)) (preempted 0 1) :=
    ⟨by decide, by decide, by decide, by decide⟩
  have hlast : ∀ (i : Fin 2) (x : Stretch (Fin 2) Int), x ∈ preempted 0 1 → x.job = i →
      x.stop ≤ ![7, 3] i := by
    intro i x hx
    revert i x
    decide
  have hfinish : ∀ i, Finishes (preempted 0 1) i (![7, 3] i) :=
    Fin.forall_fin_two.mpr ⟨
      ⟨⟨⟨0, 3, 7⟩, by decide, rfl, rfl⟩, fun u ⟨x, hx, hjob, hu⟩ => hu ▸ hlast 0 x hx hjob⟩,
      ⟨⟨1, 1, 3⟩, by decide, rfl, rfl⟩, fun u ⟨x, hx, hjob, hu⟩ => hu ▸ hlast 1 x hx hjob⟩
  exact ⟨f, j, hf, hj, hsjf j hj, hplans (preempted 0 1) ![7, 3] hplan hfinish⟩

end OsInParts.Scheduling
