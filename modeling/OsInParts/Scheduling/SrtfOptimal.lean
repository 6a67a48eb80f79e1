import OsInParts.Scheduling.Loops

/-!
# SrtfOptimal — `srtf` completes as many processes as anyone by any time

Against any feasible schedule of the same processes, what `srtf` has left to
do at time `t` dominates what that schedule has left (`Against.dominates`),
by the slot rule of `Lib.Schedule` at every turn of the loop. So at every
time at least as many processes are completed, and no schedule has a smaller
sum of turnaround times. The run of `srtf` is itself a feasible schedule
(`Recorded`), so its sum is the smallest there is; the total that the loop
accumulates is this sum if it is in the range of `int`, and no value
otherwise.

With a burst of `INT_MAX` nothing is ever chosen: the first comparison of the
scan is strict against `INT_MAX`, and its tie test reads `p[-1]`. All times
are in range then only for a single process that arrives at time 0.
-/

namespace OsInParts.Scheduling

open Lib.Loop Lib.Schedule

variable {n : Nat} {p : Fin n → Process} {rem : Fin n → ℕ} {t : ℕ}

/-- **Optimality** of the array and the total that `srtf` ends with: against
every feasible schedule, at least as many processes are completed by every
time, and the total turnaround time that is accumulated is at most that
schedule's. -/
structure Optimal (p : Fin n → Process) (s : Cpu n) : Prop where
  completed : ∀ i, s.isCompleted i = true
  most : ∀ σ, Feasible (jobs p) σ → ∀ t : ℕ,
    (Finset.univ.filter fun i => served σ i t = (jobs p).work i).card
      ≤ (Finset.univ.filter fun i => (s.p i).completionTime ≤ t).card
  least : ∃ total, s.totalTurnaroundTime = some total ∧
    ∀ σ, Feasible (jobs p) σ → ∀ c : Fin n → ℕ, (∀ i, Completes (jobs p) σ i (c i)) →
      total ≤ ∑ i, ((c i : Int) - (p i).arrivalTime)

/-- Some feasible schedule has a total turnaround time that `int` can hold. -/
def TotalFits (p : Fin n → Process) : Prop :=
  ∃ σ, Feasible (jobs p) σ ∧ ∃ c : Fin n → ℕ, (∀ i, Completes (jobs p) σ i (c i)) ∧
    ∑ i, ((c i : Int) - (p i).arrivalTime) ≤ intMax

/-- The loop of `srtf` at time `t` next to another schedule. -/
structure Against (σ : ℕ → Option (Fin n)) (p : Fin n → Process) (rem : Fin n → ℕ) (t : ℕ)
    (s : Srtf n) : Prop where
  srtf : SrtfInv p rem t s
  dominates : Dominates ((jobs p).outstanding rem t)
    ((jobs p).outstanding (left (jobs p) σ t) t)
  most : ∀ u ≤ t, (Finset.univ.filter fun i => served σ i u = (jobs p).work i).card
    ≤ (Finset.univ.filter fun i => s.isCompleted i = true ∧ (s.p i).completionTime ≤ u).card

variable {σ : ℕ → Option (Fin n)} {s : Srtf n}

theorem Against.start (hv : Valid p) : Against σ p (jobs p).work 0 (Srtf.initial p) where
  srtf := SrtfInv.start hv
  dominates := Dominates.refl _
  most := fun u hu => by
    obtain rfl : u = 0 := by omega
    have hnone : (Finset.univ.filter fun i => served σ i 0 = (jobs p).work i) = ∅ :=
      Finset.filter_false_of_mem fun i _ => (hv.work_pos i).ne
    rw [hnone]
    exact Nat.zero_le _

/-- At the current time the completed processes are those with nothing left. -/
theorem SrtfInv.filter_completed (h : SrtfInv p rem t s) :
    (Finset.univ.filter fun i => s.isCompleted i = true ∧ (s.p i).completionTime ≤ t)
      = Finset.univ.filter fun i => rem i = 0 :=
  Finset.filter_congr fun i _ => by
    rw [← h.progress.isCompleted i]
    exact ⟨fun hi => hi.1, fun hi => ⟨hi, h.progress.completion_le i hi⟩⟩

/-- **One turn** keeps the comparison. -/
theorem Against.step (hv : Valid p) (hσ : Feasible (jobs p) σ) {o : Option (Fin n)} {s' : Srtf n}
    (h : Against σ p rem t s) (ho : Shortest ((jobs p).outstanding rem t) o)
    (hs : SrtfInv p (serve rem o) (t + 1) s') (hkeeps : Keeps s.toCpu s'.toCpu) :
    Against σ p (serve rem o) (t + 1) s' := by
  have hdom := h.dominates.slot ho (hσ.released t) h.srtf.progress.ledger.fresh fun i hi => by
    rw [left, hσ.served_eq_zero hi.le, Nat.sub_zero]
  rw [← left_succ] at hdom
  refine ⟨hs, hdom, fun u hu => ?_⟩
  rcases Nat.lt_or_eq_of_le hu with hlt | rfl
  · refine (h.most u (by omega)).trans (Finset.card_le_card fun i hi => ?_)
    obtain ⟨hc, hle⟩ := (Finset.mem_filter.mp hi).2
    obtain ⟨hc', heq⟩ := hkeeps.kept i hc
    exact Finset.mem_filter.mpr ⟨Finset.mem_univ i, hc', heq ▸ hle⟩
  · rw [hs.filter_completed]
    refine le_trans (Finset.card_le_card fun i hi => ?_) (hdom.card_done_le
      (fun i hi => by rw [hs.progress.ledger.fresh i hi]; exact (hv.work_pos i).ne')
      (fun i hi => by
        rw [left, hσ.served_eq_zero hi.le, Nat.sub_zero]
        exact (hv.work_pos i).ne'))
    have := (Finset.mem_filter.mp hi).2
    refine Finset.mem_filter.mpr ⟨Finset.mem_univ i, ?_⟩
    rw [left]
    omega

/-- The comparison at the end of the loop. -/
theorem Against.final (h : Against σ p rem t s) (hdone : s.completed = n) (u : ℕ) :
    (Finset.univ.filter fun i => served σ i u = (jobs p).work i).card
      ≤ (Finset.univ.filter fun i => (s.p i).completionTime ≤ u).card := by
  have hall := h.srtf.progress.all_finished hdone
  rcases Nat.lt_or_ge t u with hlt | hle
  · refine (Finset.card_le_univ _).trans (le_of_eq ?_)
    rw [Finset.filter_true_of_mem fun i _ =>
      (h.srtf.progress.completion_le i (hall i)).trans (by omega), Finset.card_univ]
  · simpa only [hall, true_and] using h.most u hle

theorem completes_le_iff {J : Jobs (Fin n)} (hσ : Feasible J σ) {i : Fin n} {c : ℕ}
    (h : Completes J σ i c) (u : ℕ) : c ≤ u ↔ served σ i u = J.work i := by
  constructor
  · intro hu
    exact (hσ.served_le i u).antisymm (h.1 ▸ served_mono σ i hu)
  · intro hu
    by_contra hlt
    exact absurd hu (h.2 u (not_le.mp hlt)).ne

/-- More completed at every time is less turnaround in total. -/
theorem turnaround_le (hσ : Feasible (jobs p) σ) {s : Cpu n}
    (hmost : ∀ u : ℕ, (Finset.univ.filter fun i => served σ i u = (jobs p).work i).card
      ≤ (Finset.univ.filter fun i => (s.p i).completionTime ≤ u).card)
    {c : Fin n → ℕ} (hc : ∀ i, Completes (jobs p) σ i (c i)) :
    ∑ i, ((s.p i).completionTime - (p i).arrivalTime)
      ≤ ∑ i, ((c i : Int) - (p i).arrivalTime) := by
  have hsum : ∑ i, (s.p i).completionTime.toNat ≤ ∑ i, c i :=
    sum_le_of_card_le fun u => by
      simpa only [completes_le_iff hσ (hc _), Int.toNat_le] using hmost u
  calc ∑ i, ((s.p i).completionTime - (p i).arrivalTime)
      ≤ ∑ i, (((s.p i).completionTime.toNat : Int) - (p i).arrivalTime) :=
        Finset.sum_le_sum fun i _ => by omega
    _ = (∑ i, (s.p i).completionTime.toNat : ℕ) - ∑ i, (p i).arrivalTime := by
        rw [Finset.sum_sub_distrib, Nat.cast_sum]
    _ ≤ (∑ i, c i : ℕ) - ∑ i, (p i).arrivalTime := by omega
    _ = ∑ i, ((c i : Int) - (p i).arrivalTime) := by
        rw [Finset.sum_sub_distrib, Nat.cast_sum]

/-! ## The schedule of the run -/

/-- `σ` is what the loop of `srtf` has executed up to time `t`. -/
structure Recorded (σ : ℕ → Option (Fin n)) (p : Fin n → Process) (rem : Fin n → ℕ) (t : ℕ)
    (s : Cpu n) : Prop where
  upTo : UpTo (jobs p) σ t
  rest : left (jobs p) σ t = rem
  completes : ∀ i, s.isCompleted i = true →
    Completes (jobs p) σ i (s.p i).completionTime.toNat

theorem Recorded.start (p : Fin n → Process) :
    Recorded (fun _ => none) p (jobs p).work 0 (Cpu.initial p) where
  upTo := UpTo.start _
  rest := rfl
  completes := fun i hi => by cases hi

/-- **One turn** gives slot `t` to the process it serves. -/
theorem Recorded.step {o : Option (Fin n)} {s s' : Cpu n} (h : Recorded σ p rem t s)
    (hp : Progress p rem t s) (ho : Shortest ((jobs p).outstanding rem t) o)
    (hp' : Progress p (serve rem o) (t + 1) s') (hkeeps : Keeps s s') :
    Recorded (Function.update σ t o) p (serve rem o) (t + 1) s' := by
  have hwork : ∀ i, rem i ≠ 0 → served σ i t < (jobs p).work i := fun i hi => by
    rw [← h.rest, left] at hi
    omega
  have hserved : ∀ i, o = some i → (jobs p).release i ≤ t ∧ served σ i t < (jobs p).work i := by
    rintro i rfl
    have hpos : 0 < (jobs p).outstanding rem t i := ho.1
    unfold Jobs.outstanding at hpos
    split at hpos
    · exact ⟨‹_›, hwork i (by omega)⟩
    · exact absurd hpos (lt_irrefl 0)
  have hnext := h.upTo.next hserved
  have hleft : left (jobs p) (Function.update σ t o) (t + 1) = serve rem o := by
    rw [UpTo.left_next, h.rest]
  refine ⟨hnext, hleft, fun i hi => ?_⟩
  cases hc : s.isCompleted i with
  | true =>
      -- completed before: the slots up to then are as they were
      obtain ⟨hall, hbefore⟩ := h.completes i hc
      have hle := hp.completion_le i hc
      rw [(hkeeps.kept i hc).2]
      refine ⟨?_, fun u hu => ?_⟩
      · rw [served_update (by omega)]
        exact hall
      · rw [served_update (by omega)]
        exact hbefore u hu
  | false =>
      have hrem : rem i ≠ 0 := fun hzero => by
        rw [(hp.isCompleted i).mpr hzero] at hc
        cases hc
      have hzero : left (jobs p) (Function.update σ t o) (t + 1) i = 0 := by
        rw [hleft]
        exact (hp'.isCompleted i).mp hi
      rw [hkeeps.stamped i hc hi, hp'.time, Int.toNat_natCast]
      refine ⟨(served_le_of_unfinished hnext.unfinished i _).antisymm
        (Nat.sub_eq_zero_iff_le.mp hzero), fun u hu => ?_⟩
      rw [served_update (by omega)]
      exact (served_mono σ i (Nat.le_of_lt_succ hu)).trans_lt (hwork i hrem)

/-- The total that the loop ends with. -/
theorem Progress.final_turnaround {s : Cpu n} (h : Progress p rem t s) (hdone : s.completed = n) :
    s.totalTurnaroundTime =
      if ∑ i, ((s.p i).completionTime - (p i).arrivalTime) ≤ intMax then
        some (∑ i, ((s.p i).completionTime - (p i).arrivalTime))
      else none := by
  have hsum : ∑ i, (if s.isCompleted i = true then (s.p i).completionTime - (p i).arrivalTime
      else 0) = ∑ i, ((s.p i).completionTime - (p i).arrivalTime) :=
    Finset.sum_congr rfl fun i _ => if_pos (h.all_finished hdone i)
  rw [h.turnaround, intValue_of_nonneg h.sum_nonneg, hsum]

/-- **The loop** has executed a feasible schedule in the end. -/
theorem Recorded.feasible {s : Cpu n} (h : Recorded σ p rem t s) (hp : Progress p rem t s)
    (hdone : s.completed = n) : Feasible (jobs p) σ :=
  h.upTo.feasible fun i => by
    rw [h.rest]
    exact (hp.isCompleted i).mp (hp.all_finished hdone i)

/-- The smallest sum is in range exactly if some schedule's is. -/
theorem Recorded.totalFits_iff (hv : Valid p) {s : Cpu n} (h : Recorded σ p rem t s)
    (hp : Progress p rem t s)
    (hdone : s.completed = n)
    (hmost : ∀ τ, Feasible (jobs p) τ → ∀ u : ℕ,
      (Finset.univ.filter fun i => served τ i u = (jobs p).work i).card
        ≤ (Finset.univ.filter fun i => (s.p i).completionTime ≤ u).card) :
    TotalFits p ↔ ∑ i, ((s.p i).completionTime - (p i).arrivalTime) ≤ intMax := by
  constructor
  · rintro ⟨τ, hτ, c, hc, hfits⟩
    exact (turnaround_le hτ (hmost τ hτ) hc).trans hfits
  · intro hfits
    have hnonneg : ∀ i, 0 ≤ (s.p i).completionTime := fun i =>
      (hv.arrival i).trans (hp.completion_ge i (hp.all_finished hdone i))
    refine ⟨σ, h.feasible hp hdone, fun i => (s.p i).completionTime.toNat,
      fun i => h.completes i (hp.all_finished hdone i), ?_⟩
    simpa only [Int.toNat_of_nonneg (hnonneg _)] using hfits

/-! ## A burst of `INT_MAX` -/

/-- With times in range, a burst of `INT_MAX` leaves room for nothing else. -/
theorem alone_of_intMax (hv : Valid p) (hfit : TimesFit p) {i : Fin n}
    (hi : intMax ≤ (p i).burstTime) :
    (p i).arrivalTime = 0 ∧ (p i).burstTime = intMax ∧ ∀ j, j = i := by
  have hfit' := hfit i
  have hself : (p i).burstTime = if (p i).arrivalTime ≤ (p i).arrivalTime then (p i).burstTime
      else 0 := (if_pos le_rfl).symm
  have hnonneg : ∀ j, 0 ≤ if (p i).arrivalTime ≤ (p j).arrivalTime then (p j).burstTime else 0 :=
    fun j => by
      have := hv.burst j
      split <;> omega
  rw [← Finset.add_sum_erase Finset.univ _ (Finset.mem_univ i), ← hself] at hfit'
  have hrest := Finset.sum_nonneg fun j (_ : j ∈ Finset.univ.erase i) => hnonneg j
  have harr := hv.arrival i
  refine ⟨by omega, by omega, fun j => by_contra fun hj => ?_⟩
  have hle := Finset.single_le_sum (f := fun j =>
      if (p i).arrivalTime ≤ (p j).arrivalTime then (p j).burstTime else 0)
    (fun j _ => hnonneg j) (Finset.mem_erase.mpr ⟨hj, Finset.mem_univ j⟩)
  have hj' := hv.arrival j
  have hb := hv.burst j
  rw [if_pos (by omega)] at hle
  omega

/-- The first scan then reads `p[-1]`. -/
theorem scan_undefined {c : Candidates n} {i : Fin n} (hall : ∀ j, j = i) (he : c.Eligible i)
    (hkey : c.key i = intMax) : c.scan = none :=
  Candidates.scan_undefined he (fun j hj => absurd (hall j) hj.ne) hkey

theorem srtf_undefined (hv : Valid p) (hfit : TimesFit p) {i : Fin n}
    (hi : intMax ≤ (p i).burstTime) (s : Srtf n) : ¬ Returns srtfLoop (Srtf.initial p) s := by
  obtain ⟨harr, hburst, hall⟩ := alone_of_intMax hv hfit hi
  have hbody : srtfBody (Srtf.initial p) = none := by
    unfold srtfBody
    rw [scan_undefined hall ⟨harr.le, rfl⟩ hburst]
  have hn : 0 ≠ n := by
    rintro rfl
    exact i.elim0
  exact not_returns_of_undefined (by simpa [Srtf.initial, Cpu.initial] using hn) hbody s

/-- The same holds of `sjf`. -/
theorem sjf_undefined (hv : Valid p) (hfit : TimesFit p) {i : Fin n}
    (hi : intMax ≤ (p i).burstTime) (s : Cpu n) : ¬ Returns sjfLoop (Cpu.initial p) s := by
  obtain ⟨harr, hburst, hall⟩ := alone_of_intMax hv hfit hi
  have hbody : sjfBody (Cpu.initial p) = none := by
    unfold sjfBody
    rw [scan_undefined hall ⟨harr.le, rfl⟩ hburst]
  have hn : 0 ≠ n := by
    rintro rfl
    exact i.elim0
  exact not_returns_of_undefined (by simpa [Cpu.initial] using hn) hbody s

/-! ## When `srtf` is optimal -/

/-- **The run of `srtf`** against all feasible schedules, and the sum of its
turnaround times. -/
theorem srtf_run (hv : Valid p) (hfit : TimesFit p) (hmax : ∀ i, (p i).burstTime < intMax) :
    ∃ s, Returns srtfLoop (Srtf.initial p) s ∧ (∀ i, s.isCompleted i = true) ∧
      (∀ σ, Feasible (jobs p) σ → ∀ u : ℕ,
        (Finset.univ.filter fun i => served σ i u = (jobs p).work i).card
          ≤ (Finset.univ.filter fun i => (s.p i).completionTime ≤ u).card) ∧
      (TotalFits p ↔ ∑ i, ((s.p i).completionTime - (p i).arrivalTime) ≤ intMax) ∧
      s.totalTurnaroundTime =
        if ∑ i, ((s.p i).completionTime - (p i).arrivalTime) ≤ intMax then
          some (∑ i, ((s.p i).completionTime - (p i).arrivalTime))
        else none := by
  obtain ⟨s, t, rem, hs, h, hdone, hagainst, σ, hσ⟩ := srtf_returns hv hfit hmax
    (fun rem t s => (∀ σ, Feasible (jobs p) σ → Against σ p rem t s) ∧
      ∃ σ, Recorded σ p rem t s.toCpu)
    ⟨fun _ _ => Against.start hv, _, Recorded.start p⟩
    (fun _ _ _ _ _ h ⟨hagainst, _, hσ⟩ ho h' hkeeps =>
      ⟨fun σ hf => (hagainst σ hf).step hv hf ho h' hkeeps,
        _, hσ.step h.progress ho h'.progress hkeeps⟩)
  have hmost := fun σ hf => (hagainst σ hf).final hdone
  exact ⟨s, hs, h.progress.all_finished hdone, hmost,
    hσ.totalFits_iff hv h.progress hdone hmost, h.progress.final_turnaround hdone⟩

/-- **`srtf` is optimal exactly if every burst is below `INT_MAX`** and some
feasible schedule has a total turnaround time in the range of `int`, for all
processes with arrival times from 0 on, burst times from 1 on and times in
the range of `int`. -/
theorem srtf_optimal_iff (harrival : ∀ i, 0 ≤ (p i).arrivalTime)
    (hburst : ∀ i, 1 ≤ (p i).burstTime) (hfit : TimesFit p) :
    (∃ s, Returns srtfLoop (Srtf.initial p) s ∧ Optimal p s.toCpu) ↔
      (∀ i, (p i).burstTime < intMax) ∧ TotalFits p := by
  have hv : Valid p := ⟨harrival, hburst⟩
  constructor
  · rintro ⟨s, hs, hopt⟩
    have hmax : ∀ i, (p i).burstTime < intMax := fun i => by
      by_contra hi
      exact srtf_undefined hv hfit (not_lt.mp hi) s hs
    obtain ⟨s', hs', -, -, hfits, htotal⟩ := srtf_run hv hfit hmax
    obtain rfl : s = s' := hs.unique hs'
    obtain ⟨total, heq, -⟩ := hopt.least
    refine ⟨hmax, hfits.mpr (by_contra fun hover => ?_)⟩
    rw [htotal, if_neg hover] at heq
    cases heq
  · rintro ⟨hmax, hfits⟩
    obtain ⟨s, hs, hall, hmost, hiff, htotal⟩ := srtf_run hv hfit hmax
    rw [if_pos (hiff.mp hfits)] at htotal
    exact ⟨s, hs, hall, hmost, _, htotal, fun σ hf c hc => turnaround_le hf (hmost σ hf) hc⟩

/-- A long process, and a short one that arrives while it runs. -/
def longShort : Fin 2 → Process := inputProcesses (fun _ => Process.zero) ![(0, 5), (1, 2)]

/-- The short one preempts the long one. -/
def longShortSlots : List (Fin 2) := [0, 1, 1, 0, 0, 0, 0]

theorem totalFits_longShort : TotalFits longShort := by
  have hslot : ∀ {t : ℕ} {i : Fin 2}, longShortSlots[t]? = some i → t < 7 := fun h =>
    (List.getElem?_eq_some_iff.mp h).1
  have hserved : ∀ t < 7, ∀ i : Fin 2, longShortSlots[t]? = some i →
      (jobs longShort).release i ≤ t ∧
        served (fun t => longShortSlots[t]?) i t < (jobs longShort).work i := by decide
  have hcompletes : ∀ i : Fin 2, Completes (jobs longShort) (fun t => longShortSlots[t]?) i
      (![7, 3] i) := by
    unfold Completes
    decide
  exact ⟨fun t => longShortSlots[t]?, ⟨fun t i h => (hserved t (hslot h) i h).1,
    fun t i h => (hserved t (hslot h) i h).2, fun i => ⟨_, (hcompletes i).1⟩⟩, ![7, 3],
    hcompletes, by decide⟩

theorem srtf_optimal_iff_sample :
    ∃ s, Returns srtfLoop (Srtf.initial longShort) s ∧ Optimal longShort s.toCpu :=
  (srtf_optimal_iff (p := longShort) (by decide) (by decide)
    (by unfold TimesFit; decide)).mpr ⟨by decide, totalFits_longShort⟩

/-- What `srtf` is for: to be optimal on all processes whose times are in range. -/
def AlwaysOptimal : Prop :=
  ∀ (n : Nat) (p : Fin n → Process), (∀ i, 0 ≤ (p i).arrivalTime) →
    (∀ i, 1 ≤ (p i).burstTime) → TimesFit p →
      ∃ s, Returns srtfLoop (Srtf.initial p) s ∧ Optimal p s.toCpu

/-- A process that arrives at 0 and runs until `INT_MAX`. -/
def untilIntMax : Fin 1 → Process := inputProcesses (fun _ => Process.zero) ![(0, intMax)]

/-- Alone, it is never chosen. -/
theorem srtf_not_alwaysOptimal : ¬ AlwaysOptimal := by
  intro h
  have hv : Valid untilIntMax := ⟨by decide, by decide⟩
  have hfit : TimesFit untilIntMax := by unfold TimesFit; decide
  obtain ⟨s, hs, -⟩ := h 1 untilIntMax hv.arrival hv.burst hfit
  exact srtf_undefined hv hfit (i := 0) le_rfl s hs

end OsInParts.Scheduling
