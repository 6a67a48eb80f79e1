import OsInParts.Scheduling.Progress

/-!
# RoundRobin — when the loop of `rr` comes to an end

The clock of `rr` moves only while a process is executed, so it always shows
the work that has been done (`RrInv.clock`). A process that arrives later
than all earlier arrivals need is waited for without end, and a sum of
bursts beyond `INT_MAX` overflows the clock. In all other cases some process
is eligible whenever the loop goes on; the cursor comes to it, and every
slice leaves less work.
-/

namespace OsInParts.Scheduling

open Lib.Loop Lib.Schedule

variable {n : Nat} {p : Fin n → Process} {rem : Fin n → ℕ} {t : ℕ} {timeQuantum : Int}

/-- No process arrives after all earlier ones could be finished. -/
def NoIdleGap (p : Fin n → Process) : Prop :=
  ∀ i, (p i).arrivalTime ≤
    ∑ j, if (p j).arrivalTime < (p i).arrivalTime then (p j).burstTime else 0

/-- The state of the processes at time `t`. -/
structure RrInv (p : Fin n → Process) (rem : Fin n → ℕ) (t : ℕ) (s : Cpu n) : Prop where
  progress : Progress p rem t s
  remainingTime : ∀ i, (s.p i).remainingTime = rem i
  clock : t + ∑ i, rem i = ∑ i, (jobs p).work i

/-- The queue holds the indices in order, counted from 1. -/
structure RrQueue (s : Rr n) : Prop where
  queue : ∀ i, s.queue i = i.val + 1
  idx_le : s.idx ≤ n

theorem RrInv.start (hb : Built p) (hv : Valid p) :
    RrInv p (jobs p).work 0 (Cpu.initial p) ∧ RrQueue (Rr.initial p) :=
  ⟨⟨Progress.start hv, fun i => (hb.remainingTime i).trans (hv.work i).symm, Nat.zero_add _⟩,
    hb.pid, Nat.zero_le _⟩

/-- The cursor after the reset. -/
def Rr.cursor (s : Rr n) (hn : 0 < n) : Fin n := ⟨s.idx % n, Nat.mod_lt _ hn⟩

/-- A turn of the loop is the turn of the process at the cursor. -/
theorem rrBody_eq {s : Rr n} (hs : RrQueue s) (hn : 0 < n) :
    rrBody timeQuantum s = (s.turn timeQuantum (s.cursor hn)).map fun cpu =>
      { s with toCpu := cpu, idx := s.idx % n + 1 } := by
  have hidx : (if s.idx ≥ n then 0 else s.idx) = s.idx % n := by
    split
    · rw [show s.idx = n from hs.idx_le.antisymm ‹_›, Nat.mod_self]
    · exact (Nat.mod_eq_of_lt (not_le.mp ‹_›)).symm
  have hlt := Nat.mod_lt s.idx hn
  unfold rrBody
  simp only [hidx]
  rw [dif_pos hlt]
  have hq : s.queue ⟨s.idx % n, hlt⟩ - 1 = ((s.idx % n : ℕ) : Int) := by
    rw [hs.queue]
    exact Int.add_sub_cancel _ _
  have hrange : 0 ≤ s.queue ⟨s.idx % n, hlt⟩ - 1 ∧ s.queue ⟨s.idx % n, hlt⟩ - 1 < n := by
    rw [hq]
    omega
  rw [dif_pos hrange]
  congr 2
  exact Fin.ext (by simp only [hq, Int.toNat_natCast, Rr.cursor])

/-! ## The turn of one process -/

theorem turn_skip (hv : Valid p) {s : Cpu n} (h : RrInv p rem t s) {i : Fin n}
    (hi : ¬ ((jobs p).release i ≤ t ∧ rem i ≠ 0)) : s.turn timeQuantum i = some s :=
  if_neg (mt (h.progress.eligible_iff hv i).mp hi)

/-- The units of a slice. -/
def sliceUnits (timeQuantum : Int) (left : ℕ) : ℕ := min left timeQuantum.toNat

/-- The process at the cursor is prepared and executed for one slice. -/
theorem turn_eq (hv : Valid p) (hq : 1 ≤ timeQuantum) {s : Cpu n} (h : RrInv p rem t s)
    {i : Fin n} (hi : (jobs p).release i ≤ t) (hrem : rem i ≠ 0) :
    ∃ cpu, Progress p rem t cpu ∧
      (∀ j, (cpu.p j).remainingTime =
        (Function.update rem i (rem i - sliceUnits timeQuantum (rem i)) j : ℕ)) ∧
      s.turn timeQuantum i = (cpu.execute i (sliceUnits timeQuantum (rem i) : ℕ)).map fun c =>
        if (c.p i).remainingTime = 0 then c.complete i else c := by
  obtain ⟨c, hc, hset, hleft⟩ : ∃ c : Cpu n,
      (if (s.p i).started = false then
        s.setProcess i { s.p i with startTime := s.currentTime, started := true } else s) = c ∧
      Progress p rem t c ∧ ∀ j, (c.p j).remainingTime = rem j := by
    refine ⟨_, rfl, ?_⟩
    split
    · refine ⟨h.progress.setProcess i _ rfl rfl rfl, fun j => ?_⟩
      by_cases hj : j = i
      · subst hj
        simpa only [Cpu.setProcess, Function.update_self] using h.remainingTime j
      · simpa only [Cpu.setProcess, Function.update_of_ne hj] using h.remainingTime j
    · exact ⟨h.progress, h.remainingTime⟩
  have hunits : (if (c.p i).remainingTime > timeQuantum then timeQuantum
      else (c.p i).remainingTime) = (sliceUnits timeQuantum (rem i) : ℕ) := by
    rw [hleft i, sliceUnits]
    split <;> omega
  refine ⟨c.setProcess i
    { c.p i with remainingTime := (c.p i).remainingTime - sliceUnits timeQuantum (rem i) },
    hset.setProcess i _ rfl rfl rfl, fun j => ?_, ?_⟩
  · by_cases hj : j = i
    · subst hj
      simp only [Cpu.setProcess, Function.update_self, hleft]
      have : sliceUnits timeQuantum (rem j) ≤ rem j := Nat.min_le_left _ _
      omega
    · simp only [Cpu.setProcess, Function.update_of_ne hj, hleft]
  · unfold Cpu.turn
    rw [if_pos ((h.progress.eligible_iff hv i).mpr ⟨hi, hrem⟩)]
    dsimp only
    rw [hc, hunits]

/-- **A slice** of at least one unit is executed, if the clock has room. -/
theorem turn_execute (hv : Valid p) (hq : 1 ≤ timeQuantum) {s : Cpu n} (h : RrInv p rem t s)
    {i : Fin n} (hi : (jobs p).release i ≤ t) (hrem : rem i ≠ 0) :
    (∀ c, s.turn timeQuantum i = some c →
      RrInv p (Function.update rem i (rem i - sliceUnits timeQuantum (rem i)))
        (t + sliceUnits timeQuantum (rem i)) c ∧ c.currentTime ≤ intMax) ∧
      (TimesFit p → ∃ c, s.turn timeQuantum i = some c) := by
  obtain ⟨cpu, hset, hleft, hturn⟩ := turn_eq hv hq h hi hrem
  generalize hd : sliceUnits timeQuantum (rem i) = d at hleft hturn ⊢
  have hpos : 0 < d := by
    rw [← hd, sliceUnits]
    omega
  have hle : d ≤ rem i := hd ▸ Nat.min_le_left _ _
  have hclock : t + d + ∑ j, Function.update rem i (rem i - d) j = ∑ j, (jobs p).work j := by
    have hsum : ∑ j, Function.update rem i (rem i - d) j + d = ∑ j, rem j := by
      rw [Finset.sum_update_of_mem (Finset.mem_univ i), Finset.sdiff_singleton_eq_erase,
        ← Finset.add_sum_erase Finset.univ rem (Finset.mem_univ i)]
      omega
    have := h.clock
    omega
  refine ⟨fun c hc => ?_, fun hfit => ?_⟩
  · rw [hturn] at hc
    obtain ⟨c₁, hc₁, rfl⟩ := Option.map_eq_some_iff.mp hc
    obtain ⟨hp, -, hmax, hpart, hlast⟩ := hset.execute hi hpos hle hc₁
    have hzero : (c₁.p i).remainingTime = 0 ↔ d = rem i := by
      rw [hp, hleft i, Function.update_self]
      omega
    split
    · rename_i hdone
      have hdone' := hzero.mp hdone
      have hsub : rem i - d = 0 := by omega
      rw [hsub] at hleft hclock ⊢
      refine ⟨⟨hlast hdone', fun j => ?_, hclock⟩, hmax⟩
      rw [(complete_times _ i j).2.2, hp, hleft j]
    · rename_i hmore
      refine ⟨⟨hpart (lt_of_le_of_ne hle (mt hzero.mpr hmore)), fun j => ?_, hclock⟩, hmax⟩
      rw [hp, hleft j]
  · obtain ⟨c, hc⟩ := hset.exists_execute hv hfit hi hpos hle
    exact ⟨_, by rw [hturn, hc]; rfl⟩

/-! ## What holds when the loop returns -/

/-- **One turn**, wherever it is defined. -/
theorem rr_body (hv : Valid p) (hq : 1 ≤ timeQuantum) {s s' : Rr n}
    (h : ∃ t rem, RrInv p rem t s.toCpu) (hs : RrQueue s) (hopen : s.completed < n)
    (hle : s.currentTime ≤ intMax) (hbody : rrBody timeQuantum s = some s') :
    (∃ t rem, RrInv p rem t s'.toCpu) ∧ RrQueue s' ∧ s'.currentTime ≤ intMax := by
  obtain ⟨t, rem, h⟩ := h
  have hn : 0 < n := by omega
  rw [rrBody_eq hs hn] at hbody
  obtain ⟨c, hc, rfl⟩ := Option.map_eq_some_iff.mp hbody
  have hqueue : RrQueue { s with toCpu := c, idx := s.idx % n + 1 } :=
    ⟨hs.queue, Nat.mod_lt _ hn⟩
  by_cases hel : (jobs p).release (s.cursor hn) ≤ t ∧ rem (s.cursor hn) ≠ 0
  · obtain ⟨h', hle'⟩ := (turn_execute hv hq h hel.1 hel.2).1 c hc
    exact ⟨⟨_, _, h'⟩, hqueue, hle'⟩
  · rw [turn_skip hv h hel] at hc
    cases hc
    exact ⟨⟨t, rem, h⟩, hqueue, hle⟩

theorem rr_returns_imp (hb : Built p) (hv : Valid p) (hq : 1 ≤ timeQuantum) {s : Rr n}
    (h : Returns (rrLoop timeQuantum) (Rr.initial p) s) :
    ∃ t rem, RrInv p rem t s.toCpu ∧ s.completed = n ∧ s.currentTime ≤ intMax := by
  obtain ⟨⟨⟨t, rem, hI⟩, -, hle⟩, hdone⟩ := h.while_rule
    (I := fun s => (∃ t rem, RrInv p rem t s.toCpu) ∧ RrQueue s ∧ s.currentTime ≤ intMax)
    (fun s s' ⟨hI, hs, hle⟩ hc hbody => rr_body hv hq hI hs (by simpa using hc) hle hbody)
    ⟨⟨0, _, (RrInv.start hb hv).1⟩, (RrInv.start hb hv).2, intMax_nonneg⟩
  refine ⟨t, rem, hI, le_antisymm hI.progress.completed_le ?_, hle⟩
  simpa using hdone

theorem Valid.earlier_eq (hv : Valid p) (i : Fin n) :
    (∑ j, if (p j).arrivalTime < (p i).arrivalTime then (p j).burstTime else 0)
      = (∑ j, if (jobs p).release j < (jobs p).release i then (jobs p).work j else 0 : ℕ) := by
  rw [Nat.cast_sum]
  refine Finset.sum_congr rfl fun j _ => ?_
  have hiff : (p j).arrivalTime < (p i).arrivalTime
      ↔ (jobs p).release j < (jobs p).release i := by
    rw [← not_le, ← not_le, hv.release_le_iff]
  by_cases hj : (jobs p).release j < (jobs p).release i
  · rw [if_pos hj, if_pos (hiff.mpr hj), hv.work j]
  · rw [if_neg hj, if_neg (mt hiff.mp hj), Nat.cast_zero]

theorem Valid.sum_burst (hv : Valid p) :
    ∑ i, (p i).burstTime = (∑ i, (jobs p).work i : ℕ) := by
  rw [Nat.cast_sum]
  exact Finset.sum_congr rfl fun i _ => (hv.work i).symm

/-- A clock that shows only work has not been past an idle gap. -/
theorem RrInv.noIdleGap (hv : Valid p) {s : Cpu n} (h : RrInv p rem t s)
    (hrem : ∀ i, rem i = 0) : NoIdleGap p := by
  intro i
  rw [hv.earlier_eq i, ← hv.release i, Int.ofNat_le]
  by_contra hgap
  rw [not_le] at hgap
  have haccount := h.progress.ledger.account
  have hclock := h.clock
  rw [Finset.sum_eq_zero (s := Finset.univ) fun i _ => hrem i, Nat.add_zero] at haccount hclock
  -- until `i` arrives, no more is done than what arrives before it
  obtain ⟨k, hk⟩ : ∃ k, (jobs p).release i = k + 1 := ⟨(jobs p).release i - 1, by omega⟩
  have harrive : executed (jobs p) ((jobs p).release i)
      ≤ ∑ j, if (jobs p).release j < (jobs p).release i then (jobs p).work j else 0 := by
    rw [hk]
    simpa only [arrived, Nat.lt_succ_iff] using executed_succ_le_arrived (J := jobs p) k
  rcases Nat.lt_or_ge t ((jobs p).release i) with hlt | hge
  · have hmono := executed_mono (J := jobs p) hlt.le
    have hmore : (∑ j, if (jobs p).release j < (jobs p).release i then (jobs p).work j else 0)
        < ∑ j, (jobs p).work j :=
      Finset.sum_lt_sum (fun j _ => by split <;> omega)
        ⟨i, Finset.mem_univ i, by rw [if_neg (lt_irrefl _)]; exact hv.work_pos i⟩
    omega
  · obtain ⟨d, rfl⟩ := Nat.exists_eq_add_of_le hge
    have := executed_add_le (J := jobs p) ((jobs p).release i) d
    omega

/-- **What a run that ends takes**: room on the clock, and no idle gap. -/
theorem rr_returns_only (hb : Built p) (hv : Valid p) (hq : 1 ≤ timeQuantum) {s : Rr n}
    (h : Returns (rrLoop timeQuantum) (Rr.initial p) s) :
    ∑ i, (p i).burstTime ≤ intMax ∧ NoIdleGap p := by
  obtain ⟨t, rem, hI, hdone, hle⟩ := rr_returns_imp hb hv hq h
  have hrem : ∀ i, rem i = 0 := fun i =>
    (hI.progress.isCompleted i).mp (hI.progress.all_finished hdone i)
  refine ⟨?_, hI.noIdleGap hv hrem⟩
  have hclock := hI.clock
  rw [Finset.sum_eq_zero (s := Finset.univ) fun i _ => hrem i, Nat.add_zero] at hclock
  rw [hv.sum_burst, ← hclock, ← hI.progress.time]
  exact hle

/-! ## Without an idle gap the loop returns -/

theorem timesFit_of_noIdleGap (hgap : NoIdleGap p) (hsum : ∑ i, (p i).burstTime ≤ intMax) :
    TimesFit p := fun i => by
  refine le_trans (Int.add_le_add_right (hgap i) _) (le_of_eq_of_le ?_ hsum)
  rw [← Finset.sum_add_distrib]
  refine Finset.sum_congr rfl fun j _ => ?_
  by_cases hj : (p j).arrivalTime < (p i).arrivalTime
  · rw [if_pos hj, if_neg (not_le.mpr hj), Int.add_zero]
  · rw [if_neg hj, if_pos (not_lt.mp hj), Int.zero_add]

/-- While some process is unfinished, the first of those to arrive has arrived. -/
theorem RrInv.exists_eligible (hv : Valid p) (hgap : NoIdleGap p) {s : Cpu n}
    (h : RrInv p rem t s) (hopen : s.completed ≠ n) :
    ∃ i, (jobs p).release i ≤ t ∧ rem i ≠ 0 := by
  obtain ⟨i₀, hi₀⟩ := h.progress.exists_unfinished hopen
  obtain ⟨i, hi, hmin⟩ := Finset.exists_min_image (Finset.univ.filter fun i => rem i ≠ 0)
    (jobs p).release ⟨i₀, Finset.mem_filter.mpr ⟨Finset.mem_univ i₀, hi₀⟩⟩
  refine ⟨i, ?_, (Finset.mem_filter.mp hi).2⟩
  have hgap' := hgap i
  rw [hv.earlier_eq i, ← hv.release i, Int.ofNat_le] at hgap'
  have hdone : (∑ j, if (jobs p).release j < (jobs p).release i then (jobs p).work j else 0)
      + ∑ j, rem j ≤ ∑ j, (jobs p).work j := by
    rw [← Finset.sum_add_distrib]
    refine Finset.sum_le_sum fun j _ => ?_
    have hle := h.progress.ledger.le j
    split
    · rename_i hj
      have hzero : rem j = 0 := by
        by_contra hne
        have := hmin j (Finset.mem_filter.mpr ⟨Finset.mem_univ j, hne⟩)
        omega
      omega
    · omega
  have := h.clock
  omega

/-- The process `d` places after the cursor is eligible. -/
def Rr.eligibleAt (s : Rr n) (d : ℕ) : Bool :=
  if hn : 0 < n then
    let i : Fin n := ⟨(s.idx + d) % n, Nat.mod_lt _ hn⟩
    decide ((s.p i).arrivalTime ≤ s.currentTime) && !s.isCompleted i
  else false

/-- How far the cursor is from the next eligible process. -/
def Rr.distance (s : Rr n) : ℕ := (List.range n).findIdx s.eligibleAt

/-- Every turn lowers the work that is left, or the distance. -/
def Rr.variant (s : Rr n) : ℕ := (∑ i, (s.p i).remainingTime.toNat) * (n + 1) + s.distance

theorem distance_le (s : Rr n) : s.distance ≤ n :=
  List.findIdx_le_length.trans List.length_range.le

theorem distance_lt {s s' : Rr n} {d : ℕ} (hd : d < n) (hel : s.eligibleAt d = true)
    (h0 : s.eligibleAt 0 = false) (hnext : ∀ d, s'.eligibleAt d = s.eligibleAt (d + 1)) :
    s'.distance < s.distance := by
  have hlt : (List.range n).findIdx s.eligibleAt < (List.range n).length :=
    List.findIdx_lt_length_of_exists ⟨d, List.mem_range.mpr hd, hel⟩
  have hself := List.findIdx_getElem (w := hlt)
  rw [List.getElem_range] at hself
  have hpos : s.distance ≠ 0 := fun hz => by
    rw [show (List.range n).findIdx s.eligibleAt = 0 from hz, h0] at hself
    cases hself
  -- one place less for the next cursor
  by_contra hge
  have hlt : s.distance - 1 < (List.range n).findIdx s'.eligibleAt := by
    show s.distance - 1 < s'.distance
    omega
  have hbefore := List.not_of_lt_findIdx hlt
  rw [List.getElem_range, hnext, Nat.sub_add_cancel (Nat.pos_of_ne_zero hpos)] at hbefore
  rw [show s.distance = (List.range n).findIdx s.eligibleAt from rfl, hself] at hbefore
  cases hbefore

theorem eligibleAt_iff (hv : Valid p) {s : Rr n} (h : RrInv p rem t s.toCpu) {d : ℕ} {i : Fin n}
    (hi : (s.idx + d) % n = i.val) :
    s.eligibleAt d = true ↔ (jobs p).release i ≤ t ∧ rem i ≠ 0 := by
  have hn : 0 < n := Nat.zero_lt_of_lt i.isLt
  obtain rfl : i = ⟨(s.idx + d) % n, Nat.mod_lt _ hn⟩ := Fin.ext hi.symm
  rw [← h.progress.eligible_iff hv, Rr.eligibleAt, dif_pos hn]
  simp only [Bool.and_eq_true, decide_eq_true_eq, Bool.not_eq_true']

theorem RrInv.variant_eq {s : Rr n} (h : RrInv p rem t s.toCpu) :
    s.variant = (∑ i, rem i) * (n + 1) + s.distance := by
  unfold Rr.variant
  simp only [h.remainingTime, Int.toNat_natCast]

/-- The distance to any process is below `n`. -/
theorem exists_distance (idx : ℕ) (i : Fin n) : ∃ d < n, (idx + d) % n = i.val := by
  have hn : 0 < n := Nat.zero_lt_of_lt i.isLt
  have hk := Nat.mod_lt idx hn
  refine ⟨(i.val + n - idx % n) % n, Nat.mod_lt _ hn, ?_⟩
  rw [Nat.add_mod_mod, ← Nat.mod_add_mod, show idx % n + (i.val + n - idx % n) = i.val + n by omega,
    Nat.add_mod_right, Nat.mod_eq_of_lt i.isLt]

/-- **One turn without an idle gap**: it is defined and lowers the variant. -/
theorem rr_turn (hv : Valid p) (hfit : TimesFit p) (hgap : NoIdleGap p) (hq : 1 ≤ timeQuantum)
    {s : Rr n} (h : ∃ t rem, RrInv p rem t s.toCpu) (hs : RrQueue s) (hopen : s.completed < n) :
    ∃ s', rrBody timeQuantum s = some s' ∧
      ((∃ t rem, RrInv p rem t s'.toCpu) ∧ RrQueue s') ∧ s'.variant < s.variant := by
  obtain ⟨t, rem, h⟩ := h
  have hn : 0 < n := by omega
  have hcursor : (s.idx + 0) % n = (s.cursor hn).val := rfl
  rw [rrBody_eq hs hn]
  by_cases hel : (jobs p).release (s.cursor hn) ≤ t ∧ rem (s.cursor hn) ≠ 0
  · obtain ⟨hstep, hsome⟩ := turn_execute hv hq h hel.1 hel.2
    obtain ⟨c, hc⟩ := hsome hfit
    obtain ⟨h', -⟩ := hstep c hc
    refine ⟨{ s with toCpu := c, idx := s.idx % n + 1 }, by rw [hc]; rfl,
      ⟨⟨_, _, h'⟩, hs.queue, Nat.mod_lt _ hn⟩, ?_⟩
    -- at least one unit of work less outweighs the distance
    rw [h.variant_eq, RrInv.variant_eq (s := { s with toCpu := c, idx := s.idx % n + 1 }) h']
    have hdist := distance_le { s with toCpu := c, idx := s.idx % n + 1 }
    have hunits : 0 < sliceUnits timeQuantum (rem (s.cursor hn)) := by
      rw [sliceUnits]
      omega
    have hless : ∑ i, Function.update rem (s.cursor hn)
        (rem (s.cursor hn) - sliceUnits timeQuantum (rem (s.cursor hn))) i + 1
        ≤ ∑ i, rem i := by
      have h1 := h.clock
      have h2 := h'.clock
      omega
    have hmul := Nat.mul_le_mul_right (n + 1) hless
    rw [Nat.succ_mul] at hmul
    omega
  · refine ⟨{ s with idx := s.idx % n + 1 }, by rw [turn_skip hv h hel]; rfl,
      ⟨⟨t, rem, h⟩, hs.queue, Nat.mod_lt _ hn⟩, ?_⟩
    obtain ⟨i, hi⟩ := h.exists_eligible hv hgap hopen.ne
    obtain ⟨d, hd, hdi⟩ := exists_distance s.idx i
    have hnext : ∀ d, ({ s with idx := s.idx % n + 1 } : Rr n).eligibleAt d
        = s.eligibleAt (d + 1) := fun d => by
      have hidx : (s.idx % n + 1 + d) % n = (s.idx + (d + 1)) % n := by
        rw [Nat.add_assoc, Nat.mod_add_mod, Nat.add_comm 1 d]
      simp only [Rr.eligibleAt, hidx]
    have hlt := distance_lt hd ((eligibleAt_iff hv h hdi).mpr hi)
      (Bool.eq_false_iff.mpr (mt (eligibleAt_iff hv h hcursor).mp hel)) hnext
    rw [h.variant_eq, RrInv.variant_eq (s := { s with idx := s.idx % n + 1 }) h]
    omega

/-- **`rr` ends exactly if its clock never overflows and never has to wait**,
for all processes as `input_processes` leaves them with arrival times from 0
on and burst times from 1 on, and every time quantum. -/
theorem rr_terminates_iff (hb : Built p) (harrival : ∀ i, 0 ≤ (p i).arrivalTime)
    (hburst : ∀ i, 1 ≤ (p i).burstTime) (hq : 1 ≤ timeQuantum) :
    (∃ s, Returns (rrLoop timeQuantum) (Rr.initial p) s ∧ ∀ i, s.isCompleted i = true) ↔
      ∑ i, (p i).burstTime ≤ intMax ∧ NoIdleGap p := by
  have hv : Valid p := ⟨harrival, hburst⟩
  constructor
  · rintro ⟨s, hs, -⟩
    exact rr_returns_only hb hv hq hs
  · rintro ⟨hsum, hgap⟩
    have hfit := timesFit_of_noIdleGap hgap hsum
    have hstart := RrInv.start hb hv
    obtain ⟨s, hs, ⟨⟨t, rem, h⟩, -⟩, hdone⟩ := while_returns
      (c := fun s => decide (s.completed < n)) (f := rrBody timeQuantum)
      (fun s => (∃ t rem, RrInv p rem t s.toCpu) ∧ RrQueue s) Rr.variant
      (fun s ⟨h, hs⟩ hc => rr_turn hv hfit hgap hq h hs (by simpa using hc))
      ⟨⟨0, _, hstart.1⟩, hstart.2⟩
    refine ⟨s, hs, h.progress.all_finished (h.progress.completed_le.antisymm ?_)⟩
    simpa using hdone

/-- Two processes back to back, the second entered first. -/
theorem rr_terminates_iff_sample :
    ∃ s, Returns (rrLoop 2) (Rr.initial (inputProcesses (fun _ => Process.zero)
      ![(3, 2), (0, 3)])) s ∧ ∀ i, s.isCompleted i = true :=
  (rr_terminates_iff (built_inputProcesses _ _) (by decide) (by decide) (by decide)).mpr
    ⟨by decide, by unfold NoIdleGap; decide⟩

/-- What `rr` is for: to complete every process that is entered. -/
def AlwaysTerminates : Prop :=
  ∀ (n : Nat) (p : Fin n → Process) (timeQuantum : Int), Built p →
    (∀ i, 0 ≤ (p i).arrivalTime) → (∀ i, 1 ≤ (p i).burstTime) → 1 ≤ timeQuantum →
      ∃ s, Returns (rrLoop timeQuantum) (Rr.initial p) s ∧ ∀ i, s.isCompleted i = true

/-- A single process that arrives at time 1: the clock stays at 0. -/
theorem rr_not_alwaysTerminates : ¬ AlwaysTerminates := by
  intro h
  obtain ⟨s, hs, -⟩ := h 1 (inputProcesses (fun _ => Process.zero) ![(1, 1)]) 1
    (built_inputProcesses _ _) (by decide) (by decide) (by decide)
  have hgap := (rr_returns_only (built_inputProcesses _ _) ⟨by decide, by decide⟩ (by decide)
    hs).2
  exact absurd (hgap 0) (by decide)

end OsInParts.Scheduling
