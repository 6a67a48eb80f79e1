import OsInParts.Scheduling.RoundRobin
import OsInParts.Scheduling.Trace

/-!
# RrFairness — the slices of `rr`

`RrTrace` is what any turn keeps, whatever index it is for. On an array as
`input_processes` leaves it the cursor goes round the indices; `since` is how
many turns ago it was at index `i`. A process that waits has waited for at
most one slice a turn since then, and the processes executed after its last
slice are those the cursor has passed since, in that order (`RrWaits`); when
the cursor comes back to it that is `n - 1` turns, with each other index once.
All of it holds whether or not the loop returns.
-/

namespace OsInParts.Scheduling

open Lib.Loop Lib.Timeline

variable {n : Nat} {p : Fin n → Process} {timeQuantum : Int}

/-! ## One turn -/

/-- The time for which a process is executed with `left` of it left. -/
def executionTime (timeQuantum left : Int) : Int :=
  if left > timeQuantum then timeQuantum else left

/-- Process `i` as it is after the turn, before its completion. -/
def Cpu.turned (s : Cpu n) (timeQuantum : Int) (i : Fin n) : Process :=
  { s.p i with
    startTime := if (s.p i).started = false then s.currentTime else (s.p i).startTime
    started := true
    remainingTime := (s.p i).remainingTime - executionTime timeQuantum (s.p i).remainingTime }

/-- The state after process `i` has been executed. -/
def Cpu.afterTurn (s : Cpu n) (timeQuantum : Int) (i : Fin n) : Cpu n :=
  s.serve i (s.turned timeQuantum i) (executionTime timeQuantum (s.p i).remainingTime)
    ((s.p i).remainingTime - executionTime timeQuantum (s.p i).remainingTime = 0)

/-- **A turn** executes the process, or does nothing if it has not arrived or is
completed. -/
theorem turn_cases {s s' : Cpu n} {i : Fin n} (h : s.turn timeQuantum i = some s') :
    ((s.p i).arrivalTime ≤ s.currentTime ∧ s.isCompleted i = false ∧
        s' = s.afterTurn timeQuantum i) ∨
      ¬ ((s.p i).arrivalTime ≤ s.currentTime ∧ s.isCompleted i = false) ∧ s' = s := by
  unfold Cpu.turn at h
  split at h
  · rename_i hel
    refine .inl ⟨hel.1, hel.2, ?_⟩
    have hmark : (if (s.p i).started = false then
          s.setProcess i { s.p i with startTime := s.currentTime, started := true } else s)
        = s.setProcess i { s.p i with
            startTime := if (s.p i).started = false then s.currentTime else (s.p i).startTime
            started := true } := by
      split
      · rfl
      · rename_i hstarted
        rw [← Bool.not_eq_false _ |>.mp hstarted]
        exact (congrArg (fun f => { s with p := f }) (Function.update_eq_self i s.p)).symm
    dsimp only at h
    rw [hmark] at h
    simp only [Cpu.setProcess, Function.update_self, Function.update_idem] at h
    obtain ⟨c, hc, rfl⟩ := Option.map_eq_some_iff.mp h
    obtain ⟨now, hadd, rfl⟩ := Option.map_eq_some_iff.mp hc
    obtain ⟨rfl, -⟩ := addInt_inRange hadd
    simp only [Function.update_self]
    rfl
  · rename_i hel
    exact .inr ⟨hel, (Option.some.inj h).symm⟩

/-- **Between two turns of `rr`.** -/
structure RrTrace (p : Fin n → Process) (s : Cpu n) : Prop where
  traced : Traced p (fun i => (s.p i).remainingTime) s
  nonneg : ∀ i, 0 ≤ (s.p i).remainingTime
  started : ∀ i, (s.p i).started = true ↔ Ran s.slices i
  finished : ∀ i, s.isCompleted i = true ↔ (s.p i).remainingTime = 0

/-- An array that no scheduler has written, with any pids. -/
structure Fresh (p : Fin n → Process) : Prop where
  remainingTime : ∀ i, (p i).remainingTime = (p i).burstTime
  started : ∀ i, (p i).started = false

theorem RrTrace.start (hfresh : Fresh p) (hburst : ∀ i, 1 ≤ (p i).burstTime) :
    RrTrace p (Cpu.initial p) where
  traced := by
    have hleft : (fun i => ((Cpu.initial p).p i).remainingTime) = fun i => (p i).burstTime :=
      funext hfresh.remainingTime
    rw [hleft]
    exact Traced.start p
  nonneg := fun i => by
    have hpos := hburst i
    have hleft := hfresh.remainingTime i
    simp only [Cpu.initial]
    omega
  started := fun i => by simp [Cpu.initial, Ran, hfresh.started i]
  finished := fun i => by
    have hpos := hburst i
    have hleft := hfresh.remainingTime i
    simp only [Cpu.initial, Bool.false_eq_true, false_iff]
    omega

section Turn

variable {s : Cpu n} {i : Fin n}

theorem afterTurn_of_ne {j : Fin n} (hj : j ≠ i) : (s.afterTurn timeQuantum i).p j = s.p j ∧
    (s.afterTurn timeQuantum i).isCompleted j = s.isCompleted j :=
  serve_other s i _ _ _ hj

@[simp] theorem afterTurn_slices : (s.afterTurn timeQuantum i).slices = s.slices ++
    [{ process := i, start := s.currentTime,
       stop := s.currentTime + executionTime timeQuantum (s.p i).remainingTime }] :=
  serve_slices ..

@[simp] theorem afterTurn_currentTime : (s.afterTurn timeQuantum i).currentTime
    = s.currentTime + executionTime timeQuantum (s.p i).remainingTime :=
  serve_currentTime ..

/-- What the turn writes besides the times of a completed process. -/
theorem afterTurn_self : ((s.afterTurn timeQuantum i).p i).remainingTime
      = (s.p i).remainingTime - executionTime timeQuantum (s.p i).remainingTime ∧
    ((s.afterTurn timeQuantum i).p i).started = true ∧
    ((s.afterTurn timeQuantum i).p i).startTime
      = if (s.p i).started = false then s.currentTime else (s.p i).startTime := by
  unfold Cpu.afterTurn Cpu.serve
  split
  · simp only [Cpu.complete, Function.update_self, grant_self, Cpu.turned, and_self]
  · rw [grant_self]
    exact ⟨rfl, rfl, rfl⟩

theorem afterTurn_isCompleted (h : s.isCompleted i = false) :
    (s.afterTurn timeQuantum i).isCompleted i = true ↔
      (s.p i).remainingTime - executionTime timeQuantum (s.p i).remainingTime = 0 := by
  unfold Cpu.afterTurn Cpu.serve
  split
  · simp only [complete_isCompleted, true_or, *]
  · simp only [Cpu.grant, *, Bool.false_eq_true]

variable (h : RrTrace p s)

include h

theorem RrTrace.left_pos (hi : s.isCompleted i = false) : 1 ≤ (s.p i).remainingTime := by
  have hnonneg := h.nonneg i
  have hne : (s.p i).remainingTime ≠ 0 := fun hzero => by
    rw [(h.finished i).mpr hzero] at hi
    cases hi
  omega

/-- A slice is not empty, no longer than the quantum, and shorter only if it is
all that is left. -/
theorem RrTrace.executionTime_bounds (hq : 1 ≤ timeQuantum) (hi : s.isCompleted i = false) :
    1 ≤ executionTime timeQuantum (s.p i).remainingTime ∧
      executionTime timeQuantum (s.p i).remainingTime ≤ timeQuantum ∧
      executionTime timeQuantum (s.p i).remainingTime ≤ (s.p i).remainingTime ∧
      (executionTime timeQuantum (s.p i).remainingTime = timeQuantum ∨
        (s.p i).remainingTime - executionTime timeQuantum (s.p i).remainingTime = 0) := by
  have hpos := h.left_pos hi
  unfold executionTime
  split <;> omega

theorem RrTrace.serves (hq : 1 ≤ timeQuantum) (harrived : (s.p i).arrivalTime ≤ s.currentTime)
    (hi : s.isCompleted i = false) :
    Serves (fun i => (s.p i).remainingTime) s i (s.turned timeQuantum i)
      (executionTime timeQuantum (s.p i).remainingTime) := by
  obtain ⟨hpos, -, hle, -⟩ := h.executionTime_bounds hq hi
  refine ⟨rfl, rfl, rfl, ?_, harrived, hi, Int.le_trans (by decide) hpos, hle⟩
  simp only [Cpu.turned, ← h.started i]
  cases (s.p i).started <;> rfl

theorem RrTrace.afterTurn (hq : 1 ≤ timeQuantum)
    (harrived : (s.p i).arrivalTime ≤ s.currentTime) (hi : s.isCompleted i = false) :
    RrTrace p (s.afterTurn timeQuantum i) := by
  have hs := h.serves hq harrived hi
  obtain ⟨hleft, hstarted, -⟩ := @afterTurn_self n timeQuantum s i
  have hupdate : Function.update (fun i => (s.p i).remainingTime) i
        ((s.p i).remainingTime - executionTime timeQuantum (s.p i).remainingTime)
      = fun j => ((s.afterTurn timeQuantum i).p j).remainingTime := by
    funext j
    by_cases hj : j = i
    · subst hj
      rw [Function.update_self, hleft]
    · rw [Function.update_of_ne hj, (afterTurn_of_ne hj).1]
  constructor
  · rw [← hupdate]
    exact h.traced.serve hs
  · intro j
    by_cases hj : j = i
    · subst hj
      have hle := (h.executionTime_bounds hq hi).2.2.1
      rw [hleft]
      omega
    · rw [(afterTurn_of_ne hj).1]
      exact h.nonneg j
  · intro j
    rw [afterTurn_slices, ran_concat]
    by_cases hj : j = i
    · subst hj
      simp only [hstarted, or_true]
    · rw [(afterTurn_of_ne hj).1, h.started j]
      exact ⟨.inl, fun hran => hran.resolve_right (Ne.symm hj)⟩
  · intro j
    by_cases hj : j = i
    · subst hj
      rw [afterTurn_isCompleted hi, hleft]
    · rw [(afterTurn_of_ne hj).1, (afterTurn_of_ne hj).2]
      exact h.finished j

end Turn

/-! ## The lengths of the slices -/

/-- The clock shows the work done, and only the last slice of a process, which
completes it, is shorter than the quantum. -/
structure RrLengths (timeQuantum : Int) (s : Cpu n) : Prop where
  clock : s.currentTime = (s.slices.map fun x => x.stop - x.start).sum
  whole : ∀ l₁ x l₂, s.slices = l₁ ++ x :: l₂ → 0 < x.stop - x.start ∧
    x.stop - x.start ≤ timeQuantum ∧
    (x.stop - x.start = timeQuantum ∨ ¬ Ran l₂ x.process ∧ s.isCompleted x.process = true)

theorem RrLengths.start (p : Fin n → Process) : RrLengths timeQuantum (Cpu.initial p) :=
  ⟨rfl, fun l₁ x l₂ h => by simp [Cpu.initial] at h⟩

theorem RrLengths.afterTurn {s : Cpu n} {i : Fin n} (h : RrLengths timeQuantum s)
    (ht : RrTrace p s) (hq : 1 ≤ timeQuantum) (hi : s.isCompleted i = false) :
    RrLengths timeQuantum (s.afterTurn timeQuantum i) := by
  obtain ⟨hpos, hle, -, hlast⟩ := ht.executionTime_bounds hq hi
  refine ⟨?_, fun l₁ x l₂ hsplit => ?_⟩
  · rw [afterTurn_slices, List.map_append, List.sum_append, ← h.clock, afterTurn_currentTime]
    simp
  · rw [afterTurn_slices] at hsplit
    rcases concat_eq_split hsplit with ⟨-, rfl, rfl⟩ | ⟨l₂', rfl, hbefore⟩
    · refine ⟨by dsimp only; omega, by dsimp only; omega, ?_⟩
      rcases hlast with hwhole | hzero
      · exact .inl (by dsimp only; omega)
      · exact .inr ⟨by simp [Ran], (afterTurn_isCompleted hi).mpr hzero⟩
    · obtain ⟨h1, h2, h3⟩ := h.whole l₁ x l₂' hbefore
      refine ⟨h1, h2, h3.imp_right fun hend => ?_⟩
      obtain ⟨hnot, hdone⟩ := hend
      have hx : x.process ≠ i := fun hxi => by
        rw [hxi, hi] at hdone
        cases hdone
      rw [ran_concat, (afterTurn_of_ne hx).2]
      exact ⟨not_or.mpr ⟨hnot, Ne.symm hx⟩, hdone⟩

/-! ## The cursor -/

/-- How many turns ago the cursor, now at `idx`, was at index `i`, not counting
the turn there; as if the first turn had followed a full round. -/
def since (n idx i : ℕ) : ℕ := if i < idx then idx - 1 - i else idx + n - 1 - i

theorem since_le {idx i : ℕ} (hidx : idx ≤ n) : since n idx i ≤ n - 1 := by
  unfold since
  split <;> omega

theorem since_cursor {idx : ℕ} (hn : 0 < n) (hidx : idx ≤ n) : since n idx (idx % n) = n - 1 := by
  unfold since
  rcases hidx.lt_or_eq with hlt | rfl
  · rw [Nat.mod_eq_of_lt hlt, if_neg (Nat.lt_irrefl _)]
    omega
  · rw [Nat.mod_self, if_pos hn]
    omega

theorem since_next_self (c : ℕ) : since n (c + 1) c = 0 := by
  unfold since
  rw [if_pos (Nat.lt_succ_self c)]
  omega

theorem since_next {idx i : ℕ} (hn : 0 < n) (hidx : idx ≤ n) (hi : i < n) (hne : i ≠ idx % n) :
    since n (idx % n + 1) i = since n idx i + 1 := by
  unfold since
  rcases hidx.lt_or_eq with hlt | rfl
  · rw [Nat.mod_eq_of_lt hlt] at hne ⊢
    split <;> split <;> omega
  · rw [Nat.mod_self] at hne ⊢
    split <;> omega

theorem since_next_mul {idx i : ℕ} (hn : 0 < n) (hidx : idx ≤ n) (hi : i < n)
    (hne : i ≠ idx % n) (timeQuantum : Int) :
    (since n (idx % n + 1) i : Int) * timeQuantum = since n idx i * timeQuantum + timeQuantum := by
  rw [since_next hn hidx hi hne]
  push_cast
  rw [Int.add_mul, Int.one_mul]

/-! ## Waiting -/

/-- Since the slice before it of its process, `b` has waited for no more than
`n - 1` slices, each of another process. -/
def RrBetween (timeQuantum : Int) (before : List (Slice n)) (b : Slice n) : Prop :=
  ∀ l₁ a m, before = l₁ ++ a :: m → b.process = a.process → ¬ Ran m a.process →
    (m.map Slice.process).Nodup ∧ b.start - a.stop ≤ (n - 1 : ℕ) * timeQuantum

/-- **How long processes have waited** between two turns. -/
structure RrWaits (p : Fin n → Process) (timeQuantum : Int) (s : Rr n) : Prop where
  fresh : ∀ i, ¬ Ran s.slices i → (p i).arrivalTime ≤ s.currentTime →
    s.currentTime - (p i).arrivalTime ≤ since n s.idx i * timeQuantum
  /-- after the last slice `a` of a process -/
  last : ∀ l₁ a l₂, s.slices = l₁ ++ a :: l₂ → ¬ Ran l₂ a.process →
    s.isCompleted a.process = false →
      s.currentTime - a.stop ≤ since n s.idx a.process * timeQuantum ∧
      (l₂.map Slice.process).Nodup ∧
      ∀ x ∈ l₂, since n s.idx x.process < since n s.idx a.process
  response : ∀ i, (s.p i).started = true →
    (s.p i).startTime - (p i).arrivalTime ≤ (n - 1 : ℕ) * timeQuantum
  between : History (RrBetween timeQuantum) s.slices

theorem RrWaits.start (hfresh : Fresh p) (harrival : ∀ i, 0 ≤ (p i).arrivalTime)
    (hq : 1 ≤ timeQuantum) : RrWaits p timeQuantum (Rr.initial p) where
  fresh := fun i _ _ => by
    have hpos := harrival i
    have hprod : 0 ≤ (since n 0 i : Int) * timeQuantum := Int.mul_nonneg (by omega) (by omega)
    show 0 - (p i).arrivalTime ≤ since n 0 i * timeQuantum
    omega
  last := fun l₁ a l₂ h => by simp [Rr.initial, Cpu.initial] at h
  response := fun i hi => by
    have hnot : (p i).started = true := hi
    rw [hfresh.started i] at hnot
    cases hnot
  between := .nil

section Step

variable {s : Rr n} (h : RrWaits p timeQuantum s) (ht : RrTrace p s.toCpu) (hs : RrQueue s)
  (hn : 0 < n) (hq : 1 ≤ timeQuantum)

include h ht hs hn hq

omit ht hq in
/-- A slice after the last slice of a process that waits is not at the cursor. -/
theorem RrWaits.ne_cursor {l₁ l₂ : List (Slice n)} {a x : Slice n}
    (hsplit : s.slices = l₁ ++ a :: l₂) (hnot : ¬ Ran l₂ a.process)
    (hopen : s.isCompleted a.process = false) (hx : x ∈ l₂) : x.process.val ≠ s.idx % n := by
  intro heq
  have hlt := (h.last l₁ a l₂ hsplit hnot hopen).2.2 x hx
  have hle := since_le (n := n) (i := a.process) hs.idx_le
  rw [heq, since_cursor hn hs.idx_le] at hlt
  omega

/-- The cursor passes a process that cannot be executed. -/
theorem RrWaits.skip
    (hel : ¬ ((s.p (s.cursor hn)).arrivalTime ≤ s.currentTime ∧
      s.isCompleted (s.cursor hn) = false)) :
    RrWaits p timeQuantum { s with idx := s.idx % n + 1 } := by
  refine ⟨fun i hran harr => ?_, fun l₁ a l₂ hsplit hnot hopen => ?_, h.response, h.between⟩
  · have hne : i.val ≠ s.idx % n := fun heq => by
      obtain rfl : i = s.cursor hn := Fin.ext heq
      have hdone : s.isCompleted (s.cursor hn) = true := by
        by_contra hopen
        exact hel ⟨(ht.traced.arrivalTime _).trans_le harr, by simpa using hopen⟩
      obtain ⟨-, ⟨⟨x, hx, hxi, -⟩, -⟩, -⟩ := ht.traced.finished _ hdone
      exact hran ⟨x, hx, hxi⟩
    have hwait := h.fresh i hran harr
    show s.currentTime - (p i).arrivalTime ≤ since n (s.idx % n + 1) i * timeQuantum
    rw [since_next_mul hn hs.idx_le i.isLt hne]
    omega
  · have hne : a.process.val ≠ s.idx % n := fun heq => by
      have ha : a ∈ s.slices := by
        rw [show s.slices = l₁ ++ a :: l₂ from hsplit]
        exact List.mem_append_right _ List.mem_cons_self
      have hcursor : a.process = s.cursor hn := Fin.ext heq
      refine hel ⟨?_, hcursor ▸ hopen⟩
      obtain ⟨h1, h2, h3⟩ := ht.traced.within a ha
      rw [ht.traced.arrivalTime, ← hcursor]
      omega
    obtain ⟨hwait, hnodup, hless⟩ := h.last l₁ a l₂ hsplit hnot hopen
    refine ⟨?_, hnodup, fun x hx => ?_⟩
    · show s.currentTime - a.stop ≤ since n (s.idx % n + 1) a.process * timeQuantum
      rw [since_next_mul hn hs.idx_le a.process.isLt hne]
      omega
    · show since n (s.idx % n + 1) x.process < since n (s.idx % n + 1) a.process
      rw [since_next hn hs.idx_le a.process.isLt hne, since_next hn hs.idx_le x.process.isLt
        (h.ne_cursor hs hn hsplit hnot hopen hx)]
      exact Nat.succ_lt_succ (hless x hx)

section Execute

variable (harrived : (s.p (s.cursor hn)).arrivalTime ≤ s.currentTime)
  (hi : s.isCompleted (s.cursor hn) = false)

include harrived hi

omit harrived in
/-- After the last slice of a process there is at most one of any other. -/
theorem RrWaits.last_execute {l₁ l₂ : List (Slice n)} {a : Slice n}
    (hsplit : (s.afterTurn timeQuantum (s.cursor hn)).slices = l₁ ++ a :: l₂)
    (hnot : ¬ Ran l₂ a.process)
    (hopen : (s.afterTurn timeQuantum (s.cursor hn)).isCompleted a.process = false) :
    (s.afterTurn timeQuantum (s.cursor hn)).currentTime - a.stop
        ≤ since n (s.idx % n + 1) a.process * timeQuantum ∧
      (l₂.map Slice.process).Nodup ∧
      ∀ x ∈ l₂, since n (s.idx % n + 1) x.process < since n (s.idx % n + 1) a.process := by
  obtain ⟨hpos, hle, -, -⟩ := ht.executionTime_bounds hq hi
  rw [afterTurn_slices] at hsplit
  rw [afterTurn_currentTime]
  rcases concat_eq_split hsplit with ⟨-, rfl, rfl⟩ | ⟨l₂', rfl, hbefore⟩
  · have hprod : 0 ≤ (since n (s.idx % n + 1) (s.cursor hn) : Int) * timeQuantum :=
      Int.mul_nonneg (by omega) (by omega)
    refine ⟨?_, List.nodup_nil, fun x hx => by cases hx⟩
    dsimp only
    omega
  · rw [ran_concat, not_or] at hnot
    have hne : a.process ≠ s.cursor hn := Ne.symm hnot.2
    have hne' : a.process.val ≠ s.idx % n := fun heq => hne (Fin.ext heq)
    have hopen' : s.isCompleted a.process = false := (afterTurn_of_ne hne).2 ▸ hopen
    obtain ⟨hwait, hnodup, hless⟩ := h.last l₁ a l₂' hbefore hnot.1 hopen'
    have hother : ∀ x ∈ l₂', x.process.val ≠ s.idx % n := fun x hx =>
      h.ne_cursor hs hn hbefore hnot.1 hopen' hx
    have hself : since n (s.idx % n + 1) a.process = since n s.idx a.process + 1 :=
      since_next hn hs.idx_le a.process.isLt hne'
    refine ⟨?_, ?_, fun x hx => ?_⟩
    · rw [since_next_mul hn hs.idx_le a.process.isLt hne']
      omega
    · rw [List.map_append, List.map_singleton]
      refine List.nodup_append.mpr ⟨hnodup, List.nodup_singleton _, fun b hb c hc => ?_⟩
      obtain ⟨x, hx, rfl⟩ := List.mem_map.mp hb
      rw [List.mem_singleton.mp hc]
      exact fun heq => hother x hx (congrArg Fin.val heq)
    · rcases List.mem_append.mp hx with hx | hx
      · rw [hself, since_next hn hs.idx_le x.process.isLt (hother x hx)]
        exact Nat.succ_lt_succ (hless x hx)
      · rw [List.mem_singleton.mp hx, hself]
        exact (since_next_self (n := n) (s.idx % n)).trans_lt (Nat.succ_pos _)

omit hq hi in
/-- A process that has just started has waited since its arrival. -/
theorem RrWaits.response_execute {i : Fin n}
    (hstarted : ((s.afterTurn timeQuantum (s.cursor hn)).p i).started = true) :
    ((s.afterTurn timeQuantum (s.cursor hn)).p i).startTime - (p i).arrivalTime
      ≤ (n - 1 : ℕ) * timeQuantum := by
  by_cases hic : i = s.cursor hn
  · subst hic
    rw [afterTurn_self.2.2]
    split
    · rename_i hfresh
      have hnot : ¬ Ran s.slices (s.cursor hn) := fun hran => by
        rw [(ht.started _).mpr hran] at hfresh
        cases hfresh
      have hround : since n s.idx (s.cursor hn) = n - 1 := since_cursor hn hs.idx_le
      rw [← hround]
      exact h.fresh _ hnot ((ht.traced.arrivalTime _).symm.trans_le harrived)
    · rename_i hbefore
      exact h.response _ (by simpa using hbefore)
  · rw [(afterTurn_of_ne hic).1] at hstarted ⊢
    exact h.response i hstarted

/-- The process at the cursor is executed. -/
theorem RrWaits.execute :
    RrWaits p timeQuantum
      { s with toCpu := s.afterTurn timeQuantum (s.cursor hn), idx := s.idx % n + 1 } where
  fresh := fun i hran harr => by
    obtain ⟨hpos, hle, -, -⟩ := ht.executionTime_bounds hq hi
    simp only [afterTurn_slices, ran_concat, not_or] at hran
    simp only [afterTurn_currentTime] at harr ⊢
    rw [since_next_mul hn hs.idx_le i.isLt fun heq => hran.2 (Fin.ext heq).symm]
    by_cases hearlier : (p i).arrivalTime ≤ s.currentTime
    · have hwait := h.fresh i hran.1 hearlier
      omega
    · -- it has arrived during this slice
      have hprod : 0 ≤ (since n s.idx i : Int) * timeQuantum := Int.mul_nonneg (by omega) (by omega)
      omega
  last := fun _ _ _ hsplit hnot hopen => h.last_execute ht hs hn hq hi hsplit hnot hopen
  response := fun _ hstarted => h.response_execute ht hs hn harrived hstarted
  between := by
    have hround : since n s.idx (s.cursor hn) = n - 1 := since_cursor hn hs.idx_le
    simp only [afterTurn_slices]
    refine history_concat.mpr ⟨h.between, fun l₁ a m hbefore heq hnot => ?_⟩
    have hcursor : a.process = s.cursor hn := heq.symm
    obtain ⟨hwait, hnodup, -⟩ := h.last l₁ a m hbefore hnot (hcursor ▸ hi)
    rw [hcursor, hround] at hwait
    exact ⟨hnodup, hwait⟩

end Execute

end Step

/-! ## Every reachable state -/

/-- **Fairness** of what has been executed so far. -/
structure RrFair (p : Fin n → Process) (timeQuantum : Int) (s : Cpu n) : Prop where
  clock : s.currentTime = (s.slices.map fun x => x.stop - x.start).sum
  given : ∀ i, givenTo s.slices i = (p i).burstTime - (s.p i).remainingTime
  /-- only the last slice of a process may be shorter than the quantum -/
  whole : ∀ l₁ x l₂, s.slices = l₁ ++ x :: l₂ → 0 < x.stop - x.start ∧
    x.stop - x.start ≤ timeQuantum ∧ (Ran l₂ x.process → x.stop - x.start = timeQuantum)
  arrived : ∀ x ∈ s.slices, (p x.process).arrivalTime ≤ x.start
  /-- `m` are the slices between two consecutive slices of one process -/
  between : ∀ l₁ a m b l₂, s.slices = l₁ ++ a :: m ++ b :: l₂ → b.process = a.process →
    ¬ Ran m a.process →
      (m.map Slice.process).Nodup ∧ b.start - a.stop ≤ ((n : Int) - 1) * timeQuantum
  response : ∀ i, (s.p i).started = true →
    IsLeast (startsOf s.slices i) (s.p i).startTime ∧
      (s.p i).startTime - (p i).arrivalTime ≤ ((n : Int) - 1) * timeQuantum

/-- One turn of the loop keeps all of it. -/
theorem rr_fair_body (hq : 1 ≤ timeQuantum) {s s' : Rr n} (ht : RrTrace p s.toCpu)
    (hl : RrLengths timeQuantum s.toCpu) (hw : RrWaits p timeQuantum s) (hs : RrQueue s)
    (hopen : s.completed < n) (hbody : rrBody timeQuantum s = some s') :
    RrTrace p s'.toCpu ∧ RrLengths timeQuantum s'.toCpu ∧ RrWaits p timeQuantum s' ∧
      RrQueue s' := by
  have hn : 0 < n := by omega
  rw [rrBody_eq hs hn] at hbody
  obtain ⟨c, hc, rfl⟩ := Option.map_eq_some_iff.mp hbody
  have hqueue : RrQueue { s with toCpu := c, idx := s.idx % n + 1 } :=
    ⟨hs.queue, Nat.mod_lt _ hn⟩
  rcases turn_cases hc with ⟨harrived, hi, rfl⟩ | ⟨hel, rfl⟩
  · exact ⟨ht.afterTurn hq harrived hi, hl.afterTurn ht hq hi,
      hw.execute ht hs hn hq harrived hi, hqueue⟩
  · exact ⟨ht, hl, hw.skip ht hs hn hq hel, hqueue⟩

/-- **`rr` is fair** in every state that its loop reaches, for all processes as
`input_processes` leaves them with arrival times from 0 on and burst times
from 1 on, and every time quantum. -/
theorem rr_fair (hb : Built p) (harrival : ∀ i, 0 ≤ (p i).arrivalTime)
    (hburst : ∀ i, 1 ≤ (p i).burstTime) (hq : 1 ≤ timeQuantum) {s : Rr n}
    (h : Reaches (rrLoop timeQuantum) (Rr.initial p) s) : RrFair p timeQuantum s.toCpu := by
  have hfresh : Fresh p := ⟨hb.remainingTime, hb.started⟩
  obtain ⟨ht, hl, hw, -⟩ := h.rule
    (fun s => RrTrace p s.toCpu ∧ RrLengths timeQuantum s.toCpu ∧ RrWaits p timeQuantum s ∧
      RrQueue s)
    (fun s s' ⟨ht, hl, hw, hs⟩ hagain => by
      obtain ⟨hc, hbody⟩ := whileBody_again.mp hagain
      exact rr_fair_body hq ht hl hw hs (by simpa using hc) hbody)
    ⟨RrTrace.start hfresh hburst, RrLengths.start p, RrWaits.start hfresh harrival hq,
      hb.pid, Nat.zero_le _⟩
  have hround : ∀ i : Fin n, ((n - 1 : ℕ) : Int) = (n : Int) - 1 := fun i => by
    have hlt := i.isLt
    omega
  constructor
  · exact hl.clock
  · intro i
    have hgiven := ht.traced.given i
    omega
  · intro l₁ x l₂ hsplit
    obtain ⟨h1, h2, h3⟩ := hl.whole l₁ x l₂ hsplit
    exact ⟨h1, h2, fun hran => h3.resolve_right fun hlast => hlast.1 hran⟩
  · exact fun x hx => (ht.traced.within x hx).1
  · intro l₁ a m b l₂ hsplit heq hnot
    rw [← hround a.process]
    exact hw.between (l₁ ++ a :: m) b l₂ hsplit l₁ a m rfl heq hnot
  · intro i hstarted
    rw [← hround i]
    exact ⟨ht.traced.startTime i ((ht.started i).mp hstarted), hw.response i hstarted⟩

/-- A process that arrives during the slice of another, and a third between. -/
def threeInTurn : Fin 3 → Process :=
  inputProcesses (fun _ => Process.zero) ![(0, 5), (0, 1), (1, 3)]

theorem rr_fair_threeInTurn :
    ∃ s, Reaches (rrLoop 2) (Rr.initial threeInTurn) s ∧ s.slices.length = 4 ∧
      RrFair threeInTurn 2 s.toCpu := by
  obtain ⟨s, hs, hlength⟩ : ∃ s, run (rrLoop 2) 4 (Rr.initial threeInTurn) = .again s ∧
      s.slices.length = 4 := ⟨_, rfl, rfl⟩
  exact ⟨s, ⟨4, hs⟩, hlength, rr_fair (built_inputProcesses _ _) (by decide) (by decide)
    (by decide) ⟨4, hs⟩⟩

end OsInParts.Scheduling
