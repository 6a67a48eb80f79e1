import OsInParts.Lib.ShortestFirst
import OsInParts.Scheduling.SjfSchedule
import OsInParts.Scheduling.SrtfSchedule

/-!
# SameArrival — `sjf` and `srtf` on processes that arrive together

If all processes arrive at one time neither scheduler ever has a reason to
change its mind: `sjf` takes them by burst and index, and `srtf` stays with the
process it has begun, whose remaining time is below all others. Both are runs
of one order (`InOrder`), and no other order has a smaller total turnaround
time.
-/

namespace OsInParts.Scheduling

open Lib Lib.Loop

variable {n : Nat} {p : Fin n → Process} {left : Fin n → Int} {s : Cpu n} {a : Int}

/-- A shorter burst, or one as long with a smaller index. -/
def ShorterFirst (p : Fin n → Process) (j i : Fin n) : Prop :=
  (p j).burstTime < (p i).burstTime ∨ (p j).burstTime = (p i).burstTime ∧ j < i

instance (p : Fin n → Process) : DecidableRel (ShorterFirst p) := fun j i =>
  inferInstanceAs (Decidable ((p j).burstTime < (p i).burstTime ∨
    (p j).burstTime = (p i).burstTime ∧ j < i))

theorem shorterFirst (p : Fin n → Process) :
    ShortestFirst.Shorter (ShorterFirst p) fun i => (p i).burstTime where
  asymm := fun i j hij hji => by
    rcases hij with hij | ⟨hij, hlt⟩ <;> rcases hji with hji | ⟨hji, hgt⟩
    · omega
    · omega
    · omega
    · exact absurd hlt (lt_asymm hgt)
  total := fun i j hne => by
    rcases lt_trichotomy (p i).burstTime (p j).burstTime with hlt | heq | hgt
    · exact .inl (.inl hlt)
    · rcases lt_or_gt_of_ne hne with hij | hji
      · exact .inl (.inr ⟨heq, hij⟩)
      · exact .inr (.inr ⟨heq.symm, hji⟩)
    · exact .inr (.inl hgt)
  le := fun i j hij => by
    rcases hij with hij | ⟨hij, -⟩ <;> omega

/-- When process `i` starts if the processes are executed in this order from `a`
on. -/
def startIn (p : Fin n → Process) (a : Int) (i : Fin n) : Int :=
  a + ShortestFirst.ahead (ShorterFirst p) (fun i => (p i).burstTime) Finset.univ i

/-- **The processes are executed in order**, back to back from `a` on. -/
structure InOrder (p : Fin n → Process) (a : Int) (left : Fin n → Int) (s : Cpu n) : Prop where
  /-- a process has not begun while one that comes before it is not finished -/
  order : ∀ j i, ShorterFirst p j i → left j ≠ 0 → left i = (p i).burstTime
  clock : (s.currentTime ≤ a ∧ ∀ i, left i = (p i).burstTime) ∨
    s.currentTime = a + ∑ i, ((p i).burstTime - left i)
  startTime : ∀ i, left i ≠ (p i).burstTime → (s.p i).startTime = startIn p a i
  completionTime : ∀ i, s.isCompleted i = true →
    (s.p i).completionTime = startIn p a i + (p i).burstTime

theorem InOrder.start (ha : 0 ≤ a) :
    InOrder p a (fun i => (p i).burstTime) (Cpu.initial p) where
  order := fun _ _ _ _ => rfl
  clock := .inl ⟨ha, fun _ => rfl⟩
  startTime := fun _ h => absurd rfl h
  completionTime := fun _ h => by cases h

/-- Waiting for the arrival. -/
theorem InOrder.tick (h : InOrder p a left s) (ht : Traced p left s) (hlate : s.currentTime < a) :
    InOrder p a left { s with currentTime := s.currentTime + 1 } where
  order := h.order
  clock := by
    rcases h.clock with ⟨-, hleft⟩ | hclock
    · exact .inl ⟨hlate, hleft⟩
    · have hnonneg := Finset.sum_nonneg fun i (_ : i ∈ Finset.univ) =>
        Int.sub_nonneg_of_le (ht.left_le i)
      omega
  startTime := h.startTime
  completionTime := h.completionTime

/-! ## Executing the first process -/

/-- All that a turn has to say about the process it executes. -/
structure Picks (p : Fin n → Process) (left : Fin n → Int) (s : Cpu n) (i : Fin n) : Prop where
  finished : ∀ j, s.isCompleted j = true ↔ left j = 0
  ran : Ran s.slices i ↔ left i ≠ (p i).burstTime
  first : First p left (fun j => (p j).arrivalTime ≤ s.currentTime ∧ s.isCompleted j = false) i

section Serve

theorem serve_startTime (s : Cpu n) (i : Fin n) (process : Process) (d : Int) (last : Prop)
    [Decidable last] : ((s.serve i process d last).p i).startTime = process.startTime := by
  unfold Cpu.serve
  split
  · simp [Cpu.complete, grant_self]
  · rw [grant_self]

theorem serve_completionTime (s : Cpu n) (i : Fin n) (process : Process) (d : Int) (last : Prop)
    [Decidable last] (h : last) :
    ((s.serve i process d last).p i).completionTime = s.currentTime + d := by
  rw [Cpu.serve, if_pos h, complete_completionTime]
  rfl

variable {i : Fin n} (h : InOrder p a left s) (ht : Traced p left s) (hp : Picks p left s i)
  (harrival : ∀ i, (p i).arrivalTime = a)

include h ht hp harrival

/-- What comes before the first process is finished. -/
theorem InOrder.before_finished {j : Fin n} (hj : ShorterFirst p j i) : left j = 0 := by
  by_contra hleft
  have hopen : s.isCompleted j = false := by
    rw [← Bool.not_eq_true, hp.finished j]
    exact hleft
  have hwhole := h.order j i hj hleft
  have harrived : (p j).arrivalTime ≤ s.currentTime := by
    rw [harrival j, ← harrival i]
    exact hp.first.mem.1
  have hle := ht.left_le j
  have hkey := hp.first.least j ⟨harrived, hopen⟩
  rw [Prod.Lex.toLex_le_toLex, Prod.Lex.toLex_le_toLex, harrival, harrival] at hkey
  rcases hkey with hlt | ⟨heq, hlt | ⟨-, hij⟩⟩
  · rcases hj with hj | ⟨hj, -⟩ <;> omega
  · exact absurd hlt (lt_irrefl _)
  · rcases hj with hj | ⟨-, hji⟩
    · omega
    · exact absurd hji (not_lt.mpr hij)

omit h ht harrival in
theorem Picks.left_ne : left i ≠ 0 := fun hzero => by
  have hopen := hp.first.mem.2
  rw [(hp.finished i).mpr hzero] at hopen
  cases hopen

/-- What has been executed is all that comes before the process, and its own
part. -/
theorem InOrder.sum_eq : ∑ j, ((p j).burstTime - left j)
    = ShortestFirst.ahead (ShorterFirst p) (fun i => (p i).burstTime) Finset.univ i
      + ((p i).burstTime - left i) := by
  have hself : ∑ j, (if j = i then (p i).burstTime - left i else 0)
      = (p i).burstTime - left i := by simp
  rw [ShortestFirst.ahead, ← hself, ← Finset.sum_add_distrib]
  refine Finset.sum_congr rfl fun j _ => ?_
  by_cases hj : j = i
  · subst hj
    have hnot : ¬ ShorterFirst p j j := fun hjj => (shorterFirst p).asymm j j hjj hjj
    rw [if_neg hnot, if_pos rfl, Int.zero_add]
  · rw [if_neg hj, Int.add_zero]
    rcases (shorterFirst p).total j i hj with hji | hij
    · rw [if_pos hji, h.before_finished ht hp harrival hji, Int.sub_zero]
    · rw [if_neg ((shorterFirst p).asymm i j hij), h.order i j hij hp.left_ne, Int.sub_self]

omit ht in
theorem InOrder.clock_sum : s.currentTime = a + ∑ j, ((p j).burstTime - left j) := by
  have harrived := hp.first.mem.1
  rw [harrival i] at harrived
  rcases h.clock with ⟨hle, hwhole⟩ | hclock
  · have hzero : ∑ j, ((p j).burstTime - left j) = 0 :=
      Finset.sum_eq_zero fun j _ => by rw [hwhole j, Int.sub_self]
    omega
  · exact hclock

/-- The clock is where the process has to be. -/
theorem InOrder.clock_eq : s.currentTime = startIn p a i + ((p i).burstTime - left i) := by
  rw [h.clock_sum hp harrival, h.sum_eq ht hp harrival, startIn, Int.add_assoc]

/-- **Executing the first process** keeps the order. -/
theorem InOrder.serve {process : Process} {d : Int} (hs : Serves left s i process d)
    (last : Prop) [Decidable last] (hlast : last ↔ left i - d = 0) :
    InOrder p a (Function.update left i (left i - d)) (s.serve i process d last) where
  order := fun j k hjk hj => by
    have hne : j ≠ k := by
      rintro rfl
      exact (shorterFirst p).asymm j j hjk hjk
    by_cases hk : k = i
    · subst hk
      rw [Function.update_of_ne hne] at hj
      exact absurd (h.before_finished ht hp harrival hjk) hj
    · rw [Function.update_of_ne hk]
      by_cases hji : j = i
      · subst hji
        exact h.order j k hjk hp.left_ne
      · rw [Function.update_of_ne hji] at hj
        exact h.order j k hjk hj
  clock := by
    have hclock := h.clock_sum hp harrival
    have hrest : ∑ j ∈ Finset.univ.erase i,
        ((p j).burstTime - Function.update left i (left i - d) j)
        = ∑ j ∈ Finset.univ.erase i, ((p j).burstTime - left j) :=
      Finset.sum_congr rfl fun j hj => by rw [Function.update_of_ne (Finset.ne_of_mem_erase hj)]
    rw [← Finset.add_sum_erase Finset.univ _ (Finset.mem_univ i)] at hclock
    rw [serve_currentTime, ← Finset.add_sum_erase Finset.univ _ (Finset.mem_univ i), hrest,
      Function.update_self]
    exact .inr (by omega)
  startTime := fun j hj => by
    by_cases hji : j = i
    · subst hji
      have hclock := h.clock_eq ht hp harrival
      rw [serve_startTime, hs.startTime]
      split
      · rename_i hran
        exact h.startTime j (hp.ran.mp hran)
      · rename_i hran
        have hwhole : left j = (p j).burstTime := not_not.mp (mt hp.ran.mpr hran)
        omega
    · rw [Function.update_of_ne hji] at hj
      rw [(serve_other s i process d last hji).1]
      exact h.startTime j hj
  completionTime := fun j hj => by
    by_cases hji : j = i
    · subst hji
      have hclock := h.clock_eq ht hp harrival
      by_cases hl : last
      · have hzero := hlast.mp hl
        rw [serve_completionTime s j process d last hl]
        omega
      · rw [Cpu.serve, if_neg hl] at hj
        have hopen := hs.unfinished
        rw [show s.isCompleted j = true from hj] at hopen
        cases hopen
    · rw [(serve_other s i process d last hji).2] at hj
      rw [(serve_other s i process d last hji).1]
      exact h.completionTime j hj

end Serve

/-! ## The two loops -/

section Loops

variable (harrival : ∀ i, (p i).arrivalTime = a) (hburst : ∀ i, 1 ≤ (p i).burstTime)
  (hmax : ∀ i, (p i).burstTime < intMax) (hfit : TimesFit p)

include harrival hburst hmax hfit

theorem SjfTrace.inOrder_body (h : SjfTrace p s) (ho : InOrder p a (wholeLeft p s) s)
    (hopen : s.completed ≠ n) :
    ∃ s', sjfBody s = some s' ∧ SjfTrace p s' ∧ InOrder p a (wholeLeft p s') s' := by
  have hnonneg : ∀ i, 0 ≤ (p i).burstTime := fun i => Int.le_trans (by decide) (hburst i)
  rcases h.turn hfit hnonneg hmax hopen with ⟨hbody, h', hidle⟩ | ⟨i, hbody, h', hfirst⟩
  · obtain ⟨i, hi⟩ := h.traced.exists_open hopen
    have hlate := hidle i hi
    rw [harrival i] at hlate
    exact ⟨_, hbody, h', ho.tick h.traced hlate⟩
  · have hzero : ∀ j, s.isCompleted j = true ↔ wholeLeft p s j = 0 := fun j => by
      have hpos := hburst j
      unfold wholeLeft
      split
      · simp [*]
      · rename_i hj
        refine iff_of_false hj ?_
        omega
    have hran : Ran s.slices i ↔ wholeLeft p s i ≠ (p i).burstTime :=
      iff_of_false (h.not_ran hfirst.mem.2) (not_not.mpr (wholeLeft_of_open hfirst.mem.2))
    -- what is left of an open process is its burst
    have hpick : Picks p (wholeLeft p s) s i := ⟨hzero, hran, hfirst.mem, fun j hj => by
      rw [wholeLeft_of_open hfirst.mem.2, wholeLeft_of_open hj.2]
      exact hfirst.least j hj⟩
    have ho' := ho.serve h.traced hpick harrival (h.serves hnonneg hfirst.mem) True
      (iff_of_true trivial (h.left_zero hfirst.mem.2))
    rw [h.update_wholeLeft hfirst.mem.2] at ho'
    exact ⟨_, hbody, h', ho'⟩

theorem SrtfTrace.inOrder_body {s : Srtf n} (h : SrtfTrace p s)
    (ho : InOrder p a s.burstRemaining s.toCpu) (hopen : s.completed ≠ n) :
    ∃ s', srtfBody s = some s' ∧ SrtfTrace p s' ∧ InOrder p a s'.burstRemaining s'.toCpu := by
  rcases h.turn hfit hburst hmax hopen with ⟨hbody, h', hidle⟩ | ⟨i, hbody, h', hfirst⟩
  · obtain ⟨i, hi⟩ := h.traced.exists_open hopen
    have hlate := hidle i hi
    rw [harrival i] at hlate
    exact ⟨_, hbody, h', ho.tick h.traced hlate⟩
  · have hran : Ran s.slices i ↔ s.burstRemaining i ≠ (p i).burstTime := by
      rw [h.ran_iff i, h.traced.burstTime i]
    exact ⟨_, hbody, h', ho.serve h.traced ⟨h.finished, hran, hfirst⟩ harrival
      (h.serves hfirst.mem) _ Iff.rfl⟩

/-- **`sjf`** executes the processes in order. -/
theorem sjf_inOrder (ha : 0 ≤ a) : ∃ s, Returns sjfLoop (Cpu.initial p) s ∧ SjfTrace p s ∧
    InOrder p a (wholeLeft p s) s ∧ s.completed = n := by
  have hnonneg : ∀ i, 0 ≤ (p i).burstTime := fun i => Int.le_trans (by decide) (hburst i)
  obtain ⟨s, hs, ⟨h, ho⟩, hdone⟩ := while_returns (c := fun s : Cpu n => s.completed != n)
    (f := sjfBody) (fun s => SjfTrace p s ∧ InOrder p a (wholeLeft p s) s)
    (fun s => (n - s.completed) + (intMax - s.currentTime).toNat)
    (fun s ⟨h, ho⟩ hc => by
      have hopen : s.completed ≠ n := by simpa using hc
      obtain ⟨s', hbody, h', hlt⟩ := h.body hfit hnonneg hmax hopen
      obtain ⟨s'', hbody', -, ho'⟩ := h.inOrder_body harrival hburst hmax hfit ho hopen
      rw [hbody] at hbody'
      cases hbody'
      exact ⟨s', hbody, ⟨h', ho'⟩, hlt⟩)
    ⟨SjfTrace.start (fun i => harrival i ▸ ha) hnonneg hfit, InOrder.start ha⟩
  exact ⟨s, hs, h, ho, by simpa using hdone⟩

/-- **`srtf`** executes them in the same order. -/
theorem srtf_inOrder (ha : 0 ≤ a) : ∃ s, Returns srtfLoop (Srtf.initial p) s ∧ SrtfTrace p s ∧
    InOrder p a s.burstRemaining s.toCpu ∧ s.completed = n := by
  obtain ⟨s, hs, ⟨h, ho⟩, hdone⟩ := returns_of_clock (c := fun s : Srtf n => s.completed != n)
    (fun s : Srtf n => s.currentTime)
    (fun s => SrtfTrace p s ∧ InOrder p a s.burstRemaining s.toCpu)
    (fun s ⟨h, ho⟩ hc => by
      have hopen : s.completed ≠ n := by simpa using hc
      obtain ⟨s', hbody, h', hclock⟩ := h.body hfit hburst hmax hopen
      obtain ⟨s'', hbody', -, ho'⟩ := h.inOrder_body harrival hburst hmax hfit ho hopen
      rw [hbody] at hbody'
      cases hbody'
      exact ⟨s', hbody, ⟨h', ho'⟩, hclock⟩)
    ⟨SrtfTrace.start (fun i => harrival i ▸ ha) hburst hfit, InOrder.start ha⟩
  exact ⟨s, hs, h, ho, by simpa using hdone⟩

end Loops

/-! ## Times and totals -/

/-- What both arrays and totals are in the end. -/
structure RunInOrder (p : Fin n → Process) (a : Int) (s : Cpu n) : Prop where
  completed : ∀ i, s.isCompleted i = true
  startTime : ∀ i, (s.p i).startTime = startIn p a i
  completionTime : ∀ i, (s.p i).completionTime = startIn p a i + (p i).burstTime
  nonneg : 0 ≤ ∑ i, (startIn p a i + (p i).burstTime - (p i).arrivalTime)
  turnaround : s.totalTurnaroundTime
    = intValue (∑ i, (startIn p a i + (p i).burstTime - (p i).arrivalTime))

theorem InOrder.final (h : InOrder p a left s) (ht : Traced p left s)
    (hburst : ∀ i, 1 ≤ (p i).burstTime) (hdone : s.completed = n) : RunInOrder p a s := by
  have hall := ht.all_completed hdone
  have hsum : ∑ i, (if s.isCompleted i = true then (s.p i).completionTime - (p i).arrivalTime
      else 0) = ∑ i, (startIn p a i + (p i).burstTime - (p i).arrivalTime) :=
    Finset.sum_congr rfl fun i _ => by rw [if_pos (hall i), h.completionTime i (hall i)]
  refine ⟨hall, fun i => h.startTime i ?_, fun i => h.completionTime i (hall i), ?_, ?_⟩
  · have hpos := hburst i
    rw [(ht.finished i (hall i)).1]
    omega
  · rw [← hsum]
    exact ht.turnaround_nonneg
  · rw [ht.turnaround, hsum]

/-- The total turnaround time of the processes run back to back from `t` on. -/
def backToBack (p : Fin n → Process) : Int → List (Fin n) → Int
  | _, [] => 0
  | t, i :: order =>
      (t + (p i).burstTime - (p i).arrivalTime) + backToBack p (t + (p i).burstTime) order

theorem backToBack_eq (p : Fin n → Process) (t : Int) (order : List (Fin n)) :
    backToBack p t order = ShortestFirst.flow (fun i => (p i).burstTime) t order
      - (order.map fun i => (p i).arrivalTime).sum := by
  induction order generalizing t with
  | nil => rfl
  | cons i order ih =>
      rw [backToBack, ih, ShortestFirst.flow, List.map_cons, List.sum_cons]
      omega

/-- **No other order is better.** -/
theorem sum_le_backToBack (p : Fin n → Process) (a : Int) {order : List (Fin n)}
    (horder : order.Perm (List.finRange n)) :
    ∑ i, (startIn p a i + (p i).burstTime - (p i).arrivalTime) ≤ backToBack p a order := by
  have hnodup : order.Nodup := horder.nodup_iff.mpr (List.nodup_finRange n)
  have huniv : order.toFinset = Finset.univ :=
    Finset.eq_univ_of_forall fun i =>
      List.mem_toFinset.mpr (horder.mem_iff.mpr (List.mem_finRange i))
  have hle := (shorterFirst p).flowBy_le_flow a hnodup
  have hflow : ShortestFirst.flowBy (ShorterFirst p) (fun i => (p i).burstTime) a Finset.univ
      = ∑ i, (startIn p a i + (p i).burstTime) := by
    refine Finset.sum_congr rfl fun i _ => ?_
    rw [startIn, Int.add_right_comm]
  have harrivals : (order.map fun i => (p i).arrivalTime).sum = ∑ i, (p i).arrivalTime := by
    rw [(horder.map _).sum_eq, Fin.sum_univ_def]
  rw [huniv, hflow] at hle
  rw [backToBack_eq, harrivals, Finset.sum_sub_distrib]
  omega

/-- If some order has a total in range, so does this one. -/
theorem RunInOrder.exists_total (h : RunInOrder p a s)
    (hfits : ∃ order : List (Fin n), order.Perm (List.finRange n) ∧
      backToBack p a order ≤ intMax) :
    s.totalTurnaroundTime
      = some (∑ i, (startIn p a i + (p i).burstTime - (p i).arrivalTime)) := by
  obtain ⟨order, horder, hle⟩ := hfits
  rw [h.turnaround, intValue_of_nonneg h.nonneg,
    if_pos ((sum_le_backToBack p a horder).trans hle)]

/-- **`sjf` and `srtf` agree on processes that arrive together**: every process
has the same start and completion time, both accumulate the same total, and if
running the processes back to back in some order has a total turnaround time
in range, theirs is at most that of any order. -/
theorem sameArrival_agree (ha : 0 ≤ a) (harrival : ∀ i, (p i).arrivalTime = a)
    (hburst : ∀ i, 1 ≤ (p i).burstTime) (hmax : ∀ i, (p i).burstTime < intMax)
    (hfit : TimesFit p) :
    ∃ (s : Cpu n) (r : Srtf n),
      Returns sjfLoop (Cpu.initial p) s ∧ Returns srtfLoop (Srtf.initial p) r ∧
      (∀ i, s.isCompleted i = true ∧ r.isCompleted i = true ∧
        (s.p i).startTime = (r.p i).startTime ∧
        (s.p i).completionTime = (r.p i).completionTime) ∧
      s.totalTurnaroundTime = r.totalTurnaroundTime ∧
      ((∃ order : List (Fin n), order.Perm (List.finRange n) ∧
          backToBack p a order ≤ intMax) →
        ∃ total, s.totalTurnaroundTime = some total ∧
          ∀ order : List (Fin n), order.Perm (List.finRange n) →
            total ≤ backToBack p a order) := by
  obtain ⟨s, hs, hst, hso, hsdone⟩ := sjf_inOrder harrival hburst hmax hfit ha
  obtain ⟨r, hr, hrt, hro, hrdone⟩ := srtf_inOrder harrival hburst hmax hfit ha
  have hsrun := hso.final hst.traced hburst hsdone
  have hrrun := hro.final hrt.traced hburst hrdone
  refine ⟨s, r, hs, hr, fun i => ⟨hsrun.completed i, hrrun.completed i, ?_, ?_⟩, ?_,
    fun hfits => ⟨_, hsrun.exists_total hfits, fun _ => sum_le_backToBack p a⟩⟩
  · rw [hsrun.startTime, hrrun.startTime]
  · rw [hsrun.completionTime, hrrun.completionTime]
  · rw [hsrun.turnaround, hrrun.turnaround]

/-- Two processes with bursts of 5 and 2 that arrive at 3. -/
def together : Fin 2 → Process := inputProcesses (fun _ => Process.zero) ![(3, 5), (3, 2)]

theorem sameArrival_agree_together :
    ∃ (s : Cpu 2) (r : Srtf 2),
      Returns sjfLoop (Cpu.initial together) s ∧ Returns srtfLoop (Srtf.initial together) r ∧
      (∀ i, s.isCompleted i = true ∧ r.isCompleted i = true ∧
        (s.p i).startTime = (r.p i).startTime ∧
        (s.p i).completionTime = (r.p i).completionTime) ∧
      s.totalTurnaroundTime = r.totalTurnaroundTime ∧
      ∃ total, s.totalTurnaroundTime = some total ∧
        ∀ order : List (Fin 2), order.Perm (List.finRange 2) →
          total ≤ backToBack together 3 order := by
  obtain ⟨s, r, hs, hr, htimes, hsame, htotal⟩ := sameArrival_agree (p := together) (a := 3)
    (by decide) (by decide) (by decide) (by decide) (by unfold TimesFit; decide)
  exact ⟨s, r, hs, hr, htimes, hsame, htotal ⟨[0, 1], .refl _, by decide⟩⟩

/-- The total that they accumulate need not be there, although all times are. -/
theorem not_sameArrival_total : ¬ ∀ (n : Nat) (p : Fin n → Process) (a : Int), 0 ≤ a →
    (∀ i, (p i).arrivalTime = a) → (∀ i, 1 ≤ (p i).burstTime) →
    (∀ i, (p i).burstTime < intMax) → TimesFit p →
    ∃ (s : Cpu n) (r : Srtf n),
      Returns sjfLoop (Cpu.initial p) s ∧ Returns srtfLoop (Srtf.initial p) r ∧
      (∀ i, s.isCompleted i = true ∧ r.isCompleted i = true ∧
        (s.p i).startTime = (r.p i).startTime ∧
        (s.p i).completionTime = (r.p i).completionTime) ∧
      ∃ total, s.totalTurnaroundTime = some total ∧ r.totalTurnaroundTime = some total ∧
        ∀ order : List (Fin n), order.Perm (List.finRange n) →
          total ≤ backToBack p a order := by
  intro h
  obtain ⟨s, -, hs, -, -, total, heq, -⟩ := h 3 threeLong 0 (by decide) (by decide) (by decide)
    (by decide) (by unfold TimesFit; decide)
  obtain ⟨s', hs', hnone⟩ := sjf_threeLong
  rw [hs.unique hs', hnone] at heq
  cases heq

end OsInParts.Scheduling
