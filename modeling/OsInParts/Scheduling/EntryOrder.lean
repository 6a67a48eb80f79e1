import OsInParts.Lib.Dispatch
import OsInParts.Scheduling.Loops

/-!
# EntryOrder — `sjf` and `srtf` do not depend on the order of entry

Both loops are dispatchers in the sense of `Lib.Dispatch`: what they know of
each process is a board, and each turn waits or serves a best entry of it
(`sjf_turn`, `srtf_turn`), a whole burst in `sjf` and one unit in `srtf`. The
scans break ties by index, which only ever decides between processes with the
same entry; so two arrays with the same processes in another order keep
boards that are alike.
-/

namespace OsInParts.Scheduling

open Lib.Loop Lib.Dispatch

variable {n : Nat}

/-- What `int` can hold. -/
def InRange (a : Int) : Prop := intMin ≤ a ∧ a ≤ intMax

/-- The board of a loop, with what is left of each process. A start time that
has not been written by the loop is not shown. -/
def Cpu.board (s : Cpu n) (remaining : Fin n → Int) : Board (Fin n) (Option Int) where
  entries i :=
    { arrival := (s.p i).arrivalTime
      work := (s.p i).burstTime
      remaining := remaining i
      done := s.isCompleted i
      start :=
        if s.isCompleted i = true ∨ remaining i < (s.p i).burstTime then
          some (s.p i).startTime
        else none
      completion := if s.isCompleted i = true then some (s.p i).completionTime else none }
  now := s.currentTime
  count := s.completed
  turnaround := s.totalTurnaroundTime
  response := s.totalResponseTime

/-- `sjf` leaves all of a burst or nothing. -/
def Cpu.sjfBoard (s : Cpu n) : Board (Fin n) (Option Int) :=
  s.board fun i => if s.isCompleted i = true then 0 else (s.p i).burstTime

def Srtf.srtfBoard (s : Srtf n) : Board (Fin n) (Option Int) := s.toCpu.board s.burstRemaining

/-- What both loops rely on. -/
structure Sound (b : Board (Fin n) (Option Int)) : Prop where
  ordered : Ordered b
  max : ∀ i, (b.entries i).work < intMax

theorem Sound.turn {amount : Entry → Int} {b c : Board (Fin n) (Option Int)} (h : Sound b)
    (hturn : Turn addTotal amount InRange b c) (hamount : ∀ x : Entry, 1 ≤ x.work → 1 ≤ amount x) :
    Sound c := by
  refine ⟨hturn.ordered h.ordered hamount, fun i => ?_⟩
  rw [hturn.work_eq]
  exact h.max i

/-! ## The turns of both loops -/

theorem addInt_isSome {a b : Int} (h : InRange (a + b)) : addInt a b = some (a + b) :=
  addInt_eq_some.mpr ⟨rfl, h.1, h.2⟩

theorem addInt_inRange {a b c : Int} (h : addInt a b = some c) : c = a + b ∧ InRange (a + b) := by
  obtain ⟨rfl, h1, h2⟩ := addInt_eq_some.mp h
  exact ⟨rfl, h1, h2⟩

/-- The scan finds a best entry of the board, if any is eligible. -/
theorem scan_best {c : Candidates n} {b : Board (Fin n) (Option Int)}
    (hmax : ∀ i, c.Eligible i → c.key i < intMax)
    (heligible : ∀ i, b.Eligible i ↔ c.Eligible i)
    (harrival : ∀ i, (b.entries i).arrival = (c.p i).arrivalTime)
    (hkey : ∀ i, b.Eligible i → (b.entries i).remaining = c.key i) :
    (c.scan = some none ∧ ∀ i, ¬ b.Eligible i) ∨ ∃ k, c.scan = some (some k) ∧ b.Best k := by
  rcases Candidates.scan_spec (.of_lt hmax) with ⟨hscan, hnone⟩ | ⟨k, hscan, hk, hbest⟩
  · exact .inl ⟨hscan, fun i hi => hnone i ((heligible i).mp hi)⟩
  · have hk' := (heligible k).mpr hk
    refine .inr ⟨k, hscan, hk', fun i hi => ?_⟩
    rw [hkey k hk', hkey i hi, harrival, harrival]
    rcases hbest i ((heligible i).mp hi) with hlt | ⟨heq, hlt | ⟨harr, -⟩⟩
    · exact .inl hlt
    · exact .inr ⟨heq, hlt.le⟩
    · exact .inr ⟨heq, harr.le⟩

/-- A turn of a loop that waits or serves a best entry is a turn of the board,
and is there whenever the board has one. -/
theorem turn_of_choice {σ : Type*} {view : σ → Board (Fin n) (Option Int)} {amount : Entry → Int}
    {body : σ → Option σ} {s : σ} (h : Ordered (view s))
    (hchoice : (∀ i, ¬ (view s).Eligible i) ∧
        (∀ t, body s = some t → InRange ((view s).now + 1) ∧ view t = (view s).wait) ∧
        (InRange ((view s).now + 1) → ∃ t, body s = some t) ∨
      ∃ k, (view s).Best k ∧
        (∀ t, body s = some t → InRange ((view s).now + amount ((view s).entries k)) ∧
          view t = (view s).serve addTotal k (amount ((view s).entries k))) ∧
        (InRange ((view s).now + amount ((view s).entries k)) → ∃ t, body s = some t)) :
    (∀ t, body s = some t → Turn addTotal amount InRange (view s) (view t)) ∧
      ∀ c, Turn addTotal amount InRange (view s) c → ∃ t, body s = some t := by
  rcases hchoice with ⟨hidle, hbody, hexists⟩ | ⟨k, hk, hbody, hexists⟩
  · constructor
    · intro t ht
      obtain ⟨hrange, heq⟩ := hbody t ht
      rw [heq]
      exact .wait hidle hrange
    · intro c hc
      cases hc with
      | wait _ hrange => exact hexists hrange
      | @serve j hj => exact absurd hj.eligible (hidle j)
  · constructor
    · intro t ht
      obtain ⟨hrange, heq⟩ := hbody t ht
      rw [heq]
      exact .serve hk hrange
    · intro c hc
      cases hc with
      | wait hidle => exact absurd hk.eligible (hidle k)
      | @serve j hj hrange =>
          rw [h.best_unique hj hk] at hrange
          exact hexists hrange

theorem tick_eq {s t : Cpu n} (h : s.tick = some t) :
    InRange (s.currentTime + 1) ∧ t = { s with currentTime := s.currentTime + 1 } := by
  obtain ⟨now, hadd, rfl⟩ := Option.map_eq_some_iff.mp h
  obtain ⟨rfl, hrange⟩ := addInt_inRange hadd
  exact ⟨hrange, rfl⟩

theorem exists_tick {s : Cpu n} (h : InRange (s.currentTime + 1)) : ∃ t, s.tick = some t :=
  ⟨_, by rw [Cpu.tick, addInt_isSome h]; rfl⟩

/-! ## `sjf` -/

/-- The block of `sjf` on the board. -/
theorem runBurst_board {s t : Cpu n} {k : Fin n} (hk : s.isCompleted k = false)
    (h : s.runBurst k = some t) :
    InRange (s.currentTime + (s.p k).burstTime) ∧
      t.sjfBoard = s.sjfBoard.serve addTotal k (s.p k).burstTime := by
  obtain ⟨c, hc, rfl⟩ := Option.map_eq_some_iff.mp h
  obtain ⟨now, hadd, rfl⟩ := Option.map_eq_some_iff.mp hc
  simp only [Cpu.setProcess, Function.update_self] at hadd
  obtain ⟨rfl, hrange⟩ := addInt_inRange hadd
  refine ⟨hrange, ?_⟩
  ext1
  · funext i
    by_cases hi : i = k
    · subst hi
      simp [Cpu.sjfBoard, Cpu.board, Board.serve, Entry.serve, Cpu.complete, Cpu.setProcess, hk]
    · simp [Cpu.sjfBoard, Cpu.board, Board.serve, Cpu.complete, Cpu.setProcess, hi]
  all_goals
    simp [Cpu.sjfBoard, Cpu.board, Board.serve, Entry.serve, Cpu.complete, Cpu.setProcess, hk]

theorem exists_runBurst {s : Cpu n} {k : Fin n}
    (h : InRange (s.currentTime + (s.p k).burstTime)) : ∃ t, s.runBurst k = some t := by
  rw [Cpu.runBurst, Cpu.execute]
  simp only [Cpu.setProcess, Function.update_self, addInt_isSome h]
  exact ⟨_, rfl⟩

/-- **`sjf` is a dispatcher** that serves whole bursts. -/
theorem sjf_turn {s : Cpu n} (h : Sound s.sjfBoard) :
    (∀ t, sjfBody s = some t → Turn addTotal Entry.work InRange s.sjfBoard t.sjfBoard) ∧
      ∀ c, Turn addTotal Entry.work InRange s.sjfBoard c → ∃ t, sjfBody s = some t := by
  apply turn_of_choice h.ordered
  unfold sjfBody
  rcases scan_best (c := ⟨s.p, fun i => (s.p i).burstTime, s.isCompleted, s.currentTime⟩)
    (b := s.sjfBoard) (fun i _ => h.max i) (fun _ => Iff.rfl) (fun _ => rfl)
    (fun i hi => by
      have hpending : s.isCompleted i = false := hi.2
      simp [Cpu.sjfBoard, Cpu.board, hpending]) with ⟨hscan, hidle⟩ | ⟨k, hscan, hk⟩
  · rw [hscan]
    refine .inl ⟨hidle, fun t ht => ?_, exists_tick⟩
    obtain ⟨hrange, rfl⟩ := tick_eq ht
    exact ⟨hrange, rfl⟩
  · rw [hscan]
    exact .inr ⟨k, hk, fun t ht => runBurst_board hk.eligible.2 ht, exists_runBurst⟩

/-! ## `srtf` -/

/-- The start time that a process has after it has been served at the current
time. -/
def Srtf.startOf (s : Srtf n) (k : Fin n) : Int :=
  if s.burstRemaining k = (s.p k).burstTime then s.currentTime else (s.p k).startTime

theorem mark_start (s : Srtf n) (k : Fin n) :
    (if s.burstRemaining k = (s.p k).burstTime then
        s.setProcess k { s.p k with startTime := s.currentTime }
      else s.toCpu) = s.setProcess k { s.p k with startTime := s.startOf k } := by
  unfold Srtf.startOf
  split
  · rfl
  · rw [Cpu.setProcess, Function.update_eq_self]

/-- The block of `srtf` on the board. -/
theorem runUnit_board {s t : Srtf n} {k : Fin n} (hk : s.isCompleted k = false)
    (hle : s.burstRemaining k ≤ (s.p k).burstTime) (h : s.runUnit k = some t) :
    InRange (s.currentTime + 1) ∧ t.srtfBoard = s.srtfBoard.serve addTotal k 1 := by
  rw [Srtf.runUnit, mark_start] at h
  obtain ⟨c, hc, rfl⟩ := Option.map_eq_some_iff.mp h
  obtain ⟨now, hadd, rfl⟩ := Option.map_eq_some_iff.mp hc
  obtain ⟨rfl, hrange⟩ := addInt_inRange hadd
  clear h hc hadd
  refine ⟨hrange, ?_⟩
  have hstart : (if s.burstRemaining k = (s.p k).burstTime then some s.currentTime
      else if s.burstRemaining k < (s.p k).burstTime then some (s.p k).startTime else none)
      = some (s.startOf k) := by
    unfold Srtf.startOf
    split
    · rfl
    · rw [if_pos (by omega)]
  have hless : s.burstRemaining k - 1 < (s.p k).burstTime := by omega
  by_cases hlast : s.burstRemaining k - 1 = 0
  · ext1
    · funext i
      by_cases hi : i = k
      · subst hi
        simp [Srtf.srtfBoard, Cpu.board, Board.serve, Entry.serve, Cpu.complete,
          Cpu.setProcess, hk, hlast, hstart]
      · simp [Srtf.srtfBoard, Cpu.board, Board.serve, Cpu.complete, Cpu.setProcess, hlast, hi]
    all_goals
      simp [Srtf.srtfBoard, Cpu.board, Board.serve, Entry.serve, Cpu.complete,
          Cpu.setProcess, hk, hlast, hstart]
  · ext1
    · funext i
      by_cases hi : i = k
      · subst hi
        simp [Srtf.srtfBoard, Cpu.board, Board.serve, Entry.serve, Cpu.setProcess, hk, hlast,
          hstart, hless]
      · simp [Srtf.srtfBoard, Cpu.board, Board.serve, Cpu.setProcess, hlast, hi]
    all_goals
      simp [Srtf.srtfBoard, Cpu.board, Board.serve, Entry.serve, Cpu.setProcess, hlast]

theorem exists_runUnit {s : Srtf n} {k : Fin n} (h : InRange (s.currentTime + 1)) :
    ∃ t, s.runUnit k = some t := by
  rw [Srtf.runUnit, mark_start]
  simp only [Cpu.execute, Cpu.setProcess, addInt_isSome h]
  exact ⟨_, rfl⟩

/-- **`srtf` is a dispatcher** that serves one unit. -/
theorem srtf_turn {s : Srtf n} (h : Sound s.srtfBoard) :
    (∀ t, srtfBody s = some t → Turn addTotal (fun _ => 1) InRange s.srtfBoard t.srtfBoard) ∧
      ∀ c, Turn addTotal (fun _ => 1) InRange s.srtfBoard c → ∃ t, srtfBody s = some t := by
  have hle : ∀ i, s.burstRemaining i ≤ (s.p i).burstTime := h.ordered.le
  apply turn_of_choice h.ordered
  unfold srtfBody
  rcases scan_best (c := ⟨s.p, s.burstRemaining, s.isCompleted, s.currentTime⟩)
    (b := s.srtfBoard) (fun i _ => (hle i).trans_lt (h.max i)) (fun _ => Iff.rfl)
    (fun _ => rfl) (fun _ _ => rfl) with ⟨hscan, hidle⟩ | ⟨k, hscan, hk⟩
  · rw [hscan]
    refine .inl ⟨hidle, fun t ht => ?_, fun hrange => ?_⟩
    · obtain ⟨cpu, hcpu, rfl⟩ := Option.map_eq_some_iff.mp ht
      obtain ⟨hrange, rfl⟩ := tick_eq hcpu
      exact ⟨hrange, rfl⟩
    · obtain ⟨cpu, hcpu⟩ := exists_tick hrange
      exact ⟨_, Option.map_eq_some_iff.mpr ⟨cpu, hcpu, rfl⟩⟩
  · rw [hscan]
    exact .inr ⟨k, hk, fun t ht => runUnit_board hk.eligible.2 (hle k) ht, exists_runUnit⟩

/-! ## Two orders of entry -/

/-- What a scheduler ends with: the arrival, burst, start and completion times
of all processes, in no order. -/
def results (p : Fin n → Process) : Multiset (Int × Int × Int × Int) :=
  Finset.univ.val.map fun i =>
    ((p i).arrivalTime, (p i).burstTime, (p i).startTime, (p i).completionTime)

/-- The same results, and the same sums for the printed averages. -/
structure SameResults (s s' : Cpu n) : Prop where
  results : results s'.p = results s.p
  turnaround : s'.totalTurnaroundTime = s.totalTurnaroundTime
  response : s'.totalResponseTime = s.totalResponseTime

/-- Two runs of a dispatcher from boards that are alike. -/
theorem runs_alike {σ : Type*} {view : σ → Board (Fin n) (Option Int)} {amount : Entry → Int}
    {c : σ → Bool} {body : σ → Option σ} (hamount : ∀ x : Entry, 1 ≤ x.work → 1 ≤ amount x)
    (hcond : ∀ s, c s = ((view s).count != n))
    (hturn : ∀ s, Sound (view s) →
      (∀ t, body s = some t → Turn addTotal amount InRange (view s) (view t)) ∧
        ∀ b, Turn addTotal amount InRange (view s) b → ∃ t, body s = some t)
    {s s' r : σ} (hs : Sound (view s)) (hs' : Sound (view s')) (halike : Alike (view s) (view s'))
    (h : Returns (whileBody c body) s r) :
    ∃ r', Returns (whileBody c body) s' r' ∧ Alike (view r) (view r') ∧ Sound (view r) ∧
      Sound (view r') ∧ (view r).count = n := by
  have hsimulate : ∃ r', Returns (whileBody c body) s' r' ∧
      (Sound (view r) ∧ Sound (view r') ∧ Alike (view r) (view r')) ∧ c r = false := by
    refine h.while_simulate
      (fun s s' => Sound (view s) ∧ Sound (view s') ∧ Alike (view s) (view s')) ?_ ?_
      ⟨hs, hs', halike⟩
    · rintro s s' ⟨-, -, e, he⟩
      rw [hcond, hcond, he]
      rfl
    · rintro s s' t ⟨hs, hs', halike⟩ ht
      have hfirst := (hturn s hs).1 t ht
      obtain ⟨b, hb⟩ := hfirst.exists_alike halike
      obtain ⟨t', ht'⟩ := (hturn s' hs').2 b hb
      have hsecond := (hturn s' hs').1 t' ht'
      exact ⟨t', ht', hs.turn hfirst hamount, hs'.turn hsecond hamount,
        hfirst.alike hs.ordered halike hsecond⟩
  obtain ⟨r', hr', ⟨hsound, hsound', halike'⟩, hdone⟩ := hsimulate
  refine ⟨r', hr', halike', hsound, hsound', ?_⟩
  rw [hcond] at hdone
  simpa using hdone

theorem sameResults_of_alike {s s' : Cpu n} {remaining remaining' : Fin n → Int}
    (h : Ordered (s.board remaining)) (h' : Ordered (s'.board remaining'))
    (halike : Alike (s.board remaining) (s'.board remaining')) (hdone : s.completed = n) :
    SameResults s s' := by
  obtain ⟨e, he⟩ := halike
  have hcount : s'.completed = n := (congrArg Board.count he).trans hdone
  have hall : ∀ i, s.isCompleted i = true :=
    h.all_done (hdone.trans (Fintype.card_fin n).symm)
  have hall' : ∀ i, s'.isCompleted i = true :=
    h'.all_done (hcount.trans (Fintype.card_fin n).symm)
  have hentry : ∀ i, (s'.board remaining').entries i = (s.board remaining).entries (e i) := by
    intro i
    rw [he]
    rfl
  refine ⟨?_, congrArg Board.turnaround he, congrArg Board.response he⟩
  have htimes : ∀ i, ((s'.p i).arrivalTime, (s'.p i).burstTime, (s'.p i).startTime,
        (s'.p i).completionTime)
      = ((s.p (e i)).arrivalTime, (s.p (e i)).burstTime, (s.p (e i)).startTime,
        (s.p (e i)).completionTime) := by
    intro i
    have heq := hentry i
    simp only [Cpu.board, hall, hall', true_or, if_true, Entry.mk.injEq, Option.some.injEq] at heq
    obtain ⟨h1, h2, -, -, h3, h4⟩ := heq
    rw [h1, h2, h3, h4]
  have hmap : results s'.p = ((Finset.univ : Finset (Fin n)).val.map e).map fun i =>
      ((s.p i).arrivalTime, (s.p i).burstTime, (s.p i).startTime, (s.p i).completionTime) := by
    rw [Multiset.map_map]
    exact Multiset.map_congr rfl fun i _ => htimes i
  rw [hmap, Multiset.map_univ_val_equiv]
  rfl

/-- The board of both loops before the first turn. -/
def freshBoard (p : Fin n → Process) : Board (Fin n) (Option Int) where
  entries i :=
    { arrival := (p i).arrivalTime, work := (p i).burstTime, remaining := (p i).burstTime,
      done := false, start := none, completion := none }
  now := 0
  count := 0
  turnaround := some 0
  response := some 0

theorem sjfBoard_initial (p : Fin n → Process) : (Cpu.initial p).sjfBoard = freshBoard p := by
  simp [Cpu.sjfBoard, Cpu.board, Cpu.initial, freshBoard]

theorem srtfBoard_initial (p : Fin n → Process) : (Srtf.initial p).srtfBoard = freshBoard p := by
  simp [Srtf.srtfBoard, Srtf.initial, Cpu.board, Cpu.initial, freshBoard]

theorem sound_fresh {p : Fin n → Process} (hburst : ∀ i, 1 ≤ (p i).burstTime)
    (hmax : ∀ i, (p i).burstTime < intMax) : Sound (freshBoard p) where
  ordered := by
    refine ⟨hburst, fun _ => le_rfl, fun _ _ _ => rfl, fun _ _ => rfl, ?_, ?_⟩
    · intro i j _ _ _ _ hlt
      exact absurd hlt (lt_irrefl _)
    · simp [freshBoard]
  max := hmax

/-- **The order of entry does not matter.** For processes with arrival times
from 0 on and burst times from 1 up to below `INT_MAX`, and the same
processes in any other order, `sjf` ends with the same times and totals for
both, and so does `srtf`; and they do end if the times are in the range of
`int`. -/
theorem entry_order_irrelevant {p p' : Fin n → Process}
    (harrival : ∀ i, 0 ≤ (p i).arrivalTime) (hburst : ∀ i, 1 ≤ (p i).burstTime)
    (hmax : ∀ i, (p i).burstTime < intMax) (e : Equiv.Perm (Fin n))
    (hperm : ∀ i, (p' i).arrivalTime = (p (e i)).arrivalTime ∧
      (p' i).burstTime = (p (e i)).burstTime) :
    (∀ s, Returns sjfLoop (Cpu.initial p) s →
      ∃ s', Returns sjfLoop (Cpu.initial p') s' ∧ SameResults s s') ∧
    (∀ s, Returns srtfLoop (Srtf.initial p) s →
      ∃ s', Returns srtfLoop (Srtf.initial p') s' ∧ SameResults s.toCpu s'.toCpu) ∧
    (TimesFit p → (∃ s, Returns sjfLoop (Cpu.initial p) s) ∧
      ∃ s, Returns srtfLoop (Srtf.initial p) s) := by
  have hsound := sound_fresh hburst hmax
  have hsound' : Sound (freshBoard p') :=
    sound_fresh (fun i => (hperm i).2 ▸ hburst (e i)) fun i => (hperm i).2 ▸ hmax (e i)
  have halike : Alike (freshBoard p) (freshBoard p') := by
    refine ⟨e, ?_⟩
    simp only [freshBoard, Board.rearrange, hperm]
  refine ⟨fun s hs => ?_, fun s hs => ?_, fun hfit => ?_⟩
  · rw [← sjfBoard_initial] at hsound hsound' halike
    rw [← sjfBoard_initial] at halike
    obtain ⟨s', hs', hend, h, h', hdone⟩ := runs_alike (fun x hx => hx) (fun _ => rfl)
      (fun _ => sjf_turn) hsound hsound' halike hs
    exact ⟨s', hs', sameResults_of_alike h.ordered h'.ordered hend hdone⟩
  · rw [← srtfBoard_initial] at hsound hsound' halike
    rw [← srtfBoard_initial] at halike
    obtain ⟨s', hs', hend, h, h', hdone⟩ := runs_alike (fun _ _ => le_rfl) (fun _ => rfl)
      (fun _ => srtf_turn) hsound hsound' halike hs
    exact ⟨s', hs', sameResults_of_alike h.ordered h'.ordered hend hdone⟩
  · have hv : Valid p := ⟨harrival, hburst⟩
    obtain ⟨j, -, -, hj, -⟩ := sjf_returns hv hfit hmax
    obtain ⟨s, -, -, hs, -⟩ := srtf_returns hv hfit hmax (fun _ _ _ => True) trivial
      fun _ _ _ _ _ _ _ _ _ _ => trivial
    exact ⟨⟨j, hj⟩, s, hs⟩

/-- Two processes that arrive together with the same burst, and a shorter one
that preempts them. -/
def threeTied : Fin 3 → Process :=
  inputProcesses (fun _ => Process.zero) ![(0, 4), (0, 4), (1, 2)]

/-- The same processes, the short one entered first. -/
def threeTiedAgain : Fin 3 → Process :=
  inputProcesses (fun _ => Process.zero) ![(1, 2), (0, 4), (0, 4)]

theorem entry_order_irrelevant_threeTied :
    ∃ s s', Returns srtfLoop (Srtf.initial threeTied) s ∧
      Returns srtfLoop (Srtf.initial threeTiedAgain) s' ∧ SameResults s.toCpu s'.toCpu := by
  have hperm : ∀ i, (threeTiedAgain i).arrivalTime = (threeTied (Equiv.swap 0 2 i)).arrivalTime ∧
      (threeTiedAgain i).burstTime = (threeTied (Equiv.swap 0 2 i)).burstTime := by decide
  obtain ⟨-, hsrtf, hreturns⟩ := entry_order_irrelevant (p := threeTied) (by decide)
    (by decide) (by decide) (Equiv.swap 0 2) hperm
  obtain ⟨-, s, hs⟩ := hreturns (by unfold TimesFit; decide)
  obtain ⟨s', hs', hsame⟩ := hsrtf s hs
  exact ⟨s, s', hs, hs', hsame⟩

end OsInParts.Scheduling
