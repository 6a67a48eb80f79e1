import Mathlib.Data.List.Range
import OsInParts.Threads.ThreadPool

/-!
# ThreadPoolSafety — when every task is executed

`Inv` holds in every reachable state, whatever the ring does: with `d` tasks
taken and `a` added, `front` is `d` and `rear` is `a` modulo the size, the
first `a` slots hold the tasks in order, and each task taken is in a worker's
hands or written.

The ring looks empty exactly if `d = a` or if it is full, `d = 0` and
`a = queue_size`. So a settled pool has executed every task unless the last
`add_task` ran before any task was taken (`no_lost_task`); with a single
cell there is no other order (`lost_task`).
-/

namespace OsInParts.ThreadPool

open Lib Lib.Threads

variable {R : Type*} {W : Nat} {x : Input R}

/-- How many tasks are in the ring or have been. -/
def Input.added (x : Input R) : Main → Nat
  | .lock i j | .enqueue i j => i * x.p + j
  | .signal i j | .unlock i j => i * x.p + j + 1
  | .sleep => x.queueSize

/-- The `k`-th task `main` adds. -/
def Input.taskAt (x : Input R) (k : Nat) : Task := { row := k / x.p, col := k % x.p }

/-- `main`'s loop variables are in range. -/
def Main.Placed (x : Input R) : Main → Prop
  | .lock i j | .enqueue i j | .signal i j | .unlock i j => i < x.m ∧ j < x.p
  | .sleep => True

def Main.inside : Main → Bool
  | .enqueue _ _ | .signal _ _ | .unlock _ _ => true
  | _ => false

def Main.atSignal : Main → Bool
  | .signal _ _ => true
  | _ => false

def Worker.inside : Worker R → Bool
  | .test | .take | .unlock _ => true
  | _ => false

/-- Between `pthread_mutex_lock` and `pthread_mutex_unlock`. -/
def State.inside (s : State R W) : Owner W → Bool
  | .main => s.main.inside
  | .worker w => (s.workers w).inside

/-- The worker has taken the task and not yet written its cell. -/
def Worker.Holds (task : Task) : Worker R → Prop
  | .unlock t | .compute t _ _ => t = task
  | _ => False

/-! ## The order of the cells -/

theorem taskAt_cell {i j : Nat} (hj : j < x.p) :
    x.taskAt (i * x.p + j) = { row := i, col := j } := by
  have hp : 0 < x.p := by omega
  rw [Input.taskAt, Nat.mul_comm, Nat.mul_add_div hp, Nat.div_eq_of_lt hj,
    Nat.mul_add_mod, Nat.mod_eq_of_lt hj, Nat.add_zero]

theorem cell_lt {i j : Nat} (hi : i < x.m) (hj : j < x.p) : i * x.p + j < x.queueSize :=
  calc i * x.p + j < i * x.p + x.p := by omega
    _ = (i + 1) * x.p := (Nat.succ_mul i x.p).symm
    _ ≤ x.m * x.p := Nat.mul_le_mul_right x.p hi

theorem added_le {main : Main} (h : main.Placed x) : x.added main ≤ x.queueSize := by
  cases main with
  | lock i j => exact (cell_lt h.1 h.2).le
  | enqueue i j => exact (cell_lt h.1 h.2).le
  | signal i j => exact cell_lt h.1 h.2
  | unlock i j => exact cell_lt h.1 h.2
  | sleep => exact le_rfl

theorem nextCell_placed {i j : Nat} (hi : i < x.m) (hj : j < x.p) :
    (x.nextCell i j).Placed x := by
  unfold Input.nextCell
  split
  · exact ⟨hi, ‹_›⟩
  · split
    · exact ⟨‹_›, by omega⟩
    · exact trivial

/-- The loop headers go through the cells in order. -/
theorem added_nextCell {i j : Nat} (hi : i < x.m) (hj : j < x.p) :
    x.added (x.nextCell i j) = i * x.p + j + 1 := by
  unfold Input.nextCell
  split
  · rfl
  · have hlast : j + 1 = x.p := by omega
    have hrow : (i + 1) * x.p = i * x.p + j + 1 := by rw [Nat.succ_mul]; omega
    split
    · exact hrow
    · have hm : x.m = i + 1 := by omega
      rw [Input.added, Input.queueSize, hm]
      exact hrow

theorem nextCell_inside (i j : Nat) : (x.nextCell i j).inside = false := by
  unfold Input.nextCell
  repeat' split
  all_goals rfl

/-! ## The invariant -/

/-- **What holds in every reachable state.** -/
structure Inv (x : Input R) (s : State R W) : Prop where
  placed : s.main.Placed x
  taken : s.taken = (List.range s.taken.length).map x.taskAt
  taken_le : s.taken.length ≤ x.added s.main
  front : s.front = s.taken.length % x.queueSize
  rear : s.rear = x.added s.main % x.queueSize
  slots : ∀ k < x.added s.main, s.taskQueue k = some (x.taskAt k)
  /-- no task is lost on its way from the ring to its cell -/
  kept : ∀ task ∈ s.taken, (s.cThreadpool task.row task.col).isSome ∨
    ∃ w, (s.workers w).Holds task
  held : ∀ w task, (s.workers w).Holds task → task ∈ s.taken
  written : ∀ row col, (s.cThreadpool row col).isSome →
    ({ row := row, col := col } : Task) ∈ s.taken
  owner : ∀ o, s.inside o = true ↔ s.mutex = some o
  nonempty : ∀ w, s.workers w = .take → s.front ≠ s.rear
  /-- no wake-up is lost -/
  awake : s.front ≠ s.rear → s.main.atSignal = true ∨
    ∃ w, (s.workers w).isWaiting = false
  defined : ∀ w, s.workers w ≠ .undefined

theorem added_initial (x : Input R) (W : Nat) : x.added (initial x W).main = 0 := by
  unfold initial
  dsimp only
  split
  · rw [Input.added, Nat.zero_mul]
  · rename_i hempty
    rw [Input.added, Input.queueSize, Nat.mul_eq_zero]
    omega

theorem inv_initial (x : Input R) (W : Nat) : Inv x (initial x W) := by
  have hadded := added_initial x W
  have hinside : (initial x W).main.inside = false := by
    unfold initial
    dsimp only
    split <;> rfl
  refine ⟨?_, rfl, Nat.zero_le _, ?_, ?_, ?_, ?_, ?_, ?_, ?_, ?_, ?_, ?_⟩
  · unfold initial
    dsimp only
    split
    · assumption
    · exact trivial
  · exact (Nat.zero_mod _).symm
  · rw [hadded]
    exact (Nat.zero_mod _).symm
  · intro k hk
    rw [hadded] at hk
    exact absurd hk (Nat.not_lt_zero k)
  · intro task h
    cases h
  · intro w task h
    cases h
  · intro row col h
    cases h
  · intro o
    cases o with
    | main =>
        rw [State.inside, hinside]
        exact ⟨fun h => (by cases h), fun h => (by cases h)⟩
    | worker w => exact ⟨fun h => (by cases h), fun h => (by cases h)⟩
  · intro w h
    cases h
  · exact fun h => absurd rfl h
  · intro w h
    cases h

/-- A worker moves and at most the mutex changes with it. -/
theorem Inv.moveWorker {s : State R W} (h : Inv x s) {w : Fin W} {worker : Worker R}
    (mutex : Option (Owner W))
    (hlock : Locking (.worker w) (s.workers w).inside s.mutex worker.inside mutex)
    (hkept : ∀ task, (s.workers w).Holds task →
      worker.Holds task ∨ (s.cThreadpool task.row task.col).isSome)
    (hheld : ∀ task, worker.Holds task → (s.workers w).Holds task)
    (htake : worker = .take → s.front ≠ s.rear)
    (hawake : worker.isWaiting = true → s.front = s.rear)
    (hdefined : worker ≠ .undefined) :
    Inv x ({ s with mutex := mutex }.setWorker w worker) := by
  have hself : Function.update s.workers w worker w = worker := Function.update_self ..
  have hother : ∀ w' ≠ w, Function.update s.workers w worker w' = s.workers w' :=
    fun w' hw => Function.update_of_ne hw ..
  refine ⟨h.placed, h.taken, h.taken_le, h.front, h.rear, h.slots, fun task ht => ?_,
    fun w' task hw' => ?_, h.written, ?_, fun w' hw' => ?_, fun hne => ?_, fun w' => ?_⟩
  · rcases h.kept task ht with hsome | ⟨w', hw'⟩
    · exact .inl hsome
    · by_cases hw : w' = w
      · subst hw
        rcases hkept task hw' with hold | hsome
        · exact .inr ⟨w', by simpa only [State.setWorker, hself] using hold⟩
        · exact .inl hsome
      · exact .inr ⟨w', by simpa only [State.setWorker, hother w' hw] using hw'⟩
  · simp only [State.setWorker] at hw'
    by_cases hw : w' = w
    · subst hw
      rw [hself] at hw'
      exact h.held w' task (hheld task hw')
    · rw [hother w' hw] at hw'
      exact h.held w' task hw'
  · refine Locking.owner (o := .worker w) (f := s.inside) ?_ (fun o ho => ?_) h.owner
    · simpa only [State.inside, State.setWorker, hself] using hlock
    · cases o with
      | main => rfl
      | worker w' =>
          have hw : w' ≠ w := fun hw => ho (congrArg Owner.worker hw)
          simp only [State.inside, State.setWorker, hother w' hw]
  · simp only [State.setWorker] at hw'
    by_cases hw : w' = w
    · subst hw
      exact htake (hself ▸ hw')
    · exact h.nonempty w' (hother w' hw ▸ hw')
  · rcases h.awake hne with hsig | ⟨w', hw'⟩
    · exact .inl hsig
    · by_cases hw : w' = w
      · subst hw
        refine .inr ⟨w', ?_⟩
        simp only [State.setWorker, hself]
        exact Bool.eq_false_iff.mpr fun hwait => hne (hawake hwait)
      · exact .inr ⟨w', by simpa only [State.setWorker, hother w' hw] using hw'⟩
  · simp only [State.setWorker]
    by_cases hw : w' = w
    · subst hw
      rw [hself]
      exact hdefined
    · rw [hother w' hw]
      exact h.defined w'

/-- A waiter leaves `pthread_cond_wait`, signalled or not. -/
theorem Inv.wake {s : State R W} (h : Inv x s) {w : Fin W}
    (hwait : (s.workers w).isWaiting = true) : Inv x (s.setWorker w .lock) := by
  refine h.moveWorker s.mutex ?_ (fun task hold => ?_) (fun _ h => by cases h)
    (fun h => by cases h) (fun h => by cases h) (fun h => by cases h)
  · cases hw : s.workers w <;> rw [hw] at hwait <;> first | exact .outside _ | cases hwait
  · cases hw : s.workers w <;> rw [hw] at hwait hold <;> first | cases hwait; done | cases hold

/-- `main` moves and leaves the ring alone. -/
theorem Inv.moveMain {s : State R W} (h : Inv x s) (main : Main)
    (mutex : Option (Owner W)) (hplaced : main.Placed x)
    (hadded : x.added main = x.added s.main)
    (hlock : Locking .main s.main.inside s.mutex main.inside mutex)
    (hawake : s.main.atSignal = true → ∃ w, (s.workers w).isWaiting = false) :
    Inv x { s with mutex := mutex, main := main } := by
  refine ⟨hplaced, h.taken, ?_, h.front, ?_, ?_, h.kept, h.held, h.written, ?_, h.nonempty,
    fun hne => ?_, h.defined⟩
  · dsimp only
    rw [hadded]
    exact h.taken_le
  · dsimp only
    rw [hadded]
    exact h.rear
  · dsimp only
    rw [hadded]
    exact h.slots
  · refine Locking.owner (o := .main) (f := s.inside) hlock (fun o ho => ?_) h.owner
    cases o with
    | main => exact absurd rfl ho
    | worker w => rfl
  · rcases h.awake hne with hsig | hsome
    · exact .inr (hawake hsig)
    · exact .inr hsome

/-- A task goes into the slot at `rear`, which no task has been in. -/
theorem Inv.enqueue {s : State R W} (h : Inv x s) {i j : Nat}
    (hmain : s.main = .enqueue i j) :
    Inv x { s with
        taskQueue := Function.update s.taskQueue s.rear (some { row := i, col := j })
        rear := (s.rear + 1) % x.queueSize
        main := .signal i j } := by
  have hplaced := h.placed
  rw [hmain] at hplaced
  have hlt := cell_lt hplaced.1 hplaced.2
  have hadded : x.added s.main = i * x.p + j := by rw [hmain]; rfl
  have hrear : s.rear = i * x.p + j := by
    rw [h.rear, hadded, Nat.mod_eq_of_lt hlt]
  have hinside : s.main.inside = true := by rw [hmain]; rfl
  refine ⟨hplaced, h.taken, ?_, h.front, ?_, fun k hk => ?_, h.kept, h.held, h.written,
    fun o => ?_, fun w hw => ?_, fun _ => .inl rfl, h.defined⟩
  · have := h.taken_le
    show s.taken.length ≤ i * x.p + j + 1
    omega
  · show (s.rear + 1) % x.queueSize = _
    rw [hrear]
    rfl
  · have hk' : k < i * x.p + j + 1 := hk
    show Function.update s.taskQueue s.rear _ k = _
    rw [hrear]
    by_cases hlast : k = i * x.p + j
    · subst hlast
      rw [Function.update_self, taskAt_cell hplaced.2]
    · rw [Function.update_of_ne hlast]
      exact h.slots k (by omega)
  · have hown := h.owner o
    cases o with
    | main => exact ⟨fun _ => (h.owner .main).mp hinside, fun _ => rfl⟩
    | worker w => exact hown
  · -- `main` is inside, so no worker is between its test and its take
    have hw' := (h.owner (.worker w)).mp (by rw [State.inside, hw]; rfl)
    have hm := (h.owner .main).mp hinside
    rw [hw'] at hm
    cases hm

theorem addTask_inv {s s' : State R W} {woken : Option (Fin W)} (hW : 1 ≤ W)
    (h : Inv x s) (hs : addTask x woken s = some s') : Inv x s' := by
  have hplaced := h.placed
  unfold addTask at hs
  split at hs
  case h_1 i j hmain =>
    split at hs <;> cases hs
    rename_i hfree
    rw [hmain] at hplaced
    refine h.moveMain _ _ hplaced (by rw [hmain]; rfl) ?_ (fun hsig => ?_)
    · rw [hmain, hfree]
      exact .lock
    · rw [hmain] at hsig
      cases hsig
  case h_2 i j hmain =>
    cases hs
    exact h.enqueue hmain
  case h_3 i j hmain =>
    rw [hmain] at hplaced
    split at hs
    · split at hs <;> cases hs
      rename_i hnone
      refine h.moveMain _ _ hplaced (by rw [hmain]; rfl) ?_ (fun _ => ⟨⟨0, hW⟩, hnone _⟩)
      rw [hmain]
      exact .keep _
    · rename_i w
      split at hs <;> cases hs
      rename_i hwait
      refine (h.wake hwait).moveMain (.unlock i j) s.mutex hplaced
        (by simp only [State.setWorker, hmain]; rfl) ?_ (fun _ => ⟨w, ?_⟩)
      · simp only [State.setWorker, hmain]
        exact .keep _
      · simp only [State.setWorker, Function.update_self, Worker.isWaiting]
  case h_4 i j hmain =>
    cases hs
    rw [hmain] at hplaced
    refine h.moveMain _ _ (nextCell_placed hplaced.1 hplaced.2) ?_ ?_ (fun hsig => ?_)
    · rw [added_nextCell hplaced.1 hplaced.2, hmain]
      rfl
    · rw [nextCell_inside, hmain]
      exact .unlock _
    · rw [hmain] at hsig
      cases hsig
  case h_5 => cases hs

/-- Only `enqueue` adds a task. -/
theorem addTask_added {s s' : State R W} {woken : Option (Fin W)} (h : Inv x s)
    (hs : addTask x woken s = some s') (hne : ∀ i j, s.main ≠ .enqueue i j) :
    x.added s'.main = x.added s.main ∧ s'.taken = s.taken := by
  have hplaced := h.placed
  unfold addTask at hs
  split at hs
  case h_1 i j hmain =>
    split at hs <;> cases hs
    rw [hmain]
    exact ⟨rfl, rfl⟩
  case h_2 i j hmain => exact absurd hmain (hne i j)
  case h_3 i j hmain =>
    rw [hmain]
    split at hs <;> split at hs <;> cases hs <;> exact ⟨rfl, rfl⟩
  case h_4 i j hmain =>
    cases hs
    rw [hmain] at hplaced
    refine ⟨?_, rfl⟩
    rw [added_nextCell hplaced.1 hplaced.2, hmain]
    rfl
  case h_5 => cases hs

/-- A worker past its test finds the oldest task that is left. -/
theorem Inv.take_lt {s : State R W} (h : Inv x s) {w : Fin W}
    (hw : s.workers w = .take) : s.taken.length < x.added s.main := by
  have hne := h.nonempty w hw
  rw [h.front, h.rear] at hne
  exact lt_of_le_of_ne h.taken_le fun heq => hne (by rw [heq])

theorem Inv.front_eq {s : State R W} (h : Inv x s)
    (hlt : s.taken.length < x.added s.main) :
    s.front = s.taken.length ∧ s.taskQueue s.front = some (x.taskAt s.taken.length) := by
  have hfront : s.front = s.taken.length := by
    rw [h.front]
    exact Nat.mod_eq_of_lt (hlt.trans_le (added_le h.placed))
  exact ⟨hfront, by rw [hfront]; exact h.slots _ hlt⟩

/-- A worker takes the task at `front`. -/
theorem Inv.take {s : State R W} (h : Inv x s) {w : Fin W} {task : Task}
    (hw : s.workers w = .take) (htask : s.taskQueue s.front = some task) :
    Inv x ({ s with
        front := (s.front + 1) % x.queueSize
        taken := s.taken ++ [task] }.setWorker w (.unlock task)) := by
  have hlt := h.take_lt hw
  obtain ⟨hfront, hslot⟩ := h.front_eq hlt
  have htaskAt : task = x.taskAt s.taken.length := by
    rw [hslot] at htask
    exact (Option.some.inj htask).symm
  have hin : (s.workers w).inside = true := by rw [hw]; rfl
  have hself : Function.update s.workers w (.unlock task) w = .unlock task :=
    Function.update_self ..
  have hother : ∀ w' ≠ w, Function.update s.workers w (.unlock task) w' = s.workers w' :=
    fun w' hw' => Function.update_of_ne hw' ..
  refine ⟨h.placed, ?_, ?_, ?_, h.rear, h.slots, fun t ht => ?_, fun w' t hw' => ?_,
    fun row col hsome => List.mem_append_left _ (h.written row col hsome), ?_,
    fun w' hw' => ?_, fun _ => .inr ⟨w, ?_⟩, fun w' => ?_⟩
  · show s.taken ++ [task] = (List.range (s.taken ++ [task]).length).map x.taskAt
    rw [List.length_append, List.length_singleton, List.range_succ, List.map_append,
      ← h.taken, htaskAt]
    rfl
  · show (s.taken ++ [task]).length ≤ _
    rw [List.length_append]
    exact hlt
  · show (s.front + 1) % x.queueSize = (s.taken ++ [task]).length % x.queueSize
    rw [List.length_append, hfront]
    rfl
  · have hmem : t ∈ s.taken ++ [task] := ht
    rcases List.mem_append.mp hmem with hold | hnew
    · rcases h.kept t hold with hsome | ⟨w', hw'⟩
      · exact .inl hsome
      · have hne : w' ≠ w := by
          rintro rfl
          rw [hw] at hw'
          exact hw'
        exact .inr ⟨w', by simpa only [State.setWorker, hother w' hne] using hw'⟩
    · refine .inr ⟨w, ?_⟩
      simp only [State.setWorker, hself, Worker.Holds]
      exact (List.mem_singleton.mp hnew).symm
  · show t ∈ s.taken ++ [task]
    simp only [State.setWorker] at hw'
    by_cases hww : w' = w
    · subst hww
      rw [hself] at hw'
      exact List.mem_append_right _ (List.mem_singleton.mpr hw'.symm)
    · rw [hother w' hww] at hw'
      exact List.mem_append_left _ (h.held w' t hw')
  · refine Locking.owner (o := .worker w) (f := s.inside) ?_ (fun o ho => ?_) h.owner
    · simp only [State.inside, State.setWorker, hself, hin]
      exact .keep _
    · cases o with
      | main => rfl
      | worker w' =>
          have hne : w' ≠ w := fun hw => ho (congrArg Owner.worker hw)
          simp only [State.inside, State.setWorker, hother w' hne]
  · -- only the owner of the mutex is past its test
    simp only [State.setWorker] at hw'
    have hne : w' ≠ w := by
      rintro rfl
      rw [hself] at hw'
      cases hw'
    rw [hother w' hne] at hw'
    have h1 := (h.owner (.worker w')).mp (by rw [State.inside, hw']; rfl)
    have h2 := (h.owner (.worker w)).mp hin
    rw [h1] at h2
    exact absurd (Owner.worker.inj (Option.some.inj h2)) hne
  · simp only [State.setWorker, hself, Worker.isWaiting]
  · simp only [State.setWorker]
    by_cases hww : w' = w
    · subst hww
      rw [hself]
      exact fun h => by cases h
    · rw [hother w' hww]
      exact h.defined w'

/-- One more cell is written. -/
theorem isSome_update (c : Nat → Nat → Option R) (row col : Nat) (sum : R) (i j : Nat) :
    (Function.update c row (Function.update (c row) col (some sum)) i j).isSome = true ↔
      (i = row ∧ j = col) ∨ (c i j).isSome = true := by
  by_cases hrow : i = row
  · subst hrow
    by_cases hcol : j = col
    · subst hcol
      simp
    · simp [hcol]
  · simp [hrow]

/-- A worker writes the cell of a task that was taken. -/
theorem Inv.write {s : State R W} (h : Inv x s) {task : Task} (ht : task ∈ s.taken) (sum : R) :
    Inv x { s with
      cThreadpool := Function.update s.cThreadpool task.row
        (Function.update (s.cThreadpool task.row) task.col (some sum)) } := by
  refine ⟨h.placed, h.taken, h.taken_le, h.front, h.rear, h.slots, fun t ht => ?_, h.held,
    fun row col hsome => ?_, fun o => ?_, h.nonempty, h.awake, h.defined⟩
  · rw [isSome_update]
    exact (h.kept t ht).imp_left .inr
  · rcases (isSome_update ..).mp hsome with ⟨rfl, rfl⟩ | hold
    · exact ht
    · exact h.written row col hold
  · have hown := h.owner o
    cases o <;> exact hown

/-- Every task taken is written once all workers wait. -/
theorem Inv.allWritten {s : State R W} (h : Inv x s) (hwait : ∀ w, s.workers w = .waiting)
    (hall : s.taken.length = x.queueSize) : AllWritten x s := by
  intro i hi j hj
  have hmem : ({ row := i, col := j } : Task) ∈ s.taken := by
    rw [h.taken, List.mem_map]
    exact ⟨i * x.p + j, List.mem_range.mpr (hall ▸ cell_lt hi hj), taskAt_cell hj⟩
  rcases h.kept _ hmem with hsome | ⟨w, hw⟩
  · exact hsome
  · rw [hwait w] at hw
    cases hw

section Steps

variable [Zero R] [Add R] [Mul R]

theorem workerFunction_inv {s s' : State R W} {w : Fin W} (h : Inv x s)
    (hs : workerFunction x w s = some s') : Inv x s' := by
  unfold workerFunction at hs
  split at hs
  case h_1 hw =>
    split at hs <;> cases hs
    rename_i hfree
    refine h.moveWorker _ ?_ (fun task hold => ?_) (fun _ h => by cases h)
      (fun h => by cases h) (fun h => by cases h) (fun h => by cases h)
    · rw [hw, hfree]
      exact .lock
    · rw [hw] at hold
      cases hold
  case h_2 hw =>
    split at hs <;> cases hs
    · rename_i hempty
      refine h.moveWorker _ ?_ (fun task hold => ?_) (fun _ h => by cases h)
        (fun h => by cases h) (fun _ => hempty) (fun h => by cases h)
      · rw [hw]
        exact .unlock _
      · rw [hw] at hold
        cases hold
    · rename_i hne
      refine h.moveWorker s.mutex ?_ (fun task hold => ?_) (fun _ h => by cases h)
        (fun _ => hne) (fun h => by cases h) (fun h => by cases h)
      · rw [hw]
        exact .keep _
      · rw [hw] at hold
        cases hold
  case h_3 => cases hs
  case h_4 hw =>
    split at hs
    · rename_i task htask
      cases hs
      exact h.take hw htask
    · rename_i hnone
      rw [(h.front_eq (h.take_lt hw)).2] at hnone
      cases hnone
  case h_5 task hw =>
    cases hs
    refine h.moveWorker _ ?_ (fun t hold => ?_) (fun t hold => ?_) (fun h => by cases h)
      (fun h => by cases h) (fun h => by cases h)
    · rw [hw]
      exact .unlock _
    · rw [hw] at hold
      exact .inl hold
    · rw [hw]
      exact hold
  case h_6 task k sum hw =>
    split at hs <;> cases hs
    · refine h.moveWorker s.mutex ?_ (fun t hold => ?_) (fun t hold => ?_)
        (fun h => by cases h) (fun h => by cases h) (fun h => by cases h)
      · rw [hw]
        exact .outside _
      · rw [hw] at hold
        exact .inl hold
      · rw [hw]
        exact hold
    · have ht := h.held w task (by rw [hw]; rfl)
      refine (h.write ht sum).moveWorker s.mutex ?_ (fun t hold => .inr ?_)
        (fun _ h => by cases h) (fun h => by cases h) (fun h => by cases h)
        (fun h => by cases h)
      · simp only [hw]
        exact .outside _
      · simp only [hw, Worker.Holds] at hold
        exact (isSome_update ..).mpr (.inl ⟨by rw [hold], by rw [hold]⟩)
  case h_7 => cases hs

theorem inv_step {s s' : State R W} {e : Event W} (hW : 1 ≤ W) (h : Inv x s)
    (hs : step x e s = some s') : Inv x s' := by
  cases e with
  | main woken => exact addTask_inv hW h hs
  | worker w => exact workerFunction_inv h hs
  | spurious w =>
      simp only [step] at hs
      split at hs <;> cases hs
      rename_i hwait
      exact h.wake hwait

theorem inv_reachable {s : State R W} (hW : 1 ≤ W)
    (h : Reachable (step x) (initial x W) s) : Inv x s :=
  h.invariant (inv_initial x W) fun _ _ _ hI _ hs => inv_step hW hI hs

/-! ## The last task -/

/-- Once every task is added, some task has been taken. -/
def Fed (x : Input R) (s : State R W) : Prop :=
  x.added s.main = x.queueSize → 0 < x.queueSize → 0 < s.taken.length

theorem workerFunction_added {s s' : State R W} {w : Fin W}
    (hs : workerFunction x w s = some s') :
    s'.main = s.main ∧ s.taken.length ≤ s'.taken.length := by
  unfold workerFunction at hs
  repeat' split at hs
  all_goals first | cases hs; exact ⟨rfl, by simp [State.setWorker]⟩ | cases hs

/-- An `add_task` that does not overrun the ring cannot be the last one while
no task has been taken. -/
theorem fed_step {s s' : State R W} {e : Event W} (hI : Inv x s) (hfed : Fed x s)
    (hok : NoOverrun x e s) (hs : step x e s = some s') : Fed x s' := by
  cases e with
  | main woken =>
      by_cases hmain : ∃ i j, s.main = .enqueue i j
      · obtain ⟨i, j, hmain⟩ := hmain
        have hne : ¬ (s.rear + 1) % x.queueSize = s.front := fun heq =>
          hok ⟨by rw [hmain]; rfl, heq⟩
        simp only [step, addTask, hmain, Option.some.injEq] at hs
        subst hs
        intro hall hpos
        have hall' : i * x.p + j + 1 = x.queueSize := hall
        have hrear : s.rear = i * x.p + j := by
          rw [hI.rear, hmain]
          exact Nat.mod_eq_of_lt (by rw [Input.added]; omega)
        rw [hrear, hall', Nat.mod_self, hI.front] at hne
        refine Nat.pos_of_ne_zero fun hzero => hne ?_
        have hzero' : s.taken.length = 0 := hzero
        rw [hzero', Nat.zero_mod]
      · obtain ⟨h1, h2⟩ := addTask_added hI hs fun i j h => hmain ⟨i, j, h⟩
        rw [Fed, h1, h2]
        exact hfed
  | worker w =>
      obtain ⟨h1, h2⟩ := workerFunction_added hs
      intro hall hpos
      rw [h1] at hall
      exact (hfed hall hpos).trans_le h2
  | spurious w =>
      simp only [step] at hs
      split at hs <;> cases hs
      exact hfed

theorem inv_run {s : State R W} (hW : 1 ≤ W)
    (h : Run (step x) (NoOverrun x) (initial x W) s) : Inv x s ∧ Fed x s := by
  refine h.invariant (I := fun s => Inv x s ∧ Fed x s) ⟨inv_initial x W, fun hall hpos => ?_⟩
    fun _ _ _ h hok hs => ⟨inv_step hW h.1 hs, fed_step h.1 h.2 hok hs⟩
  rw [added_initial] at hall
  omega

/-! ## No lost task -/

/-- In a settled pool every worker waits and the ring looks empty. -/
theorem Settled.empty {s : State R W} (hs : Settled x s) (h : Inv x s) :
    (∀ w, s.workers w = .waiting) ∧ s.front = s.rear := by
  -- the mutex is free: its owner could move
  have hfree : s.mutex = none := by
    refine free_of_outside h.owner fun o => ?_
    cases o with
    | main =>
        rw [State.inside, hs.added]
        rfl
    | worker w =>
        have hq := hs.quiet w
        unfold workerFunction at hq
        rw [State.inside]
        cases hw : s.workers w <;> simp only [hw] at hq <;> try rfl
        · split at hq <;> cases hq
        · split at hq <;> cases hq
        · cases hq
  have hwait : ∀ w, s.workers w = .waiting := fun w => by
    have hq := hs.quiet w
    unfold workerFunction at hq
    cases hw : s.workers w with
    | waiting => rfl
    | undefined => exact absurd hw (h.defined w)
    | lock => simp [hw, hfree] at hq
    | test => simp only [hw] at hq; split at hq <;> cases hq
    | take => simp only [hw] at hq; split at hq <;> cases hq
    | unlock task => simp [hw] at hq
    | compute task k sum => simp only [hw] at hq; split at hq <;> cases hq
  refine ⟨hwait, by_contra fun hne => ?_⟩
  rcases h.awake hne with hsig | ⟨w, hw⟩
  · rw [hs.added] at hsig
    cases hsig
  · rw [hwait w] at hw
    cases hw

/-- **No lost task**, for any matrices, any number of workers and any
interleaving in which no `add_task` makes a full ring look empty: once `main`
has added its tasks and no worker can move, every cell is written. -/
theorem no_lost_task {s : State R W} (hW : 1 ≤ W)
    (h : Run (step x) (NoOverrun x) (initial x W) s) (hs : Settled x s) :
    AllWritten x s := by
  obtain ⟨hI, hfed⟩ := inv_run hW h
  obtain ⟨hwait, hempty⟩ := hs.empty hI
  refine hI.allWritten hwait ?_
  have hadded : x.added s.main = x.queueSize := by rw [hs.added]; rfl
  have hle := hI.taken_le
  rw [hadded] at hle
  refine hle.antisymm (not_lt.mp fun hlt => ?_)
  have htaken := hfed hadded (by omega)
  rw [hI.front, hI.rear, hadded, Nat.mod_self, Nat.mod_eq_of_lt hlt] at hempty
  omega

end Steps

/-- A matrix of one row and two columns. -/
def twoCells : Input ℤ := { m := 1, n := 1, p := 2, A := fun _ _ => 3, B := fun _ _ => 5 }

/-- `main` adds a task while no worker waits. -/
def addOne : List (Event 1) := List.replicate 4 (.main none)

/-- The worker takes the first task before `main` adds the second. -/
theorem no_lost_task_two :
    ∃ s, Run (step twoCells) (NoOverrun twoCells) (initial twoCells 1) s ∧
      AllWritten twoCells s := by
  have hexec := Option.eq_some_of_isSome (o := exec (guarded (step twoCells) (NoOverrun twoCells))
    (initial twoCells 1) (addOne ++ List.replicate 4 (.worker 0) ++ addOne ++
      List.replicate 10 (.worker 0))) rfl
  have hrun := Run.exec .start _ hexec
  exact ⟨_, hrun, no_lost_task le_rfl hrun ⟨rfl, Fin.forall_fin_one.mpr rfl⟩⟩

/-! ## An overrun ring -/

/-- What the pool is for: whatever the interleaving, a settled pool has
executed every task. -/
def NoLostTask (R : Type*) [Zero R] [Add R] [Mul R] : Prop :=
  ∀ (x : Input R) (W : Nat), 1 ≤ x.queueSize → 1 ≤ W → ∀ s,
    Reachable (step x) (initial x W) s → Settled x s → AllWritten x s

/-- `main` adds both tasks before the worker has locked the mutex once: the
worker finds `front == rear` and waits for ever. -/
theorem lost_task : ¬ NoLostTask ℤ := by
  intro h
  have hexec := Option.eq_some_of_isSome (o := exec (step twoCells) (initial twoCells 1)
    (addOne ++ addOne ++ List.replicate 2 (.worker 0))) rfl
  have hall := h twoCells 1 (by decide) le_rfl _ (Reachable.exec .start _ hexec)
    ⟨rfl, Fin.forall_fin_one.mpr rfl⟩
  exact absurd (hall 0 (by decide) 0 (by decide)) (by decide)

/-- Every task is added, none was taken. -/
structure Lost (x : Input R) (s : State R W) : Prop where
  full : x.added s.main = x.queueSize
  taken : s.taken = []

theorem Lost.ring_empty {s : State R W} (hl : Lost x s) (h : Inv x s) : s.front = s.rear := by
  rw [h.front, h.rear, hl.full, hl.taken, Nat.mod_self]
  exact Nat.zero_mod _

theorem lost_step [Zero R] [Add R] [Mul R] {s s' : State R W} {e : Event W} (h : Inv x s)
    (hl : Lost x s) (hs : step x e s = some s') : Lost x s' := by
  cases e with
  | main woken =>
      have hne : ∀ i j, s.main ≠ .enqueue i j := fun i j hmain => by
        have hplaced := h.placed
        have hfull := hl.full
        rw [hmain] at hplaced hfull
        exact absurd hfull (cell_lt hplaced.1 hplaced.2).ne
      obtain ⟨h1, h2⟩ := addTask_added h hs hne
      exact ⟨h1.trans hl.full, h2.trans hl.taken⟩
  | worker w =>
      obtain ⟨h1, _⟩ := workerFunction_added hs
      refine ⟨h1 ▸ hl.full, ?_⟩
      simp only [step] at hs
      unfold workerFunction at hs
      split at hs
      case h_4 hw => exact absurd (hl.ring_empty h) (h.nonempty w hw)
      all_goals
        first
        | (split at hs <;> cases hs <;> exact hl.taken)
        | (cases hs; done)
        | (cases hs; exact hl.taken)
  | spurious w =>
      simp only [step] at hs
      split at hs <;> cases hs
      exact ⟨hl.full, hl.taken⟩

/-- **An overrun loses every task**: from the moment `main` overruns the ring,
no cell of the result is ever written. -/
theorem overrun_loses [Zero R] [Add R] [Mul R] {s s' s'' : State R W} {woken : Option (Fin W)}
    (hW : 1 ≤ W) (h : Reachable (step x) (initial x W) s) (hover : s.Overrun x)
    (hs : addTask x woken s = some s') (h' : Reachable (step x) s' s'') (row col : Nat) :
    s''.cThreadpool row col = none := by
  have hI := inv_reachable hW h
  have hI' : Inv x s' := inv_step (e := .main woken) hW hI hs
  have hlost : Lost x s' := by
    obtain ⟨hat, hnext⟩ := hover
    obtain ⟨i, j, hmain⟩ : ∃ i j, s.main = .enqueue i j := by
      cases hm : s.main <;> rw [hm] at hat <;> first | exact ⟨_, _, rfl⟩ | cases hat
    have hplaced := hI.placed
    have hle := hI.taken_le
    have hrear := hI.rear
    have hfront := hI.front
    rw [hmain] at hplaced hle hrear
    have hlt := cell_lt hplaced.1 hplaced.2
    simp only [Input.added] at hle hrear
    rw [Nat.mod_eq_of_lt hlt] at hrear
    rw [Nat.mod_eq_of_lt (hle.trans_lt hlt)] at hfront
    rw [hrear, hfront] at hnext
    -- one slot further is `front` only after the full lap
    have hfull : i * x.p + j + 1 = x.queueSize := by
      by_contra hne
      rw [Nat.mod_eq_of_lt (by omega)] at hnext
      omega
    rw [hfull, Nat.mod_self] at hnext
    simp only [addTask, hmain, Option.some.injEq] at hs
    subst hs
    exact ⟨hfull, List.length_eq_zero_iff.mp hnext.symm⟩
  have hend : Inv x s'' ∧ Lost x s'' :=
    h'.invariant (I := fun s => Inv x s ∧ Lost x s) ⟨hI', hlost⟩
      fun _ _ _ hi _ hstep => ⟨inv_step hW hi.1 hstep, lost_step hi.1 hi.2 hstep⟩
  by_contra hsome
  have hmem := hend.1.written row col (Option.isSome_iff_ne_none.mpr hsome)
  rw [hend.2.taken] at hmem
  cases hmem

end OsInParts.ThreadPool
