import OsInParts.Lib.Threads

/-!
# ThreadPool — main adds a task per cell, workers compute the cells

`Multithreading/q4p2.c`: `worker_function`, `add_task` and the part of `main`
that adds the tasks, up to its `sleep(1)`. The queue is a ring without a
count: `front == rear` is read as empty, and it is also what a full lap of
`add_task` leaves behind.

The statements between lock and unlock are steps of their own wherever
another thread could see the difference; the two statements of `add_task`
that fill a slot and advance `rear` are one step, since only the owner of
the mutex looks at the ring. `R` is the type of the matrix elements, `Int32`
for an `int` that wraps around.
-/

namespace OsInParts.ThreadPool

open Lib.Threads

/-- The cell a task is for. Its other fields, `n` and the three matrices, are
the same in every task. -/
structure Task where
  row : Nat
  col : Nat
  deriving DecidableEq

/-- What `main` has read: the dimensions and the two matrices. -/
structure Input (R : Type*) where
  m : Nat
  n : Nat
  p : Nat
  A : Nat → Nat → R
  B : Nat → Nat → R

/-- Where `main` is; `i` and `j` are its loop variables. -/
inductive Main where
  /-- at `pthread_mutex_lock` in `add_task` -/
  | lock (i j : Nat)
  /-- at the two statements that put the task into the ring -/
  | enqueue (i j : Nat)
  /-- at `pthread_cond_signal` -/
  | signal (i j : Nat)
  | unlock (i j : Nat)
  /-- at `sleep(1)`, with every task added -/
  | sleep
  deriving DecidableEq

/-- Where a worker is in `worker_function`. -/
inductive Worker (R : Type*) where
  /-- at `pthread_mutex_lock`, or woken in `pthread_cond_wait` and about to
  take the mutex back: the test comes next either way -/
  | lock
  /-- at the test of `while (pool.front == pool.rear)` -/
  | test
  /-- in `pthread_cond_wait` -/
  | waiting
  /-- at the two statements that take a task out of the ring -/
  | take
  | unlock (task : Task)
  /-- at the test of the `for` loop -/
  | compute (task : Task) (k : Nat) (sum : R)
  /-- has read a slot that was never written -/
  | undefined

/-- The owner of the mutex. -/
inductive Owner (W : Nat) where
  | main
  | worker (w : Fin W)
  deriving DecidableEq

/-- The pool, the threads and the result. `taken` is not in the code: it lists
the tasks in the order in which workers took them. -/
structure State (R : Type*) (W : Nat) where
  taskQueue : Nat → Option Task
  front : Nat
  rear : Nat
  mutex : Option (Owner W)
  main : Main
  workers : Fin W → Worker R
  cThreadpool : Nat → Nat → Option R
  taken : List Task

variable {R : Type*} {W : Nat}

/-- `max_tasks`. -/
def Input.queueSize (x : Input R) : Nat := x.m * x.p

/-- After `initialize_threadpool`, with `W` cores. -/
def initial (x : Input R) (W : Nat) : State R W :=
  { taskQueue := fun _ => none, front := 0, rear := 0, mutex := none,
    main := if 0 < x.m ∧ 0 < x.p then .lock 0 0 else .sleep,
    workers := fun _ => .lock, cThreadpool := fun _ _ => none, taken := [] }

/-- The two loop headers of `main` after the body for `i` and `j`. -/
def Input.nextCell (x : Input R) (i j : Nat) : Main :=
  if j + 1 < x.p then .lock i (j + 1)
  else if i + 1 < x.m then .lock (i + 1) 0
  else .sleep

def State.setWorker (s : State R W) (w : Fin W) (worker : Worker R) : State R W :=
  { s with workers := Function.update s.workers w worker }

def Worker.isWaiting : Worker R → Bool
  | .waiting => true
  | _ => false

/-- The next step of `main`. `woken` is the waiter the signal reaches; there is
none only if no worker waits. -/
def addTask (x : Input R) (woken : Option (Fin W)) (s : State R W) : Option (State R W) :=
  match s.main with
  | .lock i j =>
      if s.mutex = none then
        some { s with mutex := some .main, main := .enqueue i j }
      else none
  | .enqueue i j =>
      some { s with
        taskQueue := Function.update s.taskQueue s.rear (some { row := i, col := j })
        rear := (s.rear + 1) % x.queueSize
        main := .signal i j }
  | .signal i j =>
      match woken with
      | none =>
          if ∀ w, (s.workers w).isWaiting = false then some { s with main := .unlock i j }
          else none
      | some w =>
          if (s.workers w).isWaiting then
            some ({ s with main := .unlock i j }.setWorker w .lock)
          else none
  | .unlock i j => some { s with mutex := none, main := x.nextCell i j }
  | .sleep => none

variable [Zero R] [Add R] [Mul R]

/-- The next step of worker `w`, `none` while it is blocked. -/
def workerFunction (x : Input R) (w : Fin W) (s : State R W) : Option (State R W) :=
  match s.workers w with
  | .lock =>
      if s.mutex = none then
        some ({ s with mutex := some (.worker w) }.setWorker w .test)
      else none
  | .test =>
      if s.front = s.rear then some ({ s with mutex := none }.setWorker w .waiting)
      else some (s.setWorker w .take)
  | .waiting => none
  | .take =>
      match s.taskQueue s.front with
      | some task =>
          some ({ s with
              front := (s.front + 1) % x.queueSize
              taken := s.taken ++ [task] }.setWorker w (.unlock task))
      | none => some (s.setWorker w .undefined)
  | .unlock task => some ({ s with mutex := none }.setWorker w (.compute task 0 0))
  | .compute task k sum =>
      if k < x.n then
        some (s.setWorker w
          (.compute task (k + 1) (sum + x.A task.row k * x.B k task.col)))
      else
        some ({ s with
            cThreadpool := Function.update s.cThreadpool task.row
              (Function.update (s.cThreadpool task.row) task.col (some sum))
          }.setWorker w .lock)
  | .undefined => none

/-- Which thread moves. A waiter may also wake up without a signal. -/
inductive Event (W : Nat) where
  | main (woken : Option (Fin W))
  | worker (w : Fin W)
  | spurious (w : Fin W)

def step (x : Input R) : Event W → State R W → Option (State R W)
  | .main woken, s => addTask x woken s
  | .worker w, s => workerFunction x w s
  | .spurious w, s =>
      if (s.workers w).isWaiting then some (s.setWorker w .lock) else none

def Main.atEnqueue : Main → Bool
  | .enqueue _ _ => true
  | _ => false

/-- `main` is about to add the task that makes a full ring look empty. -/
def State.Overrun (x : Input R) (s : State R W) : Prop :=
  s.main.atEnqueue = true ∧ (s.rear + 1) % x.queueSize = s.front

instance (x : Input R) (s : State R W) : Decidable (s.Overrun x) :=
  inferInstanceAs (Decidable (_ ∧ _))

/-- The side condition of a run in which no `add_task` overruns the ring. -/
def NoOverrun (x : Input R) : Event W → State R W → Prop
  | .main _, s => ¬ s.Overrun x
  | _, _ => True

instance (x : Input R) (e : Event W) (s : State R W) : Decidable (NoOverrun x e s) :=
  match e with
  | .main _ => inferInstanceAs (Decidable (¬ s.Overrun x))
  | .worker _ => isTrue trivial
  | .spurious _ => isTrue trivial

/-- `main` has added its tasks and no worker can move without a new one. -/
structure Settled (x : Input R) (s : State R W) : Prop where
  added : s.main = .sleep
  quiet : ∀ w, workerFunction x w s = none

/-- Every cell of `C_threadpool` has been written. -/
def AllWritten (x : Input R) (s : State R W) : Prop :=
  ∀ i < x.m, ∀ j < x.p, (s.cThreadpool i j).isSome

end OsInParts.ThreadPool
