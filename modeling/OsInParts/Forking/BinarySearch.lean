import OsInParts.Lib.Stdio
import OsInParts.Lib.Threads

/-!
# BinarySearch — a binary search that forks for every half

`Fork, Wait, Exec, Process Scheduling/q2.c`: a process looks at the middle of
its range and, unless it has found the target, forks a child for one half and
waits for it. The processes form a chain; process `k` is the `k`-th forked,
`main` is process 0.

`stdout` is modelled as the buffers of the processes. How it is buffered,
whether asking for input writes a line-buffered `stdout` out, and which forks
succeed is up to the system (`Env`).
-/

namespace OsInParts.BinarySearch

open Lib.Stdio

/-- `start`, `end` (here `stop`) and `mid` stay between -1 and the length of
the array, so they do not overflow. -/
def mid (start stop : Int) : Int := start + (stop - start) / 2

/-- Where a process is in `binary_search`. -/
inductive Proc where
  /-- at the test `start > end` -/
  | call (start stop : Int)
  /-- at `arr[mid] == target` -/
  | probe (start stop : Int)
  | fork (start stop : Int)
  /-- a child at `arr[mid] < target` -/
  | child (start stop : Int)
  /-- at `wait(NULL)`, with the child it has forked -/
  | wait (pid : Nat)
  /-- at `exit(status)` -/
  | exit (status : Nat)
  | exited (status : Nat)
  deriving DecidableEq

/-- What is printed on `stdout` in the search. -/
inductive Message where
  | notFound
  | index (mid : Int)
  deriving DecidableEq

def Message.text : Message → String
  | .notFound => "-1\n"
  | .index mid => "Target value's index: " ++ toString mid ++ "\n"

structure Env where
  mode : Buffering
  inputFlushes : Bool
  forkOk : Nat → Bool

/-- The processes in the order they were forked, the results printed so far
with the process that printed each, and `stdout`. -/
structure State where
  procs : List Proc
  printed : List (Nat × Message)
  stdout : Streams Nat Marked

def State.setProc (s : State) (k : Nat) (p : Proc) : State :=
  { s with procs := s.procs.set k p }

def State.print (env : Env) (k : Nat) (message : Message) (s : State) : State :=
  { s with
    printed := s.printed ++ [(k, message)]
    stdout := s.stdout.print env.mode Marked.newline k (marked false message.text) }

/-- `arr[i]`, undefined outside the array. -/
def readAt (arr : List Int32) (i : Int) : Option Int32 :=
  if 0 ≤ i then arr[i.toNat]? else none

/-- The next step of process `k` in `binary_search`. -/
def binarySearch (env : Env) (arr : List Int32) (target : Int32) (k : Nat) (s : State) :
    Option State :=
  match s.procs[k]? with
  | some (.call start stop) =>
      if start > stop then some ((s.print env k .notFound).setProc k (.exit 0))
      else some (s.setProc k (.probe start stop))
  | some (.probe start stop) =>
      (readAt arr (mid start stop)).map fun value =>
        if value = target then
          (s.print env k (.index (mid start stop))).setProc k (.exit 0)
        else s.setProc k (.fork start stop)
  | some (.fork start stop) =>
      if env.forkOk k then
        -- the child is the next process, and starts with a copy of the buffer
        some { s with
          procs := s.procs.set k (.wait s.procs.length) ++ [.child start stop]
          stdout := s.stdout.fork k s.procs.length }
      else some (s.setProc k (.exit 1))
  | some (.child start stop) =>
      (readAt arr (mid start stop)).map fun value =>
        if value < target then s.setProc k (.call (mid start stop + 1) stop)
        else s.setProc k (.call start (mid start stop - 1))
  | some (.wait pid) =>
      match s.procs[pid]? with
      | some (.exited _) => some (s.setProc k (.exit 0))
      | _ => none
  | some (.exit status) =>
      some { s.setProc k (.exited status) with stdout := s.stdout.flush k }
  | some (.exited _) => none
  | none => none

/-- The lines of `main` before the search. -/
def prelude (arr : List Int32) : List String :=
  "Array: " :: arr.map (fun x => toString x.toInt ++ " ") ++ ["\nEnter a target value: "]

/-- `stdout` after them, with the `scanf` that reads the target. -/
def mainStdout (env : Env) (arr : List Int32) : Streams Nat Marked :=
  (Streams.printAll env.mode Marked.newline 0 ((prelude arr).map (marked true))
    { buffer := fun _ => [], output := [] }).input env.mode env.inputFlushes 0

/-- `main` at `binary_search(arr, 0, n - 1, target)`. -/
def initial (env : Env) (arr : List Int32) : State :=
  { procs := [.call 0 (arr.length - 1)], printed := [], stdout := mainStdout env arr }

@[simp] theorem setProc_procs (s : State) (k : Nat) (p : Proc) :
    (s.setProc k p).procs = s.procs.set k p := rfl

@[simp] theorem setProc_printed (s : State) (k : Nat) (p : Proc) :
    (s.setProc k p).printed = s.printed := rfl

@[simp] theorem setProc_stdout (s : State) (k : Nat) (p : Proc) :
    (s.setProc k p).stdout = s.stdout := rfl

@[simp] theorem print_procs (env : Env) (k : Nat) (message : Message) (s : State) :
    (s.print env k message).procs = s.procs := rfl

@[simp] theorem print_printed (env : Env) (k : Nat) (message : Message) (s : State) :
    (s.print env k message).printed = s.printed ++ [(k, message)] := rfl

@[simp] theorem print_stdout (env : Env) (k : Nat) (message : Message) (s : State) :
    (s.print env k message).stdout
      = s.stdout.print env.mode Marked.newline k (marked false message.text) := rfl

/-! ## What one step does -/

/-- What a step of process `k` from `p` does: the process moves to the next
one and prints, flushes or does neither, or it forks. -/
inductive Moves (env : Env) (arr : List Int32) (target : Int32) (k : Nat) (s : State) :
    Proc → State → Prop where
  | missing {start stop} : stop < start →
      Moves env arr target k s (.call start stop) ((s.print env k .notFound).setProc k (.exit 0))
  | enter {start stop} : start ≤ stop →
      Moves env arr target k s (.call start stop) (s.setProc k (.probe start stop))
  | found {start stop} : readAt arr (mid start stop) = some target →
      Moves env arr target k s (.probe start stop)
        ((s.print env k (.index (mid start stop))).setProc k (.exit 0))
  | miss {start stop value} : readAt arr (mid start stop) = some value → value ≠ target →
      Moves env arr target k s (.probe start stop) (s.setProc k (.fork start stop))
  | forked {start stop} : env.forkOk k = true →
      Moves env arr target k s (.fork start stop)
        { s with
          procs := s.procs.set k (.wait s.procs.length) ++ [.child start stop]
          stdout := s.stdout.fork k s.procs.length }
  | unforked {start stop} : env.forkOk k = false →
      Moves env arr target k s (.fork start stop) (s.setProc k (.exit 1))
  | right {start stop value} : readAt arr (mid start stop) = some value → value < target →
      Moves env arr target k s (.child start stop) (s.setProc k (.call (mid start stop + 1) stop))
  | left {start stop value} : readAt arr (mid start stop) = some value → ¬ value < target →
      Moves env arr target k s (.child start stop) (s.setProc k (.call start (mid start stop - 1)))
  | reap {pid status} : s.procs[pid]? = some (.exited status) →
      Moves env arr target k s (.wait pid) (s.setProc k (.exit 0))
  | exit {status} : Moves env arr target k s (.exit status)
      { s.setProc k (.exited status) with stdout := s.stdout.flush k }

theorem binarySearch_moves {env : Env} {arr : List Int32} {target : Int32} {k : Nat}
    {s s' : State} (h : binarySearch env arr target k s = some s') :
    ∃ p, s.procs[k]? = some p ∧ Moves env arr target k s p s' := by
  unfold binarySearch at h
  cases hp : s.procs[k]? with
  | none => rw [hp] at h; cases h
  | some p =>
      refine ⟨p, rfl, ?_⟩
      rw [hp] at h
      cases p with
      | call start stop =>
          dsimp only at h
          split at h
          · cases h
            exact .missing ‹_›
          · cases h
            exact .enter (by omega)
      | probe start stop =>
          obtain ⟨value, hvalue, rfl⟩ := Option.map_eq_some_iff.mp h
          split
          · rename_i heq
            exact .found (heq ▸ hvalue)
          · exact .miss hvalue ‹_›
      | fork start stop =>
          dsimp only at h
          split at h
          · cases h
            exact .forked ‹_›
          · cases h
            exact .unforked (by simpa using ‹¬ env.forkOk k = true›)
      | child start stop =>
          obtain ⟨value, hvalue, rfl⟩ := Option.map_eq_some_iff.mp h
          split
          · exact .right hvalue ‹_›
          · exact .left hvalue ‹_›
      | wait pid =>
          dsimp only at h
          split at h
          · cases h
            exact .reap ‹_›
          · cases h
      | exit status =>
          cases h
          exact .exit
      | exited status => cases h

end OsInParts.BinarySearch
