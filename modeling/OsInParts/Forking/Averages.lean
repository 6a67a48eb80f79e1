import OsInParts.Lib.Stdio
import OsInParts.Lib.Threads

/-!
# Averages — children that print a line each

`Fork, Wait, Exec, Process Scheduling/q1.c`: the parent prints a line, flushes
it, forks `N` children (the source has 7) and waits as many times; each child
adds up four random numbers and prints their average. The parent is process 0
of `stdout`, child `c` process `c + 1`.

What `rand` returns, the process ids, how `stdout` is buffered and which forks
succeed is up to the system (`Env`). The sum of four numbers from 1 to 100 is
a quarter of a whole number away from it, so the average is exact as a `float`.
-/

namespace OsInParts.Averages

open Lib.Stdio

structure Env where
  mode : Buffering
  forkOk : Nat → Bool
  /-- the process ids, by the number of the process -/
  pid : Nat → Nat
  /-- the `i`-th result of `rand` in child `c` -/
  rand : Nat → Nat → Nat

/-- Where the parent is in `main`. -/
inductive Parent where
  /-- at the first `printf` -/
  | start
  /-- at `fflush` -/
  | flush
  /-- at the test `i < 7` of the first loop -/
  | fork (i : Nat)
  /-- at the test of the second loop, with `j` calls of `wait` done -/
  | wait (j : Nat)
  /-- at `exit(status)` -/
  | exit (status : Nat)
  | exited (status : Nat)
  deriving DecidableEq

/-- Where a child is. -/
inductive Child where
  /-- at the test `i < 4` in `generate_and_print_average` -/
  | generate (i sum : Nat)
  /-- at `exit(0)` -/
  | exit
  | exited
  /-- `wait` has returned for it -/
  | reaped
  deriving DecidableEq

/-- The parent, its children in the order they were forked, and `stdout`. -/
structure State where
  parent : Parent
  children : List Child
  stdout : Streams Nat Char

inductive Event where
  | parent
  /-- the parent's `wait` returns for a child -/
  | reap (c : Nat)
  | child (c : Nat)
  deriving DecidableEq

def newline (c : Char) : Bool := c = '\n'

def initial : State :=
  { parent := .start, children := [], stdout := { buffer := fun _ => [], output := [] } }

/-! ## The texts -/

def parentLine (env : Env) : List Char :=
  ("Parent(pid: " ++ toString (env.pid 0) ++ ")").toList ++ ['\n']

/-- `"%.1f"` of `sum / 4.0`: a quarter and three quarters are ties, and round
to an even digit. -/
def average (sum : Nat) : String :=
  toString (sum / 4) ++
    match sum % 4 with
    | 0 => ".0"
    | 1 => ".2"
    | 2 => ".5"
    | _ => ".8"

def childText (env : Env) (c sum : Nat) : List Char :=
  ("Child (pid: " ++ toString (env.pid (c + 1)) ++ ") Average: " ++ average sum).toList ++ ['\n']

/-! ## The program -/

/-- One turn of the loop in `generate_and_print_average`, or what follows it. -/
def generateAndPrintAverage (env : Env) (c i sum : Nat) (s : State) : State :=
  if i < 4 then
    let randomNum := env.rand c i % 100 + 1
    { s with children := s.children.set c (.generate (i + 1) (sum + randomNum)) }
  else
    { s with
      children := s.children.set c .exit
      stdout := s.stdout.print env.mode newline (c + 1) (childText env c sum) }

def childStep (env : Env) (c : Nat) (s : State) : Option State :=
  match s.children[c]? with
  | some (.generate i sum) => some (generateAndPrintAverage env c i sum s)
  | some .exit =>
      some { s with
        children := s.children.set c .exited
        stdout := s.stdout.flush (c + 1) }
  | _ => none

/-- The parent; its `wait` is blocked while a child is running, and without a
child to wait for it returns -1. -/
def parentStep (env : Env) (N : Nat) (s : State) : Option State :=
  match s.parent with
  | .start =>
      some { s with
        parent := .flush
        stdout := s.stdout.print env.mode newline 0 (parentLine env) }
  | .flush => some { s with parent := .fork 0, stdout := s.stdout.flush 0 }
  | .fork i =>
      if i < N then
        if env.forkOk i then
          some
            { parent := .fork (i + 1)
              children := s.children ++ [.generate 0 0]
              stdout := s.stdout.fork 0 (s.children.length + 1) }
        else some { s with parent := .exit 1 }
      else some { s with parent := .wait 0 }
  | .wait j =>
      if j < N then
        if s.children.all (· = .reaped) then some { s with parent := .wait (j + 1) } else none
      else some { s with parent := .exit 0 }
  | .exit status =>
      some { s with parent := .exited status, stdout := s.stdout.flush 0 }
  | .exited _ => none

/-- `wait(NULL)` returns for a child that has ended. -/
def reap (N c : Nat) (s : State) : Option State :=
  match s.parent, s.children[c]? with
  | .wait j, some .exited =>
      if j < N then some { s with parent := .wait (j + 1), children := s.children.set c .reaped }
      else none
  | _, _ => none

def step (env : Env) (N : Nat) : Event → State → Option State
  | .parent, s => parentStep env N s
  | .reap c, s => reap N c s
  | .child c, s => childStep env c s

/-! ## What one step does -/

/-- The sum of the first `i` numbers of child `c`. -/
def childSum (env : Env) (c : Nat) : Nat → Nat
  | 0 => 0
  | i + 1 => childSum env c i + (env.rand c i % 100 + 1)

/-- The line that child `c` prints. -/
def childLine (env : Env) (c : Nat) : List Char := childText env c (childSum env c 4)

variable {env : Env} {N : Nat}

/-- The steps, each with what it changes. -/
inductive Moves (env : Env) (N : Nat) (s : State) : State → Prop where
  | start : s.parent = .start →
      Moves env N s { s with
        parent := .flush
        stdout := s.stdout.print env.mode newline 0 (parentLine env) }
  | flush : s.parent = .flush →
      Moves env N s { s with parent := .fork 0, stdout := s.stdout.flush 0 }
  | forked (i : Nat) : s.parent = .fork i → i < N → env.forkOk i = true →
      Moves env N s
        { parent := .fork (i + 1)
          children := s.children ++ [.generate 0 0]
          stdout := s.stdout.fork 0 (s.children.length + 1) }
  | unforked (i : Nat) : s.parent = .fork i → i < N → env.forkOk i = false →
      Moves env N s { s with parent := .exit 1 }
  | forksDone (i : Nat) : s.parent = .fork i → N ≤ i → Moves env N s { s with parent := .wait 0 }
  | noChild (j : Nat) : s.parent = .wait j → j < N → (∀ q ∈ s.children, q = .reaped) →
      Moves env N s { s with parent := .wait (j + 1) }
  | waitsDone (j : Nat) : s.parent = .wait j → N ≤ j → Moves env N s { s with parent := .exit 0 }
  | parentExit (status : Nat) : s.parent = .exit status →
      Moves env N s { s with parent := .exited status, stdout := s.stdout.flush 0 }
  | reap (c j : Nat) : s.parent = .wait j → j < N → s.children[c]? = some .exited →
      Moves env N s { s with parent := .wait (j + 1), children := s.children.set c .reaped }
  | sum (c i sum : Nat) : s.children[c]? = some (.generate i sum) → i < 4 →
      Moves env N s { s with
        children := s.children.set c (.generate (i + 1) (sum + (env.rand c i % 100 + 1))) }
  | print (c i sum : Nat) : s.children[c]? = some (.generate i sum) → 4 ≤ i →
      Moves env N s { s with
        children := s.children.set c .exit
        stdout := s.stdout.print env.mode newline (c + 1) (childText env c sum) }
  | childExit (c : Nat) : s.children[c]? = some .exit →
      Moves env N s { s with
        children := s.children.set c .exited
        stdout := s.stdout.flush (c + 1) }

theorem step_moves {e : Event} {s s' : State} (h : step env N e s = some s') :
    Moves env N s s' := by
  cases e with
  | parent =>
      change parentStep env N s = some s' at h
      unfold parentStep at h
      cases hp : s.parent with
      | start =>
          simp only [hp] at h
          cases h
          exact .start hp
      | flush =>
          simp only [hp] at h
          cases h
          exact .flush hp
      | fork i =>
          simp only [hp] at h
          by_cases hi : i < N
          · rw [if_pos hi] at h
            cases hok : env.forkOk i with
            | true =>
                rw [if_pos hok] at h
                cases h
                exact .forked i hp hi hok
            | false =>
                rw [hok, if_neg Bool.false_ne_true] at h
                cases h
                exact .unforked i hp hi hok
          · rw [if_neg hi] at h
            cases h
            exact .forksDone i hp (Nat.le_of_not_lt hi)
      | wait j =>
          simp only [hp] at h
          by_cases hj : j < N
          · rw [if_pos hj] at h
            split at h
            · rename_i hall
              cases h
              exact .noChild j hp hj (by simpa using hall)
            · cases h
          · rw [if_neg hj] at h
            cases h
            exact .waitsDone j hp (Nat.le_of_not_lt hj)
      | exit status =>
          simp only [hp] at h
          cases h
          exact .parentExit status hp
      | exited status =>
          simp only [hp] at h
          cases h
  | reap c =>
      change Averages.reap N c s = some s' at h
      unfold Averages.reap at h
      split at h
      · rename_i j hp hc
        split at h
        · cases h
          exact .reap c j hp ‹_› hc
        · cases h
      · cases h
  | child c =>
      change childStep env c s = some s' at h
      unfold childStep at h
      split at h
      · rename_i i sum hc
        unfold generateAndPrintAverage at h
        split at h
        · cases h
          exact .sum c i sum hc ‹_›
        · cases h
          exact .print c i sum hc (Nat.le_of_not_lt ‹_›)
      · rename_i hc
        cases h
        exact .childExit c hc
      · cases h

end OsInParts.Averages
