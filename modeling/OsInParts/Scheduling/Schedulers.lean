import OsInParts.Lib.BubbleSort
import OsInParts.Lib.Loop
import OsInParts.Scheduling.Process

/-!
# Schedulers — `fifo`, `sjf`, `srtf` and `rr`

`Fork, Wait, Exec, Process Scheduling/q4.c`. Each scheduler works on its own
copy of the array and returns its last state; `none`, or a loop that does
not return, stands for undefined behaviour. The list of slices is not in the
code: it records what was executed. What is printed is left out, and with it
the `float` totals of `fifo`.
-/

namespace OsInParts.Scheduling

open Lib Lib.Loop

variable {n : Nat}

/-! ## `fifo` -/

/-- The test of the sort: `x` has to come after `y`. -/
def Process.After (x y : Process) : Prop :=
  x.arrivalTime > y.arrivalTime ∨ (x.arrivalTime = y.arrivalTime ∧ x.pid > y.pid)

instance : DecidableRel Process.After := fun x y =>
  inferInstanceAs (Decidable (x.arrivalTime > y.arrivalTime ∨
    (x.arrivalTime = y.arrivalTime ∧ x.pid > y.pid)))

structure Fifo (n : Nat) where
  process : Fin n → Process
  currTime : Int
  slices : List (Slice n)

/-- One turn of the execution loop. -/
def fifoStep (s : Fifo n) (i : Fin n) : Option (Fifo n) :=
  let process := s.process i
  let currTime :=
    if s.currTime < process.arrivalTime then process.arrivalTime else s.currTime
  (addInt currTime process.burstTime).map fun completionTime =>
    { process := Function.update s.process i { process with
        startTime := currTime
        completionTime := completionTime
        turnaroundTime := completionTime - process.arrivalTime
        responseTime := currTime - process.arrivalTime },
      currTime := completionTime,
      slices := s.slices ++ [{ process := i, start := currTime, stop := completionTime }] }

/-- The processes are sorted first, so the indices of the slices are positions
in the sorted array. -/
def fifo (p : Fin n → Process) : Option (Fifo n) :=
  (List.finRange n).foldlM fifoStep
    { process := BubbleSort.sort Process.After p, currTime := 0, slices := [] }

/-! ## What `sjf`, `srtf` and `rr` share -/

/-- The variables that the three loops have in common. A total is `none` after an
overflow. -/
structure Cpu (n : Nat) where
  p : Fin n → Process
  isCompleted : Fin n → Bool
  completed : Nat
  currentTime : Int
  totalTurnaroundTime : Option Int
  totalResponseTime : Option Int
  slices : List (Slice n)

def Cpu.initial (p : Fin n → Process) : Cpu n :=
  { p := p, isCompleted := fun _ => false, completed := 0, currentTime := 0,
    totalTurnaroundTime := some 0, totalResponseTime := some 0, slices := [] }

/-- `current_time++` with nothing to execute. -/
def Cpu.tick (s : Cpu n) : Option (Cpu n) :=
  (addInt s.currentTime 1).map fun currentTime => { s with currentTime := currentTime }

def Cpu.setProcess (s : Cpu n) (i : Fin n) (process : Process) : Cpu n :=
  { s with p := Function.update s.p i process }

/-- `current_time += time`, while process `i` is executed. -/
def Cpu.execute (s : Cpu n) (i : Fin n) (time : Int) : Option (Cpu n) :=
  (addInt s.currentTime time).map fun currentTime =>
    { s with
      currentTime := currentTime
      slices := s.slices ++ [{ process := i, start := s.currentTime, stop := currentTime }] }

/-- The block that completes process `i` at the current time. -/
def Cpu.complete (s : Cpu n) (i : Fin n) : Cpu n :=
  let process := { s.p i with
    completionTime := s.currentTime
    turnaroundTime := s.currentTime - (s.p i).arrivalTime
    responseTime := (s.p i).startTime - (s.p i).arrivalTime }
  { s with
    p := Function.update s.p i process
    totalTurnaroundTime := addTotal s.totalTurnaroundTime process.turnaroundTime
    totalResponseTime := addTotal s.totalResponseTime process.responseTime
    isCompleted := Function.update s.isCompleted i true
    completed := s.completed + 1 }

/-! ## `sjf` -/

/-- The block of `sjf` that executes the chosen process. -/
def Cpu.runBurst (s : Cpu n) (i : Fin n) : Option (Cpu n) :=
  let s := s.setProcess i { s.p i with startTime := s.currentTime }
  (s.execute i (s.p i).burstTime).map (·.complete i)

/-- One turn of the main loop of `sjf`. -/
def sjfBody (s : Cpu n) : Option (Cpu n) :=
  match Candidates.scan ⟨s.p, fun i => (s.p i).burstTime, s.isCompleted, s.currentTime⟩ with
  | none => none
  | some none => s.tick
  | some (some i) => s.runBurst i

/-- `while (completed != n)`. -/
def sjfLoop : Cpu n → Next (Cpu n) (Cpu n) :=
  whileBody (fun s => s.completed != n) sjfBody

/-! ## `srtf` -/

structure Srtf (n : Nat) extends Cpu n where
  burstRemaining : Fin n → Int

def Srtf.initial (p : Fin n → Process) : Srtf n :=
  { Cpu.initial p with burstRemaining := fun i => (p i).burstTime }

/-- The block of `srtf` that executes the chosen process for one unit. -/
def Srtf.runUnit (s : Srtf n) (i : Fin n) : Option (Srtf n) :=
  let cpu :=
    if s.burstRemaining i = (s.p i).burstTime then
      s.setProcess i { s.p i with startTime := s.currentTime }
    else s.toCpu
  let burstRemaining := Function.update s.burstRemaining i (s.burstRemaining i - 1)
  (cpu.execute i 1).map fun cpu =>
    { toCpu := if burstRemaining i = 0 then cpu.complete i else cpu,
      burstRemaining := burstRemaining }

/-- One turn of the main loop of `srtf`. -/
def srtfBody (s : Srtf n) : Option (Srtf n) :=
  match Candidates.scan ⟨s.p, s.burstRemaining, s.isCompleted, s.currentTime⟩ with
  | none => none
  | some none => s.tick.map fun cpu => { s with toCpu := cpu }
  | some (some i) => s.runUnit i

/-- `while (completed != n)`. -/
def srtfLoop : Srtf n → Next (Srtf n) (Srtf n) :=
  whileBody (fun s => s.completed != n) srtfBody

/-! ## `rr` -/

structure Rr (n : Nat) extends Cpu n where
  queue : Fin n → Int
  idx : Nat

def Rr.initial (p : Fin n → Process) : Rr n :=
  { Cpu.initial p with queue := fun i => (p i).pid, idx := 0 }

/-- The inner part of the loop of `rr`, for an index into `p`. -/
def Cpu.turn (s : Cpu n) (timeQuantum : Int) (i : Fin n) : Option (Cpu n) :=
  if (s.p i).arrivalTime ≤ s.currentTime ∧ s.isCompleted i = false then
    let s :=
      if (s.p i).started = false then
        s.setProcess i { s.p i with startTime := s.currentTime, started := true }
      else s
    let executionTime :=
      if (s.p i).remainingTime > timeQuantum then timeQuantum else (s.p i).remainingTime
    let s := s.setProcess i
      { s.p i with remainingTime := (s.p i).remainingTime - executionTime }
    (s.execute i executionTime).map fun s =>
      if (s.p i).remainingTime = 0 then s.complete i else s
  else some s

/-- One turn of the main loop of `rr`; a queue entry that is not an index into
`p` is undefined behaviour. -/
def rrBody (timeQuantum : Int) (s : Rr n) : Option (Rr n) :=
  let idx := if s.idx ≥ n then 0 else s.idx
  if h : idx < n then
    let processId := s.queue ⟨idx, h⟩ - 1
    if h' : 0 ≤ processId ∧ processId < n then
      (s.turn timeQuantum ⟨processId.toNat, by omega⟩).map fun cpu =>
        { s with toCpu := cpu, idx := idx + 1 }
    else none
  else none

/-- `while (completed < n)`. -/
def rrLoop (timeQuantum : Int) : Rr n → Next (Rr n) (Rr n) :=
  whileBody (fun s => decide (s.completed < n)) (rrBody timeQuantum)

end OsInParts.Scheduling
