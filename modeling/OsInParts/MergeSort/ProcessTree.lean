import OsInParts.Lib.Threads
import OsInParts.Lib.Words
import OsInParts.MergeSort.Merge

/-!
# Process tree — `mergesort` over forks and pipes

`Segmentation, Paging, IPC/q1.c`: a call of `mergesort` forks one child a
half; each child sorts its half in its own copy of the array and writes it to
a pipe, and the parent waits for both, reads both pipes and merges.

`Proc` is where one process stands, its live descendants included, and
`step` what one event does to the tree. A pipe is a first-in first-out queue
of bytes with a capacity: a write puts in what fits and blocks, a read takes
what is there, and waits while the pipe is empty and a process that holds the
writing end is alive. A system call that returns -1 is an event of its own.
-/

namespace OsInParts.MergeSort

open Lib.Slice Lib.Words

/-- `int mid = left + (right - left) / 2`. -/
def mid (left right : Nat) : Nat := left + (right - left) / 2

/-- Where a process stands. `exited` and `failed` are its two exit statuses;
`orphaning` is `failed` with the children it had (`exited` for one that was
not forked). -/
inductive Proc where
  /-- about to run `mergesort(arr, left, right)` -/
  | call (arr : List Int32) (left right : Nat)
  /-- at `pipe(pipefd1)` -/
  | pipe1 (arr : List Int32) (left right : Nat)
  /-- at `pipe(pipefd2)` -/
  | pipe2 (arr : List Int32) (left right : Nat)
  /-- at the first `fork` -/
  | fork1 (arr : List Int32) (left right : Nat)
  /-- at the second `fork` -/
  | fork2 (arr : List Int32) (left right : Nat) (child1 : Proc) (pipefd1 : List UInt8)
  /-- at the two `wait(NULL)`, with the children they have returned for -/
  | wait (arr : List Int32) (left right : Nat) (reaped1 reaped2 : Bool)
      (child1 : Proc) (pipefd1 : List UInt8) (child2 : Proc) (pipefd2 : List UInt8)
  /-- at `read(pipefd1[0], ..)` -/
  | read1 (arr : List Int32) (left right : Nat)
      (child1 : Proc) (pipefd1 : List UInt8) (child2 : Proc) (pipefd2 : List UInt8)
  /-- at `read(pipefd2[0], ..)` -/
  | read2 (arr : List Int32) (left right : Nat)
      (child1 child2 : Proc) (pipefd2 : List UInt8)
  /-- at `merge(arr, left, mid, right)` -/
  | merge (arr : List Int32) (left right : Nat)
  /-- back from `mergesort` -/
  | returned (arr : List Int32)
  /-- a child inside `write`, with the bytes still to go -/
  | writing (bytes : List UInt8) (started : Bool)
  | exited
  | failed
  | orphaning (child1 child2 : Proc)

/-- The process has called `exit`. -/
def Proc.ended : Proc → Bool
  | .exited | .failed | .orphaning _ _ => true
  | _ => false

/-- Neither the process nor a descendant of it is alive. -/
def Proc.gone : Proc → Bool
  | .exited | .failed => true
  | .orphaning child1 child2 => child1.gone && child2.gone
  | _ => false

/-- What happens next: the process goes on, its system call fails, its `write`
puts `k` bytes into the pipe, one of its children is waited for, or something
happens in the subtree of a child. -/
inductive Event where
  | self
  | fail
  | write (k : Nat)
  | reap1
  | reap2
  | left (e : Event)
  | right (e : Event)

/-- No system call fails. -/
def Event.faultFree : Event → Bool
  | .fail => false
  | .left e | .right e => e.faultFree
  | _ => true

/-- `read(fd, arr + left, n * sizeof(int))`: the first bytes are overwritten,
as many as the pipe holds. -/
def readInto (arr : List Int32) (left n : Nat) (pipefd : List UInt8) : List Int32 :=
  let got := pipefd.take (4 * n)
  splice arr left (decode (got ++ (encode (slice arr left n)).drop got.length))

/-- The branch of a child: `mergesort` on its half, which is `step` for the
event, then the `write` of the `n` integers from `left` on, then `exit(0)`. -/
@[simp] def child (capacity left n : Nat) (step : Proc → Option Proc) :
    Event → Proc → List UInt8 → Option (Proc × List UInt8)
  | .self, .returned arr, pipefd => some (.writing (encode (slice arr left n)) false, pipefd)
  | .write k, .writing bytes _, pipefd =>
      if 0 < k ∧ k ≤ bytes.length ∧ pipefd.length + k ≤ capacity then
        some (.writing (bytes.drop k) true, pipefd ++ bytes.take k)
      else none
  | .self, .writing [] _, pipefd => some (.exited, pipefd)
  | .fail, .writing _ false, pipefd => some (.failed, pipefd)
  | _, p, pipefd => (step p).map fun p => (p, pipefd)

/-- A child whose parent has exited: nobody holds the reading end, and its
`write` kills it. -/
@[simp] def orphan (step : Proc → Option Proc) : Event → Proc → Option Proc
  | .self, .returned _ => some .failed
  | .self, .writing [] _ => some .exited
  | .self, .writing _ _ => some .failed
  | _, p => step p

/-- One event; `cap l r` is the capacity of the pipe that carries `arr[l..r]`. -/
@[simp] def step (cap : Nat → Nat → Nat) : Event → Proc → Option Proc
  | .self, .call arr l r => if l < r then some (.pipe1 arr l r) else some (.returned arr)
  | .self, .pipe1 arr l r => some (.pipe2 arr l r)
  | .fail, .pipe1 _ _ _ => some .failed
  | .self, .pipe2 arr l r => some (.fork1 arr l r)
  | .fail, .pipe2 _ _ _ => some .failed
  -- each child starts on a copy of the parent's memory
  | .self, .fork1 arr l r => some (.fork2 arr l r (.call arr l (mid l r)) [])
  | .fail, .fork1 _ _ _ => some .failed
  | .self, .fork2 arr l r c₁ q₁ =>
      some (.wait arr l r false false c₁ q₁ (.call arr (mid l r + 1) r) [])
  | .fail, .fork2 _ _ _ c₁ _ => some (.orphaning c₁ .exited)
  | .left e, .fork2 arr l r c₁ q₁ =>
      (child (cap l (mid l r)) l (mid l r - l + 1) (step cap e) e c₁ q₁).map fun (c₁, q₁) =>
        .fork2 arr l r c₁ q₁
  -- `wait` ignores the exit status
  | .reap1, .wait arr l r false w₂ c₁ q₁ c₂ q₂ =>
      if c₁.ended then some (.wait arr l r true w₂ c₁ q₁ c₂ q₂) else none
  | .reap2, .wait arr l r w₁ false c₁ q₁ c₂ q₂ =>
      if c₂.ended then some (.wait arr l r w₁ true c₁ q₁ c₂ q₂) else none
  | .self, .wait arr l r true true c₁ q₁ c₂ q₂ => some (.read1 arr l r c₁ q₁ c₂ q₂)
  | .left e, .wait arr l r w₁ w₂ c₁ q₁ c₂ q₂ =>
      (child (cap l (mid l r)) l (mid l r - l + 1) (step cap e) e c₁ q₁).map fun (c₁, q₁) =>
        .wait arr l r w₁ w₂ c₁ q₁ c₂ q₂
  | .right e, .wait arr l r w₁ w₂ c₁ q₁ c₂ q₂ =>
      (child (cap (mid l r + 1) r) (mid l r + 1) (r - mid l r) (step cap e) e c₂ q₂).map
        fun (c₂, q₂) => .wait arr l r w₁ w₂ c₁ q₁ c₂ q₂
  -- the second child and its descendants hold the first pipe's writing end too
  | .self, .read1 arr l r c₁ q₁ c₂ q₂ =>
      if q₁ ≠ [] ∨ c₁.gone ∧ c₂.gone then
        some (.read2 (readInto arr l (mid l r - l + 1) q₁) l r c₁ c₂ q₂)
      else none
  | .fail, .read1 _ _ _ c₁ _ c₂ _ => some (.orphaning c₁ c₂)
  -- the children have exited: what still runs are the processes they left behind
  | .left e, .read1 arr l r c₁ q₁ c₂ q₂ =>
      (step cap e c₁).map fun c₁ => .read1 arr l r c₁ q₁ c₂ q₂
  | .right e, .read1 arr l r c₁ q₁ c₂ q₂ =>
      (step cap e c₂).map fun c₂ => .read1 arr l r c₁ q₁ c₂ q₂
  | .self, .read2 arr l r c₁ c₂ q₂ =>
      if q₂ ≠ [] ∨ c₁.gone ∧ c₂.gone then
        some (.merge (readInto arr (mid l r + 1) (r - mid l r) q₂) l r)
      else none
  | .fail, .read2 _ _ _ c₁ c₂ _ => some (.orphaning c₁ c₂)
  | .left e, .read2 arr l r c₁ c₂ q₂ =>
      (step cap e c₁).map fun c₁ => .read2 arr l r c₁ c₂ q₂
  | .right e, .read2 arr l r c₁ c₂ q₂ =>
      (step cap e c₂).map fun c₂ => .read2 arr l r c₁ c₂ q₂
  | .self, .merge arr l r => (merge arr l (mid l r) r).map .returned
  | .left e, .orphaning c₁ c₂ => (orphan (step cap e) e c₁).map fun c₁ => .orphaning c₁ c₂
  | .right e, .orphaning c₁ c₂ => (orphan (step cap e) e c₂).map fun c₂ => .orphaning c₁ c₂
  | _, _ => none

end OsInParts.MergeSort
