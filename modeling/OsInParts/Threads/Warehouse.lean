import OsInParts.Lib.Threads

/-!
# Warehouse — delivery trucks and storage managers around a bounded buffer

`Multithreading/q3.c`: `delivery_truck` and `storage_manager`, one step per
statement that touches shared memory, for any number of trucks and managers.
`rand()` is left open: each event carries the value the next call returns.
The unlocked read of `count` in the truck's loop only decides a message.

`deliveries` has `num_trucks` entries and trucks are numbered from 1, so the
last truck's counter is the word past the end of the array; `past` is
whatever that word held.
-/

namespace OsInParts.Warehouse

open Lib.Threads

abbrev bufferSize : Nat := 25

def deliveryMaxProducts : Nat := 6

def storageMaxProducts : Nat := 3

def maxDeliveries : Int32 := 2

/-- Where a truck is in `delivery_truck`; `products` is its local. -/
inductive Truck where
  /-- at the top of `while (1)` -/
  | start
  /-- at the test of `while (products > 0)` -/
  | check (products : Nat)
  /-- at `sem_wait(&empty)` -/
  | waitEmpty (products : Nat)
  /-- at `pthread_mutex_lock` -/
  | lock (products : Nat)
  /-- at `buffer[in] = 1` -/
  | fill (products : Nat)
  /-- at `in = (in + 1) % BUFFER_SIZE` -/
  | advanceIn (products : Nat)
  /-- at `count++; products--` -/
  | increment (products : Nat)
  | unlock (products : Nat)
  /-- at `sem_post(&full)` -/
  | postFull (products : Nat)
  /-- at `deliveries[id]++` and the test after it -/
  | record
  | sleep
  | exited
  deriving DecidableEq

/-- Where a manager is in `storage_manager`; `products` and `i` are its
locals. -/
inductive Manager where
  /-- at the top of `while (1)` -/
  | start
  /-- at `sem_wait(&full)` -/
  | waitFull (products : Nat)
  /-- at `pthread_mutex_lock` -/
  | lock (products : Nat)
  /-- at `if (count > 0)` -/
  | test (products : Nat)
  /-- at the test of the `for` loop -/
  | loop (products i : Nat)
  /-- at `buffer[out] = 0` -/
  | clear (products i : Nat)
  /-- at `out = (out + 1) % BUFFER_SIZE` -/
  | advanceOut (products i : Nat)
  /-- at `count--`, with the `i++` that follows it -/
  | decrement (products i : Nat)
  /-- at one of the two `printf` calls in the critical section -/
  | print
  | unlock
  /-- at `sem_post(&empty)` -/
  | postEmpty
  | sleep
  deriving DecidableEq

/-- The owner of the mutex: the `i`-th truck or the `j`-th manager. -/
inductive Owner (T M : Nat) where
  | truck (i : Fin T)
  | manager (j : Fin M)
  deriving DecidableEq

/-- The globals and the threads. The last two fields are not in the code: they
count the products put into the buffer and those taken out of it. -/
structure State (T M : Nat) where
  buffer : Fin bufferSize → Int
  count : Int
  inPos : Fin bufferSize
  out : Fin bufferSize
  empty : Nat
  full : Nat
  mutex : Option (Owner T M)
  deliveries : Nat → Int32
  trucks : Fin T → Truck
  managers : Fin M → Manager
  delivered : Nat
  removed : Nat

variable {T M : Nat}

/-- What `main` has set up before any thread moves. -/
def initial (T M : Nat) (past : Int32) : State T M :=
  { buffer := fun _ => 0, count := 0, inPos := 0, out := 0,
    empty := bufferSize, full := 0, mutex := none,
    deliveries := fun id => if id < T then 0 else past,
    trucks := fun _ => .start, managers := fun _ => .start,
    delivered := 0, removed := 0 }

/-- `(i + 1) % BUFFER_SIZE`. -/
def nextPos (i : Fin bufferSize) : Fin bufferSize :=
  ⟨(i.val + 1) % bufferSize, Nat.mod_lt _ (by decide)⟩

def State.setTruck (s : State T M) (i : Fin T) (truck : Truck) : State T M :=
  { s with trucks := Function.update s.trucks i truck }

def State.setManager (s : State T M) (j : Fin M) (manager : Manager) : State T M :=
  { s with managers := Function.update s.managers j manager }

/-- `id` of the `i`-th truck. -/
def truckId (i : Fin T) : Nat := i.val + 1

/-- The next step of the `i`-th truck, `none` while it is blocked. -/
def deliveryTruck (i : Fin T) (rand : Nat) (s : State T M) : Option (State T M) :=
  match s.trucks i with
  | .start => some (s.setTruck i (.check (rand % deliveryMaxProducts + 1)))
  | .check products =>
      if 0 < products then some (s.setTruck i (.waitEmpty products))
      else some (s.setTruck i .record)
  | .waitEmpty products =>
      if 0 < s.empty then
        some ({ s with empty := s.empty - 1 }.setTruck i (.lock products))
      else none
  | .lock products =>
      if s.mutex = none then
        some ({ s with mutex := some (.truck i) }.setTruck i (.fill products))
      else none
  | .fill products =>
      some ({ s with
          buffer := Function.update s.buffer s.inPos 1
          delivered := s.delivered + 1 }.setTruck i (.advanceIn products))
  | .advanceIn products =>
      some ({ s with inPos := nextPos s.inPos }.setTruck i (.increment products))
  | .increment products =>
      some ({ s with count := s.count + 1 }.setTruck i (.unlock (products - 1)))
  | .unlock products => some ({ s with mutex := none }.setTruck i (.postFull products))
  | .postFull products => some ({ s with full := s.full + 1 }.setTruck i (.check products))
  | .record =>
      let deliveries := Function.update s.deliveries (truckId i) (s.deliveries (truckId i) + 1)
      if maxDeliveries ≤ deliveries (truckId i) then
        some ({ s with deliveries := deliveries }.setTruck i .exited)
      else some ({ s with deliveries := deliveries }.setTruck i .sleep)
  | .sleep => some (s.setTruck i .start)
  | .exited => none

/-- The next step of the `j`-th manager, `none` while it is blocked. -/
def storageManager (j : Fin M) (rand : Nat) (s : State T M) : Option (State T M) :=
  match s.managers j with
  | .start => some (s.setManager j (.waitFull (rand % storageMaxProducts + 1)))
  | .waitFull products =>
      if 0 < s.full then
        some ({ s with full := s.full - 1 }.setManager j (.lock products))
      else none
  | .lock products =>
      if s.mutex = none then
        some ({ s with mutex := some (.manager j) }.setManager j (.test products))
      else none
  | .test products =>
      if 0 < s.count then some (s.setManager j (.loop products 0))
      else some (s.setManager j .print)
  | .loop products i =>
      if i < products ∧ 0 < s.count then some (s.setManager j (.clear products i))
      else some (s.setManager j .print)
  | .clear products i =>
      some ({ s with
          buffer := Function.update s.buffer s.out 0
          removed := s.removed + 1 }.setManager j (.advanceOut products i))
  | .advanceOut products i =>
      some ({ s with out := nextPos s.out }.setManager j (.decrement products i))
  | .decrement products i =>
      some ({ s with count := s.count - 1 }.setManager j (.loop products (i + 1)))
  | .print => some (s.setManager j .unlock)
  | .unlock => some ({ s with mutex := none }.setManager j .postEmpty)
  | .postEmpty => some ({ s with empty := s.empty + 1 }.setManager j .sleep)
  | .sleep => some (s.setManager j .start)

/-- Which thread moves, and what `rand()` would return to it. -/
inductive Event (T M : Nat) where
  | truck (i : Fin T) (rand : Nat)
  | manager (j : Fin M) (rand : Nat)

def step : Event T M → State T M → Option (State T M)
  | .truck i rand, s => deliveryTruck i rand s
  | .manager j rand, s => storageManager j rand s

end OsInParts.Warehouse
