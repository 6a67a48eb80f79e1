import OsInParts.Threads.ThreadPoolOnce

/-!
# ThreadPoolTeardown — main frees the matrices

The end of `main` in `Multithreading/q4p2.c`: after its `sleep(1)` it prints
and frees the matrices, whatever the workers are doing. A `sleep` takes no
part in any synchronisation, so that its end is one more step of `main`.

Nothing else stands between the last `add_task` and the first `free`: as soon
as there is a task at all, `main` can be there with the task in the ring.
-/

namespace OsInParts.ThreadPool

open Lib.Threads

variable {R : Type*} {W : Nat} {x : Input R}

/-- Where `main` is once all tasks are added. -/
inductive Ending where
  /-- still adding, or in `sleep(1)` -/
  | sleeping
  /-- at the `free` calls -/
  | freeing
  /-- returned, which ends the workers too -/
  | returned
  deriving DecidableEq

/-- The pool with the end of `main`. -/
structure Program (R : Type*) (W : Nat) extends State R W where
  ending : Ending

def Program.initial (x : Input R) (W : Nat) : Program R W :=
  { ThreadPool.initial x W with ending := .sleeping }

variable [Zero R] [Add R] [Mul R]

/-- A thread of the pool moves, or `main` past its `sleep(1)`. -/
def Program.step (x : Input R) : Option (Event W) → Program R W → Option (Program R W)
  | some e, s =>
      if s.ending = .returned then none
      else (ThreadPool.step x e s.toState).map fun s' => { s with toState := s' }
  | none, s =>
      match s.ending with
      | .sleeping => if s.main = .sleep then some { s with ending := .freeing } else none
      | .freeing => some { s with ending := .returned }
      | .returned => none

omit [Zero R] [Add R] [Mul R] in
/-- A task that `main` has added is in the ring, or in the hands of a worker. -/
def Pending (x : Input R) (s : State R W) (task : Task) : Prop :=
  task ∈ x.addedTasks s.main ∧ task ∉ s.taken ∨ ∃ w, (s.workers w).Holds task

/-- `main` is at the `free` calls while some task is pending. -/
def FreesEarly (x : Input R) (s : Program R W) : Prop :=
  s.ending = .freeing ∧ ∃ task, Pending x s.toState task

/-- The end of `main` does not touch the pool. -/
theorem reachable_pool {s : Program R W}
    (h : Reachable (Program.step x) (Program.initial x W) s) :
    Reachable (step x) (initial x W) s.toState := by
  refine h.invariant (I := fun s : Program R W => Reachable (step x) (initial x W) s.toState)
    .start fun e s s' hI _ hs => ?_
  cases e with
  | some e =>
      simp only [Program.step] at hs
      split at hs
      · cases hs
      · obtain ⟨t, ht, rfl⟩ := Option.map_eq_some_iff.mp hs
        exact .next hI trivial ht
  | none =>
      simp only [Program.step] at hs
      repeat' split at hs
      all_goals first | (cases hs; done) | (cases hs; exact hI)

theorem Program.reaches_pool {s₀ s : Program R W} (h : Reachable (Program.step x) s₀ s)
    (hs : s.ending = .sleeping) {e : Event W} {t : State R W}
    (ht : ThreadPool.step x e s.toState = some t) :
    Reachable (Program.step x) s₀ { s with toState := t } :=
  .next (e := some e) h trivial (by simp [Program.step, hs, ht])

/-! ## Without a task -/

omit [Zero R] [Add R] [Mul R] in
theorem Inv.not_pending {s : State R W} (h : Inv x s) (hzero : x.queueSize = 0) (task : Task) :
    ¬ Pending x s task := by
  have hadded : x.added s.main = 0 := Nat.le_zero.mp (hzero ▸ added_le h.placed)
  have htaken : s.taken = [] :=
    List.length_eq_zero_iff.mp (Nat.le_zero.mp (hadded ▸ h.taken_le))
  rintro (⟨hmem, -⟩ | ⟨w, hw⟩)
  · rw [Input.addedTasks, hadded] at hmem
    cases hmem
  · have hmem := h.held w task hw
    rw [htaken] at hmem
    cases hmem

theorem not_pending_of_no_worker {s : State R 0} (hzero : x.queueSize = 0)
    (h : Reachable (step x) (initial x 0) s) (task : Task) : ¬ Pending x s task := by
  have hplaced : s.main = .sleep := by
    refine h.invariant (I := fun s : State R 0 => s.main = .sleep) ?_ fun e s s' hI _ hs => ?_
    · have hempty : ¬ (0 < x.m ∧ 0 < x.p) := fun hpos => by
        have := Nat.mul_pos hpos.1 hpos.2
        rw [Input.queueSize] at hzero
        omega
      rw [initial, if_neg hempty]
    · cases e with
      | main woken => simp [step, addTask, hI] at hs
      | worker w => exact w.elim0
      | spurious w => exact w.elim0
  rintro (⟨hmem, -⟩ | ⟨w, -⟩)
  · rw [Input.addedTasks, hplaced, Input.added, hzero] at hmem
    cases hmem
  · exact w.elim0

/-! ## With a task -/

/-- No worker has moved yet. -/
structure Untouched (s : State R W) : Prop where
  mutex : s.mutex = none
  workers : ∀ w, s.workers w = .lock
  taken : s.taken = []

/-- `main` adds one task, with all workers before their first lock. -/
theorem Program.reaches_nextCell {s₀ s : Program R W} (h : Reachable (Program.step x) s₀ s)
    (hs : s.ending = .sleeping) (hu : Untouched s.toState) {i j : Nat}
    (hmain : s.main = .lock i j) :
    ∃ s', Reachable (Program.step x) s₀ s' ∧ s'.ending = .sleeping ∧ Untouched s'.toState ∧
      s'.main = x.nextCell i j := by
  have hnone : ∀ w, (s.workers w).isWaiting = false := fun w => by
    rw [hu.workers w]
    rfl
  have hlock : ThreadPool.step x (.main none) s.toState
      = some { s.toState with mutex := some .main, main := .enqueue i j } := by
    simp [ThreadPool.step, addTask, hmain, hu.mutex]
  have h₁ := Program.reaches_pool h hs hlock
  have h₂ := Program.reaches_pool (e := .main none) h₁ hs rfl
  have hsignal : ∀ queue rear, ThreadPool.step x (.main none)
      { s.toState with
        taskQueue := queue, rear := rear, mutex := some .main, main := .signal i j }
      = some { s.toState with
        taskQueue := queue, rear := rear, mutex := some .main, main := .unlock i j } :=
    fun queue rear => if_pos hnone
  have h₃ := Program.reaches_pool h₂ hs (hsignal _ _)
  have h₄ := Program.reaches_pool (e := .main none) h₃ hs rfl
  exact ⟨_, h₄, hs, ⟨rfl, hu.workers, hu.taken⟩, rfl⟩

/-- `main` adds all its tasks and comes to the `free` calls. -/
theorem Program.reaches_freeing {s₀ s : Program R W} (h : Reachable (Program.step x) s₀ s)
    (hs : s.ending = .sleeping) (hu : Untouched s.toState) (hplaced : s.main.Placed x)
    (hmain : s.main = .sleep ∨ ∃ i j, s.main = .lock i j) :
    ∃ s', Reachable (Program.step x) s₀ s' ∧ s'.ending = .freeing ∧ s'.main = .sleep ∧
      s'.taken = [] := by
  obtain ⟨d, hd⟩ : ∃ d, d = x.queueSize - x.added s.main := ⟨_, rfl⟩
  induction d using Nat.strongRecOn generalizing s with
  | _ d ih =>
      rcases hmain with hmain | ⟨i, j, hmain⟩
      · exact ⟨{ s with ending := .freeing },
          .next (e := none) h trivial (by simp [Program.step, hs, hmain]), rfl, hmain, hu.taken⟩
      · rw [hmain] at hplaced hd
        obtain ⟨s', h', hs', hu', hmain'⟩ := Program.reaches_nextCell h hs hu hmain
        have hplaced' := nextCell_placed hplaced.1 hplaced.2
        have hadded := added_nextCell hplaced.1 hplaced.2
        have hlt := cell_lt hplaced.1 hplaced.2
        have hcell : s'.main = .sleep ∨ ∃ i j, s'.main = .lock i j := by
          rw [hmain', Input.nextCell]
          split
          · exact .inr ⟨_, _, rfl⟩
          · split
            · exact .inr ⟨_, _, rfl⟩
            · exact .inl rfl
        rw [← hmain'] at hplaced' hadded
        refine ih _ ?_ h' hs' hu' hplaced' hcell rfl
        rw [hadded, hd, Input.added]
        omega

/-- **`main` waits for its tasks exactly if there are none**, for any matrices
and any number of workers. -/
theorem frees_late_iff (x : Input R) (W : Nat) :
    (∀ s, Reachable (Program.step x) (Program.initial x W) s → ¬ FreesEarly x s) ↔
      x.m * x.p = 0 := by
  constructor
  · intro hlate
    by_contra hpos
    have hcells : 0 < x.m ∧ 0 < x.p := by
      rw [Nat.mul_eq_zero] at hpos
      omega
    have hmain : (Program.initial x W).main = .lock 0 0 := if_pos hcells
    obtain ⟨s, h, hs, hmain', htaken⟩ := Program.reaches_freeing (x := x)
      (s := Program.initial x W) .start rfl ⟨rfl, fun _ => rfl, rfl⟩ (by rw [hmain]; exact hcells)
      (.inr ⟨0, 0, hmain⟩)
    refine hlate s h ⟨hs, x.taskAt 0, .inl ⟨?_, by rw [htaken]; exact List.not_mem_nil⟩⟩
    rw [Input.addedTasks, hmain']
    exact List.mem_map.mpr ⟨0, List.mem_range.mpr (Nat.pos_of_ne_zero hpos), rfl⟩
  · rintro hzero s h ⟨-, task, hpending⟩
    have hpool := reachable_pool h
    rcases Nat.eq_zero_or_pos W with rfl | hW
    · exact not_pending_of_no_worker hzero hpool task hpending
    · exact (inv_reachable hW hpool).not_pending hzero task hpending

/-- A single cell. -/
def oneCell : Input ℤ := { m := 1, n := 1, p := 1, A := fun _ _ => 3, B := fun _ _ => 5 }

/-- `main` adds its only task and is through with `sleep(1)` before the worker
has moved. -/
theorem frees_early :
    ¬ ∀ (x : Input ℤ) (W : Nat) (s : Program ℤ W),
      Reachable (Program.step x) (Program.initial x W) s → ¬ FreesEarly x s := by
  intro hclaim
  have hexec := Option.eq_some_of_isSome (o := exec (Program.step oneCell)
    (Program.initial oneCell 1) (List.replicate 4 (some (.main none)) ++ [none])) rfl
  exact hclaim oneCell 1 _ (Reachable.exec .start _ hexec)
    ⟨rfl, { row := 0, col := 0 }, .inl ⟨by decide, List.not_mem_nil⟩⟩

end OsInParts.ThreadPool
