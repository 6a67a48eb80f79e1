import Mathlib.Algebra.BigOperators.Group.Finset.Basic
import Mathlib.Algebra.Ring.Defs
import OsInParts.Threads.ThreadPoolSafety

/-!
# ThreadPoolOnce — no task is executed twice, and none wrongly

Even where `add_task` overruns the ring and tasks are lost, what is taken is
the tasks in the order in which they were added, each once: `front` never
passes a slot that was not written, since the ring has as many slots as
there are tasks and looks empty rather than full after a whole lap. What a
worker computes from a task is its cell of the product.

Without any worker nothing is taken at all; `Inv` is about at least one.
-/

namespace OsInParts.ThreadPool

open Lib.Threads

variable {R : Type*} {W : Nat} {x : Input R}

/-- The tasks `main` has put into the ring, in this order. -/
def Input.addedTasks (x : Input R) (main : Main) : List Task :=
  (List.range (x.added main)).map x.taskAt

theorem taskAt_injective (x : Input R) : Function.Injective x.taskAt := by
  intro k l h
  obtain ⟨hrow, hcol⟩ := Task.mk.inj h
  rw [← Nat.div_add_mod k x.p, ← Nat.div_add_mod l x.p, hrow, hcol]

theorem taskAt_inside {k : Nat} (hk : k < x.queueSize) :
    (x.taskAt k).row < x.m ∧ (x.taskAt k).col < x.p := by
  have hp : 0 < x.p := Nat.pos_of_ne_zero fun hzero => by
    rw [Input.queueSize, hzero, Nat.mul_zero] at hk
    exact Nat.not_lt_zero k hk
  exact ⟨Nat.div_lt_of_lt_mul (Nat.mul_comm x.m x.p ▸ hk), Nat.mod_lt k hp⟩

theorem Inv.taken_nodup {s : State R W} (h : Inv x s) : s.taken.Nodup := by
  rw [h.taken]
  exact List.nodup_range.map (taskAt_injective x)

theorem Inv.taken_prefix {s : State R W} (h : Inv x s) : s.taken <+: x.addedTasks s.main := by
  rw [h.taken, Input.addedTasks]
  refine List.IsPrefix.map _ ⟨List.range' s.taken.length (x.added s.main - s.taken.length), ?_⟩
  rw [List.range_eq_range', List.range_eq_range', ← Nat.add_sub_cancel' h.taken_le,
    ← List.range'_append_1, Nat.zero_add, Nat.add_sub_cancel_left]

theorem Inv.taken_inside {s : State R W} (h : Inv x s) {task : Task} (ht : task ∈ s.taken) :
    task.row < x.m ∧ task.col < x.p := by
  rw [h.taken, List.mem_map] at ht
  obtain ⟨k, hk, rfl⟩ := ht
  exact taskAt_inside
    ((List.mem_range.mp hk).trans_le (h.taken_le.trans (added_le h.placed)))

/-! ## What is computed -/

section Values

variable [NonUnitalNonAssocSemiring R]

/-- Cell `(i, j)` of the product, up to the `k`-th term. -/
def Input.partialSum (x : Input R) (i j k : Nat) : R :=
  ∑ l ∈ Finset.range k, x.A i l * x.B l j

/-- Cell `(i, j)` of the product of the two matrices. -/
def Input.product (x : Input R) (i j : Nat) : R := x.partialSum i j x.n

theorem partialSum_zero (x : Input R) (i j : Nat) : x.partialSum i j 0 = 0 :=
  Finset.sum_range_zero _

theorem partialSum_succ (x : Input R) (i j k : Nat) :
    x.partialSum i j (k + 1) = x.partialSum i j k + x.A i k * x.B k j :=
  Finset.sum_range_succ ..

/-- A worker's `sum` is what its loop has summed up so far. -/
def Worker.Sound (x : Input R) : Worker R → Prop
  | .compute task k sum => k ≤ x.n ∧ sum = x.partialSum task.row task.col k
  | _ => True

/-- **What holds whatever is taken**: sums and cells are right, and a task is
in the hands of one worker. -/
structure Sound (x : Input R) (s : State R W) : Prop where
  workers : ∀ w, (s.workers w).Sound x
  cells : ∀ i j v, s.cThreadpool i j = some v → v = x.product i j
  once : ∀ w w' task, (s.workers w).Holds task → (s.workers w').Holds task → w = w'

theorem sound_initial (x : Input R) (W : Nat) : Sound x (initial x W) where
  workers := fun _ => trivial
  cells := fun i j v h => by cases h
  once := fun w w' task h => by cases h

/-- A worker moves, and holds no task it did not hold before. -/
theorem Sound.moveWorker {s s' : State R W} (h : Sound x s) {w : Fin W} {worker : Worker R}
    (hs : s'.workers = Function.update s.workers w worker)
    (hcells : s'.cThreadpool = s.cThreadpool) (hworker : worker.Sound x)
    (honce : ∀ task, worker.Holds task → ∀ w' ≠ w, ¬ (s.workers w').Holds task) :
    Sound x s' := by
  have hself : Function.update s.workers w worker w = worker := Function.update_self ..
  have hother : ∀ w' ≠ w, Function.update s.workers w worker w' = s.workers w' :=
    fun w' hw => Function.update_of_ne hw ..
  refine ⟨fun w' => ?_, hcells ▸ h.cells, fun w₁ w₂ task h₁ h₂ => ?_⟩
  · rw [hs]
    by_cases hw : w' = w
    · rw [hw, hself]
      exact hworker
    · rw [hother w' hw]
      exact h.workers w'
  · rw [hs] at h₁ h₂
    by_cases hw₁ : w₁ = w <;> by_cases hw₂ : w₂ = w
    · rw [hw₁, hw₂]
    · rw [hw₁, hself] at h₁
      rw [hother w₂ hw₂] at h₂
      exact absurd h₂ (honce task h₁ w₂ hw₂)
    · rw [hw₂, hself] at h₂
      rw [hother w₁ hw₁] at h₁
      exact absurd h₁ (honce task h₂ w₁ hw₁)
    · rw [hother w₁ hw₁] at h₁
      rw [hother w₂ hw₂] at h₂
      exact h.once w₁ w₂ task h₁ h₂

/-- A worker writes its cell. -/
theorem Sound.write {s : State R W} (h : Sound x s) {task : Task} {sum : R}
    (hsum : sum = x.product task.row task.col) :
    Sound x { s with
      cThreadpool := Function.update s.cThreadpool task.row
        (Function.update (s.cThreadpool task.row) task.col (some sum)) } := by
  refine ⟨h.workers, fun i j v hv => ?_, h.once⟩
  by_cases hrow : i = task.row
  · subst hrow
    simp only [Function.update_self] at hv
    by_cases hcol : j = task.col
    · subst hcol
      rw [Function.update_self, Option.some.injEq] at hv
      rw [← hv, hsum]
    · rw [Function.update_of_ne hcol] at hv
      exact h.cells _ _ _ hv
  · simp only [Function.update_of_ne hrow] at hv
    exact h.cells _ _ _ hv

theorem addTask_sound {s s' : State R W} {woken : Option (Fin W)} (h : Sound x s)
    (hs : addTask x woken s = some s') : Sound x s' := by
  unfold addTask at hs
  split at hs
  case h_3 =>
    split at hs
    · split at hs <;> cases hs
      exact ⟨h.workers, h.cells, h.once⟩
    · split at hs <;> cases hs
      exact h.moveWorker rfl rfl trivial fun _ hold => hold.elim
  all_goals
    repeat' split at hs
    all_goals first | (cases hs; done) | (cases hs; exact ⟨h.workers, h.cells, h.once⟩)

theorem workerFunction_sound {s s' : State R W} {w : Fin W} (hinv : Inv x s) (h : Sound x s)
    (hs : workerFunction x w s = some s') : Sound x s' := by
  have hwork := h.workers w
  unfold workerFunction at hs
  split at hs
  case h_1 =>
    split at hs <;> cases hs
    exact h.moveWorker rfl rfl trivial fun _ hold => hold.elim
  case h_2 =>
    split at hs <;> cases hs
    · exact h.moveWorker rfl rfl trivial fun _ hold => hold.elim
    · exact h.moveWorker rfl rfl trivial fun _ hold => hold.elim
  case h_3 => cases hs
  case h_4 hw =>
    split at hs
    · rename_i task htask
      cases hs
      -- the task taken is a new one, so no worker holds it
      have hnew := (hinv.take hw htask).taken_nodup
      refine h.moveWorker rfl rfl trivial fun t ht w' _ hold => ?_
      have hmem := hinv.held w' t hold
      rw [← show task = t from ht] at hmem
      exact List.disjoint_of_nodup_append hnew hmem (List.mem_singleton_self task)
    · rename_i hnone
      rw [(hinv.front_eq (hinv.take_lt hw)).2] at hnone
      cases hnone
  case h_5 task hw =>
    cases hs
    refine h.moveWorker rfl rfl ⟨Nat.zero_le _, (partialSum_zero x _ _).symm⟩
      fun t ht w' hw' hold => hw' (h.once w' w t hold ?_)
    rw [hw]
    exact ht
  case h_6 task k sum hw =>
    rw [hw] at hwork
    obtain ⟨hk, hsum⟩ := hwork
    split at hs <;> cases hs
    · rename_i hlt
      refine h.moveWorker rfl rfl ⟨hlt, ?_⟩ fun t ht w' hw' hold => hw' (h.once w' w t hold ?_)
      · rw [partialSum_succ, hsum]
      · rw [hw]
        exact ht
    · rename_i hlast
      refine Sound.moveWorker (h.write ?_) rfl rfl trivial fun _ hold => hold.elim
      rw [hsum, show k = x.n by omega]
      rfl
  case h_7 => cases hs

theorem sound_step {s s' : State R W} {e : Event W} (hinv : Inv x s) (h : Sound x s)
    (hs : step x e s = some s') : Sound x s' := by
  cases e with
  | main woken => exact addTask_sound h hs
  | worker w => exact workerFunction_sound hinv h hs
  | spurious w =>
      simp only [step] at hs
      split at hs <;> cases hs
      exact h.moveWorker rfl rfl trivial fun _ hold => hold.elim

/-! ## At most once -/

/-- Without workers nothing is taken and nothing is written. -/
theorem untouched_step {s s' : State R 0} {e : Event 0} (hs : step x e s = some s') :
    s'.taken = s.taken ∧ s'.cThreadpool = s.cThreadpool := by
  cases e with
  | main woken =>
      simp only [step, addTask] at hs
      repeat' split at hs
      all_goals first | (cases hs; done) | (cases hs; exact ⟨rfl, rfl⟩)
  | worker w => exact w.elim0
  | spurious w => exact w.elim0

/-- **At most once**, for any matrices, any number of workers and any
interleaving, overrun or not. A worker that takes a slot finds a task in it,
and never one of another worker; the tasks taken are the first ones added, in
this order and without repetition; and a cell that is written holds the cell
of the product. -/
theorem taken_once {s : State R W} (h : Reachable (step x) (initial x W) s) :
    (∀ w, s.workers w ≠ .undefined ∧
      (s.workers w = .take → (s.taskQueue s.front).isSome)) ∧
    (∀ w w' task, (s.workers w).Holds task → (s.workers w').Holds task → w = w') ∧
    s.taken.Nodup ∧ s.taken <+: x.addedTasks s.main ∧
    ∀ i j v, s.cThreadpool i j = some v → i < x.m ∧ j < x.p ∧ v = x.product i j := by
  rcases Nat.eq_zero_or_pos W with rfl | hW
  · obtain ⟨htaken, hcells⟩ : s.taken = [] ∧ s.cThreadpool = fun _ _ => none := by
      refine h.invariant (I := fun s => s.taken = [] ∧ s.cThreadpool = fun _ _ => none)
        ⟨rfl, rfl⟩ fun _ _ _ hI _ hs => ?_
      obtain ⟨h1, h2⟩ := untouched_step hs
      exact ⟨h1.trans hI.1, h2.trans hI.2⟩
    refine ⟨fun w => w.elim0, fun w => w.elim0, ?_, ?_, fun i j v hv => ?_⟩
    · rw [htaken]
      exact List.nodup_nil
    · rw [htaken]
      exact List.nil_prefix
    · rw [hcells] at hv
      cases hv
  · obtain ⟨hinv, hsound⟩ : Inv x s ∧ Sound x s :=
      h.invariant (I := fun s => Inv x s ∧ Sound x s) ⟨inv_initial x W, sound_initial x W⟩
        fun _ _ _ hI _ hs => ⟨inv_step hW hI.1 hs, sound_step hI.1 hI.2 hs⟩
    refine ⟨fun w => ⟨hinv.defined w, fun hw => ?_⟩, hsound.once, hinv.taken_nodup,
      hinv.taken_prefix, fun i j v hv => ?_⟩
    · rw [(hinv.front_eq (hinv.take_lt hw)).2]
      rfl
    · have hmem := hinv.written i j (by rw [hv]; rfl)
      obtain ⟨hi, hj⟩ := hinv.taken_inside hmem
      exact ⟨hi, hj, hsound.cells i j v hv⟩

/-- The worker takes the first of two tasks and computes its cell. -/
theorem taken_once_two :
    ∃ s, Reachable (step twoCells) (initial twoCells 1) s ∧
      s.taken <+: twoCells.addedTasks s.main ∧ s.cThreadpool 0 0 = some 15 := by
  have hexec := Option.eq_some_of_isSome (o := exec (step twoCells) (initial twoCells 1)
    (addOne ++ List.replicate 6 (.worker 0))) rfl
  have hreach := Reachable.exec .start _ hexec
  exact ⟨_, hreach, (taken_once hreach).2.2.2.1, by decide⟩

end Values

end OsInParts.ThreadPool
