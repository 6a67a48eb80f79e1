import Mathlib.Algebra.BigOperators.Group.Finset.Basic
import Mathlib.Algebra.Order.BigOperators.Group.Finset
import Mathlib.Tactic.Abel

/-!
# ShortestFirst — jobs run back to back, the shortest first

Jobs that are all there from the start are run one after the other in some
order. Of any two of them one waits for the other, so the sum of the completion
times is least if it is always the longer one that waits
(`flowBy_le_flow`).
-/

namespace Lib.ShortestFirst

variable {ι T : Type*} [AddCommGroup T]

/-- The sum of the completion times of jobs run back to back from `t`. -/
def flow (work : ι → T) : T → List ι → T
  | _, [] => 0
  | t, i :: order => (t + work i) + flow work (t + work i) order

/-- The work of the jobs in `S` that come before job `i`. -/
def ahead (before : ι → ι → Prop) [DecidableRel before] (work : ι → T) (S : Finset ι)
    (i : ι) : T :=
  ∑ j ∈ S, if before j i then work j else 0

/-- The sum of the completion times from `t` of the jobs in `S`, if each waits
for those that come before it. -/
def flowBy (before : ι → ι → Prop) [DecidableRel before] (work : ι → T) (t : T)
    (S : Finset ι) : T :=
  ∑ i ∈ S, (t + work i + ahead before work S i)

/-- Of two jobs one comes before the other, and is not longer. -/
structure Shorter [LinearOrder T] (before : ι → ι → Prop) (work : ι → T) : Prop where
  asymm : ∀ i j, before i j → ¬ before j i
  total : ∀ i j, i ≠ j → before i j ∨ before j i
  le : ∀ i j, before i j → work i ≤ work j

variable [LinearOrder T] {before : ι → ι → Prop} [DecidableRel before] {work : ι → T}

/-- What two jobs make each other wait is no more than the one that is first in
any order makes the other wait. -/
theorem Shorter.pair_le (h : Shorter before work) {i k : ι} (hik : i ≠ k) :
    (if before k i then work k else 0) + (if before i k then work i else 0) ≤ work i := by
  rcases h.total i k hik with hi | hk
  · rw [if_neg (h.asymm i k hi), if_pos hi, zero_add]
  · rw [if_pos hk, if_neg (h.asymm k i hk), add_zero]
    exact h.le k i hk

variable [DecidableEq ι]

/-- One more job. -/
theorem Shorter.flowBy_insert (h : Shorter before work) (t : T) {S : Finset ι} {i : ι}
    (hi : i ∉ S) : flowBy before work t (insert i S) = (t + work i) + ∑ k ∈ S,
      (((if before k i then work k else 0) + if before i k then work i else 0)
        + (t + work k + ahead before work S k)) := by
  have hself : ¬ before i i := fun hii => h.asymm i i hii hii
  have hahead : ∀ k, ahead before work (insert i S) k
      = (if before i k then work i else 0) + ahead before work S k := fun k =>
    Finset.sum_insert hi
  rw [flowBy, Finset.sum_insert hi, hahead, if_neg hself, zero_add, ahead, add_assoc,
    ← Finset.sum_add_distrib]
  congr 1
  refine Finset.sum_congr rfl fun k _ => ?_
  rw [hahead]
  abel

variable [IsOrderedAddMonoid T]

/-- **Shortest first** has the least sum of completion times. -/
theorem Shorter.flowBy_le_flow (h : Shorter before work) (t : T) {order : List ι}
    (hnodup : order.Nodup) : flowBy before work t order.toFinset ≤ flow work t order := by
  induction order generalizing t with
  | nil => exact le_rfl
  | cons i order ih =>
      obtain ⟨hi, hnodup⟩ := List.nodup_cons.mp hnodup
      rw [List.toFinset_cons, h.flowBy_insert t (by simpa using hi), flow]
      refine add_le_add_right (le_trans (Finset.sum_le_sum fun k hk => ?_) (ih _ hnodup)) _
      have hik : i ≠ k := by
        rintro rfl
        exact hi (List.mem_toFinset.mp hk)
      calc (if before k i then work k else 0) + (if before i k then work i else 0)
            + (t + work k + ahead before work order.toFinset k)
          ≤ work i + (t + work k + ahead before work order.toFinset k) :=
            add_le_add_left (h.pair_le hik) _
        _ = t + work i + work k + ahead before work order.toFinset k := by abel

end Lib.ShortestFirst
