import Mathlib.Data.List.Basic

/-!
# Interleave — the merge of two lists as an interleaving

`Merged le xs ys zs`: `zs` is taken from the fronts of `xs` and `ys`, from
`xs` if its front is related to that of `ys`, and from `ys` only if it is not.
The lists need not be ordered. So `zs` is an interleaving of the two, in which
`xs` goes first on ties, and it is the only one (`merged_iff`).
-/

namespace Lib.Interleave

variable {α : Type*} {le : α → α → Prop} {xs ys zs : List α}

inductive Merged (le : α → α → Prop) : List α → List α → List α → Prop where
  | nil : Merged le [] [] []
  | left {x : α} {xs ys zs : List α} : (∀ y ∈ ys.head?, le x y) → Merged le xs ys zs →
      Merged le (x :: xs) ys (x :: zs)
  | right {y : α} {xs ys zs : List α} : (∀ x ∈ xs.head?, ¬ le x y) → Merged le xs ys zs →
      Merged le xs (y :: ys) (y :: zs)

/-- The first list keeps its order. -/
theorem Merged.left_sublist (h : Merged le xs ys zs) : xs.Sublist zs := by
  induction h with
  | nil => exact .refl []
  | left _ _ ih => exact ih.cons_cons _
  | right _ _ ih => exact ih.cons _

/-- So does the second one. -/
theorem Merged.right_sublist (h : Merged le xs ys zs) : ys.Sublist zs := by
  induction h with
  | nil => exact .refl []
  | left _ _ ih => exact ih.cons _
  | right _ _ ih => exact ih.cons_cons _

/-- Nothing is lost or comes twice. -/
theorem Merged.perm (h : Merged le xs ys zs) : zs.Perm (xs ++ ys) := by
  induction h with
  | nil => exact .refl []
  | left _ _ ih => exact ih.cons _
  | right _ _ ih => exact (ih.cons _).trans List.perm_middle.symm

section Decidable

variable [DecidableRel le]

theorem merged_merge (xs ys : List α) : Merged le xs ys (xs.merge ys fun x y => le x y) := by
  induction xs generalizing ys with
  | nil =>
      rw [List.nil_merge]
      induction ys with
      | nil => exact .nil
      | cons y ys ih => exact .right nofun ih
  | cons x xs ihx =>
      induction ys with
      | nil =>
          have hrest := ihx []
          rw [List.merge_right] at hrest ⊢
          exact .left nofun hrest
      | cons y ys ihy =>
          rw [List.cons_merge_cons]
          by_cases hle : le x y
          · rw [if_pos (decide_eq_true hle)]
            exact .left (by simpa using hle) (ihx (y :: ys))
          · rw [if_neg (by simpa using hle)]
            exact .right (by simpa using hle) ihy

/-- **There is one merge.** -/
theorem merged_iff : Merged le xs ys zs ↔ zs = xs.merge ys fun x y => le x y := by
  constructor
  · intro h
    induction h with
    | nil => rw [List.nil_merge]
    | @left x xs ys zs hle _ ih =>
        cases ys with
        | nil => rw [ih, List.merge_right, List.merge_right]
        | cons y ys => rw [ih, List.cons_merge_cons_pos _ _ _ (by simpa using hle)]
    | @right y xs ys zs hle _ ih =>
        cases xs with
        | nil => rw [ih, List.nil_merge, List.nil_merge]
        | cons x xs => rw [ih, List.cons_merge_cons_neg _ _ _ (by simpa using hle)]
  · rintro rfl
    exact merged_merge xs ys

/-- The merge of ordered lists is ordered. -/
theorem Merged.pairwise (h : Merged le xs ys zs) (htrans : ∀ x y z, le x y → le y z → le x z)
    (htotal : ∀ x y, le x y ∨ le y x) (hxs : xs.Pairwise le) (hys : ys.Pairwise le) :
    zs.Pairwise le := by
  have hmerge : (xs.merge ys fun x y => le x y).Pairwise fun x y => decide (le x y) = true :=
    List.pairwise_merge (by simpa using htrans) (by simpa using htotal) xs ys
      (by simpa using hxs) (by simpa using hys)
  rw [merged_iff.mp h]
  simpa using hmerge

end Decidable

end Lib.Interleave
