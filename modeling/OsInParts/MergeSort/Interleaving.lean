import OsInParts.Lib.Interleave
import OsInParts.MergeSort.Merge

/-!
# Interleaving — `merge` on halves in any order

`merge` always takes the front of the left half if it is not greater than that
of the right half, whether or not the halves are sorted.
-/

namespace OsInParts.MergeSort

open Lib.Interleave Lib.Slice

/-- **What `merge` does** to `arr[left..right]`, and that it does nothing else. -/
structure Merges (arr : List Int32) (left mid right : Nat) (arr' : List Int32) : Prop where
  length : arr'.length = arr.length
  outside : ∀ i, i < left ∨ right < i → arr'[i]? = arr[i]?
  /-- each element is taken from the front of a half, on ties from the left one -/
  interleaved : Merged (· ≤ ·) (slice arr left (mid - left + 1))
    (slice arr (mid + 1) (right - mid)) (slice arr' left (right - left + 1))
  keepsLeft : (slice arr left (mid - left + 1)).Sublist (slice arr' left (right - left + 1))
  keepsRight : (slice arr (mid + 1) (right - mid)).Sublist (slice arr' left (right - left + 1))
  perm : (slice arr' left (right - left + 1)).Perm (slice arr left (right - left + 1))
  sorted : (slice arr left (mid - left + 1)).Pairwise (· ≤ ·) →
    (slice arr (mid + 1) (right - mid)).Pairwise (· ≤ ·) →
      (slice arr' left (right - left + 1)).Pairwise (· ≤ ·)

variable {arr zs : List Int32} {left mid right : Nat}

theorem slice_halves (arr : List Int32) (hl : left ≤ mid) (hm : mid < right) :
    slice arr left (mid - left + 1) ++ slice arr (mid + 1) (right - mid)
      = slice arr left (right - left + 1) := by
  have hnext : left + (mid - left + 1) = mid + 1 := by omega
  have hlen : right - left + 1 = mid - left + 1 + (right - mid) := by omega
  rw [hlen, slice_append arr left (mid - left + 1), hnext]

/-- Writing a merge of the two halves over them. -/
theorem Merges.of_merged (hl : left ≤ mid) (hm : mid < right) (hr : right < arr.length)
    (h : Merged (· ≤ ·) (slice arr left (mid - left + 1)) (slice arr (mid + 1) (right - mid)) zs) :
    Merges arr left mid right (splice arr left zs) := by
  have hperm := h.perm
  rw [slice_halves arr hl hm] at hperm
  have hlen : zs.length = right - left + 1 := hperm.length_eq.trans (length_slice (by omega))
  have hwritten : slice (splice arr left zs) left (right - left + 1) = zs := by
    rw [← hlen]
    exact slice_splice_self (by omega)
  constructor
  · exact length_splice (by omega)
  · intro i hi
    rcases hi with hlt | hgt
    · exact getElem?_splice_of_lt (by omega) hlt
    · exact getElem?_splice_of_ge (by omega) (by omega)
  · rw [hwritten]
    exact h
  · rw [hwritten]
    exact h.left_sublist
  · rw [hwritten]
    exact h.right_sublist
  · rw [hwritten]
    exact hperm
  · rw [hwritten]
    exact h.pairwise (fun _ _ _ => Int32.le_trans) Int32.le_total

/-- **`merge`**, for every array and every two neighbouring ranges in it: no
access is outside, every loop ends, and `Merges` says what is left. -/
theorem merge_merges (hl : left ≤ mid) (hm : mid < right) (hr : right < arr.length) :
    ∃ arr', merge arr left mid right = some arr' ∧ Merges arr left mid right arr' := by
  refine ⟨_, merge_eq hl hm hr, ?_⟩
  apply Merges.of_merged hl hm hr
  exact merged_merge _ _

/-- The halves `3 4` and `3 1`: on the tie the left `3` is first. -/
theorem merge_merges_tie : Merges [5, 3, 4, 3, 1, 0] 1 2 4 [5, 3, 3, 1, 4, 0] := by
  obtain ⟨arr', hmerge, h⟩ : ∃ arr', merge [5, 3, 4, 3, 1, 0] 1 2 4 = some arr' ∧
      Merges [5, 3, 4, 3, 1, 0] 1 2 4 arr' :=
    merge_merges (by decide) (by decide) (by decide)
  have hrun : merge [5, 3, 4, 3, 1, 0] 1 2 4 = some [5, 3, 3, 1, 4, 0] := by decide
  rw [hrun] at hmerge
  cases hmerge
  exact h

end OsInParts.MergeSort
