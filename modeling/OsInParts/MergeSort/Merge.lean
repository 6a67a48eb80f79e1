import OsInParts.Lib.Loop
import OsInParts.Lib.Slice

/-!
# Merge — two neighbouring ranges of an array

`Segmentation, Paging, IPC/q1.c`: `merge`, with its two copy loops and its
three `while` loops on `i`, `j` and `k`. Every access is checked: `none` is
an access outside the array or a copy. Indices are natural numbers, since
`left`, `mid` and `right` are positions in the array.
-/

namespace OsInParts.MergeSort

open Lib.Loop Lib.Slice

/-- `arr[i] = x`. -/
def store (arr : List Int32) (i : Nat) (x : Int32) : Option (List Int32) :=
  if i < arr.length then some (arr.set i x) else none

/-- The array and the three indices. -/
structure MergeState where
  arr : List Int32
  i : Nat
  j : Nat
  k : Nat

/-- `arr[k] = x; k++`. -/
def MergeState.emit (s : MergeState) (x : Int32) : Option MergeState :=
  (store s.arr s.k x).map fun arr => { s with arr := arr, k := s.k + 1 }

/-- The body of the first loop. -/
def mergeBoth (leftArr rightArr : List Int32) (s : MergeState) : Option MergeState :=
  match leftArr[s.i]?, rightArr[s.j]? with
  | some x, some y =>
      if x ≤ y then (s.emit x).map fun s => { s with i := s.i + 1 }
      else (s.emit y).map fun s => { s with j := s.j + 1 }
  | _, _ => none

/-- The body of the second loop. -/
def mergeLeft (leftArr : List Int32) (s : MergeState) : Option MergeState :=
  leftArr[s.i]?.bind fun x => (s.emit x).map fun s => { s with i := s.i + 1 }

/-- The body of the third loop. -/
def mergeRight (rightArr : List Int32) (s : MergeState) : Option MergeState :=
  rightArr[s.j]?.bind fun y => (s.emit y).map fun s => { s with j := s.j + 1 }

/-- A copy loop: `n` elements from `start` on. -/
def copy (arr : List Int32) (start n : Nat) : Option (List Int32) :=
  (List.range n).mapM fun i => arr[start + i]?

/-- No loop makes more turns than there are elements. -/
def merge (arr : List Int32) (left mid right : Nat) : Option (List Int32) := do
  let n1 := mid - left + 1
  let n2 := right - mid
  let leftArr ← copy arr left n1
  let rightArr ← copy arr (mid + 1) n2
  let s : MergeState := { arr := arr, i := 0, j := 0, k := left }
  let s ← runWhile (fun s => s.i < n1 && s.j < n2) (mergeBoth leftArr rightArr) (n1 + n2 + 1) s
  let s ← runWhile (fun s => s.i < n1) (mergeLeft leftArr) (n1 + n2 + 1) s
  let s ← runWhile (fun s => s.j < n2) (mergeRight rightArr) (n1 + n2 + 1) s
  some s.arr

/-! ## What it computes -/

/-- Two lists merged, the first going first on ties. -/
def mergeLists (xs ys : List Int32) : List Int32 := List.merge xs ys fun x y => decide (x ≤ y)

theorem copy_eq {arr : List Int32} {start n : Nat} (h : start + n ≤ arr.length) :
    copy arr start n = some (slice arr start n) := by
  induction n with
  | zero => rfl
  | succ n ih =>
      have hlast : arr[start + n]? = some arr[start + n] := List.getElem?_eq_getElem (by omega)
      have hone : slice arr (start + n) 1 = [arr[start + n]] := by
        rw [slice, List.drop_eq_getElem_cons (by omega)]
        rfl
      have hih := ih (by omega)
      unfold copy at hih ⊢
      rw [List.range_succ, List.mapM_append, hih, slice_append, hone]
      simp [hlast]

/-- **The loop invariant**: what has been written, followed by the merge of what
has not been consumed, is the merge of the two copies. -/
structure Merging (arr leftArr rightArr : List Int32) (left : Nat) (s : MergeState) : Prop where
  i_le : s.i ≤ leftArr.length
  j_le : s.j ≤ rightArr.length
  k_eq : s.k = left + (s.i + s.j)
  written : ∃ out, out.length = s.i + s.j ∧ s.arr = splice arr left out ∧
    out ++ mergeLists (leftArr.drop s.i) (rightArr.drop s.j) = mergeLists leftArr rightArr

section Loops

variable {arr leftArr rightArr : List Int32} {left : Nat} {s : MergeState}

theorem Merging.emit (h : Merging arr leftArr rightArr left s)
    (hroom : left + leftArr.length + rightArr.length ≤ arr.length) {x : Int32} {i j : Nat}
    (hi : i ≤ leftArr.length) (hj : j ≤ rightArr.length) (hij : i + j = s.i + s.j + 1)
    (hnext : mergeLists (leftArr.drop s.i) (rightArr.drop s.j)
      = x :: mergeLists (leftArr.drop i) (rightArr.drop j)) :
    ∃ s', s.emit x = some s' ∧ s'.i = s.i ∧ s'.j = s.j ∧
      Merging arr leftArr rightArr left { s' with i := i, j := j } := by
  obtain ⟨out, hlen, harr, hout⟩ := h.written
  have hfit : left + out.length ≤ arr.length := by omega
  have hk : s.k < s.arr.length := by
    rw [harr, length_splice hfit, h.k_eq]
    omega
  refine ⟨{ s with arr := s.arr.set s.k x, k := s.k + 1 },
    by rw [MergeState.emit, store, if_pos hk]; rfl, rfl, rfl, hi, hj, ?_, out ++ [x], ?_, ?_, ?_⟩
  · show s.k + 1 = left + (i + j)
    rw [h.k_eq, hij]
    omega
  · rw [List.length_append, hlen]
    exact hij.symm
  · show s.arr.set s.k x = _
    rw [set_eq_splice hk, harr, h.k_eq, ← hlen, splice_append hfit]
  · rw [← hout, hnext, List.append_assoc]
    rfl

theorem drop_eq {xs : List Int32} {i : Nat} (hi : i < xs.length) :
    xs[i]? = some xs[i] ∧ xs.drop i = xs[i] :: xs.drop (i + 1) :=
  ⟨List.getElem?_eq_getElem hi, List.drop_eq_getElem_cons hi⟩

theorem mergeBoth_step (h : Merging arr leftArr rightArr left s)
    (hroom : left + leftArr.length + rightArr.length ≤ arr.length)
    (hi : s.i < leftArr.length) (hj : s.j < rightArr.length) :
    ∃ s', mergeBoth leftArr rightArr s = some s' ∧ Merging arr leftArr rightArr left s' ∧
      s'.i + s'.j = s.i + s.j + 1 := by
  obtain ⟨hx, hdropx⟩ := drop_eq hi
  obtain ⟨hy, hdropy⟩ := drop_eq hj
  unfold mergeBoth
  rw [hx, hy]
  dsimp only
  by_cases hle : leftArr[s.i] ≤ rightArr[s.j]
  · obtain ⟨s', hs', hi', hj', h'⟩ := h.emit hroom (x := leftArr[s.i]) (i := s.i + 1)
      (j := s.j) hi h.j_le (by omega) (by
        rw [hdropx, hdropy, mergeLists, List.cons_merge_cons, if_pos (decide_eq_true hle)]
        rfl)
    rw [if_pos hle, hs']
    refine ⟨{ s' with i := s'.i + 1 }, rfl, ?_, by show s'.i + 1 + s'.j = _; omega⟩
    rw [hi']
    rwa [← hj'] at h'
  · obtain ⟨s', hs', hi', hj', h'⟩ := h.emit hroom (x := rightArr[s.j]) (i := s.i)
      (j := s.j + 1) h.i_le hj (by omega) (by
        rw [hdropx, hdropy, mergeLists, List.cons_merge_cons,
          if_neg (by rw [decide_eq_true_eq]; exact hle)]
        rfl)
    rw [if_neg hle, hs']
    refine ⟨{ s' with j := s'.j + 1 }, rfl, ?_, by show s'.i + (s'.j + 1) = _; omega⟩
    rw [hj']
    rwa [← hi'] at h'

theorem mergeLeft_step (h : Merging arr leftArr rightArr left s)
    (hroom : left + leftArr.length + rightArr.length ≤ arr.length)
    (hi : s.i < leftArr.length) (hj : s.j = rightArr.length) :
    ∃ s', mergeLeft leftArr s = some s' ∧ Merging arr leftArr rightArr left s' ∧
      s'.i = s.i + 1 ∧ s'.j = s.j := by
  obtain ⟨hx, hdropx⟩ := drop_eq hi
  have hnil : rightArr.drop s.j = [] := List.drop_of_length_le hj.ge
  obtain ⟨s', hs', hi', hj', h'⟩ := h.emit hroom (x := leftArr[s.i]) (i := s.i + 1)
    (j := s.j) hi h.j_le (by omega) (by
      rw [hnil, hdropx, mergeLists, mergeLists, List.merge_right, List.merge_right])
  refine ⟨{ s' with i := s'.i + 1 }, by rw [mergeLeft, hx, Option.bind_some, hs']; rfl, ?_,
    by show s'.i + 1 = _; rw [hi'], hj'⟩
  rw [hi']
  rwa [← hj'] at h'

theorem mergeRight_step (h : Merging arr leftArr rightArr left s)
    (hroom : left + leftArr.length + rightArr.length ≤ arr.length)
    (hi : s.i = leftArr.length) (hj : s.j < rightArr.length) :
    ∃ s', mergeRight rightArr s = some s' ∧ Merging arr leftArr rightArr left s' ∧
      s'.i = s.i ∧ s'.j = s.j + 1 := by
  obtain ⟨hy, hdropy⟩ := drop_eq hj
  have hnil : leftArr.drop s.i = [] := List.drop_of_length_le hi.ge
  obtain ⟨s', hs', hi', hj', h'⟩ := h.emit hroom (x := rightArr[s.j]) (i := s.i)
    (j := s.j + 1) h.i_le hj (by omega) (by
      rw [hnil, hdropy, mergeLists, mergeLists, List.nil_merge, List.nil_merge])
  refine ⟨{ s' with j := s'.j + 1 }, by rw [mergeRight, hy, Option.bind_some, hs']; rfl, ?_,
    hi', by show s'.j + 1 = _; rw [hj']⟩
  rw [hj']
  rwa [← hi'] at h'

/-- The first loop ends with one of the copies consumed. -/
theorem run_mergeBoth (h : Merging arr leftArr rightArr left s)
    (hroom : left + leftArr.length + rightArr.length ≤ arr.length) {turns : Nat}
    (hturns : leftArr.length + rightArr.length < turns) :
    ∃ s', runWhile (fun s => s.i < leftArr.length && s.j < rightArr.length)
        (mergeBoth leftArr rightArr) turns s = some s' ∧
      Merging arr leftArr rightArr left s' ∧
      (s'.i = leftArr.length ∨ s'.j = rightArr.length) := by
  obtain ⟨s', hs', hI, hexit⟩ := runWhile_spec
    (c := fun s => s.i < leftArr.length && s.j < rightArr.length)
    (f := mergeBoth leftArr rightArr) (Merging arr leftArr rightArr left)
    (fun s => leftArr.length + rightArr.length - (s.i + s.j)) (fun s hI hc => by
      simp only [Bool.and_eq_true, decide_eq_true_eq] at hc
      obtain ⟨s', hs', hI', hlt⟩ := mergeBoth_step hI hroom hc.1 hc.2
      have hi := hI'.i_le
      have hj := hI'.j_le
      exact ⟨s', hs', hI', by omega⟩) h turns (by omega)
  refine ⟨s', hs', hI, ?_⟩
  have hi := hI.i_le
  have hj := hI.j_le
  simp only [Bool.and_eq_false_iff, decide_eq_false_iff_not] at hexit
  omega

/-- The second loop consumes what is left of the first copy; it only runs if
the second one is consumed. -/
theorem run_mergeLeft (h : Merging arr leftArr rightArr left s)
    (hroom : left + leftArr.length + rightArr.length ≤ arr.length)
    (hor : s.i = leftArr.length ∨ s.j = rightArr.length) {turns : Nat}
    (hturns : leftArr.length < turns) :
    ∃ s', runWhile (fun s => s.i < leftArr.length) (mergeLeft leftArr) turns s = some s' ∧
      Merging arr leftArr rightArr left s' ∧ s'.i = leftArr.length := by
  obtain ⟨s', hs', hI, hexit⟩ := runWhile_spec (c := fun s => s.i < leftArr.length)
    (f := mergeLeft leftArr)
    (fun s => Merging arr leftArr rightArr left s ∧
      (s.i = leftArr.length ∨ s.j = rightArr.length))
    (fun s => leftArr.length - s.i) (fun s hs hc => by
      simp only [decide_eq_true_eq] at hc
      obtain ⟨s', hs', hI', hi', hj'⟩ := mergeLeft_step hs.1 hroom hc
        (hs.2.resolve_left hc.ne)
      exact ⟨s', hs', ⟨hI', .inr (by rw [hj', hs.2.resolve_left hc.ne])⟩, by omega⟩)
    ⟨h, hor⟩ turns (by omega)
  refine ⟨s', hs', hI.1, hI.1.i_le.antisymm ?_⟩
  simpa only [decide_eq_false_iff_not, not_lt] using hexit

/-- The third loop consumes what is left of the second copy. -/
theorem run_mergeRight (h : Merging arr leftArr rightArr left s)
    (hroom : left + leftArr.length + rightArr.length ≤ arr.length)
    (hi : s.i = leftArr.length) {turns : Nat} (hturns : rightArr.length < turns) :
    ∃ s', runWhile (fun s => s.j < rightArr.length) (mergeRight rightArr) turns s = some s' ∧
      s'.arr = splice arr left (mergeLists leftArr rightArr) := by
  obtain ⟨s', hs', ⟨hI, hi'⟩, hexit⟩ := runWhile_spec (c := fun s => s.j < rightArr.length)
    (f := mergeRight rightArr)
    (fun s => Merging arr leftArr rightArr left s ∧ s.i = leftArr.length)
    (fun s => rightArr.length - s.j) (fun s hs hc => by
      simp only [decide_eq_true_eq] at hc
      obtain ⟨s', hs', hI', hi', hj'⟩ := mergeRight_step hs.1 hroom hs.2 hc
      exact ⟨s', hs', ⟨hI', hi'.trans hs.2⟩, by omega⟩)
    ⟨h, hi⟩ turns (by omega)
  refine ⟨s', hs', ?_⟩
  obtain ⟨out, -, harr, hout⟩ := hI.written
  simp only [decide_eq_false_iff_not, not_lt] at hexit
  rw [List.drop_of_length_le hexit, List.drop_of_length_le hi'.ge, mergeLists, List.nil_merge,
    List.append_nil] at hout
  rw [harr, hout]

end Loops

/-- **`merge`** accesses only the range, and leaves the merge of its two halves
there and everything else alone. -/
theorem merge_eq {arr : List Int32} {left mid right : Nat} (hl : left ≤ mid) (hm : mid < right)
    (hr : right < arr.length) :
    merge arr left mid right = some (splice arr left
      (mergeLists (slice arr left (mid - left + 1)) (slice arr (mid + 1) (right - mid)))) := by
  have hn1 : (slice arr left (mid - left + 1)).length = mid - left + 1 := length_slice (by omega)
  have hn2 : (slice arr (mid + 1) (right - mid)).length = right - mid := length_slice (by omega)
  rw [merge, copy_eq (by omega)]
  simp only [Option.bind_eq_bind, Option.bind_some]
  rw [copy_eq (by omega)]
  simp only [Option.bind_some]
  generalize slice arr left (mid - left + 1) = leftArr at hn1 ⊢
  generalize slice arr (mid + 1) (right - mid) = rightArr at hn2 ⊢
  have hroom : left + leftArr.length + rightArr.length ≤ arr.length := by omega
  have hstart : Merging arr leftArr rightArr left { arr := arr, i := 0, j := 0, k := left } :=
    ⟨Nat.zero_le _, Nat.zero_le _, rfl, [], rfl, by simp [splice], rfl⟩
  rw [← hn1, ← hn2]
  obtain ⟨s₁, h1, hI₁, hor⟩ := run_mergeBoth hstart hroom (Nat.lt_succ_self _)
  obtain ⟨s₂, h2, hI₂, hi⟩ := run_mergeLeft hI₁ hroom hor
    (Nat.lt_succ_of_le (Nat.le_add_right _ rightArr.length))
  obtain ⟨s₃, h3, harr⟩ := run_mergeRight hI₂ hroom hi
    (Nat.lt_succ_of_le (Nat.le_add_left _ leftArr.length))
  rw [h1, Option.bind_some, h2, Option.bind_some, h3, Option.bind_some, harr]

end OsInParts.MergeSort
