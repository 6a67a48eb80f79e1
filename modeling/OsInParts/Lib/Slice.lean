import Mathlib.Data.List.Basic

/-!
# Slice — consecutive entries of a list, read and overwritten

`slice a l n` is the `n` entries from `l` on, `splice a l xs` is `a` with the
entries from `l` on overwritten by `xs`. Reading back what was written,
writing back what was read, and reading somewhere else are the lemmas.
-/

namespace Lib.Slice

variable {α : Type*} {a xs ys : List α} {l m n : ℕ}

def slice (a : List α) (l n : ℕ) : List α := (a.drop l).take n

def splice (a : List α) (l : ℕ) (xs : List α) : List α :=
  a.take l ++ xs ++ a.drop (l + xs.length)

@[simp] theorem length_slice (h : l + n ≤ a.length) : (slice a l n).length = n := by
  rw [slice, List.length_take, List.length_drop]
  omega

@[simp] theorem length_splice (h : l + xs.length ≤ a.length) :
    (splice a l xs).length = a.length := by
  rw [splice, List.length_append, List.length_append, List.length_take, List.length_drop]
  omega

theorem getElem?_slice {i : ℕ} (hi : i < n) : (slice a l n)[i]? = a[l + i]? := by
  rw [slice, List.getElem?_take_of_lt hi, List.getElem?_drop]

theorem slice_append (a : List α) (l m n : ℕ) :
    slice a l (m + n) = slice a l m ++ slice a (l + m) n := by
  rw [slice, slice, slice, List.take_add, List.drop_drop]

theorem getElem?_splice_of_lt {i : ℕ} (hl : l ≤ a.length) (hi : i < l) :
    (splice a l xs)[i]? = a[i]? := by
  rw [splice, List.append_assoc, List.getElem?_append_left (by rw [List.length_take]; omega),
    List.getElem?_take_of_lt hi]

theorem getElem?_splice_of_ge {i : ℕ} (h : l + xs.length ≤ a.length)
    (hi : l + xs.length ≤ i) : (splice a l xs)[i]? = a[i]? := by
  have hlen : (a.take l ++ xs).length = l + xs.length := by
    rw [List.length_append, List.length_take]
    omega
  rw [splice, List.getElem?_append_right (by omega), hlen, List.getElem?_drop]
  congr 1
  omega

/-- Reading what was written. -/
theorem slice_splice_self (hl : l ≤ a.length) : slice (splice a l xs) l xs.length = xs := by
  rw [slice, splice, List.append_assoc, List.drop_append_of_le_length
      (by rw [List.length_take]; omega),
    List.drop_of_length_le (by rw [List.length_take]; omega), List.nil_append,
    List.take_left]

/-- Reading before what was written. -/
theorem slice_splice_of_le (hl : l ≤ a.length) (hm : m + n ≤ l) :
    slice (splice a l xs) m n = slice a m n := by
  refine List.ext_getElem? fun i => ?_
  by_cases hi : i < n
  · rw [getElem?_slice hi, getElem?_slice hi, getElem?_splice_of_lt hl (by omega)]
  · rw [List.getElem?_eq_none (by rw [slice, List.length_take]; omega),
      List.getElem?_eq_none (by rw [slice, List.length_take]; omega)]

/-- Reading behind what was written. -/
theorem slice_splice_of_ge (h : l + xs.length ≤ a.length) (hm : l + xs.length ≤ m) :
    slice (splice a l xs) m n = slice a m n := by
  refine List.ext_getElem? fun i => ?_
  by_cases hi : i < n
  · rw [getElem?_slice hi, getElem?_slice hi, getElem?_splice_of_ge h (by omega)]
  · rw [List.getElem?_eq_none (by rw [slice, List.length_take]; omega),
      List.getElem?_eq_none (by rw [slice, List.length_take]; omega)]

/-- Writing back what was read. -/
theorem splice_slice_self (h : l + n ≤ a.length) : splice a l (slice a l n) = a := by
  rw [splice, length_slice h, slice, List.append_assoc, ← List.drop_drop,
    List.take_append_drop, List.take_append_drop]

/-- The last write wins. -/
theorem splice_splice (hl : l ≤ a.length) (h : xs.length ≤ ys.length) :
    splice (splice a l xs) l ys = splice a l ys := by
  have htake : (splice a l xs).take l = a.take l := by
    rw [splice, List.append_assoc, List.take_append_of_le_length
      (by rw [List.length_take]; omega), List.take_take, Nat.min_self]
  have hdrop : (splice a l xs).drop (l + ys.length) = a.drop (l + ys.length) := by
    rw [splice, List.drop_append, List.drop_of_length_le
      (by rw [List.length_append, List.length_take]; omega), List.nil_append, List.drop_drop]
    congr 1
    rw [List.length_append, List.length_take]
    omega
  rw [splice, htake, hdrop]
  rfl

/-- Writing next to what was written. -/
theorem splice_append (h : l + xs.length ≤ a.length) :
    splice (splice a l xs) (l + xs.length) ys = splice a l (xs ++ ys) := by
  have hlen : (a.take l ++ xs).length = l + xs.length := by
    rw [List.length_append, List.length_take]
    omega
  have htake : (splice a l xs).take (l + xs.length) = a.take l ++ xs := by
    rw [splice, List.take_append_of_le_length (by omega), List.take_of_length_le (by omega)]
  have hdrop : (splice a l xs).drop (l + xs.length + ys.length)
      = a.drop (l + (xs ++ ys).length) := by
    rw [splice, List.drop_append, List.drop_of_length_le (by omega), List.nil_append,
      List.drop_drop, hlen, List.length_append]
    congr 1
    omega
  rw [splice, htake, hdrop, splice]
  simp only [List.append_assoc]

theorem set_eq_splice {i : ℕ} (hi : i < a.length) (x : α) : a.set i x = splice a i [x] := by
  rw [List.set_eq_take_append_cons_drop, if_pos hi, splice, List.append_assoc]
  rfl

end Lib.Slice
