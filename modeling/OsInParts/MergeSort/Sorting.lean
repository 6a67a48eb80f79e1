import OsInParts.MergeSort.ProcessTree

/-!
# Sorting — what every process of the tree holds

`Sorting arr left right p` says that `p` runs `mergesort(arr, left, right)`,
and `Sending arr left right p pipefd` that `p` is the child that sorts
`arr[left..right]` and writes it to `pipefd`: the bytes in the pipe and the
bytes to go are the sorted half at every moment. Both survive every event
that is not a failure.
-/

namespace OsInParts.MergeSort

open Lib.Slice Lib.Words

/-! ## Sorted lists -/

def sorted (xs : List Int32) : List Int32 := xs.mergeSort fun x y => decide (x ≤ y)

theorem sorted_perm (xs : List Int32) : (sorted xs).Perm xs := List.mergeSort_perm _ _

@[simp] theorem length_sorted (xs : List Int32) : (sorted xs).length = xs.length :=
  (sorted_perm xs).length_eq

theorem le_trans_bool (x y z : Int32) :
    decide (x ≤ y) = true → decide (y ≤ z) = true → decide (x ≤ z) = true := by
  simp only [decide_eq_true_eq]
  exact Int32.le_trans

theorem le_total_bool (x y : Int32) : (decide (x ≤ y) || decide (y ≤ x)) = true := by
  rw [Bool.or_eq_true, decide_eq_true_eq, decide_eq_true_eq]
  exact Int32.le_total x y

theorem pairwise_sorted (xs : List Int32) :
    (sorted xs).Pairwise fun x y => decide (x ≤ y) = true :=
  List.pairwise_mergeSort le_trans_bool le_total_bool xs

/-- Merging two sorted lists sorts their concatenation: both are ordered, and
each is a permutation of the other. -/
theorem mergeLists_sorted (xs ys : List Int32) :
    mergeLists (sorted xs) (sorted ys) = sorted (xs ++ ys) := by
  have hperm : (mergeLists (sorted xs) (sorted ys)).Perm (sorted (xs ++ ys)) :=
    ((List.merge_perm_append _).trans ((sorted_perm xs).append (sorted_perm ys))).trans
      (sorted_perm (xs ++ ys)).symm
  refine hperm.eq_of_pairwise (fun x y _ _ hxy hyx => ?_)
    (List.pairwise_merge le_trans_bool le_total_bool _ _ (pairwise_sorted xs)
      (pairwise_sorted ys)) (pairwise_sorted _)
  rw [decide_eq_true_eq] at hxy hyx
  exact Int32.le_antisymm hxy hyx

/-! ## Sorted ranges -/

/-- `arr[left..right]`, sorted. -/
def sortedSlice (arr : List Int32) (left right : Nat) : List Int32 :=
  sorted (slice arr left (right + 1 - left))

def sortRange (arr : List Int32) (left right : Nat) : List Int32 :=
  splice arr left (sortedSlice arr left right)

theorem mid_bounds {left right : Nat} (h : left < right) :
    left ≤ mid left right ∧ mid left right < right := by
  unfold mid
  omega

theorem length_sortedSlice {arr : List Int32} {left right : Nat} (hl : left ≤ right + 1)
    (hr : right < arr.length) : (sortedSlice arr left right).length = right + 1 - left := by
  rw [sortedSlice, length_sorted, length_slice (by omega)]

theorem sortRange_of_ge {arr : List Int32} {left right : Nat} (h : right ≤ left)
    (hr : right < arr.length) : sortRange arr left right = arr := by
  rcases h.eq_or_lt with rfl | hlt
  · have hone : slice arr right 1 = [arr[right]] := by
      rw [slice, List.drop_eq_getElem_cons hr]
      rfl
    rw [sortRange, sortedSlice, Nat.add_sub_cancel_left, hone, sorted,
      List.mergeSort_singleton, ← hone, splice_slice_self hr]
  · rw [sortRange, sortedSlice, Nat.sub_eq_zero_of_le hlt, slice, List.take_zero, sorted,
      List.mergeSort_nil, splice, List.append_nil, List.length_nil, Nat.add_zero,
      List.take_append_drop]

/-- The whole half is read back. -/
theorem readInto_encode {arr xs : List Int32} {left n : Nat} (hn : xs.length = n)
    (h : left + n ≤ arr.length) : readInto arr left n (encode xs) = splice arr left xs := by
  have htake : (encode xs).take (4 * n) = encode xs :=
    List.take_of_length_le (by rw [length_encode, hn])
  have hrest : (encode (slice arr left n)).drop (encode xs).length = [] :=
    List.drop_of_length_le (by rw [length_encode, length_encode, length_slice h, hn])
  rw [readInto, htake, hrest, List.append_nil, decode_encode]

/-- `arr[left..right]`. -/
def part (arr : List Int32) (left right : Nat) : List Int32 := slice arr left (right + 1 - left)

/-- The two halves make up the whole part. -/
theorem part_append {arr : List Int32} {left right : Nat} (hlr : left < right) :
    part arr left (mid left right) ++ part arr (mid left right + 1) right
      = part arr left right := by
  obtain ⟨hl, hm⟩ := mid_bounds hlr
  have hsplit : right + 1 - left
      = mid left right + 1 - left + (right + 1 - (mid left right + 1)) := by omega
  rw [part, part, part, hsplit, slice_append,
    show left + (mid left right + 1 - left) = mid left right + 1 by omega]

/-- `merge` on whatever stands in the two halves. -/
theorem merge_parts {arr xs ys : List Int32} {left right : Nat} (hlr : left < right)
    (hr : right < arr.length) (hx : xs.length = mid left right + 1 - left)
    (hy : ys.length = right - mid left right) :
    merge (splice (splice arr left xs) (mid left right + 1) ys) left (mid left right) right
      = some (splice arr left (mergeLists xs ys)) := by
  obtain ⟨hl, hm⟩ := mid_bounds hlr
  set m := mid left right
  have hxy : splice (splice arr left xs) (m + 1) ys = splice arr left (xs ++ ys) := by
    rw [show m + 1 = left + xs.length by omega]
    exact splice_append (by omega)
  have hleft : slice (splice arr left (xs ++ ys)) left (m - left + 1) = xs := by
    rw [← hxy, slice_splice_of_le (by rw [length_splice (by omega)]; omega) (by omega),
      show m - left + 1 = xs.length by omega, slice_splice_self (by omega)]
  have hright : slice (splice arr left (xs ++ ys)) (m + 1) (right - m) = ys := by
    rw [← hxy, ← hy, slice_splice_self (by rw [length_splice (by omega)]; omega)]
  have hlen : (splice arr left (xs ++ ys)).length = arr.length :=
    length_splice (by rw [List.length_append]; omega)
  have hmerged : (mergeLists xs ys).length = xs.length + ys.length := List.length_merge _ _ _
  rw [hxy, merge_eq hl hm (by rw [hlen]; exact hr), hleft, hright,
    splice_splice (by omega) (by rw [List.length_append, hmerged])]

/-- **The merge of the two halves that came back** is the sorted range. -/
theorem merge_halves {arr : List Int32} {left right : Nat} (hlr : left < right)
    (hr : right < arr.length) :
    merge (splice (splice arr left (sortedSlice arr left (mid left right)))
        (mid left right + 1) (sortedSlice arr (mid left right + 1) right))
      left (mid left right) right = some (sortRange arr left right) := by
  obtain ⟨hl, hm⟩ := mid_bounds hlr
  have hleft : (sortedSlice arr left (mid left right)).length = mid left right + 1 - left :=
    length_sortedSlice (by omega) (by omega)
  have hright : (sortedSlice arr (mid left right + 1) right).length
      = right + 1 - (mid left right + 1) := length_sortedSlice (by omega) hr
  rw [merge_parts hlr hr hleft (by omega), sortRange, sortedSlice, sortedSlice, sortedSlice,
    mergeLists_sorted, ← part, ← part, part_append hlr, part]

/-- `arr'` is `arr` with `arr[left..right]` sorted in non-decreasing order. -/
structure SortedRange (arr arr' : List Int32) (left right : Nat) : Prop where
  length_eq : arr'.length = arr.length
  ordered : (slice arr' left (right + 1 - left)).Pairwise (· ≤ ·)
  perm : (slice arr' left (right + 1 - left)).Perm (slice arr left (right + 1 - left))
  outside : ∀ i, i < left ∨ right < i → arr'[i]? = arr[i]?

theorem sortRange_spec {arr : List Int32} {left right : Nat} (hr : right < arr.length) :
    SortedRange arr (sortRange arr left right) left right := by
  by_cases hl : left ≤ right + 1
  · have hlen := length_sortedSlice hl hr
    have hread : slice (sortRange arr left right) left (right + 1 - left)
        = sortedSlice arr left right := by
      rw [← hlen, sortRange, slice_splice_self (by omega)]
    refine ⟨length_splice (by omega), ?_, hread ▸ sorted_perm _, ?_⟩
    · rw [hread]
      exact (pairwise_sorted _).imp of_decide_eq_true
    · rintro i (hi | hi)
      · exact getElem?_splice_of_lt (by omega) hi
      · exact getElem?_splice_of_ge (by omega) (by omega)
  · -- an empty range
    rw [sortRange_of_ge (by omega) hr]
    have hnil : slice arr left (right + 1 - left) = [] := by
      rw [show right + 1 - left = 0 by omega]
      rfl
    exact ⟨rfl, hnil ▸ .nil, .refl _, fun _ _ => rfl⟩

/-! ## The invariant -/

mutual

/-- `p` runs `mergesort(arr, left, right)`, with every phase's memory as it
must be. -/
inductive Sorting : List Int32 → Nat → Nat → Proc → Prop where
  | call (arr left right) : Sorting arr left right (.call arr left right)
  | pipe1 {arr left right} : left < right → Sorting arr left right (.pipe1 arr left right)
  | pipe2 {arr left right} : left < right → Sorting arr left right (.pipe2 arr left right)
  | fork1 {arr left right} : left < right → Sorting arr left right (.fork1 arr left right)
  | fork2 {arr left right c₁ q₁} : left < right → Sending arr left (mid left right) c₁ q₁ →
      Sorting arr left right (.fork2 arr left right c₁ q₁)
  | wait {arr left right w₁ w₂ c₁ q₁ c₂ q₂} : left < right →
      Sending arr left (mid left right) c₁ q₁ → Sending arr (mid left right + 1) right c₂ q₂ →
      (w₁ = true → c₁ = .exited) → (w₂ = true → c₂ = .exited) →
      Sorting arr left right (.wait arr left right w₁ w₂ c₁ q₁ c₂ q₂)
  | read1 {arr left right} : left < right →
      Sorting arr left right (.read1 arr left right
        .exited (encode (sortedSlice arr left (mid left right)))
        .exited (encode (sortedSlice arr (mid left right + 1) right)))
  | read2 {arr left right} : left < right →
      Sorting arr left right (.read2 (splice arr left (sortedSlice arr left (mid left right)))
        left right .exited .exited (encode (sortedSlice arr (mid left right + 1) right)))
  | merge {arr left right} : left < right →
      Sorting arr left right (.merge
        (splice (splice arr left (sortedSlice arr left (mid left right)))
          (mid left right + 1) (sortedSlice arr (mid left right + 1) right)) left right)
  | returned {arr left right} :
      Sorting arr left right (.returned (sortRange arr left right))

/-- `p` sorts `arr[left..right]` and writes it to the pipe `pipefd`. -/
inductive Sending : List Int32 → Nat → Nat → Proc → List UInt8 → Prop where
  | sorting {arr left right p} : Sorting arr left right p → Sending arr left right p []
  | writing {arr left right bytes started pipefd} :
      pipefd ++ bytes = encode (sortedSlice arr left right) →
      Sending arr left right (.writing bytes started) pipefd
  | exited {arr left right} :
      Sending arr left right .exited (encode (sortedSlice arr left right))

end

/-- A process that merge sorts has not exited. -/
theorem Sorting.not_ended {arr : List Int32} {left right : Nat} {p : Proc}
    (h : Sorting arr left right p) : p.ended = false := by
  cases h <;> rfl

/-- A child that has exited has sent all of its half. -/
theorem Sending.ended {arr : List Int32} {left right : Nat} {p : Proc} {pipefd : List UInt8}
    (h : Sending arr left right p pipefd) (hended : p.ended = true) :
    p = .exited ∧ pipefd = encode (sortedSlice arr left right) := by
  cases h with
  | sorting h =>
      rw [h.not_ended] at hended
      cases hended
  | writing => cases hended
  | exited => exact ⟨rfl, rfl⟩

/-! ## Every step keeps it -/

section Step

variable {cap : Nat → Nat → Nat} {arr : List Int32} {left right capacity n : Nat} {e : Event}
  {p p' : Proc} {pipefd pipefd' : List UInt8}

@[simp] theorem step_writing (bytes : List UInt8) (started : Bool) :
    step cap e (.writing bytes started) = none := by
  cases e <;> rfl

@[simp] theorem step_exited : step cap e .exited = none := by
  cases e <;> rfl

/-- A child that has exited does nothing. -/
@[simp] theorem child_exited : child capacity left n (step cap e) e .exited pipefd = none := by
  cases e <;> rfl

/-- One event of a child, where `mergesort` itself keeps the invariant. -/
theorem Sending.child_step
    (ih : ∀ p p', Sorting arr left right p → step cap e p = some p' → Sorting arr left right p')
    (hn : n = right + 1 - left) (hl : left ≤ right + 1) (hr : right < arr.length)
    (hok : e.faultFree = true) (h : Sending arr left right p pipefd)
    (hs : child capacity left n (step cap e) e p pipefd = some (p', pipefd')) :
    Sending arr left right p' pipefd' := by
  unfold child at hs
  split at hs
  · -- the sorted half goes into `write`
    cases hs
    cases h with
    | sorting h =>
        cases h
        refine .writing ?_
        rw [List.nil_append, sortRange, hn, ← length_sortedSlice hl hr,
          slice_splice_self (by omega)]
  · split at hs
    · cases hs
      cases h with
      | sorting h => cases h
      | writing hbytes =>
          refine .writing ?_
          rw [List.append_assoc, List.take_append_drop, hbytes]
    · cases hs
  · cases hs
    cases h with
    | sorting h => cases h
    | writing hbytes =>
        rw [List.append_nil] at hbytes
        exact hbytes ▸ .exited
  · cases hok
  · obtain ⟨p₁, hp₁, heq⟩ := Option.map_eq_some_iff.mp hs
    cases heq
    cases h with
    | sorting h => exact .sorting (ih _ _ h hp₁)
    | writing => rw [step_writing] at hp₁; cases hp₁
    | exited => rw [step_exited] at hp₁; cases hp₁

/-- The process itself goes on. -/
theorem Sorting.step_self (hr : right < arr.length) (h : Sorting arr left right p)
    (hs : step cap .self p = some p') : Sorting arr left right p' := by
  cases h with
  | call =>
      rw [step] at hs
      split at hs
      · cases hs
        exact .pipe1 ‹_›
      · cases hs
        have hself : Sorting arr left right (.returned (sortRange arr left right)) := .returned
        rwa [sortRange_of_ge (by omega) hr] at hself
  | pipe1 hlr => cases hs; exact .pipe2 hlr
  | pipe2 hlr => cases hs; exact .fork1 hlr
  | fork1 hlr => cases hs; exact .fork2 hlr (.sorting (.call _ _ _))
  | fork2 hlr h₁ => cases hs; exact .wait hlr h₁ (.sorting (.call _ _ _)) nofun nofun
  | wait hlr h₁ h₂ hw₁ hw₂ =>
      rename_i w₁ w₂ c₁ q₁ c₂ q₂
      cases w₁ <;> cases w₂ <;> try cases hs
      obtain rfl := hw₁ rfl
      obtain rfl := hw₂ rfl
      obtain rfl := (h₁.ended rfl).2
      obtain rfl := (h₂.ended rfl).2
      exact .read1 hlr
  | read1 hlr =>
      obtain ⟨hl, hm⟩ := mid_bounds hlr
      rw [step] at hs
      split at hs
      · cases hs
        rw [readInto_encode (by rw [length_sortedSlice (by omega) (by omega)]; omega)
          (by omega)]
        exact .read2 hlr
      · cases hs
  | read2 hlr =>
      obtain ⟨hl, hm⟩ := mid_bounds hlr
      have hA : (sortedSlice arr left (mid left right)).length = mid left right + 1 - left :=
        length_sortedSlice (by omega) (by omega)
      rw [step] at hs
      split at hs
      · cases hs
        rw [readInto_encode (by rw [length_sortedSlice (by omega) hr]; omega)
          (by rw [length_splice (by omega)]; omega)]
        exact .merge hlr
      · cases hs
  | merge hlr =>
      rw [step, merge_halves hlr hr] at hs
      cases hs
      exact .returned
  | returned => cases hs

/-- A child is waited for: it has exited, so its half is in the pipe. -/
theorem Sorting.step_reap (hreap : e = .reap1 ∨ e = .reap2) (h : Sorting arr left right p)
    (hs : step cap e p = some p') : Sorting arr left right p' := by
  cases h with
  | wait hlr h₁ h₂ hw₁ hw₂ =>
      rename_i w₁ w₂ c₁ q₁ c₂ q₂
      rcases hreap with rfl | rfl
      · cases w₁
        · rw [step] at hs
          split at hs
          · cases hs
            exact .wait hlr h₁ h₂ (fun _ => (h₁.ended ‹_›).1) hw₂
          · cases hs
        · cases hs
      · cases w₂
        · rw [step] at hs
          split at hs
          · cases hs
            exact .wait hlr h₁ h₂ hw₁ fun _ => (h₂.ended ‹_›).1
          · cases hs
        · cases w₁ <;> cases hs
  | _ => rcases hreap with rfl | rfl <;> cases hs

/-- The first child, or a process under it, goes on. -/
theorem Sorting.step_left
    (ih : ∀ r p p', r < arr.length → Sorting arr left r p → step cap e p = some p' →
      Sorting arr left r p')
    (hr : right < arr.length) (hok : e.faultFree = true) (h : Sorting arr left right p)
    (hs : step cap (.left e) p = some p') : Sorting arr left right p' := by
  cases h with
  | fork2 hlr h₁ =>
      obtain ⟨hl, hm⟩ := mid_bounds hlr
      obtain ⟨⟨c₁, q₁⟩, hc, heq⟩ := Option.map_eq_some_iff.mp hs
      cases heq
      exact .fork2 hlr (h₁.child_step (fun _ _ => ih _ _ _ (by omega)) (by omega) (by omega)
        (by omega) hok hc)
  | wait hlr h₁ h₂ hw₁ hw₂ =>
      obtain ⟨hl, hm⟩ := mid_bounds hlr
      obtain ⟨⟨c₁, q₁⟩, hc, heq⟩ := Option.map_eq_some_iff.mp hs
      cases heq
      refine .wait hlr (h₁.child_step (fun _ _ => ih _ _ _ (by omega)) (by omega) (by omega)
        (by omega) hok hc) h₂ (fun hw => ?_) hw₂
      obtain rfl := hw₁ hw
      rw [child_exited] at hc
      cases hc
  | read1 => simp [step] at hs
  | read2 => simp [step] at hs
  | _ => cases hs

/-- The second child, or a process under it, goes on. -/
theorem Sorting.step_right
    (ih : ∀ l p p', Sorting arr l right p → step cap e p = some p' → Sorting arr l right p')
    (hr : right < arr.length) (hok : e.faultFree = true) (h : Sorting arr left right p)
    (hs : step cap (.right e) p = some p') : Sorting arr left right p' := by
  cases h with
  | wait hlr h₁ h₂ hw₁ hw₂ =>
      obtain ⟨hl, hm⟩ := mid_bounds hlr
      obtain ⟨⟨c₂, q₂⟩, hc, heq⟩ := Option.map_eq_some_iff.mp hs
      cases heq
      refine .wait hlr h₁ (h₂.child_step (ih _) (by omega) (by omega) hr hok hc) hw₁
        (fun hw => ?_)
      obtain rfl := hw₂ hw
      rw [child_exited] at hc
      cases hc
  | read1 => simp [step] at hs
  | read2 => simp [step] at hs
  | _ => cases hs

end Step

/-- **The invariant is kept** by every event that is not a failure, by
induction on the way to the process it happens in. -/
theorem Sorting.step_preserves {cap : Nat → Nat → Nat} (e : Event) {arr : List Int32}
    {left right : Nat} {p p' : Proc} (hr : right < arr.length) (hok : e.faultFree = true)
    (h : Sorting arr left right p) (hs : step cap e p = some p') :
    Sorting arr left right p' := by
  induction e generalizing left right p p' with
  | self => exact h.step_self hr hs
  | fail => cases hok
  | write k => cases h <;> cases hs
  | reap1 => exact h.step_reap (.inl rfl) hs
  | reap2 => exact h.step_reap (.inr rfl) hs
  | left e ih => exact h.step_left (fun _ _ _ hr h hs => ih hr hok h hs) hr hok hs
  | right e ih => exact h.step_right (fun _ _ _ h hs => ih hr hok h hs) hr hok hs

end OsInParts.MergeSort
