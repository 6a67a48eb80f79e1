import OsInParts.MergeSort.Sorting

/-!
# Failures — the process tree when system calls fail

A child that fails leaves an empty pipe: its parent, which has waited for it
without looking at its status, reads an end of file and goes on with what its
own copy of the half holds. `Tree O arr left right p` says what `p` can be
after any events at all: `O` is what a process may leave in its part, and
over which halves an end of file may be read.

Processes whose parent has exited (`Orphan`) run on; nobody reads what they
write.
-/

namespace OsInParts.MergeSort

open Lib.Slice Lib.Words Lib.Threads

/-! ## What a process may leave in its part -/

/-- `leaves xs ys`: a process may leave `ys` where it found `xs`. Where it finds
one that `skips`, an end of file may be read in place of the sorted half. -/
structure Outcome where
  leaves : List Int32 → List Int32 → Prop
  skips : List Int32 → Bool
  length_eq {xs ys} : leaves xs ys → ys.length = xs.length
  unsplit {xs} : xs.length ≤ 1 → leaves xs xs
  skip {xs} : skips xs = true → leaves xs xs
  merge {xs ys xs' ys'} : leaves xs xs' → leaves ys ys' → leaves (xs ++ ys) (mergeLists xs' ys')

theorem length_mergeLists (xs ys : List Int32) :
    (mergeLists xs ys).length = xs.length + ys.length := List.length_merge _ _ _

/-- As many integers as before. -/
def Outcome.any : Outcome where
  leaves xs ys := ys.length = xs.length
  skips _ := true
  length_eq h := h
  unsplit _ := rfl
  skip _ := rfl
  merge h₁ h₂ := by rw [length_mergeLists, List.length_append, h₁, h₂]

theorem sorted_of_pairwise {xs : List Int32} (h : xs.Pairwise (· ≤ ·)) : sorted xs = xs :=
  List.mergeSort_of_pairwise (h.imp fun hxy => decide_eq_true hxy)

theorem pairwise_of_length_le_one {xs : List Int32} (h : xs.length ≤ 1) :
    xs.Pairwise (· ≤ ·) := by
  cases xs with
  | nil => exact .nil
  | cons x xs =>
      obtain rfl : xs = [] := List.eq_nil_of_length_eq_zero (by simpa using h)
      exact List.pairwise_singleton _ _

/-- The same integers, sorted; an end of file does no harm over a half that is
in order. -/
def Outcome.ordered : Outcome where
  leaves xs ys := ys = sorted xs
  skips xs := decide (xs.Pairwise (· ≤ ·))
  length_eq h := by rw [h, length_sorted]
  unsplit h := (sorted_of_pairwise (pairwise_of_length_le_one h)).symm
  skip h := (sorted_of_pairwise (of_decide_eq_true h)).symm
  merge h₁ h₂ := by rw [h₁, h₂, mergeLists_sorted]

/-- Every end of file in this step is read over a half that meets `P`, in the
process itself or in one whose result it waits for. -/
def EofOver (P : List Int32 → Bool) : Event → Proc → Bool
  | .self, .read1 arr l r _ pipefd1 _ _ => !pipefd1.isEmpty || P (part arr l (mid l r))
  | .self, .read2 arr l r _ _ pipefd2 => !pipefd2.isEmpty || P (part arr (mid l r + 1) r)
  | .left e, .fork2 _ _ _ c₁ _ => EofOver P e c₁
  | .left e, .wait _ _ _ _ _ c₁ _ _ _ => EofOver P e c₁
  | .right e, .wait _ _ _ _ _ _ _ c₂ _ => EofOver P e c₂
  | _, _ => true

theorem eofOver_true (e : Event) (p : Proc) : EofOver (fun _ => true) e p = true := by
  induction e generalizing p with
  | left e ih => cases p <;> first | exact ih _ | rfl
  | right e ih => cases p <;> first | exact ih _ | rfl
  | self => cases p <;> simp [EofOver]
  | _ => cases p <;> rfl

theorem eofOver_of_ended {P : List Int32 → Bool} {e : Event} {p : Proc}
    (h : p.ended = true) : EofOver P e p = true := by
  cases p with
  | exited | failed | orphaning => cases e <;> rfl
  | _ => cases h

/-! ## The invariant -/

mutual

/-- `p` runs `mergesort(arr, left, right)`, or has failed in it. -/
inductive Tree : Outcome → List Int32 → Nat → Nat → Proc → Prop where
  | call {O arr left right} : Tree O arr left right (.call arr left right)
  | pipe1 {O arr left right} : left < right → Tree O arr left right (.pipe1 arr left right)
  | pipe2 {O arr left right} : left < right → Tree O arr left right (.pipe2 arr left right)
  | fork1 {O arr left right} : left < right → Tree O arr left right (.fork1 arr left right)
  | fork2 {O arr left right c₁ q₁} : left < right → Branch O arr left (mid left right) c₁ q₁ →
      Tree O arr left right (.fork2 arr left right c₁ q₁)
  | wait {O arr left right w₁ w₂ c₁ q₁ c₂ q₂} : left < right →
      Branch O arr left (mid left right) c₁ q₁ → Branch O arr (mid left right + 1) right c₂ q₂ →
      (w₁ = true → c₁.ended = true) → (w₂ = true → c₂.ended = true) →
      Tree O arr left right (.wait arr left right w₁ w₂ c₁ q₁ c₂ q₂)
  | read1 {O arr left right c₁ q₁ c₂ q₂} : left < right →
      Branch O arr left (mid left right) c₁ q₁ → c₁.ended = true →
      Branch O arr (mid left right + 1) right c₂ q₂ → c₂.ended = true →
      Tree O arr left right (.read1 arr left right c₁ q₁ c₂ q₂)
  | read2 {O arr left right xs c₁ q₁ c₂ q₂} : left < right →
      O.leaves (part arr left (mid left right)) xs →
      Branch O arr left (mid left right) c₁ q₁ → c₁.ended = true →
      Branch O arr (mid left right + 1) right c₂ q₂ → c₂.ended = true →
      Tree O arr left right (.read2 (splice arr left xs) left right c₁ c₂ q₂)
  | merge {O arr left right xs ys} : left < right →
      O.leaves (part arr left (mid left right)) xs →
      O.leaves (part arr (mid left right + 1) right) ys →
      Tree O arr left right (.merge (splice (splice arr left xs) (mid left right + 1) ys)
        left right)
  | returned {O arr left right xs} : O.leaves (part arr left right) xs →
      Tree O arr left right (.returned (splice arr left xs))
  | failed {O arr left right} : Tree O arr left right .failed
  | orphaning {O arr left right c₁ c₂} : left < right → Orphan arr left (mid left right) c₁ →
      Orphan arr (mid left right + 1) right c₂ → Tree O arr left right (.orphaning c₁ c₂)

/-- `p` is the child that sends `arr[left..right]` over the pipe `pipefd`. -/
inductive Branch : Outcome → List Int32 → Nat → Nat → Proc → List UInt8 → Prop where
  | sorting {O arr left right p} : Tree O arr left right p → Branch O arr left right p []
  | writing {O arr left right xs bytes started pipefd} : O.leaves (part arr left right) xs →
      pipefd ++ bytes = encode xs → (started = false → pipefd = []) →
      Branch O arr left right (.writing bytes started) pipefd
  | exited {O arr left right xs} : O.leaves (part arr left right) xs →
      Branch O arr left right .exited (encode xs)

/-- `p` is a child that sorts `arr[left..right]` after its parent has exited. -/
inductive Orphan : List Int32 → Nat → Nat → Proc → Prop where
  | sorting {arr left right p} : Tree .any arr left right p → Orphan arr left right p
  | writing {arr left right bytes started} : Orphan arr left right (.writing bytes started)
  | exited {arr left right} : Orphan arr left right .exited

end

/-! ## Facts about one process -/

section Facts

variable {O : Outcome} {cap : Nat → Nat → Nat} {arr xs : List Int32} {left right : Nat}
  {e : Event} {p p' : Proc} {pipefd : List UInt8}

theorem length_part (hl : left ≤ right + 1) (hr : right < arr.length) :
    (part arr left right).length = right + 1 - left := length_slice (by omega)

/-- Nothing is read, nothing is overwritten. -/
theorem splice_part (hr : right < arr.length) : splice arr left (part arr left right) = arr := by
  by_cases hl : left ≤ right + 1
  · exact splice_slice_self (by omega)
  · rw [part, show right + 1 - left = 0 by omega, slice, List.take_zero, splice, List.append_nil,
      List.length_nil, Nat.add_zero, List.take_append_drop]

/-- What a half of the right length leaves behind. -/
theorem part_splice (hl : left ≤ right + 1) (hr : right < arr.length)
    (hxs : xs.length = right + 1 - left) : part (splice arr left xs) left right = xs := by
  rw [part, ← hxs, slice_splice_self (by omega)]

/-- An end of file: the half stays as it is. -/
theorem readInto_nil {n : Nat} (h : left + n ≤ arr.length) : readInto arr left n [] = arr := by
  rw [readInto, List.take_nil, List.length_nil, List.drop_zero, List.nil_append, decode_encode,
    splice_slice_self h]

theorem ended_step (hend : p.ended = true) (hs : step cap e p = some p') :
    p'.ended = true := by
  cases p with
  | exited => rw [step_exited] at hs; cases hs
  | failed => cases e <;> cases hs
  | orphaning =>
      cases e with
      | left | right =>
          obtain ⟨c, -, rfl⟩ := Option.map_eq_some_iff.mp hs
          rfl
      | _ => cases hs
  | _ => cases hend

/-- **What a child leaves behind** when it has exited: nothing in its pipe, or
all of its half. -/
theorem Branch.sent (h : Branch O arr left right p pipefd) (hend : p.ended = true) :
    pipefd = [] ∨ ∃ xs, O.leaves (part arr left right) xs ∧ pipefd = encode xs := by
  cases h with
  | sorting => exact .inl rfl
  | writing => cases hend
  | exited hxs => exact .inr ⟨_, hxs, rfl⟩

/-- What the parent reads from the pipe of a child that has exited. -/
theorem Branch.readInto {arr' : List Int32} (h : Branch O arr left right p pipefd)
    (hend : p.ended = true) (hl : left ≤ right + 1) (hr : right < arr.length)
    (hlen : arr'.length = arr.length) (hmem : part arr' left right = part arr left right)
    (hskip : (!pipefd.isEmpty || O.skips (part arr' left right)) = true) :
    ∃ xs, O.leaves (part arr left right) xs ∧
      readInto arr' left (right + 1 - left) pipefd = splice arr' left xs := by
  rcases h.sent hend with rfl | ⟨xs, hxs, rfl⟩
  · refine ⟨part arr left right, O.skip (hmem ▸ hskip), ?_⟩
    rw [readInto_nil (by omega), ← hmem, splice_part (by omega)]
  · refine ⟨xs, hxs, readInto_encode ?_ (by omega)⟩
    rw [O.length_eq hxs, length_part hl hr]

/-- The integers sent are as many as the half has. -/
theorem Branch.length_writing {bytes : List UInt8} {started : Bool} (hl : left ≤ right + 1)
    (hr : right < arr.length) (h : Branch O arr left right (.writing bytes started) pipefd) :
    pipefd.length + bytes.length = 4 * (right + 1 - left) := by
  cases h with
  | sorting h => cases h
  | writing hxs hbytes =>
      rw [← List.length_append, hbytes, length_encode, O.length_eq hxs, length_part hl hr]

end Facts

/-- What is true of every outcome's processes is true when nothing is known of
the contents. -/
theorem Branch.weaken {O : Outcome} {arr : List Int32} {left right : Nat} {p : Proc}
    {pipefd : List UInt8} (ih : Tree O arr left right p → Tree .any arr left right p)
    (h : Branch O arr left right p pipefd) : Branch .any arr left right p pipefd := by
  cases h with
  | sorting h => exact .sorting (ih h)
  | writing hxs hbytes hnew => exact .writing (O.length_eq hxs) hbytes hnew
  | exited hxs => exact .exited (O.length_eq hxs)

theorem Tree.weaken {O : Outcome} {arr : List Int32} {left right : Nat} {p : Proc}
    (h : Tree O arr left right p) : Tree .any arr left right p := by
  induction p generalizing left right with
  | call => cases h; exact .call
  | pipe1 => cases h with | pipe1 hlr => exact .pipe1 hlr
  | pipe2 => cases h with | pipe2 hlr => exact .pipe2 hlr
  | fork1 => cases h with | fork1 hlr => exact .fork1 hlr
  | fork2 _ _ _ _ _ ih => cases h with | fork2 hlr h₁ => exact .fork2 hlr (h₁.weaken ih)
  | wait _ _ _ _ _ _ _ _ _ ih₁ ih₂ =>
      cases h with
      | wait hlr h₁ h₂ hw₁ hw₂ => exact .wait hlr (h₁.weaken ih₁) (h₂.weaken ih₂) hw₁ hw₂
  | read1 _ _ _ _ _ _ _ ih₁ ih₂ =>
      cases h with
      | read1 hlr h₁ hend₁ h₂ hend₂ => exact .read1 hlr (h₁.weaken ih₁) hend₁ (h₂.weaken ih₂) hend₂
  | read2 _ _ _ _ _ _ ih₁ ih₂ =>
      cases h with
      | read2 hlr hxs h₁ hend₁ h₂ hend₂ =>
          exact .read2 hlr (O.length_eq hxs) (h₁.weaken ih₁) hend₁ (h₂.weaken ih₂) hend₂
  | merge =>
      cases h with
      | merge hlr hxs hys => exact .merge hlr (O.length_eq hxs) (O.length_eq hys)
  | returned => cases h with | returned hxs => exact .returned (O.length_eq hxs)
  | writing | exited => cases h
  | failed => exact .failed
  | orphaning => cases h with | orphaning hlr h₁ h₂ => exact .orphaning hlr h₁ h₂

/-- The parent of a child exits. -/
theorem Branch.orphan {O : Outcome} {arr : List Int32} {left right : Nat} {p : Proc}
    {pipefd : List UInt8} (h : Branch O arr left right p pipefd) : Orphan arr left right p := by
  cases h with
  | sorting h => exact .sorting h.weaken
  | writing => exact .writing
  | exited => exact .exited

/-! ## Every step keeps it -/

section Step

variable {O : Outcome} {cap : Nat → Nat → Nat} {arr : List Int32} {left right capacity n : Nat}
  {e : Event} {p p' : Proc} {pipefd pipefd' : List UInt8}

/-- One event of a child, where `mergesort` itself keeps the invariant. -/
theorem Branch.child_step
    (ih : ∀ p p', Tree O arr left right p → EofOver O.skips e p = true → step cap e p = some p' →
      Tree O arr left right p')
    (hn : n = right + 1 - left) (hl : left ≤ right + 1) (hr : right < arr.length)
    (hok : EofOver O.skips e p = true) (h : Branch O arr left right p pipefd)
    (hs : child capacity left n (step cap e) e p pipefd = some (p', pipefd')) :
    Branch O arr left right p' pipefd' := by
  unfold child at hs
  split at hs
  · -- what `mergesort` left goes into `write`
    cases hs
    cases h with
    | sorting h =>
        cases h with
        | returned hxs =>
            refine .writing hxs ?_ fun _ => rfl
            rw [List.nil_append, hn, ← part, part_splice hl hr]
            rw [O.length_eq hxs, length_part hl hr]
  · split at hs
    · cases hs
      cases h with
      | sorting h => cases h
      | writing hxs hbytes =>
          refine .writing hxs ?_ fun hstarted => by cases hstarted
          rw [List.append_assoc, List.take_append_drop, hbytes]
    · cases hs
  · cases hs
    cases h with
    | sorting h => cases h
    | writing hxs hbytes =>
        rw [List.append_nil] at hbytes
        exact hbytes ▸ .exited hxs
  · -- its `write` has failed before the first byte
    cases hs
    cases h with
    | sorting h => cases h
    | writing hxs hbytes hnew =>
        obtain rfl := hnew rfl
        exact .sorting .failed
  · obtain ⟨p₁, hp₁, heq⟩ := Option.map_eq_some_iff.mp hs
    cases heq
    cases h with
    | sorting h => exact .sorting (ih _ _ h hok hp₁)
    | writing => rw [step_writing] at hp₁; cases hp₁
    | exited => rw [step_exited] at hp₁; cases hp₁

/-- One event of a child that has exited: of the processes it left behind. -/
theorem Branch.ended_step
    (ih : ∀ p p', Tree O arr left right p → EofOver O.skips e p = true → step cap e p = some p' →
      Tree O arr left right p')
    (h : Branch O arr left right p pipefd) (hend : p.ended = true)
    (hs : step cap e p = some p') : Branch O arr left right p' pipefd := by
  cases h with
  | sorting h => exact .sorting (ih _ _ h (eofOver_of_ended hend) hs)
  | writing => cases hend
  | exited => rw [step_exited] at hs; cases hs

/-- One event of a child whose parent has exited. -/
theorem Orphan.orphan_step
    (ih : ∀ p p', Tree .any arr left right p → EofOver Outcome.any.skips e p = true →
      step cap e p = some p' → Tree .any arr left right p')
    (h : Orphan arr left right p) (hs : orphan (step cap e) e p = some p') :
    Orphan arr left right p' := by
  unfold orphan at hs
  split at hs
  · cases hs
    exact .sorting .failed
  · cases hs
    exact .exited
  · cases hs
    exact .sorting .failed
  · cases h with
    | sorting h => exact .sorting (ih _ _ h (eofOver_true e p) hs)
    | writing => rw [step_writing] at hs; cases hs
    | exited => rw [step_exited] at hs; cases hs

/-- The process itself goes on. -/
theorem Tree.step_self (hr : right < arr.length) (hok : EofOver O.skips .self p = true)
    (h : Tree O arr left right p) (hs : step cap .self p = some p') :
    Tree O arr left right p' := by
  cases h with
  | call =>
      rw [step] at hs
      split at hs
      · cases hs
        exact .pipe1 ‹_›
      · cases hs
        have hself : Tree O arr left right (.returned (splice arr left (part arr left right))) :=
          .returned (O.unsplit ((List.length_take_le _ _).trans (by omega)))
        rwa [splice_part hr] at hself
  | pipe1 hlr => cases hs; exact .pipe2 hlr
  | pipe2 hlr => cases hs; exact .fork1 hlr
  | fork1 hlr => cases hs; exact .fork2 hlr (.sorting .call)
  | fork2 hlr h₁ =>
      cases hs
      exact .wait hlr h₁ (.sorting .call) (fun h => by cases h) (fun h => by cases h)
  | wait hlr h₁ h₂ hw₁ hw₂ =>
      rename_i w₁ w₂ c₁ q₁ c₂ q₂
      cases w₁ <;> cases w₂ <;> try cases hs
      exact .read1 hlr h₁ (hw₁ rfl) h₂ (hw₂ rfl)
  | read1 hlr h₁ hend₁ h₂ hend₂ =>
      obtain ⟨hl, hm⟩ := mid_bounds hlr
      obtain ⟨xs, hxs, hread⟩ := h₁.readInto hend₁ (by omega) (by omega) rfl rfl hok
      rw [step] at hs
      split at hs
      · cases hs
        rw [show mid left right - left + 1 = mid left right + 1 - left by omega, hread]
        exact .read2 hlr hxs h₁ hend₁ h₂ hend₂
      · cases hs
  | read2 hlr hxs h₁ hend₁ h₂ hend₂ =>
      rename_i xs c₁ q₁ c₂ q₂
      obtain ⟨hl, hm⟩ := mid_bounds hlr
      have hlen : xs.length = mid left right + 1 - left := by
        rw [O.length_eq hxs, length_part (by omega) (by omega)]
      have hmem : part (splice arr left xs) (mid left right + 1) right
          = part arr (mid left right + 1) right :=
        slice_splice_of_ge (by omega) (by omega)
      obtain ⟨ys, hys, hread⟩ := h₂.readInto hend₂ (by omega) hr (length_splice (by omega)) hmem hok
      rw [step] at hs
      split at hs
      · cases hs
        rw [show right - mid left right = right + 1 - (mid left right + 1) by omega, hread]
        exact .merge hlr hxs hys
      · cases hs
  | merge hlr hxs hys =>
      obtain ⟨hl, hm⟩ := mid_bounds hlr
      rw [step, merge_parts hlr hr
        (by rw [O.length_eq hxs, length_part (by omega) (by omega)])
        (by rw [O.length_eq hys, length_part (by omega) hr]; omega)] at hs
      cases hs
      exact .returned (part_append hlr ▸ O.merge hxs hys)
  | returned | failed | orphaning => cases hs

/-- A system call of the process fails. -/
theorem Tree.step_fail (h : Tree O arr left right p) (hs : step cap .fail p = some p') :
    Tree O arr left right p' := by
  cases h with
  | pipe1 | pipe2 | fork1 => cases hs; exact .failed
  | fork2 hlr h₁ => cases hs; exact .orphaning hlr h₁.orphan .exited
  | read1 hlr h₁ _ h₂ => cases hs; exact .orphaning hlr h₁.orphan h₂.orphan
  | read2 hlr _ h₁ _ h₂ => cases hs; exact .orphaning hlr h₁.orphan h₂.orphan
  | _ => cases hs

/-- A child is waited for. -/
theorem Tree.step_reap (hreap : e = .reap1 ∨ e = .reap2) (h : Tree O arr left right p)
    (hs : step cap e p = some p') : Tree O arr left right p' := by
  cases h with
  | wait hlr h₁ h₂ hw₁ hw₂ =>
      rename_i w₁ w₂ c₁ q₁ c₂ q₂
      rcases hreap with rfl | rfl
      · cases w₁
        · rw [step] at hs
          split at hs
          · cases hs
            exact .wait hlr h₁ h₂ (fun _ => ‹_›) hw₂
          · cases hs
        · cases hs
      · cases w₂
        · rw [step] at hs
          split at hs
          · cases hs
            exact .wait hlr h₁ h₂ hw₁ fun _ => ‹_›
          · cases hs
        · cases w₁ <;> cases hs
  | _ => rcases hreap with rfl | rfl <;> cases hs

/-- A child that has exited does not come back. -/
theorem child_ended (hend : p.ended = true)
    (hs : child capacity left n (step cap e) e p pipefd = some (p', pipefd')) :
    p'.ended = true := by
  unfold child at hs
  split at hs
  · cases hend
  · cases hend
  · cases hend
  · cases hend
  · obtain ⟨p₁, hp₁, heq⟩ := Option.map_eq_some_iff.mp hs
    cases heq
    exact ended_step hend hp₁

/-- An event in the subtree of the first child. -/
theorem Tree.step_left
    (ih : ∀ O r p p', r < arr.length → Tree O arr left r p → EofOver O.skips e p = true →
      step cap e p = some p' → Tree O arr left r p')
    (hr : right < arr.length) (hok : EofOver O.skips (.left e) p = true)
    (h : Tree O arr left right p) (hs : step cap (.left e) p = some p') :
    Tree O arr left right p' := by
  cases h with
  | fork2 hlr h₁ =>
      obtain ⟨hl, hm⟩ := mid_bounds hlr
      obtain ⟨⟨c₁, q₁⟩, hc, heq⟩ := Option.map_eq_some_iff.mp hs
      cases heq
      exact .fork2 hlr (h₁.child_step (fun _ _ => ih _ _ _ _ (by omega)) (by omega) (by omega)
        (by omega) hok hc)
  | wait hlr h₁ h₂ hw₁ hw₂ =>
      obtain ⟨hl, hm⟩ := mid_bounds hlr
      obtain ⟨⟨c₁, q₁⟩, hc, heq⟩ := Option.map_eq_some_iff.mp hs
      cases heq
      exact .wait hlr (h₁.child_step (fun _ _ => ih _ _ _ _ (by omega)) (by omega) (by omega)
        (by omega) hok hc) h₂ (fun hw => child_ended (hw₁ hw) hc) hw₂
  | read1 hlr h₁ hend₁ h₂ hend₂ =>
      obtain ⟨hl, hm⟩ := mid_bounds hlr
      obtain ⟨c₁, hc, rfl⟩ := Option.map_eq_some_iff.mp hs
      exact .read1 hlr (h₁.ended_step (fun _ _ => ih _ _ _ _ (by omega)) hend₁ hc)
        (ended_step hend₁ hc) h₂ hend₂
  | read2 hlr hxs h₁ hend₁ h₂ hend₂ =>
      obtain ⟨hl, hm⟩ := mid_bounds hlr
      obtain ⟨c₁, hc, rfl⟩ := Option.map_eq_some_iff.mp hs
      exact .read2 hlr hxs (h₁.ended_step (fun _ _ => ih _ _ _ _ (by omega)) hend₁ hc)
        (ended_step hend₁ hc) h₂ hend₂
  | orphaning hlr h₁ h₂ =>
      obtain ⟨hl, hm⟩ := mid_bounds hlr
      obtain ⟨c₁, hc, rfl⟩ := Option.map_eq_some_iff.mp hs
      exact .orphaning hlr (h₁.orphan_step (fun _ _ => ih _ _ _ _ (by omega)) hc) h₂
  | _ => cases hs

/-- An event in the subtree of the second child. -/
theorem Tree.step_right
    (ih : ∀ O l p p', Tree O arr l right p → EofOver O.skips e p = true →
      step cap e p = some p' → Tree O arr l right p')
    (hr : right < arr.length) (hok : EofOver O.skips (.right e) p = true)
    (h : Tree O arr left right p) (hs : step cap (.right e) p = some p') :
    Tree O arr left right p' := by
  cases h with
  | wait hlr h₁ h₂ hw₁ hw₂ =>
      obtain ⟨hl, hm⟩ := mid_bounds hlr
      obtain ⟨⟨c₂, q₂⟩, hc, heq⟩ := Option.map_eq_some_iff.mp hs
      cases heq
      exact .wait hlr h₁ (h₂.child_step (ih _ _) (by omega) (by omega) hr hok hc) hw₁
        fun hw => child_ended (hw₂ hw) hc
  | read1 hlr h₁ hend₁ h₂ hend₂ =>
      obtain ⟨c₂, hc, rfl⟩ := Option.map_eq_some_iff.mp hs
      exact .read1 hlr h₁ hend₁ (h₂.ended_step (ih _ _) hend₂ hc)
        (ended_step hend₂ hc)
  | read2 hlr hxs h₁ hend₁ h₂ hend₂ =>
      obtain ⟨c₂, hc, rfl⟩ := Option.map_eq_some_iff.mp hs
      exact .read2 hlr hxs h₁ hend₁ (h₂.ended_step (ih _ _) hend₂ hc)
        (ended_step hend₂ hc)
  | orphaning hlr h₁ h₂ =>
      obtain ⟨c₂, hc, rfl⟩ := Option.map_eq_some_iff.mp hs
      exact .orphaning hlr h₁ (h₂.orphan_step (ih _ _) hc)
  | _ => cases hs

end Step

/-- **The invariant is kept** by every event, failures included, by induction on
the way to the process it happens in. -/
theorem Tree.step_preserves {cap : Nat → Nat → Nat} (e : Event) {O : Outcome} {arr : List Int32}
    {left right : Nat} {p p' : Proc} (hr : right < arr.length) (h : Tree O arr left right p)
    (hok : EofOver O.skips e p = true) (hs : step cap e p = some p') :
    Tree O arr left right p' := by
  induction e generalizing O left right p p' with
  | self => exact h.step_self hr hok hs
  | fail => exact h.step_fail hs
  | write k => cases h <;> cases hs
  | reap1 => exact h.step_reap (.inl rfl) hs
  | reap2 => exact h.step_reap (.inr rfl) hs
  | left e ih => exact h.step_left (fun _ _ _ _ hr h hok hs => ih hr h hok hs) hr hok hs
  | right e ih => exact h.step_right (fun _ _ _ _ h hok hs => ih hr h hok hs) hr hok hs

/-- Every run of the tree in which no end of file is read over a half that does
not skip. -/
theorem Tree.run {cap : Nat → Nat → Nat} {O : Outcome} {arr : List Int32} {left right : Nat}
    {p : Proc} (hr : right < arr.length)
    (h : Run (step cap) (fun e p => EofOver O.skips e p = true) (.call arr left right) p) :
    Tree O arr left right p :=
  h.invariant .call fun e _ _ h hok hs => h.step_preserves e hr hok hs

/-! ## A failure is reported -/

/-- The process has called `exit(EXIT_FAILURE)`. -/
def Proc.exitFailure : Proc → Bool
  | .failed | .orphaning _ _ => true
  | _ => false

/-- **Failures are reported** where no end of file is read over a half that is
out of order: whatever system calls fail and in whatever order the processes
run, the caller that has come to an end has exited with `EXIT_FAILURE` or is
back with `arr[left..right]` sorted. -/
theorem failure_reported (cap : Nat → Nat → Nat) (arr : List Int32) (left right : Nat)
    (hr : right < arr.length) (p : Proc)
    (h : Run (step cap) (fun e p => EofOver (fun xs => xs.Pairwise (· ≤ ·)) e p = true)
      (.call arr left right) p)
    (hend : p.ended = true ∨ ∃ arr', p = .returned arr') :
    p.exitFailure = true ∨ ∃ arr', p = .returned arr' ∧ SortedRange arr arr' left right := by
  have htree : Tree .ordered arr left right p := Tree.run hr h
  rcases hend with hend | ⟨arr', rfl⟩
  · left
    cases htree with
    | failed | orphaning => rfl
    | _ => cases hend
  · right
    cases htree with
    | returned hxs =>
        subst hxs
        exact ⟨_, rfl, sortRange_spec hr⟩

/-- The first child fails while it creates its pipe, over a half that is in
order already. -/
theorem failure_reported_sample :
    SortedRange [1, 2, 0] [0, 1, 2] 0 2 := by
  have h := failure_reported (fun _ _ => 65536) [1, 2, 0] 0 2 (by decide) (.returned [0, 1, 2])
    (Run.exec .start
      [.self, .self, .self, .self, .left .self, .left .fail, .self, .right .self, .right .self,
       .right (.write 4), .right .self, .reap1, .reap2, .self, .self, .self, .self] rfl)
    (.inr ⟨_, rfl⟩)
  obtain ⟨arr', heq, hsorted⟩ := h.resolve_left (by decide)
  cases heq
  exact hsorted

/-- **A failure is swallowed** on `[2, 1, 3]`: the first child, which has `[2, 1]`,
exits with `EXIT_FAILURE` when its `pipe` fails; the caller waits for it, reads
an end of file, merges `[2, 1]` with `[3]` and returns normally. -/
theorem failure_swallowed :
    ¬ ∀ (cap : Nat → Nat → Nat) (arr : List Int32) (left right : Nat) (p : Proc),
      right < arr.length → Reachable (step cap) (.call arr left right) p →
      (p.ended = true ∨ ∃ arr', p = .returned arr') →
      p.exitFailure = true ∨ ∃ arr', p = .returned arr' ∧ SortedRange arr arr' left right := by
  intro h
  have hbad := h (fun _ _ => 65536) [2, 1, 3] 0 2 (.returned [2, 1, 3]) (by decide)
    (Reachable.exec .start
      [.self, .self, .self, .self, .left .self, .left .fail, .self, .right .self, .right .self,
       .right (.write 4), .right .self, .reap1, .reap2, .self, .self, .self, .self] rfl)
    (.inr ⟨_, rfl⟩)
  obtain ⟨arr', heq, hsorted⟩ := hbad.resolve_left (by decide)
  cases heq
  have hordered := hsorted.ordered
  revert hordered
  decide

end OsInParts.MergeSort
