import OsInParts.MergeSort.Failures
import Mathlib.Tactic.Ring

/-!
# Termination — the process tree comes to an end with the range sorted

`Proc.cost` bounds the events that are left: every event lowers it, failures
included. While each half fits in its pipe some event is always possible until
the caller has returned, or has exited and left nothing behind (`Tree.moves`),
whatever the processes have done and whatever has failed so far. Together with
`Sorting` this is `mergesort_sorts`.
-/

namespace OsInParts.MergeSort

open Lib.Slice Lib.Words Lib.Threads

/-! ## The events that are left -/

/-- The process has not come to its `write` yet. -/
@[simp] def Proc.before : Proc → Bool
  | .writing _ _ | .exited | .failed | .orphaning _ _ => false
  | _ => true

/-- The events of a child that sends `n` integers: `cost` for its `mergesort`,
and what its `write` takes. -/
def share (n : Nat) (p : Proc) (cost : Nat) : Nat :=
  if p.before then cost + 4 * n + 2 else cost

def callCost (left right : Nat) : Nat := 30 * (right - left) ^ 2 + 2

/-- A child that starts on `arr[left..right]`. -/
def startCost (left right : Nat) : Nat := callCost left right + 4 * (right + 1 - left) + 2

/-- An upper bound on the events that are left. -/
@[simp] def Proc.cost : Proc → Nat
  | .call _ l r => callCost l r
  | .pipe1 _ l r => startCost l (mid l r) + startCost (mid l r + 1) r + 11
  | .pipe2 _ l r => startCost l (mid l r) + startCost (mid l r + 1) r + 10
  | .fork1 _ l r => startCost l (mid l r) + startCost (mid l r + 1) r + 9
  | .fork2 _ l r c₁ _ =>
      share (mid l r - l + 1) c₁ c₁.cost + startCost (mid l r + 1) r + 8
  | .wait _ l r w₁ w₂ c₁ _ c₂ _ =>
      share (mid l r - l + 1) c₁ c₁.cost + share (r - mid l r) c₂ c₂.cost
        + (!w₁).toNat + (!w₂).toNat + 5
  | .read1 _ _ _ c₁ _ c₂ _ => c₁.cost + c₂.cost + 4
  | .read2 _ _ _ c₁ c₂ _ => c₁.cost + c₂.cost + 3
  | .merge _ _ _ => 2
  | .returned _ => 1
  | .writing bytes _ => bytes.length + 1
  | .exited => 0
  | .failed => 0
  | .orphaning c₁ c₂ => c₁.cost + c₂.cost + 1

theorem le_share (n : Nat) (p : Proc) (cost : Nat) : cost ≤ share n p cost := by
  unfold share
  split <;> omega

/-- Splitting a range leaves room for the steps of the split. -/
theorem split_cost {left right : Nat} (h : left < right) :
    startCost left (mid left right) + startCost (mid left right + 1) right + 11
      < callCost left right := by
  obtain ⟨hl, hm⟩ := mid_bounds h
  obtain ⟨a, ha⟩ := Nat.exists_eq_add_of_le hl
  obtain ⟨b, hb⟩ := Nat.exists_eq_add_of_le (show mid left right + 1 ≤ right from hm)
  have h1 : mid left right - left = a := by omega
  have h2 : right - (mid left right + 1) = b := by omega
  have h3 : right - left = a + b + 1 := by omega
  have h4 : mid left right + 1 - left = a + 1 := by omega
  have h5 : right + 1 - (mid left right + 1) = b + 1 := by omega
  rw [startCost, startCost, callCost, callCost, callCost, h1, h2, h3, h4, h5]
  have hsq : (a + b + 1) ^ 2 = a ^ 2 + b ^ 2 + 2 * (a * b) + 2 * a + 2 * b + 1 := by ring
  omega

/-- Both children start with what the split set aside for them. -/
theorem share_start (arr : List Int32) (l r : Nat) :
    share (mid l r - l + 1) (.call arr l (mid l r)) (callCost l (mid l r))
        = startCost l (mid l r) ∧
      share (r - mid l r) (.call arr (mid l r + 1) r) (callCost (mid l r + 1) r)
        = startCost (mid l r + 1) r := by
  have hl : l ≤ mid l r := Nat.le_add_right _ _
  simp only [share, Proc.before, if_true, startCost]
  omega

/-- `p'` has fewer events left than `p`, and is no longer before its `write` if
`p` was not. -/
def Fewer (p' p : Proc) : Prop := p'.cost < p.cost ∧ (p'.before → p.before)

section Cost

variable {cap : Nat → Nat → Nat} {capacity left n : Nat} {e : Event} {p p' : Proc}
  {pipefd pipefd' : List UInt8}

theorem share_lt {n : Nat} (h : Fewer p' p) :
    share n p' p'.cost < share n p p.cost := by
  have hlt := h.1
  by_cases hb : p'.before
  · rw [share, share, if_pos hb, if_pos (h.2 hb)]
    omega
  · rw [share, if_neg hb]
    exact hlt.trans_le (le_share n p p.cost)

theorem child_cost
    (ih : ∀ p p', step cap e p = some p' → Fewer p' p)
    (hs : child capacity left n (step cap e) e p pipefd = some (p', pipefd')) :
    share n p' p'.cost < share n p p.cost := by
  unfold child at hs
  split at hs
  · rename_i arr
    cases hs
    have hlen : (slice arr left n).length ≤ n := List.length_take_le _ _
    simp only [share, Proc.before, Proc.cost, if_true, Bool.false_eq_true, if_false,
      length_encode]
    omega
  · split at hs
    · cases hs
      simp only [share, Proc.before, Proc.cost, Bool.false_eq_true, if_false, List.length_drop]
      omega
    · cases hs
  · cases hs
    simp [share, Proc.before, Proc.cost]
  · cases hs
    simp [share, Proc.before, Proc.cost]
  · obtain ⟨p₁, hp₁, heq⟩ := Option.map_eq_some_iff.mp hs
    cases heq
    exact share_lt (ih _ _ hp₁)

theorem orphan_cost (ih : ∀ p p', step cap e p = some p' → p'.cost < p.cost)
    (hs : orphan (step cap e) e p = some p') : p'.cost < p.cost := by
  unfold orphan at hs
  split at hs
  · cases hs
    simp [Proc.cost]
  · cases hs
    simp [Proc.cost]
  · cases hs
    simp [Proc.cost]
  · exact ih _ _ hs

theorem self_fewer (hs : step cap .self p = some p') : Fewer p' p := by
  cases p with
  | call arr l r =>
      rw [step] at hs
      split at hs <;> cases hs
      · exact ⟨split_cost ‹_›, fun _ => rfl⟩
      · exact ⟨by simp only [Proc.cost, callCost]; omega, fun _ => rfl⟩
  | pipe1 => cases hs; exact ⟨by simp only [Proc.cost]; omega, fun _ => rfl⟩
  | pipe2 => cases hs; exact ⟨by simp only [Proc.cost]; omega, fun _ => rfl⟩
  | fork1 arr l r =>
      cases hs
      have := (share_start arr l r).1
      exact ⟨by simp only [Proc.cost]; omega, fun _ => rfl⟩
  | fork2 arr l r =>
      cases hs
      have := (share_start arr l r).2
      exact ⟨by simp only [Proc.cost, Bool.not_false, Bool.toNat_true]; omega, fun _ => rfl⟩
  | wait arr l r w₁ w₂ c₁ q₁ c₂ q₂ =>
      cases w₁ <;> cases w₂ <;> cases hs
      have := le_share (mid l r - l + 1) c₁ c₁.cost
      have := le_share (r - mid l r) c₂ c₂.cost
      exact ⟨by simp only [Proc.cost]; omega, fun _ => rfl⟩
  | read1 | read2 =>
      rw [step] at hs
      split at hs <;> cases hs
      exact ⟨by simp only [Proc.cost]; omega, fun _ => rfl⟩
  | merge =>
      obtain ⟨arr', -, rfl⟩ := Option.map_eq_some_iff.mp hs
      exact ⟨by simp only [Proc.cost]; omega, fun _ => rfl⟩
  | _ => cases hs

theorem fail_fewer (hs : step cap .fail p = some p') : Fewer p' p := by
  cases p with
  | fork2 arr l r c₁ =>
      cases hs
      have := le_share (mid l r - l + 1) c₁ c₁.cost
      exact ⟨by simp only [Proc.cost]; omega, fun h => by cases h⟩
  | _ => cases hs <;> exact ⟨by simp only [Proc.cost]; omega, fun h => by cases h⟩

theorem reap_fewer (hreap : e = .reap1 ∨ e = .reap2) (hs : step cap e p = some p') :
    Fewer p' p := by
  have hone : (!false).toNat = (!true).toNat + 1 := rfl
  cases p with
  | wait arr l r w₁ w₂ c₁ q₁ c₂ q₂ =>
      rcases hreap with rfl | rfl
      · cases w₁
        · rw [step] at hs
          split at hs <;> cases hs
          exact ⟨by simp only [Proc.cost]; omega, fun _ => rfl⟩
        · cases hs
      · cases w₂
        · rw [step] at hs
          split at hs <;> cases hs
          exact ⟨by simp only [Proc.cost]; omega, fun _ => rfl⟩
        · cases w₁ <;> cases hs
  | _ => rcases hreap with rfl | rfl <;> cases hs

/-- An event in the subtree of the first child. -/
theorem left_fewer (ih : ∀ p p', step cap e p = some p' → Fewer p' p)
    (hs : step cap (.left e) p = some p') : Fewer p' p := by
  cases p with
  | fork2 | wait =>
      obtain ⟨⟨c₁, q₁⟩, hc, heq⟩ := Option.map_eq_some_iff.mp hs
      cases heq
      have := child_cost ih hc
      exact ⟨by simp only [Proc.cost]; omega, fun _ => rfl⟩
  | read1 | read2 =>
      obtain ⟨c₁, hc, rfl⟩ := Option.map_eq_some_iff.mp hs
      have := (ih _ _ hc).1
      exact ⟨by simp only [Proc.cost]; omega, fun _ => rfl⟩
  | orphaning =>
      obtain ⟨c₁, hc, rfl⟩ := Option.map_eq_some_iff.mp hs
      have := orphan_cost (fun _ _ h => (ih _ _ h).1) hc
      exact ⟨by simp only [Proc.cost]; omega, fun h => by cases h⟩
  | _ => cases hs

/-- An event in the subtree of the second child. -/
theorem right_fewer (ih : ∀ p p', step cap e p = some p' → Fewer p' p)
    (hs : step cap (.right e) p = some p') : Fewer p' p := by
  cases p with
  | wait =>
      obtain ⟨⟨c₂, q₂⟩, hc, heq⟩ := Option.map_eq_some_iff.mp hs
      cases heq
      have := child_cost ih hc
      exact ⟨by simp only [Proc.cost]; omega, fun _ => rfl⟩
  | read1 | read2 =>
      obtain ⟨c₂, hc, rfl⟩ := Option.map_eq_some_iff.mp hs
      have := (ih _ _ hc).1
      exact ⟨by simp only [Proc.cost]; omega, fun _ => rfl⟩
  | orphaning =>
      obtain ⟨c₂, hc, rfl⟩ := Option.map_eq_some_iff.mp hs
      have := orphan_cost (fun _ _ h => (ih _ _ h).1) hc
      exact ⟨by simp only [Proc.cost]; omega, fun h => by cases h⟩
  | _ => cases hs

end Cost

/-- **Every event** leaves fewer events, whether it is a failure or not. -/
theorem step_fewer {cap : Nat → Nat → Nat} (e : Event) {p p' : Proc}
    (hs : step cap e p = some p') : Fewer p' p := by
  induction e generalizing p p' with
  | self => exact self_fewer hs
  | fail => exact fail_fewer hs
  | write k => cases p <;> cases hs
  | reap1 => exact reap_fewer (.inl rfl) hs
  | reap2 => exact reap_fewer (.inr rfl) hs
  | left e ih => exact left_fewer (fun _ _ => ih) hs
  | right e ih => exact right_fewer (fun _ _ => ih) hs

/-! ## Some event is possible -/

/-- `arr[l..r]` is a half that `mergesort(arr, left, right)`, or a process under
it, sends over a pipe. -/
inductive Sent : Nat → Nat → Nat → Nat → Prop where
  | left {left right} : left < right → Sent left right left (mid left right)
  | right {left right} : left < right → Sent left right (mid left right + 1) right
  | inLeft {left right l r} : left < right → Sent left (mid left right) l r →
      Sent left right l r
  | inRight {left right l r} : left < right → Sent (mid left right + 1) right l r →
      Sent left right l r

theorem Sent.within {left right l r : Nat} (h : Sent left right l r) :
    left ≤ l ∧ r ≤ right := by
  induction h with
  | left h => exact ⟨le_rfl, (mid_bounds h).2.le⟩
  | right h => exact ⟨(mid_bounds h).1.trans (Nat.le_succ _), le_rfl⟩
  | inLeft h _ ih => exact ⟨ih.1, ih.2.trans (mid_bounds h).2.le⟩
  | inRight h _ ih => exact ⟨((mid_bounds h).1.trans (Nat.le_succ _)).trans ih.1, ih.2⟩

/-- Each half sent over a pipe fits in that pipe's capacity. -/
def Fits (cap : Nat → Nat → Nat) (left right : Nat) : Prop :=
  ∀ l r, Sent left right l r → 4 * (r + 1 - l) ≤ cap l r

theorem Fits.inLeft {cap : Nat → Nat → Nat} {left right : Nat} (hfit : Fits cap left right)
    (hlr : left < right) : Fits cap left (mid left right) :=
  fun l r hsent => hfit l r (.inLeft hlr hsent)

theorem Fits.inRight {cap : Nat → Nat → Nat} {left right : Nat} (hfit : Fits cap left right)
    (hlr : left < right) : Fits cap (mid left right + 1) right :=
  fun l r hsent => hfit l r (.inRight hlr hsent)

section Progress

variable {O : Outcome} {cap : Nat → Nat → Nat} {arr : List Int32} {left right : Nat} {p : Proc}
  {pipefd : List UInt8}

/-- An event of a process that is no child's `write` is an event of the child. -/
theorem child_isSome {capacity n : Nat} {e : Event} (hs : (step cap e p).isSome) :
    (child capacity left n (step cap e) e p pipefd).isSome := by
  unfold child
  split
  · rfl
  · rw [step_writing] at hs
    cases hs
  · rfl
  · rfl
  · rwa [Option.isSome_map]

theorem ended_of_gone (h : p.gone = true) : p.ended = true := by
  cases p <;> first | rfl | cases h

/-- A child goes on until it has exited: its half fits in the pipe. -/
theorem Branch.moves
    (ih : Tree O arr left right p → (∃ arr', p = .returned arr') ∨ p.gone = true ∨
      ∃ e, e.faultFree = true ∧ (step cap e p).isSome)
    (hl : left ≤ right + 1) (hr : right < arr.length)
    (hfit : 4 * (right + 1 - left) ≤ cap left right) (h : Branch O arr left right p pipefd) :
    p.ended = true ∨ ∃ e, e.faultFree = true ∧
      ∀ n, (child (cap left right) left n (step cap e) e p pipefd).isSome := by
  cases h with
  | sorting h =>
      rcases ih h with ⟨arr', rfl⟩ | hgone | ⟨e, hok, hs⟩
      · exact .inr ⟨.self, rfl, fun _ => rfl⟩
      · exact .inl (ended_of_gone hgone)
      · exact .inr ⟨e, hok, fun _ => child_isSome hs⟩
  | @writing _ _ _ _ _ bytes started _ hxs hbytes hnew =>
      have hlen : pipefd.length + bytes.length = 4 * (right + 1 - left) :=
        Branch.length_writing hl hr (.writing hxs hbytes hnew)
      right
      cases bytes with
      | nil => exact ⟨.self, rfl, fun _ => rfl⟩
      | cons b bytes =>
          rw [List.length_cons] at hlen
          refine ⟨.write 1, rfl, fun n => ?_⟩
          rw [child, if_pos ⟨Nat.one_pos, by rw [List.length_cons]; omega, by omega⟩]
          rfl
  | exited => exact .inl rfl

/-- An event of a process is one of the same process without a parent. -/
theorem orphan_isSome {e : Event} (hs : (step cap e p).isSome) :
    (orphan (step cap e) e p).isSome := by
  unfold orphan
  split
  · rfl
  · rfl
  · rfl
  · exact hs

/-- A child without a parent goes on until it is gone: its `write` kills it. -/
theorem Orphan.moves
    (ih : Tree .any arr left right p → (∃ arr', p = .returned arr') ∨ p.gone = true ∨
      ∃ e, e.faultFree = true ∧ (step cap e p).isSome)
    (h : Orphan arr left right p) :
    p.gone = true ∨ ∃ e, e.faultFree = true ∧ (orphan (step cap e) e p).isSome := by
  cases h with
  | sorting h =>
      rcases ih h with ⟨arr', rfl⟩ | hgone | ⟨e, hok, hs⟩
      · exact .inr ⟨.self, rfl, rfl⟩
      · exact .inl hgone
      · exact .inr ⟨e, hok, orphan_isSome hs⟩
  | @writing _ _ _ bytes =>
      right
      refine ⟨.self, rfl, ?_⟩
      cases bytes <;> rfl
  | exited => exact .inl rfl

/-- What a child that has exited left behind goes on until it is gone. -/
theorem Branch.ended_moves
    (ih : Tree O arr left right p → (∃ arr', p = .returned arr') ∨ p.gone = true ∨
      ∃ e, e.faultFree = true ∧ (step cap e p).isSome)
    (h : Branch O arr left right p pipefd) (hend : p.ended = true) :
    p.gone = true ∨ ∃ e, e.faultFree = true ∧ (step cap e p).isSome := by
  cases h with
  | sorting h =>
      rcases ih h with ⟨arr', rfl⟩ | hmove
      · cases hend
      · exact hmove
  | writing => cases hend
  | exited => exact .inl rfl

end Progress

/-- **Progress**, failures included: until the call has returned, or has exited
and left nothing behind, some process can go on. -/
theorem Tree.moves {cap : Nat → Nat → Nat} {O : Outcome} {arr : List Int32} {p : Proc}
    {left right : Nat} (hr : right < arr.length) (hfit : Fits cap left right)
    (h : Tree O arr left right p) :
    (∃ arr', p = .returned arr') ∨ p.gone = true ∨
      ∃ e, e.faultFree = true ∧ (step cap e p).isSome := by
  induction p generalizing O left right with
  | call =>
      refine .inr (.inr ⟨.self, rfl, ?_⟩)
      rw [step]
      split <;> rfl
  | pipe1 | pipe2 | fork1 | fork2 => exact .inr (.inr ⟨.self, rfl, rfl⟩)
  | wait _ _ _ w₁ w₂ c₁ q₁ c₂ q₂ ih₁ ih₂ =>
      cases h with
      | wait hlr h₁ h₂ hw₁ hw₂ =>
          obtain ⟨hl, hm⟩ := mid_bounds hlr
          right; right
          cases w₁ with
          | false =>
              rcases h₁.moves (ih₁ (by omega) (hfit.inLeft hlr)) (by omega) (by omega)
                (hfit _ _ (.left hlr)) with hend | ⟨e, hok, hs⟩
              · exact ⟨.reap1, rfl, by rw [step, if_pos hend]; rfl⟩
              · exact ⟨.left e, hok, by rw [step, Option.isSome_map]; exact hs _⟩
          | true =>
              cases w₂ with
              | false =>
                  rcases h₂.moves (ih₂ hr (hfit.inRight hlr)) (by omega) hr
                    (hfit _ _ (.right hlr)) with hend | ⟨e, hok, hs⟩
                  · exact ⟨.reap2, rfl, by rw [step, if_pos hend]; rfl⟩
                  · exact ⟨.right e, hok, by rw [step, Option.isSome_map]; exact hs _⟩
              | true => exact ⟨.self, rfl, rfl⟩
  | read1 _ _ _ c₁ q₁ c₂ q₂ ih₁ ih₂ =>
      cases h with
      | read1 hlr h₁ hend₁ h₂ hend₂ =>
          obtain ⟨hl, hm⟩ := mid_bounds hlr
          right; right
          rcases h₁.ended_moves (ih₁ (by omega) (hfit.inLeft hlr)) hend₁ with
            hgone₁ | ⟨e, hok, hs⟩
          · rcases h₂.ended_moves (ih₂ hr (hfit.inRight hlr)) hend₂ with hgone₂ | ⟨e, hok, hs⟩
            · exact ⟨.self, rfl, by rw [step, if_pos (.inr ⟨hgone₁, hgone₂⟩)]; rfl⟩
            · exact ⟨.right e, hok, by rw [step, Option.isSome_map]; exact hs⟩
          · exact ⟨.left e, hok, by rw [step, Option.isSome_map]; exact hs⟩
  | read2 _ _ _ c₁ c₂ q₂ ih₁ ih₂ =>
      cases h with
      | read2 hlr hxs h₁ hend₁ h₂ hend₂ =>
          obtain ⟨hl, hm⟩ := mid_bounds hlr
          right; right
          rcases h₁.ended_moves (ih₁ (by omega) (hfit.inLeft hlr)) hend₁ with
            hgone₁ | ⟨e, hok, hs⟩
          · rcases h₂.ended_moves (ih₂ hr (hfit.inRight hlr)) hend₂ with hgone₂ | ⟨e, hok, hs⟩
            · exact ⟨.self, rfl, by rw [step, if_pos (.inr ⟨hgone₁, hgone₂⟩)]; rfl⟩
            · exact ⟨.right e, hok, by rw [step, Option.isSome_map]; exact hs⟩
          · exact ⟨.left e, hok, by rw [step, Option.isSome_map]; exact hs⟩
  | merge =>
      cases h with
      | merge hlr hxs hys =>
          obtain ⟨hl, hm⟩ := mid_bounds hlr
          refine .inr (.inr ⟨.self, rfl, ?_⟩)
          rw [step, merge_parts hlr hr
            (by rw [O.length_eq hxs, length_part (by omega) (by omega)])
            (by rw [O.length_eq hys, length_part (by omega) hr]; omega)]
          rfl
  | returned arr' => exact .inl ⟨arr', rfl⟩
  | writing | exited => cases h
  | failed => exact .inr (.inl rfl)
  | orphaning c₁ c₂ ih₁ ih₂ =>
      cases h with
      | orphaning hlr h₁ h₂ =>
          obtain ⟨hl, hm⟩ := mid_bounds hlr
          right
          rcases h₁.moves (ih₁ (by omega) (hfit.inLeft hlr)) with hgone₁ | ⟨e, hok, hs⟩
          · rcases h₂.moves (ih₂ hr (hfit.inRight hlr)) with hgone₂ | ⟨e, hok, hs⟩
            · exact .inl (by rw [Proc.gone, hgone₁, hgone₂]; rfl)
            · exact .inr ⟨.right e, hok, by rw [step, Option.isSome_map]; exact hs⟩
          · exact .inr ⟨.left e, hok, by rw [step, Option.isSome_map]; exact hs⟩

/-- **Every run ends** where each half fits, whatever system calls fail: the
caller is back, or it has exited and no process is left. -/
theorem mergesort_ends {cap : Nat → Nat → Nat} {arr : List Int32} {left right : Nat}
    (hr : right < arr.length) (hfit : Fits cap left right) :
    Ends (step cap) (fun _ _ => True) (fun p => (∃ arr', p = .returned arr') ∨ p.gone = true)
      (.call arr left right) := by
  refine Ends.rule (Tree .any arr left right) Proc.cost
    (fun e p p' h _ hs => ⟨h.step_preserves e hr (eofOver_true e p) hs, (step_fewer e hs).1⟩)
    (fun p h => ?_) .call
  rcases h.moves hr hfit with hback | hgone | ⟨e, -, hs⟩
  · exact .inl (.inl hback)
  · exact .inl (.inr hgone)
  · exact .inr ⟨e, trivial, hs⟩

/-- Three numbers, with pipes of 64 kB. -/
theorem mergesort_ends_three :
    Ends (step fun _ _ => 65536) (fun _ _ => True)
      (fun p => (∃ arr', p = .returned arr') ∨ p.gone = true) (.call [6, 3, 2] 0 2) :=
  mergesort_ends (by decide) fun l r hsent => by
    have := hsent.within
    omega

/-! ## The range is sorted -/

/-- **`mergesort` sorts**: whatever the order in which the processes run, every
run of the tree ends, and it ends with the caller back from `mergesort` with
`arr[left..right]` sorted and the rest of the array unchanged. -/
theorem mergesort_sorts (cap : Nat → Nat → Nat) (arr : List Int32) (left right : Nat)
    (hr : right < arr.length) (hfit : Fits cap left right) :
    Ends (step cap) (fun e _ => e.faultFree = true)
      (fun p => ∃ arr', p = .returned arr' ∧ SortedRange arr arr' left right)
      (.call arr left right) := by
  refine Ends.rule (fun p => Sorting arr left right p ∧ Tree .any arr left right p) Proc.cost
    ?_ ?_ ⟨.call _ _ _, .call⟩
  · rintro e p p' ⟨hsorting, htree⟩ hok hs
    exact ⟨⟨hsorting.step_preserves e hr hok hs,
      htree.step_preserves e hr (eofOver_true e p) hs⟩, (step_fewer e hs).1⟩
  · rintro p ⟨hsorting, htree⟩
    rcases htree.moves hr hfit with ⟨arr', rfl⟩ | hgone | hmove
    · cases hsorting
      exact .inl ⟨_, rfl, sortRange_spec hr⟩
    · have hended := ended_of_gone hgone
      rw [hsorting.not_ended] at hended
      cases hended
    · exact .inr hmove

/-- The array of `main`, with pipes of 64 kB. -/
theorem mergesort_sorts_main :
    Ends (step fun _ _ => 65536) (fun e _ => e.faultFree = true)
      (fun p => ∃ arr', p = .returned arr' ∧
        SortedRange [6, 3, 2, 8, 12, 5, 7, 16, 9, 10, 11, 1, 15, 14, 13, 4] arr' 0 15)
      (.call [6, 3, 2, 8, 12, 5, 7, 16, 9, 10, 11, 1, 15, 14, 13, 4] 0 15) :=
  mergesort_sorts _ _ 0 15 (by decide) fun l r hsent => by
    have := hsent.within
    omega

end OsInParts.MergeSort
