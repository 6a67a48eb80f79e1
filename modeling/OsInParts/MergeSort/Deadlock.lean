import OsInParts.MergeSort.Termination

/-!
# Deadlock — a half that does not fit in its pipe

The parent waits for both children before it reads either pipe. Where every
half fits in its pipe some process can go on in every state of the tree,
failures included (`Tree.moves`). Where the first half does not fit its child
blocks in `write`, so the parent never gets past its first `wait`, and since
every run is finite some run stops there (`deadlock_reachable`).
-/

namespace OsInParts.MergeSort

open Lib.Slice Lib.Words Lib.Threads

/-- No half sent over a pipe is longer than the first one. -/
theorem Sent.length_le {left right l r : Nat} (h : Sent left right l r) :
    r + 1 - l ≤ mid left right - left + 1 := by
  cases h with
  | left h => omega
  | right h => unfold mid; omega
  | inLeft h hsent =>
      have := hsent.within
      omega
  | inRight h hsent =>
      have := hsent.within
      unfold mid at this ⊢
      omega

/-! ## A half that does not fit -/

/-- The parent has not been through its first `wait`, and its first pipe holds no
more than it can. -/
def Proc.blocked (capacity : Nat) : Proc → Prop
  | .call _ l r => l < r
  | .pipe1 _ _ _ | .pipe2 _ _ _ | .fork1 _ _ _ => True
  | .fork2 _ _ _ _ pipefd1 => pipefd1.length ≤ capacity
  | .wait _ _ _ reaped1 _ _ pipefd1 _ _ => reaped1 = false ∧ pipefd1.length ≤ capacity
  | _ => False

section Blocked

variable {cap : Nat → Nat → Nat} {arr : List Int32} {left right capacity n : Nat} {e : Event}
  {p p' : Proc} {pipefd pipefd' : List UInt8}

/-- No child puts more into its pipe than the pipe holds. -/
theorem child_capacity (hq : pipefd.length ≤ capacity)
    (hs : child capacity left n (step cap e) e p pipefd = some (p', pipefd')) :
    pipefd'.length ≤ capacity := by
  unfold child at hs
  split at hs
  · cases hs
    exact hq
  · split at hs
    · obtain ⟨hk, hle, hroom⟩ := ‹_ ∧ _ ∧ _›
      cases hs
      rw [List.length_append, List.length_take]
      omega
    · cases hs
  · cases hs
    exact hq
  · cases hs
    exact hq
  · obtain ⟨p₁, hp₁, heq⟩ := Option.map_eq_some_iff.mp hs
    cases heq
    exact hq

/-- **The first `wait` never returns**: the first child exits when all of its
half is in the pipe, and the pipe does not hold that much. -/
theorem Proc.blocked_step (hr : right < arr.length)
    (hsmall : cap left (mid left right) < 4 * (mid left right - left + 1))
    (h : Sorting arr left right p) (hb : p.blocked (cap left (mid left right)))
    (hok : e.faultFree = true) (hs : step cap e p = some p') :
    p'.blocked (cap left (mid left right)) := by
  cases h with
  | call =>
      cases e with
      | self =>
          rw [step, if_pos (show left < right from hb)] at hs
          cases hs
          trivial
      | _ => cases hs
  | pipe1 | pipe2 =>
      cases e with
      | self => cases hs; trivial
      | fail => cases hok
      | _ => cases hs
  | fork1 =>
      cases e with
      | self => cases hs; exact Nat.zero_le _
      | fail => cases hok
      | _ => cases hs
  | fork2 hlr h₁ =>
      cases e with
      | self => cases hs; exact ⟨rfl, hb⟩
      | fail => cases hok
      | left e =>
          obtain ⟨⟨c₁, q₁⟩, hc, heq⟩ := Option.map_eq_some_iff.mp hs
          cases heq
          exact child_capacity hb hc
      | _ => cases hs
  | wait hlr h₁ h₂ hw₁ hw₂ =>
      rename_i w₁ w₂ c₁ q₁ c₂ q₂
      obtain ⟨hl, hm⟩ := mid_bounds hlr
      obtain ⟨rfl, hq⟩ : w₁ = false ∧ q₁.length ≤ cap left (mid left right) := hb
      cases e with
      | self => cases hs
      | fail => cases hok
      | write => cases hs
      | reap1 =>
          rw [step] at hs
          split at hs
          · -- the whole half would be in the pipe
            rw [(h₁.ended ‹_›).2, length_encode, length_sortedSlice (by omega) (by omega)] at hq
            omega
          · cases hs
      | reap2 =>
          cases w₂
          · rw [step] at hs
            split at hs <;> cases hs
            exact ⟨rfl, hq⟩
          · cases hs
      | left e =>
          obtain ⟨⟨c₁, q₁⟩, hc, heq⟩ := Option.map_eq_some_iff.mp hs
          cases heq
          exact ⟨rfl, child_capacity hq hc⟩
      | right e =>
          obtain ⟨⟨c₂, q₂⟩, hc, heq⟩ := Option.map_eq_some_iff.mp hs
          cases heq
          exact ⟨rfl, hq⟩
  | _ => cases hb

end Blocked

/-- The caller is neither back from `mergesort` nor has it exited, and no process
of the tree can go on. -/
def Stuck (capacity : Nat) (p : Proc) : Prop :=
  (∀ arr', p ≠ .returned arr') ∧ p.ended = false ∧
    ∀ e, e.faultFree = true → step (fun _ _ => capacity) e p = none

/-- **A deadlock**, without any failure, where the first half does not fit: every
run ends, and none gets past the first `wait`. -/
theorem deadlock_reachable {arr : List Int32} {left right capacity : Nat} (hlr : left < right)
    (hr : right < arr.length) (hsmall : capacity < 4 * (mid left right - left + 1)) :
    ∃ p, Reachable (step fun _ _ => capacity) (.call arr left right) p ∧ Stuck capacity p := by
  have hstart : Run (step fun _ _ => capacity) (fun e _ => e.faultFree = true)
      (.call arr left right) (.call arr left right) := .start
  obtain ⟨p, hrun, hstop⟩ := hstart.stops Proc.cost fun e _ _ _ hs => (step_fewer e hs).1
  have hI : Sorting arr left right p ∧ p.blocked capacity := by
    refine hrun.invariant (I := fun p => Sorting arr left right p ∧ p.blocked capacity)
      ⟨.call _ _ _, hlr⟩ ?_
    rintro e p p' ⟨hsorting, hb⟩ hok hs
    exact ⟨hsorting.step_preserves e hr hok hs, Proc.blocked_step hr hsmall hsorting hb hok hs⟩
  refine ⟨p, hrun.mono fun _ _ _ => trivial, fun arr' hp => ?_, hI.1.not_ended, hstop⟩
  subst hp
  exact hI.2

/-- **Deadlock**: some process can go on in every state of the tree, whatever
system calls have failed, until the caller is back or has exited, if and only
if the first half, the longest any process sends, fits in a pipe. -/
theorem deadlock_free_iff (arr : List Int32) (left right capacity : Nat)
    (hr : right < arr.length) :
    (∀ p, Reachable (step fun _ _ => capacity) (.call arr left right) p → ¬ Stuck capacity p) ↔
      (left < right → 4 * (mid left right - left + 1) ≤ capacity) := by
  constructor
  · intro h hlr
    by_contra hsmall
    obtain ⟨p, hrun, hstuck⟩ := deadlock_reachable hlr hr (Nat.lt_of_not_le hsmall)
    exact h p hrun hstuck
  · intro hfit p hrun hstuck
    have htree : Tree .any arr left right p :=
      Tree.run hr (hrun.mono fun e p _ => eofOver_true e p)
    have hall : Fits (fun _ _ => capacity) left right := by
      intro l r hsent
      have hlr : left < right := by cases hsent <;> assumption
      have hle := hsent.length_le
      exact (Nat.mul_le_mul_left 4 hle).trans (hfit hlr)
    obtain ⟨hback, hend, hstop⟩ := hstuck
    rcases htree.moves hr hall with ⟨arr', rfl⟩ | hgone | ⟨e, hok, hs⟩
    · exact hback arr' rfl
    · rw [ended_of_gone hgone] at hend
      cases hend
    · rw [hstop e hok] at hs
      cases hs

/-- The array of `main`, with pipes of 64 kB. -/
theorem deadlock_free_iff_main :
    (∀ p, Reachable (step fun _ _ => 65536)
      (.call [6, 3, 2, 8, 12, 5, 7, 16, 9, 10, 11, 1, 15, 14, 13, 4] 0 15) p → ¬ Stuck 65536 p) ↔
      (0 < 15 → 4 * (mid 0 15 - 0 + 1) ≤ 65536) :=
  deadlock_free_iff _ 0 15 65536 (by decide)

/-- The stuck tree on `[2, 1, 3]` with a pipe of four bytes: the first child has
put one of its two integers into the pipe, and the caller waits for it. -/
def stuckTree : Proc :=
  .wait [2, 1, 3] 0 2 false true (.writing [2, 0, 0, 0] true) [1, 0, 0, 0]
    .exited [3, 0, 0, 0]

/-- A pipe of one integer, and three integers to sort. -/
theorem deadlock_threeIntegers :
    ¬ ∀ (capacity : Nat) (arr : List Int32) (left right : Nat) (p : Proc),
      4 ≤ capacity → right < arr.length →
      Reachable (step fun _ _ => capacity) (.call arr left right) p → ¬ Stuck capacity p := by
  intro h
  have hrun : Reachable (step fun _ _ => 4) (.call [2, 1, 3] 0 2) stuckTree :=
    Reachable.exec .start
      [.self, .self, .self, .self, .self,
       .left .self, .left .self, .left .self, .left .self, .left .self,
       .left (.left .self), .left (.left .self), .left (.left (.write 4)), .left (.left .self),
       .left (.right .self), .left (.right .self), .left (.right (.write 4)),
       .left (.right .self), .left .reap1, .left .reap2, .left .self, .left .self, .left .self,
       .left .self, .left .self, .left (.write 4),
       .right .self, .right .self, .right (.write 4), .right .self, .reap2] rfl
  have hback : ∀ arr', stuckTree ≠ .returned arr' := by
    intro arr' heq
    cases heq
  refine h 4 [2, 1, 3] 0 2 stuckTree (by decide) (by decide) hrun ⟨hback, rfl, fun e _ => ?_⟩
  cases e with
  | left e =>
      cases e with
      | write k =>
          -- the pipe is full
          have hfull : ¬ (0 < k ∧ k ≤ 4 ∧ 4 + k ≤ 4) := by omega
          rw [stuckTree, step, child]
          exact congrArg _ (if_neg hfull)
      | _ => rfl
  | right e => cases e <;> rfl
  | _ => rfl

end OsInParts.MergeSort
