import Mathlib.Data.List.FinRange
import Mathlib.Logic.Function.Basic

/-!
# SecondChance — the clock replacement algorithm over empty and full frames

The textbook algorithm over any type of pages: a hit sets the page's
reference bit; a fault loads into the lowest empty frame if there is one, and
otherwise moves the hand, clearing reference bits, to the first frame whose
bit is clear, replaces its page, sets its bit and leaves the hand on the next
frame.

The search needs at most `n` moves: by then every bit has been cleared
(`advance_clear`). A page is never in two frames (`request_distinct`), and
every request is counted once (`request_count`).
-/

namespace Lib.SecondChance

variable {α : Type*} [DecidableEq α] {n : Nat}

/-- `n` frames with their reference bits, the hand, and the two counters. -/
structure State (α : Type*) (n : Nat) where
  frames : Fin n → Option α
  bits : Fin n → Bool
  hand : Fin n
  hits : Nat
  faults : Nat

/-- The frame after `i` on the ring. -/
def next (i : Fin n) : Fin n := ⟨(i.val + 1) % n, Nat.mod_lt _ (Nat.zero_lt_of_lt i.isLt)⟩

theorem next_val (i : Fin n) :
    (next i).val = if i.val + 1 = n then 0 else i.val + 1 := by
  have := i.isLt
  unfold next
  split
  · rename_i h
    simp [h]
  · exact Nat.mod_eq_of_lt (by omega)

/-- No page loaded yet. -/
def empty (hn : 0 < n) : State α n :=
  { frames := fun _ => none, bits := fun _ => false, hand := ⟨0, hn⟩, hits := 0, faults := 0 }

/-- The lowest index with a property. -/
def lowest (p : Fin n → Bool) : Option (Fin n) := (List.finRange n).find? p

theorem lowest_some {p : Fin n → Bool} {i : Fin n} (h : lowest p = some i) : p i = true :=
  List.find?_some h

theorem lowest_none {p : Fin n → Bool} : lowest p = none ↔ ∀ i, p i = false := by
  simp [lowest, List.find?_eq_none]

theorem lowest_eq_some {p : Fin n → Bool} {i : Fin n} (hi : p i = true)
    (hlt : ∀ j < i, p j = false) : lowest p = some i := by
  rw [lowest, List.find?_eq_some_iff_getElem]
  refine ⟨hi, i.val, by simp, by simp, fun j hj => ?_⟩
  simp only [List.getElem_finRange]
  rw [hlt _ (by simpa [Fin.lt_def] using hj)]
  rfl

/-- Move the hand at most `k` frames on, clearing bits, to a clear one. -/
def advance : Nat → State α n → State α n
  | 0, s => s
  | k + 1, s =>
      if s.bits s.hand then
        advance k { s with bits := Function.update s.bits s.hand false, hand := next s.hand }
      else s

/-- Load `page` into `i` and set its bit. -/
def fill (s : State α n) (i : Fin n) (page : α) : State α n :=
  { s with
    frames := Function.update s.frames i (some page)
    bits := Function.update s.bits i true }

def request (s : State α n) (page : α) : State α n :=
  match lowest fun i => s.frames i = some page with
  | some i => { s with bits := Function.update s.bits i true, hits := s.hits + 1 }
  | none =>
      let s := { s with faults := s.faults + 1 }
      match lowest fun i => (s.frames i).isNone with
      | some i => fill s i page
      | none =>
          let s := advance n s
          { fill s s.hand page with hand := next s.hand }

/-! ## The search -/

omit [DecidableEq α] in
theorem advance_frames (k : Nat) (s : State α n) : (advance k s).frames = s.frames := by
  induction k generalizing s with
  | zero => rfl
  | succ k ih =>
      rw [advance]
      split
      · rw [ih]
      · rfl

omit [DecidableEq α] in
theorem advance_counters (k : Nat) (s : State α n) :
    (advance k s).hits = s.hits ∧ (advance k s).faults = s.faults := by
  induction k generalizing s with
  | zero => exact ⟨rfl, rfl⟩
  | succ k ih =>
      rw [advance]
      split
      · exact ih _
      · exact ⟨rfl, rfl⟩

omit [DecidableEq α] in
/-- With `k` moves left, a hand whose bits behind it (the `n - k` frames just
visited) are clear stops on a clear bit. -/
private theorem advance_clear_of_visited {k : Nat} {s : State α n} (hk : k ≤ n)
    (hvis : ∀ i : Fin n, (∃ d, 0 < d ∧ d ≤ n - k ∧
      (i.val + d = s.hand.val ∨ i.val + d = s.hand.val + n)) → s.bits i = false) :
    (advance k s).bits (advance k s).hand = false := by
  induction k generalizing s with
  | zero =>
      have := s.hand.isLt
      exact hvis s.hand ⟨n, by omega, by omega, .inr rfl⟩
  | succ k ih =>
      rw [advance]
      split
      · apply ih (by omega)
        rintro i ⟨d, hd0, hdn, hd⟩
        dsimp only at hd ⊢
        by_cases hi : i = s.hand
        · simp [hi]
        · rw [Function.update_of_ne hi]
          have hne : i.val ≠ s.hand.val := fun h => hi (Fin.ext h)
          have hnv := next_val s.hand
          have := i.isLt
          have := s.hand.isLt
          refine hvis i ⟨d - 1, ?_, by omega, ?_⟩ <;>
            (split at hnv <;> omega)
      · rename_i hb
        simpa using hb

omit [DecidableEq α] in
/-- **The search ends on a clear bit**, within one round. -/
theorem advance_clear (s : State α n) :
    (advance n s).bits (advance n s).hand = false :=
  advance_clear_of_visited (Nat.le_refl n) fun i ⟨d, hd0, hdn, _⟩ => by omega

/-! ## What a request keeps -/

/-- No page is in two frames. -/
def Distinct (s : State α n) : Prop :=
  ∀ i j page, s.frames i = some page → s.frames j = some page → i = j

omit [DecidableEq α] in
theorem Distinct.fill {s : State α n} (h : Distinct s) {page : α}
    (hnew : ∀ i, s.frames i ≠ some page) (k : Fin n) : Distinct (fill s k page) := by
  intro i j p hi hj
  simp only [SecondChance.fill] at hi hj
  by_cases hik : i = k <;> by_cases hjk : j = k
  · rw [hik, hjk]
  · rw [hik, Function.update_self, Option.some.injEq] at hi
    rw [Function.update_of_ne hjk] at hj
    exact absurd (hi ▸ hj) (hnew j)
  · rw [hjk, Function.update_self, Option.some.injEq] at hj
    rw [Function.update_of_ne hik] at hi
    exact absurd (hj ▸ hi) (hnew i)
  · rw [Function.update_of_ne hik] at hi
    rw [Function.update_of_ne hjk] at hj
    exact h i j p hi hj

/-! ## The three kinds of request -/

/-- The page is in a frame. -/
theorem request_hit {s : State α n} {page : α} {i : Fin n}
    (h : lowest (fun i => decide (s.frames i = some page)) = some i) :
    request s page
      = { s with bits := Function.update s.bits i true, hits := s.hits + 1 } := by
  simp only [request, h]

/-- The page is not there, and frame `i` is the lowest empty one. -/
theorem request_load {s : State α n} {page : α} {i : Fin n}
    (hmiss : lowest (fun i => decide (s.frames i = some page)) = none)
    (h : lowest (fun i => (s.frames i).isNone) = some i) :
    request s page = fill { s with faults := s.faults + 1 } i page := by
  simp only [request, hmiss, h]

/-- The page is not there and no frame is empty. -/
theorem request_replace {s : State α n} {page : α}
    (hmiss : lowest (fun i => decide (s.frames i = some page)) = none)
    (h : lowest (fun i => (s.frames i).isNone) = none) :
    request s page =
      let s' := advance n { s with faults := s.faults + 1 }
      { fill s' s'.hand page with hand := next s'.hand } := by
  simp only [request, hmiss, h]

theorem request_distinct {s : State α n} (h : Distinct s) (page : α) :
    Distinct (request s page) := by
  cases hhit : lowest fun i => decide (s.frames i = some page) with
  | some i =>
      rw [request_hit hhit]
      exact h
  | none =>
      have hnew : ∀ i, s.frames i ≠ some page := by
        simpa using lowest_none.mp hhit
      cases hempty : lowest fun i => (s.frames i).isNone with
      | some i =>
          rw [request_load hhit hempty]
          exact Distinct.fill (s := { s with faults := s.faults + 1 }) h hnew i
      | none =>
          rw [request_replace hhit hempty]
          have hframes := advance_frames n { s with faults := s.faults + 1 }
          refine Distinct.fill (s := advance n { s with faults := s.faults + 1 }) ?_ ?_ _
          · intro i j p hi hj
            rw [hframes] at hi hj
            exact h i j p hi hj
          · rw [hframes]
            exact hnew

theorem request_count (s : State α n) (page : α) :
    (request s page).hits + (request s page).faults = s.hits + s.faults + 1 := by
  cases hhit : lowest fun i => decide (s.frames i = some page) with
  | some i =>
      rw [request_hit hhit]
      dsimp only
      omega
  | none =>
      cases hempty : lowest fun i => (s.frames i).isNone with
      | some i =>
          rw [request_load hhit hempty]
          rfl
      | none =>
          rw [request_replace hhit hempty]
          obtain ⟨hh, hf⟩ := advance_counters n { s with faults := s.faults + 1 }
          simp only [fill, hh, hf]
          omega

end Lib.SecondChance
