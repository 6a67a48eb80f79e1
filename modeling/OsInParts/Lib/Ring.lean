import Mathlib.Order.Basic
import Mathlib.Tactic.Common

/-!
# Ring — positions of a circular buffer

`Occupied size out count k`: position `k` is one of the `count` positions
that start at `out` and wrap around at `size`. Pushing occupies the position
after the last, popping frees the first; both are arithmetic modulo `size`
that no caller has to look into.
-/

namespace Lib.Ring

variable {size out c k : ℕ}

def Occupied (size out count k : ℕ) : Prop := ∃ d < count, k = (out + d) % size

/-- One lap at most: the remainder is a conditional subtraction. -/
theorem add_mod_of_le (hout : out < size) {d : ℕ} (hd : d ≤ size) :
    (out + d) % size = if out + d < size then out + d else out + d - size := by
  split
  · rename_i h
    exact Nat.mod_eq_of_lt h
  · rw [Nat.mod_eq_sub_mod (by omega)]
    exact Nat.mod_eq_of_lt (by omega)

theorem not_occupied_zero : ¬ Occupied size out 0 k := fun ⟨_, hd, _⟩ => Nat.not_lt_zero _ hd

theorem occupied_succ :
    Occupied size out (c + 1) k ↔ Occupied size out c k ∨ k = (out + c) % size := by
  constructor
  · rintro ⟨d, hd, rfl⟩
    rcases Nat.lt_succ_iff_lt_or_eq.mp hd with h | rfl
    · exact .inl ⟨d, h, rfl⟩
    · exact .inr rfl
  · rintro (⟨d, hd, rfl⟩ | rfl)
    · exact ⟨d, by omega, rfl⟩
    · exact ⟨c, by omega, rfl⟩

/-- The position after the last is free while the ring is not full. -/
theorem not_occupied_next (hout : out < size) (hcount : c < size) :
    ¬ Occupied size out c ((out + c) % size) := by
  rintro ⟨d, hd, heq⟩
  rw [add_mod_of_le hout (by omega), add_mod_of_le hout (by omega)] at heq
  split at heq <;> split at heq <;> omega

theorem occupied_first (hout : out < size) (hcount : 0 < c) :
    Occupied size out c out :=
  ⟨0, hcount, by rw [Nat.add_zero, Nat.mod_eq_of_lt hout]⟩

/-- Popping frees the first position and no other. -/
theorem occupied_pop (hout : out < size) (hcount : c < size) :
    Occupied size ((out + 1) % size) c k
      ↔ Occupied size out (c + 1) k ∧ k ≠ out := by
  constructor
  · rintro ⟨d, hd, rfl⟩
    rw [Nat.mod_add_mod]
    refine ⟨⟨d + 1, by omega, by rw [Nat.add_right_comm, Nat.add_assoc]⟩, ?_⟩
    rw [Nat.add_assoc, add_mod_of_le hout (by omega)]
    split <;> omega
  · rintro ⟨⟨d, hd, rfl⟩, hne⟩
    cases d with
    | zero => rw [Nat.add_zero, Nat.mod_eq_of_lt hout] at hne; exact absurd rfl hne
    | succ d =>
        refine ⟨d, by omega, ?_⟩
        rw [Nat.mod_add_mod, Nat.add_right_comm, Nat.add_assoc]

end Lib.Ring
