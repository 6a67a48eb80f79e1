import Mathlib.Logic.Equiv.Basic
import Mathlib.Order.Fin.Basic
import Mathlib.Order.Monotone.Basic
import Mathlib.Tactic.Common

/-!
# BubbleSort — exchanging neighbours that are out of order

A pass over the first `m + 1` entries moves a largest one of them to
position `m`; each round passes over one entry less. `after x y` is the
program's own test for `x` having to come after `y`, and `key` is any key
that explains it.
-/

namespace Lib.BubbleSort

variable {α β : Type*} {n : ℕ} (after : α → α → Prop) [DecidableRel after]

/-- Exchange entries `j` and `j + 1` if they are out of order. -/
def exchange (p : Fin n → α) (j : ℕ) : Fin n → α :=
  if h : j + 1 < n then
    if after (p ⟨j, Nat.lt_of_succ_lt h⟩) (p ⟨j + 1, h⟩) then
      p ∘ Equiv.swap ⟨j, Nat.lt_of_succ_lt h⟩ ⟨j + 1, h⟩
    else p
  else p

/-- The exchanges at `0`, …, `m - 1`. -/
def pass (p : Fin n → α) : ℕ → Fin n → α
  | 0 => p
  | m + 1 => exchange after (pass p m) m

/-- The first `i` rounds. -/
def rounds (p : Fin n → α) : ℕ → Fin n → α
  | 0 => p
  | i + 1 => pass after (rounds p i) (n - i - 1)

def sort (p : Fin n → α) : Fin n → α := rounds after p (n - 1)

/-! ## A permutation -/

theorem exchange_perm (p : Fin n → α) (j : ℕ) :
    ∃ e : Equiv.Perm (Fin n), exchange after p j = p ∘ e := by
  unfold exchange
  split
  · split
    · exact ⟨_, rfl⟩
    · exact ⟨Equiv.refl _, rfl⟩
  · exact ⟨Equiv.refl _, rfl⟩

theorem pass_perm (p : Fin n → α) (m : ℕ) :
    ∃ e : Equiv.Perm (Fin n), pass after p m = p ∘ e := by
  induction m with
  | zero => exact ⟨Equiv.refl _, rfl⟩
  | succ m ih =>
      obtain ⟨e, he⟩ := ih
      obtain ⟨e', he'⟩ := exchange_perm after (pass after p m) m
      exact ⟨e'.trans e, by rw [pass, he', he]; rfl⟩

theorem rounds_perm (p : Fin n → α) (i : ℕ) :
    ∃ e : Equiv.Perm (Fin n), rounds after p i = p ∘ e := by
  induction i with
  | zero => exact ⟨Equiv.refl _, rfl⟩
  | succ i ih =>
      obtain ⟨e, he⟩ := ih
      obtain ⟨e', he'⟩ := pass_perm after (rounds after p i) (n - i - 1)
      exact ⟨e'.trans e, by rw [rounds, he', he]; rfl⟩

/-- Sorting permutes the entries. -/
theorem sort_perm (p : Fin n → α) :
    ∃ e : Equiv.Perm (Fin n), sort after p = p ∘ e := rounds_perm after p (n - 1)

/-! ## Sorted -/

section Sorted

variable [LinearOrder β] {key : α → β}

theorem exchange_of_ne (p : Fin n → α) {j : ℕ} {t : Fin n} (h1 : t.val ≠ j)
    (h2 : t.val ≠ j + 1) : exchange after p j t = p t := by
  unfold exchange
  split
  · split
    · rw [Function.comp_apply, Equiv.swap_apply_of_ne_of_ne]
      · exact fun h => h1 (congrArg Fin.val h)
      · exact fun h => h2 (congrArg Fin.val h)
    · rfl
  · rfl

variable {after}

/-- The larger of the two entries ends up in the upper place. -/
theorem exchange_pair (hkey : ∀ x y, after x y ↔ key y < key x) (p : Fin n → α) {j : ℕ}
    (h : j + 1 < n) :
    key (exchange after p j ⟨j, Nat.lt_of_succ_lt h⟩) ≤ key (exchange after p j ⟨j + 1, h⟩) ∧
      key (p ⟨j, Nat.lt_of_succ_lt h⟩) ≤ key (exchange after p j ⟨j + 1, h⟩) ∧
      key (exchange after p j ⟨j + 1, h⟩)
        ≤ max (key (p ⟨j, Nat.lt_of_succ_lt h⟩)) (key (p ⟨j + 1, h⟩)) := by
  unfold exchange
  rw [dif_pos h]
  split
  · rename_i hafter
    rw [Function.comp_apply, Function.comp_apply, Equiv.swap_apply_left,
      Equiv.swap_apply_right]
    exact ⟨((hkey _ _).mp hafter).le, le_rfl, le_max_left _ _⟩
  · rename_i hafter
    rw [hkey, not_lt] at hafter
    exact ⟨hafter, hafter, le_max_right _ _⟩

theorem pass_of_lt (p : Fin n → α) {m : ℕ} {t : Fin n} (ht : m < t.val) :
    pass after p m t = p t := by
  induction m with
  | zero => rfl
  | succ m ih => rw [pass, exchange_of_ne after _ (by omega) (by omega), ih (by omega)]

/-- What bounds the entries bounds them after an exchange. -/
theorem exchange_le (hkey : ∀ x y, after x y ↔ key y < key x) {p : Fin n → α} {k : ℕ} {b : β}
    (hp : ∀ t : Fin n, t.val ≤ k → key (p t) ≤ b) {j : ℕ} (hj : j + 1 ≤ k) (t : Fin n)
    (ht : t.val ≤ k) : key (exchange after p j t) ≤ b := by
  by_cases h : j + 1 < n
  · have hpair := exchange_pair hkey p h
    have htop : key (exchange after p j ⟨j + 1, h⟩) ≤ b :=
      hpair.2.2.trans (max_le (hp _ (Nat.le_of_succ_le hj)) (hp _ hj))
    by_cases h1 : t.val = j
    · rw [show t = ⟨j, Nat.lt_of_succ_lt h⟩ from Fin.ext h1]
      exact hpair.1.trans htop
    · by_cases h2 : t.val = j + 1
      · rw [show t = ⟨j + 1, h⟩ from Fin.ext h2]
        exact htop
      · rw [exchange_of_ne after p h1 h2]
        exact hp t ht
  · rw [exchange, dif_neg h]
    exact hp t ht

theorem pass_le (hkey : ∀ x y, after x y ↔ key y < key x) {p : Fin n → α} {k : ℕ} {b : β}
    (hp : ∀ t : Fin n, t.val ≤ k → key (p t) ≤ b) {m : ℕ} (hm : m ≤ k) :
    ∀ t : Fin n, t.val ≤ k → key (pass after p m t) ≤ b := by
  induction m with
  | zero => exact hp
  | succ m ih => exact exchange_le hkey (ih (Nat.le_of_succ_le hm)) hm

/-- **A pass** brings a largest of the entries it has seen to the top. -/
theorem pass_max (hkey : ∀ x y, after x y ↔ key y < key x) (p : Fin n → α) {m : ℕ}
    (hm : m < n) (t : Fin n) (ht : t.val ≤ m) :
    key (pass after p m t) ≤ key (pass after p m ⟨m, hm⟩) := by
  induction m generalizing t with
  | zero =>
      rw [show t = ⟨0, hm⟩ from Fin.ext (by simpa using ht)]
  | succ m ih =>
      have hpair := exchange_pair hkey (pass after p m) hm
      have hbound : ∀ t : Fin n, t.val ≤ m →
          key (pass after p m t) ≤ key (exchange after (pass after p m) m ⟨m + 1, hm⟩) :=
        fun t ht => (ih (Nat.lt_of_succ_lt hm) t ht).trans hpair.2.1
      rw [pass]
      by_cases h1 : t.val = m + 1
      · rw [show t = ⟨m + 1, hm⟩ from Fin.ext h1]
      · by_cases h2 : t.val = m
        · rw [show t = ⟨m, Nat.lt_of_succ_lt hm⟩ from Fin.ext h2]
          exact hpair.1
        · rw [exchange_of_ne after _ h2 h1]
          exact hbound t (by omega)

/-- The entries from `k` on are sorted and no smaller than those before. -/
def SortedFrom (key : α → β) (p : Fin n → α) (k : ℕ) : Prop :=
  ∀ s t : Fin n, s ≤ t → k ≤ t.val → key (p s) ≤ key (p t)

theorem sortedFrom_rounds (hkey : ∀ x y, after x y ↔ key y < key x) (p : Fin n → α) {i : ℕ}
    (hi : i ≤ n) : SortedFrom key (rounds after p i) (n - i) := by
  induction i with
  | zero => exact fun s t _ ht => by have := t.isLt; omega
  | succ i ih =>
      have hsorted := ih (Nat.le_of_succ_le hi)
      have hlast : n - i - 1 < n := by omega
      intro s t hst ht
      have hst' : s.val ≤ t.val := hst
      rw [rounds]
      by_cases htop : n - i - 1 < t.val
      · rw [pass_of_lt _ htop]
        by_cases hs : n - i - 1 < s.val
        · rw [pass_of_lt _ hs]
          exact hsorted s t hst (by omega)
        · refine pass_le hkey (k := n - i - 1) (fun u hu => ?_) le_rfl s (by omega)
          exact hsorted u t (by show u.val ≤ t.val; omega) (by omega)
      · have hteq : t = ⟨n - i - 1, hlast⟩ := Fin.ext (by show t.val = n - i - 1; omega)
        rw [hteq]
        exact pass_max hkey _ hlast s (by omega)

/-- **Sorting sorts.** -/
theorem sort_monotone (key : α → β) (hkey : ∀ x y, after x y ↔ key y < key x) (p : Fin n → α) :
    Monotone (key ∘ sort after p) := by
  intro s t hst
  rcases Nat.eq_zero_or_pos t.val with h0 | hpos
  · have hst' : s.val ≤ t.val := hst
    rw [show s = t from Fin.ext (by omega)]
  · exact sortedFrom_rounds hkey p (Nat.sub_le n 1) s t hst (by have := t.isLt; omega)

end Sorted

end Lib.BubbleSort
