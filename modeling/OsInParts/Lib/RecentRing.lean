import Mathlib.Data.List.FinRange
import Mathlib.Data.List.Nodup

/-!
# RecentRing — a ring of `n` slots holds the last `n` writes

Slot `k % n` is overwritten by the `k`-th write, so after any history of
writes the slots hold exactly its last `min n length` elements, each in the
slot of its number (`Holds`). As long as nothing is written that is still in
the ring, no two slots are equal.
-/

namespace Lib.RecentRing

variable {α : Type*} {n : Nat}

/-- The last `min n length` elements of a history. -/
def recent (n : Nat) (history : List α) : List α := history.drop (history.length - n)

theorem length_recent (n : Nat) (history : List α) :
    (recent n history).length = min n history.length := by
  rw [recent, List.length_drop]
  omega

theorem mem_recent {a : α} {history : List α} :
    a ∈ recent n history ↔ ∃ k, history[k]? = some a ∧ history.length ≤ k + n := by
  rw [recent, List.mem_iff_getElem?]
  constructor
  · rintro ⟨k, hk⟩
    rw [List.getElem?_drop] at hk
    exact ⟨history.length - n + k, hk, by omega⟩
  · rintro ⟨k, hk, hle⟩
    refine ⟨k - (history.length - n), ?_⟩
    rw [List.getElem?_drop, Nat.add_sub_cancel' (by omega)]
    exact hk

/-- One more write drops at most the oldest element. -/
theorem recent_append_sublist (n : Nat) (history : List α) (a : α) :
    List.Sublist (recent n (history ++ [a])) (recent n history ++ [a]) := by
  have hdrop : recent n history ++ [a] = (history ++ [a]).drop (history.length - n) :=
    (List.drop_append_of_le_length (by omega)).symm
  rw [hdrop, recent, List.length_append, List.length_singleton]
  apply List.drop_sublist_drop_left
  omega

theorem recent_nodup_append {history : List α} {a : α} (h : (recent n history).Nodup)
    (ha : a ∉ recent n history) : (recent n (history ++ [a])).Nodup := by
  apply (recent_append_sublist n history a).nodup
  rw [List.nodup_append]
  refine ⟨h, List.nodup_singleton a, ?_⟩
  intro b hb c hc hbc
  rw [List.mem_singleton] at hc
  exact ha (hc ▸ hbc ▸ hb)

/-- **The ring** after a history of writes, with the slot of the next one. -/
structure Holds (ring : Fin n → Option α) (next : Fin n) (history : List α) : Prop where
  next : next.val = history.length % n
  slot : ∀ i a, ring i = some a ↔
    ∃ k, history[k]? = some a ∧ history.length ≤ k + n ∧ k % n = i.val

theorem Holds.empty (hn : 0 < n) : Holds (fun _ => none) ⟨0, hn⟩ ([] : List α) where
  next := (Nat.zero_mod n).symm
  slot := by simp

section

variable {ring : Fin n → Option α} {next : Fin n} {history : List α}

/-- **One write** goes to the next slot. -/
theorem Holds.write (h : Holds ring next history) (a : α)
    (hlt : (next.val + 1) % n < n) :
    Holds (Function.update ring next (some a)) ⟨(next.val + 1) % n, hlt⟩ (history ++ [a]) := by
  have hn : 0 < n := Nat.zero_lt_of_lt hlt
  constructor
  · show (next.val + 1) % n = _
    rw [h.next, List.length_append, List.length_singleton, Nat.mod_add_mod]
  · intro i b
    rw [List.length_append, List.length_singleton]
    by_cases hi : i = next
    · -- the new element; the one it replaces was `n` writes ago
      subst hi
      rw [Function.update_self]
      constructor
      · intro hb
        refine ⟨history.length, ?_, by omega, h.next.symm⟩
        rw [List.getElem?_append_right le_rfl, Nat.sub_self]
        exact hb
      · rintro ⟨k, hk, hle, hmod⟩
        have hlast : k = history.length := by
          by_contra hne
          have hbound : k < (history ++ [a]).length := by
            obtain ⟨hbound, -⟩ := List.getElem?_eq_some_iff.mp hk
            exact hbound
          rw [List.length_append, List.length_singleton] at hbound
          rw [h.next] at hmod
          -- two numbers less than `n` apart have different remainders
          have hsub : (history.length - k) % n = 0 :=
            Nat.sub_mod_eq_zero_of_mod_eq hmod.symm
          rw [Nat.mod_eq_of_lt (by omega)] at hsub
          omega
        rw [hlast, List.getElem?_append_right le_rfl, Nat.sub_self] at hk
        exact hk
    · rw [Function.update_of_ne hi, h.slot]
      have hne : i.val ≠ history.length % n := by
        rw [← h.next]
        exact fun heq => hi (Fin.ext heq)
      constructor
      · rintro ⟨k, hk, hle, hmod⟩
        obtain ⟨hbound, -⟩ := List.getElem?_eq_some_iff.mp hk
        refine ⟨k, by rw [List.getElem?_append_left hbound, hk], ?_, hmod⟩
        -- the oldest element is in the slot written now
        have hold : k + n ≠ history.length := by
          intro heq
          rw [← heq, Nat.add_mod_right] at hne
          exact hne hmod.symm
        omega
      · rintro ⟨k, hk, hle, hmod⟩
        have hk' : k ≠ history.length := fun heq => hne (by rw [← hmod, heq])
        obtain ⟨hbound, -⟩ := List.getElem?_eq_some_iff.mp hk
        rw [List.length_append, List.length_singleton] at hbound
        rw [List.getElem?_append_left (by omega)] at hk
        exact ⟨k, hk, by omega, hmod⟩

/-- What is in the ring. -/
theorem Holds.mem (h : Holds ring next history) {a : α} :
    (∃ i, ring i = some a) ↔ a ∈ recent n history := by
  rw [mem_recent]
  constructor
  · rintro ⟨i, hi⟩
    obtain ⟨k, hk, hle, -⟩ := (h.slot i a).mp hi
    exact ⟨k, hk, hle⟩
  · rintro ⟨k, hk, hle⟩
    have hn : 0 < n := Nat.zero_lt_of_lt next.isLt
    exact ⟨⟨k % n, Nat.mod_lt k hn⟩, (h.slot _ a).mpr ⟨k, hk, hle, rfl⟩⟩

/-- No element is in two slots. -/
theorem Holds.inj (h : Holds ring next history) (hnodup : (recent n history).Nodup)
    {i j : Fin n} {a : α} (hi : ring i = some a) (hj : ring j = some a) : i = j := by
  obtain ⟨k, hk, hle, hmod⟩ := (h.slot i a).mp hi
  obtain ⟨k', hk', hle', hmod'⟩ := (h.slot j a).mp hj
  obtain ⟨hlt, -⟩ := List.getElem?_eq_some_iff.mp hk
  have hposition : ∀ m, history[m]? = some a → history.length ≤ m + n →
      (recent n history)[m - (history.length - n)]? = some a := by
    intro m hm hlem
    rw [recent, List.getElem?_drop, Nat.add_sub_cancel' (by omega), hm]
  have heq : k - (history.length - n) = k' - (history.length - n) := by
    apply (List.getElem?_inj _ hnodup).mp
    · rw [hposition k hk hle, hposition k' hk' hle']
    · rw [length_recent]
      omega
  apply Fin.ext
  rw [← hmod, ← hmod', show k = k' by omega]

/-- **The ring is the recent history**, up to the order of the slots. -/
theorem Holds.perm (h : Holds ring next history) (hnodup : (recent n history).Nodup) :
    ((List.finRange n).filterMap ring).Perm (recent n history) := by
  rw [List.perm_ext_iff_of_nodup _ hnodup]
  · intro a
    rw [← h.mem]
    simp
  · apply (List.nodup_finRange n).filterMap
    intro i j a hi hj
    exact h.inj hnodup hi hj

end

end Lib.RecentRing
