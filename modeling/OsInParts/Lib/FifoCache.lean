import OsInParts.Lib.Caching
import OsInParts.Lib.RecentRing

/-!
# FifoCache — a cache that is replaced in the order of loading

A page that is not among the last `n` that came in comes in, so the cache is its history
(`RecentRing.recent`). A page that has come in stays for the next `n - 1` misses
(`not_mem_take_missed`). So the first `n + 1` misses of a stretch are different pages,
and a stretch with at most `n` pages does not have as many (`conservative`).
-/

namespace Lib.RecentRing

variable {α : Type*} [DecidableEq α] {n : ℕ}

/-- A page that is not there comes in. -/
def inOrder (n : ℕ) : Caching.Policy (List α) α where
  holds history page := page ∈ recent n history
  next history page := if page ∈ recent n history then history else history ++ [page]

theorem missed_hit {page : α} {history pages : List α} (hpage : page ∈ recent n history) :
    (inOrder n).missed history (page :: pages) = (inOrder n).missed history pages := by
  simp [Caching.Policy.missed, inOrder, hpage]

theorem missed_miss {page : α} {history pages : List α} (hpage : page ∉ recent n history) :
    (inOrder n).missed history (page :: pages)
      = page :: (inOrder n).missed (history ++ [page]) pages := by
  simp [Caching.Policy.missed, inOrder, hpage]

omit [DecidableEq α] in
/-- What came in before fewer than `n` others is still there. -/
theorem mem_recent_append (p : α) (history : List α) {later : List α} (hlater : later.length < n) :
    p ∈ recent n (history ++ p :: later) := by
  rw [recent, List.drop_append, List.mem_append]
  refine .inr ?_
  rw [List.length_append, List.length_cons, show
    history.length + (later.length + 1) - n - history.length = 0 by omega, List.drop_zero]
  exact List.mem_cons_self

/-- A page does not miss again among the next `n` misses, counted from its own. -/
theorem not_mem_take_missed (p : α) (history later pages : List α) {k : ℕ}
    (hk : later.length + k ≤ n) :
    p ∉ ((inOrder n).missed (history ++ p :: later) pages).take k := by
  induction pages generalizing later k with
  | nil => simp [Caching.Policy.missed]
  | cons page pages ih =>
      by_cases hpage : page ∈ recent n (history ++ p :: later)
      · rw [missed_hit hpage]
        exact ih later hk
      · rw [missed_miss hpage]
        cases k with
        | zero => simp
        | succ k =>
            have hthere := mem_recent_append p history (show later.length < n by omega)
            rw [List.take_succ_cons, List.mem_cons, not_or]
            refine ⟨fun heq => hpage (heq ▸ hthere), ?_⟩
            rw [List.append_assoc, List.cons_append]
            exact ih _ (by rw [List.length_append, List.length_singleton]; omega)

/-- The first `n + 1` misses are different pages. -/
theorem nodup_take_missed (history pages : List α) {k : ℕ} (hk : k ≤ n + 1) :
    (((inOrder n).missed history pages).take k).Nodup := by
  induction pages generalizing history k with
  | nil => simp [Caching.Policy.missed]
  | cons page pages ih =>
      by_cases hpage : page ∈ recent n history
      · rw [missed_hit hpage]
        exact ih history hk
      · rw [missed_miss hpage]
        cases k with
        | zero => simp
        | succ k =>
            rw [List.take_succ_cons, List.nodup_cons]
            exact ⟨not_mem_take_missed page history [] pages (by simpa using hk),
              ih _ (by omega)⟩

/-- **The order of loading is conservative.** -/
theorem inOrder_conservative : Caching.Conservative (@inOrder α _ n) n fun _ => True where
  keeps _ _ := trivial
  bound {history pages} _ hcard := by
    by_contra hlong
    have hnodup := nodup_take_missed (n := n) history pages le_rfl
    have hsub : (((inOrder n).missed history pages).take (n + 1)).toFinset ⊆ pages.toFinset := by
      intro x hx
      rw [List.mem_toFinset] at hx ⊢
      exact (inOrder n).missed_subset history pages (List.mem_of_mem_take hx)
    have hle := Finset.card_le_card hsub
    rw [List.toFinset_card_of_nodup hnodup, List.length_take] at hle
    omega

end Lib.RecentRing
