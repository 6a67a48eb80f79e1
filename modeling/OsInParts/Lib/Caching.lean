import Mathlib.Data.Finset.Card
import Mathlib.Data.List.Basic

/-!
# Caching — a conservative policy against any schedule

A schedule answers a sequence of requests with a set of at most `h` pages after each of
them that holds the page asked for, and pays one for every page that comes in; it may
know the whole sequence, and bring in pages that nobody asks for (`Serves`).

A policy with `n` frames is conservative when no stretch of requests for at most `n`
different pages has more than `n` misses. The sequence is cut into phases, each as long
as it can be with at most `n` pages. From one phase to the first request of the next,
`n + 1` pages are asked for, and at most `h` of them are there when the phase begins.
With its first request each phase is compared to what comes after it, so the induction
is over what is left after a phase (`Conservative.phase`).
-/

namespace Lib.Caching

variable {α : Type*} [DecidableEq α] {n h : ℕ}

/-! ## Schedules -/

/-- A schedule with `h` frames that starts with the pages `C`, and its cost. -/
inductive Serves (h : ℕ) : Finset α → List α → ℕ → Prop where
  | nil (C : Finset α) : Serves h C [] 0
  | request {C : Finset α} (K : Finset α) {page : α} {pages : List α} {cost : ℕ} :
      page ∈ K → K.card ≤ h → Serves h K pages cost →
        Serves h C (page :: pages) ((K \ C).card + cost)

variable {C : Finset α} {pages pages' : List α} {cost : ℕ}

/-- What is asked for and was not there has been brought in. -/
theorem Serves.loads (hserves : Serves h C pages cost) : (pages.toFinset \ C).card ≤ cost := by
  induction hserves with
  | nil C => simp
  | @request C K page pages cost hpage _ _ ih =>
      have hsub : (page :: pages).toFinset \ C ⊆ (K \ C) ∪ (pages.toFinset \ K) := by
        intro x hx
        rw [Finset.mem_sdiff, List.mem_toFinset] at hx
        rw [Finset.mem_union, Finset.mem_sdiff, Finset.mem_sdiff, List.mem_toFinset]
        by_cases hK : x ∈ K
        · exact .inl ⟨hK, hx.2⟩
        · rcases List.mem_cons.mp hx.1 with rfl | hmem
          · exact absurd hpage hK
          · exact .inr ⟨hmem, hK⟩
      exact (Finset.card_le_card hsub).trans
        ((Finset.card_union_le _ _).trans (Nat.add_le_add_left ih _))

/-- The part of a schedule up to a request, and the part after it. -/
theorem Serves.split {page : α} (hserves : Serves h C (pages ++ page :: pages') cost) :
    ∃ K cost₁ cost₂, cost = cost₁ + cost₂ ∧ Serves h C (pages ++ [page]) cost₁ ∧
      page ∈ K ∧ K.card ≤ h ∧ Serves h K pages' cost₂ := by
  induction pages generalizing C cost with
  | nil =>
      cases hserves with
      | @request _ K _ _ cost hpage hcard hrest =>
          exact ⟨K, (K \ C).card + 0, cost, by omega, .request K hpage hcard (.nil K), hpage,
            hcard, hrest⟩
  | cons first pages ih =>
      cases hserves with
      | @request _ C₁ _ _ cost hfirst hcard₁ hrest =>
          obtain ⟨K, cost₁, cost₂, rfl, hserves₁, hpage, hcard, hserves₂⟩ := ih hrest
          exact ⟨K, (C₁ \ C).card + cost₁, cost₂, by omega, .request C₁ hfirst hcard₁ hserves₁,
            hpage, hcard, hserves₂⟩

/-! ## Phases -/

/-- The longest part of the requests that asks for at most `n` pages with those of `W`,
and what is left. -/
theorem exists_phase (W : Finset α) (hW : W.card ≤ n) (pages : List α) :
    ∃ phase rest, pages = phase ++ rest ∧ (W ∪ phase.toFinset).card ≤ n ∧
      ∀ page ∈ rest.head?, n < (insert page (W ∪ phase.toFinset)).card := by
  induction pages generalizing W with
  | nil => exact ⟨[], [], rfl, by simpa using hW, fun _ hx => by cases hx⟩
  | cons page pages ih =>
      by_cases hcard : (insert page W).card ≤ n
      · obtain ⟨phase, rest, rfl, hphase, hrest⟩ := ih (insert page W) hcard
        have hunion : W ∪ (page :: phase).toFinset = insert page W ∪ phase.toFinset := by
          rw [List.toFinset_cons, Finset.union_insert, Finset.insert_union]
        exact ⟨page :: phase, rest, rfl, by rwa [hunion], by rwa [hunion]⟩
      · refine ⟨[], page :: pages, rfl, by simpa using hW, fun x hx => ?_⟩
        cases hx
        simpa using hcard

/-- The requests after the first one of a phase, and the one that ends it, are not all
there when the first one has been answered. -/
theorem loads_of_phase {first last : α} {phase : List α} (hfirst : first ∈ C) (hC : C.card ≤ h)
    (hcard : n < (insert last ({first} ∪ phase.toFinset)).card)
    (hserves : Serves h C (phase ++ [last]) cost) : n + 1 - h ≤ cost := by
  have hloads := hserves.loads
  have hsub : insert last ({first} ∪ phase.toFinset) \ C ⊆ (phase ++ [last]).toFinset \ C := by
    intro x hx
    simp only [Finset.mem_sdiff, Finset.mem_insert, Finset.mem_union, Finset.mem_singleton,
      List.mem_toFinset, List.mem_append, List.mem_singleton] at hx ⊢
    obtain ⟨rfl | rfl | hmem, hnot⟩ := hx
    · exact ⟨.inr rfl, hnot⟩
    · exact absurd hfirst hnot
    · exact ⟨.inl hmem, hnot⟩
  have hle := Finset.card_le_card hsub
  have hdiff := Finset.le_card_sdiff C (insert last ({first} ∪ phase.toFinset))
  omega

/-! ## Conservative policies -/

/-- A replacement policy: whether a page is there, and what a request makes of the state. -/
structure Policy (σ α : Type*) where
  holds : σ → α → Bool
  next : σ → α → σ

variable {σ : Type*} {P : Policy σ α} {valid : σ → Prop}

/-- The requests of a sequence that do not find their page, in order. -/
def Policy.missed (P : Policy σ α) : σ → List α → List α
  | _, [] => []
  | s, page :: pages =>
      if P.holds s page then P.missed (P.next s page) pages
      else page :: P.missed (P.next s page) pages

omit [DecidableEq α] in
theorem Policy.missed_append (P : Policy σ α) (s : σ) (pages pages' : List α) :
    P.missed s (pages ++ pages') = P.missed s pages ++ P.missed (pages.foldl P.next s) pages' := by
  induction pages generalizing s with
  | nil => rfl
  | cons page pages ih =>
      rw [List.cons_append, missed, missed, List.foldl_cons]
      split
      · exact ih _
      · rw [ih, List.cons_append]

omit [DecidableEq α] in
theorem Policy.missed_subset (P : Policy σ α) (s : σ) (pages : List α) :
    P.missed s pages ⊆ pages := by
  induction pages generalizing s with
  | nil => exact List.Subset.refl _
  | cons page pages ih =>
      rw [missed]
      split
      · exact List.subset_cons_of_subset _ (ih _)
      · exact List.cons_subset_cons _ (ih _)

/-- **A policy with `n` frames** whose misses are bounded in each stretch, from the
states that are `valid`. -/
structure Conservative (P : Policy σ α) (n : ℕ) (valid : σ → Prop) : Prop where
  keeps : ∀ {s} page, valid s → valid (P.next s page)
  bound : ∀ {s pages}, valid s → pages.toFinset.card ≤ n → (P.missed s pages).length ≤ n

theorem Conservative.foldl (hpolicy : Conservative P n valid) {s : σ} (hs : valid s)
    (pages : List α) : valid (pages.foldl P.next s) := by
  induction pages generalizing s with
  | nil => exact hs
  | cons page pages ih => exact ih (hpolicy.keeps page hs)

/-- **From the first request of a phase on**, with the cost from after this request: each
further phase costs the schedule `n + 1 - h`. -/
theorem Conservative.phase (hpolicy : Conservative P n valid) (hn : 0 < n) {s : σ}
    (hs : valid s) {first : α} (hfirst : first ∈ C) (hC : C.card ≤ h)
    (hserves : Serves h C pages cost) :
    (n + 1 - h) * (P.missed s (first :: pages)).length ≤ n * (cost + (n + 1 - h)) := by
  induction hlength : pages.length using Nat.strongRecOn generalizing s first C pages cost with
  | _ len ih =>
      obtain ⟨phase, rest, rfl, hphase, hrest⟩ := exists_phase (n := n) {first}
        (by rwa [Finset.card_singleton]) pages
      have hmisses : (P.missed s (first :: phase)).length ≤ n :=
        hpolicy.bound hs (by rwa [List.toFinset_cons, Finset.insert_eq])
      have happend : P.missed s (first :: (phase ++ rest)) = P.missed s (first :: phase)
          ++ P.missed ((first :: phase).foldl P.next s) rest :=
        P.missed_append s (first :: phase) rest
      rw [happend, List.length_append, Nat.mul_add]
      have hthis := Nat.mul_le_mul_left (n + 1 - h) hmisses
      rw [Nat.mul_comm (n + 1 - h) n] at hthis
      cases rest with
      | nil =>
          rw [Policy.missed, List.length_nil, Nat.mul_zero, Nat.add_zero, Nat.mul_add]
          omega
      | cons last rest =>
          obtain ⟨K, cost₁, cost₂, rfl, hserves₁, hlast, hK, hserves₂⟩ := hserves.split
          have hloads := loads_of_phase hfirst hC (hrest last rfl) hserves₁
          have hshort : rest.length < len := by
            rw [← hlength, List.length_append, List.length_cons]
            omega
          have hlater := ih rest.length hshort (hpolicy.foldl hs (first :: phase)) hlast hK
            hserves₂ rfl
          have hpaid := Nat.mul_le_mul_left n hloads
          calc _ ≤ n * (n + 1 - h) + n * (cost₂ + (n + 1 - h)) := Nat.add_le_add hthis hlater
            _ ≤ n * cost₁ + n * (cost₂ + (n + 1 - h)) := Nat.add_le_add_right hpaid _
            _ = n * (cost₁ + cost₂ + (n + 1 - h)) := by
                rw [← Nat.mul_add, Nat.add_assoc]

/-- **A conservative policy with `n` frames against any schedule with `h` frames** that
starts with none of the pages. -/
theorem Conservative.competitive (hpolicy : Conservative P n valid) (hn : 0 < n)
    {s : σ} (hs : valid s) (hserves : Serves h ∅ pages cost) :
    (n + 1 - h) * (P.missed s pages).length ≤ n * (cost + (n - h)) := by
  cases hserves with
  | nil =>
      rw [Policy.missed, List.length_nil, Nat.mul_zero]
      exact Nat.zero_le _
  | @request _ K page pages cost hpage hcard hrest =>
      have hphase := hpolicy.phase hn hs hpage hcard hrest
      have hfirst : 0 < (K \ ∅).card := by
        rw [Finset.sdiff_empty]
        exact Finset.card_pos.mpr ⟨page, hpage⟩
      refine hphase.trans (Nat.mul_le_mul_left n ?_)
      omega

end Lib.Caching
