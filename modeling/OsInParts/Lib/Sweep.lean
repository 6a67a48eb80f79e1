import Mathlib.Algebra.Order.Ring.Abs
import Mathlib.Tactic.Linarith

/-!
# Sweep — greedy tours on a line

A head on a line visits points one after the other, each time a nearest one of
those that are left (`Greedy`). It passes over none of them, so what it has
swept is an interval with the head at one end and nothing left inside
(`AtTop`). Turning round takes it to a point at least as far from the other
end as the head has moved so far, so a tour is never longer than twice the
width of the line it sweeps (`Greedy.travel_le`).
-/

namespace Lib.Sweep

variable {α : Type*} [CommRing α] [LinearOrder α] [IsStrictOrderedRing α]

/-- How far the head moves along a tour. -/
def travel (head : α) : List α → α
  | [] => 0
  | t :: tour => |head - t| + travel t tour

/-- Every point is a nearest one of those not yet visited. -/
def Greedy (head : α) : List α → Prop
  | [] => True
  | t :: tour => (∀ u ∈ tour, |head - t| ≤ |head - u|) ∧ Greedy t tour

/-- A nearest point is reached without passing over another one. -/
theorem not_between {head t u : α} (h : |head - t| ≤ |head - u|) :
    ¬ (head < u ∧ u < t) ∧ ¬ (t < u ∧ u < head) := by
  constructor
  · rintro ⟨h1, h2⟩
    rw [abs_sub_comm, abs_of_pos (by linarith), abs_sub_comm, abs_of_pos (by linarith)] at h
    linarith
  · rintro ⟨h1, h2⟩
    rw [abs_of_pos (by linarith), abs_of_pos (by linarith)] at h
    linarith

/-! ## The mirror image -/

omit [IsStrictOrderedRing α] in
theorem abs_neg_sub_neg (a b : α) : |-a - -b| = |a - b| := by
  rw [neg_sub_neg, abs_sub_comm]

omit [IsStrictOrderedRing α] in
theorem travel_neg (head : α) (tour : List α) :
    travel (-head) (tour.map Neg.neg) = travel head tour := by
  induction tour generalizing head with
  | nil => rfl
  | cons t tour ih => rw [List.map_cons, travel, travel, abs_neg_sub_neg, ih]

omit [IsStrictOrderedRing α] in
theorem Greedy.neg {head : α} {tour : List α} (h : Greedy head tour) :
    Greedy (-head) (tour.map Neg.neg) := by
  induction tour generalizing head with
  | nil => trivial
  | cons t tour ih =>
      refine ⟨fun u hu => ?_, ih h.2⟩
      obtain ⟨v, hv, rfl⟩ := List.mem_map.mp hu
      rw [abs_neg_sub_neg, abs_neg_sub_neg]
      exact h.1 v hv

/-! ## The interval swept so far -/

/-- The head is at the upper end of the interval it has swept by moving
`length`, and the points of `left` are still to be visited. -/
structure AtTop (left : List α) (low high length : α) : Prop where
  le : low ≤ high
  outside : ∀ t ∈ left, t < low ∨ high ≤ t
  length_le : length ≤ 2 * (high - low)
  /-- turning round is worth the way so far -/
  far : ∀ t ∈ left, t < low → length ≤ high - t

variable {t low high length : α} {tour : List α}

theorem AtTop.start (head : α) (tour : List α) : AtTop tour head head 0 where
  le := le_rfl
  outside := fun t _ => lt_or_ge t head
  length_le := by linarith
  far := fun t _ ht => by linarith

/-- The next point is further up. -/
theorem AtTop.up (h : AtTop (t :: tour) low high length) (ht : high ≤ t)
    (hnear : ∀ u ∈ tour, |high - t| ≤ |high - u|) :
    AtTop tour low t (length + |high - t|) := by
  have hlow := h.le
  have hlength := h.length_le
  have hmove : |high - t| = t - high := by rw [abs_sub_comm, abs_of_nonneg (by linarith)]
  rw [hmove] at hnear ⊢
  refine ⟨hlow.trans ht, fun u hu => ?_, by linarith, fun u hu hlt => ?_⟩
  · rcases h.outside u (List.mem_cons_of_mem _ hu) with hlt | hge
    · exact .inl hlt
    · have hle := hnear u hu
      rw [abs_sub_comm, abs_of_nonneg (by linarith)] at hle
      exact .inr (by linarith)
  · have hfar := h.far u (List.mem_cons_of_mem _ hu) hlt
    linarith

/-- The next point is at the other end: the head turns round. -/
theorem AtTop.down (h : AtTop (t :: tour) low high length) (ht : t < low)
    (hnear : ∀ u ∈ tour, |high - t| ≤ |high - u|) :
    AtTop (tour.map Neg.neg) (-high) (-t) (length + |high - t|) := by
  have hlow := h.le
  have hback := h.far t List.mem_cons_self ht
  have hmove : |high - t| = high - t := abs_of_nonneg (by linarith)
  rw [hmove] at hnear ⊢
  refine ⟨by linarith, fun v hv => ?_, by linarith, fun v hv hlt => ?_⟩
  · obtain ⟨u, hu, rfl⟩ := List.mem_map.mp hv
    have hle := hnear u hu
    rcases h.outside u (List.mem_cons_of_mem _ hu) with hlt | hge
    · rw [abs_of_nonneg (by linarith)] at hle
      exact .inr (by linarith)
    · rw [abs_sub_comm, abs_of_nonneg (by linarith)] at hle
      exact .inl (by linarith)
  · obtain ⟨u, hu, rfl⟩ := List.mem_map.mp hv
    have hle := hnear u hu
    rw [abs_sub_comm, abs_of_nonneg (by linarith)] at hle
    linarith

/-- What is still to come stays within the bounds of the line. -/
theorem AtTop.travel_le (h : AtTop tour low high length) (hg : Greedy high tour) {m M : α}
    (hlow : m ≤ low) (hhigh : high ≤ M) (hbounds : ∀ u ∈ tour, m ≤ u ∧ u ≤ M) :
    length + travel high tour ≤ 2 * (M - m) := by
  -- the mirror image of a tour is as long, so the induction is on the length
  induction hn : tour.length generalizing tour low high length m M with
  | zero =>
      have hlength := h.length_le
      rw [List.length_eq_zero_iff.mp hn, travel]
      linarith
  | succ n ih =>
      obtain ⟨t, rest, rfl⟩ := List.exists_cons_of_length_eq_add_one hn
      have hrest : rest.length = n := by simpa using hn
      obtain ⟨hnear, hgreedy⟩ := hg
      have hin : ∀ u ∈ rest, m ≤ u ∧ u ≤ M := fun u hu => hbounds u (List.mem_cons_of_mem _ hu)
      have ht := hbounds t List.mem_cons_self
      rw [travel, ← add_assoc]
      rcases h.outside t List.mem_cons_self with hlt | hge
      · have hmirror := ih (h.down hlt hnear) hgreedy.neg (m := -M) (M := -m)
          (neg_le_neg hhigh) (neg_le_neg ht.1) (fun v hv => by
            obtain ⟨u, hu, rfl⟩ := List.mem_map.mp hv
            exact ⟨neg_le_neg (hin u hu).2, neg_le_neg (hin u hu).1⟩)
          (by rw [List.length_map, hrest])
        rw [travel_neg] at hmirror
        linarith
      · exact ih (h.up hge hnear) hgreedy hlow ht.2 hin hrest

/-- **A greedy tour** is at most twice as long as the line it is on. -/
theorem Greedy.travel_le {head : α} (hg : Greedy head tour) {m M : α}
    (hbounds : ∀ u ∈ head :: tour, m ≤ u ∧ u ≤ M) : travel head tour ≤ 2 * (M - m) := by
  obtain ⟨hlow, hhigh⟩ := hbounds head List.mem_cons_self
  have htravel := (AtTop.start head tour).travel_le hg hlow hhigh
    fun u hu => hbounds u (List.mem_cons_of_mem _ hu)
  rwa [zero_add] at htravel

/-- **Any tour** is at least as long as the way between two points on it. -/
theorem dist_le_travel {head : α} {tour : List α} {a b : α} (ha : a ∈ head :: tour)
    (hb : b ∈ head :: tour) : |a - b| ≤ travel head tour := by
  induction tour generalizing head a b with
  | nil =>
      rw [List.mem_singleton.mp ha, List.mem_singleton.mp hb, sub_self, abs_zero, travel]
  | cons t tour ih =>
      -- from the head the way goes through its first stop
      have hhead : ∀ {x}, x ∈ t :: tour → |head - x| ≤ travel head (t :: tour) := fun {x} hx =>
        (abs_sub_le head t x).trans (add_le_add_right (ih List.mem_cons_self hx) _)
      have hzero : 0 ≤ |head - t| := abs_nonneg _
      rcases List.mem_cons.mp ha with rfl | ha' <;> rcases List.mem_cons.mp hb with rfl | hb'
      · rw [sub_self, abs_zero]
        exact (abs_nonneg _).trans (hhead List.mem_cons_self)
      · exact hhead hb'
      · rw [abs_sub_comm]
        exact hhead ha'
      · exact (ih ha' hb').trans (le_add_of_nonneg_left hzero)

end Lib.Sweep
