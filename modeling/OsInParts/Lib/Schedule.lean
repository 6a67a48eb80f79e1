import Mathlib.Algebra.BigOperators.Group.Finset.Basic
import Mathlib.Algebra.Order.BigOperators.Group.Finset
import Mathlib.Data.Fintype.BigOperators
import Mathlib.Tactic.Ring

/-!
# Schedule — one processor, unit time slots

Jobs are released at a time and need some units of work; a schedule gives
each time slot to at most one job. Two things are proved about them.

* **Shortest remaining time first is optimal.** `Dominates a b` compares two
  vectors of outstanding work: whatever set of jobs the second owner deletes
  from `b`, the first can delete no more jobs from `a` and be left with no
  more work. It survives a slot (`Dominates.serve`) in which the first owner
  serves a shortest job, and a release of new jobs (`Dominates.release`), and
  it gives at most as many unfinished jobs (`Dominates.card_unfinished_le`).
* **The busy slots do not depend on the order of service.** `executed` is the
  work done by any processor that is idle only when nothing is outstanding;
  `Busy` are its slots.
-/

namespace Lib.Schedule

variable {ι : Type*}

/-- Release times and amounts of work. -/
structure Jobs (ι : Type*) where
  release : ι → ℕ
  work : ι → ℕ

/-! ## Schedules -/

section Schedules

variable [DecidableEq ι]

/-- The units that job `i` is given before slot `t`. -/
def served (σ : ℕ → Option ι) (i : ι) : ℕ → ℕ
  | 0 => 0
  | t + 1 => if σ t = some i then served σ i t + 1 else served σ i t

/-- Slots go to released unfinished jobs, and every job is finished. -/
structure Feasible (J : Jobs ι) (σ : ℕ → Option ι) : Prop where
  released : ∀ t i, σ t = some i → J.release i ≤ t
  unfinished : ∀ t i, σ t = some i → served σ i t < J.work i
  complete : ∀ i, ∃ t, served σ i t = J.work i

/-- Job `i` has all its units by `c` and not before. -/
def Completes (J : Jobs ι) (σ : ℕ → Option ι) (i : ι) (c : ℕ) : Prop :=
  served σ i c = J.work i ∧ ∀ t < c, served σ i t < J.work i

/-- The work that is left of each job at slot `t`. -/
def left (J : Jobs ι) (σ : ℕ → Option ι) (t : ℕ) (i : ι) : ℕ := J.work i - served σ i t

/-- One unit less for the job that is served. -/
def serve (a : ι → ℕ) : Option ι → ι → ℕ
  | none => a
  | some j => Function.update a j (a j - 1)

variable {J : Jobs ι} {σ : ℕ → Option ι}

theorem served_mono (σ : ℕ → Option ι) (i : ι) : Monotone (served σ i) :=
  monotone_nat_of_le_succ fun t => by
    rw [served]
    split <;> omega

theorem served_le_of_unfinished (h : ∀ t i, σ t = some i → served σ i t < J.work i) (i : ι)
    (t : ℕ) : served σ i t ≤ J.work i := by
  induction t with
  | zero => exact Nat.zero_le _
  | succ t ih =>
      rw [served]
      split
      · exact h t i ‹_›
      · exact ih

theorem Feasible.served_le (h : Feasible J σ) (i : ι) (t : ℕ) : served σ i t ≤ J.work i :=
  served_le_of_unfinished h.unfinished i t

/-- What is given before slot `t` depends on the slots before it. -/
theorem served_congr {σ' : ℕ → Option ι} {t : ℕ} (h : ∀ u < t, σ' u = σ u) (i : ι) :
    served σ' i t = served σ i t := by
  induction t with
  | zero => rfl
  | succ t ih => rw [served, served, h t (by omega), ih fun u hu => h u (by omega)]

/-- No job is served before its release. -/
theorem Feasible.served_eq_zero (h : Feasible J σ) {i : ι} {t : ℕ} (ht : t ≤ J.release i) :
    served σ i t = 0 := by
  induction t with
  | zero => rfl
  | succ t ih =>
      rw [served, if_neg, ih (by omega)]
      intro hs
      have := h.released t i hs
      omega

theorem left_succ (J : Jobs ι) (σ : ℕ → Option ι) (t : ℕ) :
    left J σ (t + 1) = serve (left J σ t) (σ t) := by
  funext i
  unfold left
  cases hs : σ t with
  | none => simp [served, hs, serve]
  | some j =>
      by_cases hi : i = j
      · subst hi
        rw [served, if_pos hs, serve, Function.update_self]
        omega
      · have hne : ¬ σ t = some i := by
          rw [hs]
          exact fun h => hi (Option.some.inj h).symm
        rw [served, if_neg hne, serve, Function.update_of_ne hi]

/-! ### A schedule built slot by slot -/

/-- The slots before `t` are given out, those from `t` on are free. -/
structure UpTo (J : Jobs ι) (σ : ℕ → Option ι) (t : ℕ) : Prop where
  released : ∀ u i, σ u = some i → J.release i ≤ u
  unfinished : ∀ u i, σ u = some i → served σ i u < J.work i
  free : ∀ u, t ≤ u → σ u = none

theorem UpTo.start (J : Jobs ι) : UpTo J (fun _ => none) 0 where
  released := fun _ _ h => by cases h
  unfinished := fun _ _ h => by cases h
  free := fun _ _ => rfl

/-- The slots before `t` stay as they are when slot `t` is given out. -/
theorem served_update {t u : ℕ} (hu : u ≤ t) (o : Option ι) (i : ι) :
    served (Function.update σ t o) i u = served σ i u :=
  served_congr (fun v hv => Function.update_of_ne (show v ≠ t by omega) ..) i

/-- Slot `t` goes to a job that is released and not finished, or to none. -/
theorem UpTo.next {t : ℕ} (h : UpTo J σ t) {o : Option ι}
    (ho : ∀ i, o = some i → J.release i ≤ t ∧ served σ i t < J.work i) :
    UpTo J (Function.update σ t o) (t + 1) := by
  have hslot : ∀ u i, Function.update σ t o u = some i →
      (u = t ∧ o = some i) ∨ (u < t ∧ σ u = some i) := fun u i hi => by
    by_cases hut : u = t
    · subst hut
      rw [Function.update_self] at hi
      exact .inl ⟨rfl, hi⟩
    · rw [Function.update_of_ne hut] at hi
      refine .inr ⟨not_le.mp fun hle => ?_, hi⟩
      rw [h.free u hle] at hi
      cases hi
  refine ⟨fun u i hi => ?_, fun u i hi => ?_, fun u hu => ?_⟩
  · rcases hslot u i hi with ⟨rfl, hnew⟩ | ⟨-, hold⟩
    · exact (ho i hnew).1
    · exact h.released u i hold
  · rcases hslot u i hi with ⟨rfl, hnew⟩ | ⟨hlt, hold⟩
    · rw [served_update le_rfl]
      exact (ho i hnew).2
    · rw [served_update hlt.le]
      exact h.unfinished u i hold
  · rw [Function.update_of_ne (by omega)]
    exact h.free u (by omega)

theorem UpTo.left_next (J : Jobs ι) (σ : ℕ → Option ι) (t : ℕ) (o : Option ι) :
    left J (Function.update σ t o) (t + 1) = serve (left J σ t) o := by
  have hbefore : left J (Function.update σ t o) t = left J σ t := by
    funext i
    rw [left, served_update le_rfl, left]
  rw [left_succ, Function.update_self, hbefore]

theorem UpTo.feasible {t : ℕ} (h : UpTo J σ t) (hdone : ∀ i, left J σ t i = 0) :
    Feasible J σ :=
  ⟨h.released, h.unfinished, fun i => ⟨t, (served_le_of_unfinished h.unfinished i t).antisymm
    (Nat.sub_eq_zero_iff_le.mp (hdone i))⟩⟩

theorem sum_serve_of_mem {a : ι → ℕ} {j : ι} (hj : 0 < a j) {T : Finset ι} (hT : j ∈ T) :
    ∑ i ∈ T, serve a (some j) i + 1 = ∑ i ∈ T, a i := by
  rw [serve, Finset.sum_update_of_mem hT, Finset.sdiff_singleton_eq_erase,
    ← Finset.add_sum_erase T a hT]
  omega

theorem sum_serve_of_notMem {a : ι → ℕ} {j : ι} {T : Finset ι} (hT : j ∉ T) :
    ∑ i ∈ T, serve a (some j) i = ∑ i ∈ T, a i :=
  Finset.sum_congr rfl fun i hi => by
    rw [serve, Function.update_of_ne]
    rintro rfl
    exact hT hi

/-- Serving takes at most one unit off any sum. -/
theorem sum_le_sum_serve (a : ι → ℕ) (o : Option ι) (T : Finset ι) :
    ∑ i ∈ T, a i ≤ ∑ i ∈ T, serve a o i + 1 := by
  cases o with
  | none => exact Nat.le_succ _
  | some j =>
      by_cases hT : j ∈ T
      · rcases Nat.eq_zero_or_pos (a j) with hj | hj
        · refine le_trans (le_of_eq (Finset.sum_congr rfl fun i _ => ?_)) (Nat.le_succ _)
          by_cases hi : i = j
          · rw [hi, serve, Function.update_self, hj]
          · rw [serve, Function.update_of_ne hi]
        · exact (sum_serve_of_mem hj hT).ge
      · exact (sum_serve_of_notMem hT).ge.trans (Nat.le_succ _)

end Schedules

/-- The outstanding work at slot `t`: what is left of the released jobs. -/
def Jobs.outstanding (J : Jobs ι) (a : ι → ℕ) (t : ℕ) (i : ι) : ℕ :=
  if J.release i ≤ t then a i else 0

theorem outstanding_serve [DecidableEq ι] (J : Jobs ι) {a : ι → ℕ} {o : Option ι} {t : ℕ}
    (h : ∀ j, o = some j → J.release j ≤ t) :
    J.outstanding (serve a o) t = serve (J.outstanding a t) o := by
  funext i
  unfold Jobs.outstanding
  cases o with
  | none => rfl
  | some j =>
      simp only [serve]
      by_cases hi : i = j
      · subst hi
        simp [h i rfl]
      · simp [hi]

/-! ## Domination -/

section Domination

variable [Fintype ι] [DecidableEq ι]

/-- However few jobs leave how little of `b`, as few leave as little of `a`. -/
def Dominates (a b : ι → ℕ) : Prop :=
  ∀ T : Finset ι, ∃ S : Finset ι, S.card ≤ T.card ∧ ∑ i ∈ Sᶜ, a i ≤ ∑ i ∈ Tᶜ, b i

/-- The choice of shortest remaining time first: nothing if there is no work,
otherwise a job with the least work among those with some. -/
def Shortest (a : ι → ℕ) : Option ι → Prop
  | none => ∀ i, a i = 0
  | some j => 0 < a j ∧ ∀ i, 0 < a i → a j ≤ a i

theorem Dominates.refl (a : ι → ℕ) : Dominates a a := fun T => ⟨T, le_rfl, le_rfl⟩

/-- Fewer unfinished jobs: delete those that `b` has not finished. -/
theorem Dominates.card_unfinished_le {a b : ι → ℕ} (h : Dominates a b) :
    (Finset.univ.filter fun i => a i ≠ 0).card ≤ (Finset.univ.filter fun i => b i ≠ 0).card := by
  obtain ⟨S, hcard, hsum⟩ := h (Finset.univ.filter fun i => b i ≠ 0)
  have hb : ∑ i ∈ (Finset.univ.filter fun i => b i ≠ 0)ᶜ, b i = 0 :=
    Finset.sum_eq_zero fun i hi => by simpa using hi
  rw [hb, Nat.le_zero, Finset.sum_eq_zero_iff] at hsum
  refine (Finset.card_le_card fun i hi => ?_).trans hcard
  by_contra hS
  exact (Finset.mem_filter.mp hi).2 (hsum i (Finset.mem_compl.mpr hS))

/-- **A slot given to a shortest job** keeps domination, whatever the other
side does with it. -/
theorem Dominates.serve {a b : ι → ℕ} (h : Dominates a b) {o : Option ι} (ho : Shortest a o)
    (o' : Option ι) : Dominates (serve a o) (serve b o') := by
  intro T
  cases o with
  | none =>
      refine ⟨∅, Nat.zero_le _, ?_⟩
      have hzero : ∑ i ∈ (∅ : Finset ι)ᶜ, a i = 0 := Finset.sum_eq_zero fun i _ => ho i
      exact hzero.le.trans (Nat.zero_le _)
  | some j =>
      obtain ⟨hpos, hmin⟩ := ho
      obtain ⟨S, hcard, hsum⟩ := h T
      have hother := sum_le_sum_serve b o' Tᶜ
      by_cases hj : j ∈ S
      · by_cases hm : ∃ m ∈ Sᶜ, 0 < a m
        · -- exchange the served job with one that is left and not shorter
          obtain ⟨m, hmS, hmpos⟩ := hm
          have hmj : m ≠ j := by
            rintro rfl
            exact Finset.mem_compl.mp hmS hj
          refine ⟨insert m (S.erase j), ?_, ?_⟩
          · refine (Finset.card_insert_le _ _).trans ?_
            rw [Finset.card_erase_of_mem hj]
            have := Finset.card_pos.mpr ⟨j, hj⟩
            omega
          · have hcompl : (insert m (S.erase j))ᶜ = insert j (Sᶜ.erase m) := by
              ext i
              simp only [Finset.mem_compl, Finset.mem_insert, Finset.mem_erase]
              by_cases hij : i = j
              · subst hij
                simp [hmj.symm]
              · simp [hij]
            have hjS : j ∉ Sᶜ.erase m := fun h =>
              Finset.mem_compl.mp (Finset.mem_of_mem_erase h) hj
            rw [hcompl, Finset.sum_insert hjS, sum_serve_of_notMem hjS]
            have hS := Finset.add_sum_erase Sᶜ a hmS
            have hle := hmin m hmpos
            have hjserve : Schedule.serve a (some j) j = a j - 1 := Function.update_self ..
            omega
        · refine ⟨S, hcard, ?_⟩
          rw [sum_serve_of_notMem (by simpa using hj), Finset.sum_eq_zero fun i hi =>
            Nat.eq_zero_of_not_pos fun hi' => hm ⟨i, hi, hi'⟩]
          exact Nat.zero_le _
      · refine ⟨S, hcard, ?_⟩
        have := sum_serve_of_mem hpos (T := Sᶜ) (by simpa using hj)
        omega

/-- **New jobs** with the same work on both sides keep domination. -/
theorem Dominates.release {a b a' b' : ι → ℕ} (h : Dominates a b) (N : Finset ι)
    (hold : ∀ i ∉ N, a' i = a i ∧ b' i = b i) (hnew : ∀ i ∈ N, a' i = b' i ∧ b i = 0) :
    Dominates a' b' := by
  intro T
  obtain ⟨S, hcard, hsum⟩ := h (T \ N)
  refine ⟨S ∪ T ∩ N, ?_, ?_⟩
  · calc (S ∪ T ∩ N).card ≤ S.card + (T ∩ N).card := Finset.card_union_le _ _
      _ ≤ (T \ N).card + (T ∩ N).card := Nat.add_le_add_right hcard _
      _ = T.card := Finset.card_sdiff_add_card_inter T N
  · have hsplit : ∀ (f : ι → ℕ) (U : Finset ι),
        ∑ i ∈ U, f i = ∑ i ∈ U \ N, f i + ∑ i ∈ U ∩ N, f i := fun f U => by
      rw [Nat.add_comm, Finset.sum_inter_add_sum_sdiff]
    rw [hsplit a', hsplit b']
    have hOld : ∑ i ∈ (S ∪ T ∩ N)ᶜ \ N, a' i ≤ ∑ i ∈ Tᶜ \ N, b' i := by
      calc ∑ i ∈ (S ∪ T ∩ N)ᶜ \ N, a' i
          = ∑ i ∈ (S ∪ T ∩ N)ᶜ \ N, a i :=
            Finset.sum_congr rfl fun i hi => (hold i (Finset.mem_sdiff.mp hi).2).1
        _ ≤ ∑ i ∈ Sᶜ, a i := Finset.sum_le_sum_of_subset fun i hi => by
            simp only [Finset.mem_sdiff, Finset.mem_compl, Finset.mem_union, not_or] at hi ⊢
            exact hi.1.1
        _ ≤ ∑ i ∈ (T \ N)ᶜ, b i := hsum
        _ = ∑ i ∈ (T \ N)ᶜ \ N, b i + ∑ i ∈ (T \ N)ᶜ ∩ N, b i := hsplit b _
        _ = ∑ i ∈ (T \ N)ᶜ \ N, b i := by
            rw [Finset.sum_eq_zero (s := (T \ N)ᶜ ∩ N) fun i hi =>
              (hnew i (Finset.mem_inter.mp hi).2).2, Nat.add_zero]
        _ = ∑ i ∈ Tᶜ \ N, b' i := by
            refine Finset.sum_congr ?_ fun i hi => (hold i (Finset.mem_sdiff.mp hi).2).2.symm
            ext i
            simp only [Finset.mem_sdiff, Finset.mem_compl]
            tauto
    have hNew : ∑ i ∈ (S ∪ T ∩ N)ᶜ ∩ N, a' i ≤ ∑ i ∈ Tᶜ ∩ N, b' i := by
      calc ∑ i ∈ (S ∪ T ∩ N)ᶜ ∩ N, a' i
          ≤ ∑ i ∈ Tᶜ ∩ N, a' i := Finset.sum_le_sum_of_subset fun i hi => by
            simp only [Finset.mem_inter, Finset.mem_compl, Finset.mem_union, not_or,
              not_and] at hi ⊢
            exact ⟨fun hT => hi.1.2 hT hi.2, hi.2⟩
        _ = ∑ i ∈ Tᶜ ∩ N, b' i :=
            Finset.sum_congr rfl fun i hi => (hnew i (Finset.mem_inter.mp hi).2).1
    exact Nat.add_le_add hOld hNew

/-- **One slot of time**: a shortest job is served, whatever the other schedule
serves, and the jobs of the next slot are released. -/
theorem Dominates.slot {J : Jobs ι} {a b : ι → ℕ} {t : ℕ}
    (h : Dominates (J.outstanding a t) (J.outstanding b t)) {o o' : Option ι}
    (ho : Shortest (J.outstanding a t) o) (ho' : ∀ j, o' = some j → J.release j ≤ t)
    (ha : ∀ i, t < J.release i → a i = J.work i)
    (hb : ∀ i, t < J.release i → b i = J.work i) :
    Dominates (J.outstanding (Schedule.serve a o) (t + 1))
      (J.outstanding (Schedule.serve b o') (t + 1)) := by
  have hreleased : ∀ j, o = some j → J.release j ≤ t := fun j hj => by
    subst hj
    by_contra hlate
    exact absurd ho.1 (by rw [Jobs.outstanding, if_neg hlate]; exact Nat.lt_irrefl 0)
  have hserve := h.serve ho o'
  rw [← outstanding_serve J hreleased, ← outstanding_serve J ho'] at hserve
  have hsame : ∀ (c : ι → ℕ) (o : Option ι) (i : ι), (∀ j, o = some j → J.release j ≤ t) →
      t < J.release i → Schedule.serve c o i = c i := fun c o i hrel hi => by
    cases o with
    | none => rfl
    | some j =>
        rw [Schedule.serve, Function.update_of_ne]
        rintro rfl
        exact absurd (hrel i rfl) (not_le.mpr hi)
  refine hserve.release (Finset.univ.filter fun i => J.release i = t + 1)
    (fun i hi => ?_) (fun i hi => ?_)
  · have hne : J.release i ≠ t + 1 := by simpa using hi
    have hiff : J.release i ≤ t + 1 ↔ J.release i ≤ t := by omega
    simp only [Jobs.outstanding, hiff, and_self]
  · have heq : J.release i = t + 1 := by simpa using hi
    have hlate : t < J.release i := by omega
    simp only [Jobs.outstanding, heq, le_refl, if_true, Nat.not_succ_le_self, if_false,
      and_true]
    rw [hsame a o i hreleased hlate, hsame b o' i ho' hlate, ha i hlate, hb i hlate]

/-- At least as many finished jobs, counting none that is not released. -/
theorem Dominates.card_done_le {J : Jobs ι} {a b : ι → ℕ} {t : ℕ}
    (h : Dominates (J.outstanding a t) (J.outstanding b t))
    (ha : ∀ i, t < J.release i → a i ≠ 0) (hb : ∀ i, t < J.release i → b i ≠ 0) :
    (Finset.univ.filter fun i => b i = 0).card ≤ (Finset.univ.filter fun i => a i = 0).card := by
  have hsplit : ∀ c : ι → ℕ, (∀ i, t < J.release i → c i ≠ 0) →
      (Finset.univ.filter fun i => c i = 0).card
        + (Finset.univ.filter fun i => t < J.release i).card
        + (Finset.univ.filter fun i => J.outstanding c t i ≠ 0).card = Fintype.card ι :=
    fun c hc => by
      rw [← Finset.card_union_of_disjoint, ← Finset.card_union_of_disjoint, ← Finset.card_univ]
      · congr 1
        ext i
        simp only [Finset.mem_union, Finset.mem_filter, Finset.mem_univ, true_and, iff_true]
        by_cases hi : J.release i ≤ t
        · rw [Jobs.outstanding, if_pos hi]
          omega
        · exact .inl (.inr (not_le.mp hi))
      · rw [Finset.disjoint_left]
        intro i hi hout
        have hout' := (Finset.mem_filter.mp hout).2
        rcases Finset.mem_union.mp hi with hi | hi
        · rw [Jobs.outstanding, (Finset.mem_filter.mp hi).2, ite_self] at hout'
          exact hout' rfl
        · rw [Jobs.outstanding, if_neg (not_le.mpr (Finset.mem_filter.mp hi).2)] at hout'
          exact hout' rfl
      · rw [Finset.disjoint_left]
        exact fun i hi hlate =>
          hc i (Finset.mem_filter.mp hlate).2 (Finset.mem_filter.mp hi).2
  have h1 := hsplit a ha
  have h2 := hsplit b hb
  have h3 := h.card_unfinished_le
  omega

end Domination

/-! ## Total completion time -/

section Total

variable [Fintype ι]

/-- A time is the number of times before it. -/
theorem sum_eq_sum_card (c : ι → ℕ) {T : ℕ} (hT : ∀ i, c i ≤ T) :
    ∑ i, c i = ∑ t ∈ Finset.range T, (Finset.univ.filter fun i => t < c i).card := by
  have hcount : ∀ i, c i = ∑ t ∈ Finset.range T, if t < c i then 1 else 0 := fun i => by
    rw [← Finset.sum_filter, Finset.sum_const, Nat.nsmul_eq_mul, Nat.mul_one,
      show (Finset.range T).filter (fun t => t < c i) = Finset.range (c i) by
        ext t
        have := hT i
        simp only [Finset.mem_filter, Finset.mem_range]
        omega,
      Finset.card_range]
  calc ∑ i, c i = ∑ i, ∑ t ∈ Finset.range T, (if t < c i then 1 else 0) :=
        Finset.sum_congr rfl fun i _ => hcount i
    _ = ∑ t ∈ Finset.range T, ∑ i, (if t < c i then 1 else 0) := Finset.sum_comm
    _ = ∑ t ∈ Finset.range T, (Finset.univ.filter fun i => t < c i).card :=
        Finset.sum_congr rfl fun t _ => (Finset.card_filter _ _).symm

/-- At least as many jobs done by every time: at most the total time. -/
theorem sum_le_of_card_le {c c' : ι → ℕ}
    (h : ∀ t, (Finset.univ.filter fun i => c' i ≤ t).card
      ≤ (Finset.univ.filter fun i => c i ≤ t).card) : ∑ i, c i ≤ ∑ i, c' i := by
  have hself : ∀ (d : ι → ℕ) (i : ι), d i ≤ ∑ i, d i := fun d i =>
    Finset.single_le_sum (f := d) (fun _ _ => Nat.zero_le _) (Finset.mem_univ i)
  obtain ⟨T, hc, hc'⟩ : ∃ T, (∀ i, c i ≤ T) ∧ ∀ i, c' i ≤ T :=
    ⟨∑ i, c i + ∑ i, c' i, fun i => (hself c i).trans (Nat.le_add_right _ _),
      fun i => (hself c' i).trans (Nat.le_add_left _ _)⟩
  rw [sum_eq_sum_card c hc, sum_eq_sum_card c' hc']
  refine Finset.sum_le_sum fun t _ => ?_
  have hsplit : ∀ d : ι → ℕ, (Finset.univ.filter fun i => d i ≤ t).card
      + (Finset.univ.filter fun i => t < d i).card = Fintype.card ι := fun d => by
    simpa only [not_le, Finset.card_univ] using
      Finset.card_filter_add_card_filter_not (s := Finset.univ) (fun i => d i ≤ t)
  have h1 := hsplit c
  have h2 := hsplit c'
  have := h t
  omega

end Total

/-! ## Busy slots -/

section Busy

variable [Fintype ι] (J : Jobs ι)

/-- The work released by slot `t`. -/
def arrived (t : ℕ) : ℕ := ∑ i, if J.release i ≤ t then J.work i else 0

/-- The work done before slot `t` by a processor that works whenever it can. -/
def executed : ℕ → ℕ
  | 0 => 0
  | t + 1 => if executed t < arrived J t then executed t + 1 else executed t

/-- Slot `t` is one in which such a processor works. -/
def Busy (t : ℕ) : Prop := executed J t < arrived J t

instance : DecidablePred (Busy J) := fun t =>
  inferInstanceAs (Decidable (executed J t < arrived J t))

variable {J}

theorem arrived_mono : Monotone (arrived J) := fun s t hst =>
  Finset.sum_le_sum fun i _ => by
    by_cases h : J.release i ≤ s
    · rw [if_pos h, if_pos (h.trans hst)]
    · rw [if_neg h]
      exact Nat.zero_le _

theorem arrived_le (t : ℕ) : arrived J t ≤ ∑ i, J.work i :=
  Finset.sum_le_sum fun i _ => by split <;> omega

theorem executed_le_arrived (t : ℕ) : executed J t ≤ arrived J t := by
  induction t with
  | zero => exact Nat.zero_le _
  | succ t ih =>
      have hmono : arrived J t ≤ arrived J (t + 1) := arrived_mono (Nat.le_succ t)
      rw [executed]
      split <;> omega

theorem executed_succ_of_busy {t : ℕ} (h : Busy J t) : executed J (t + 1) = executed J t + 1 :=
  if_pos h

theorem executed_succ_of_not_busy {t : ℕ} (h : ¬ Busy J t) :
    executed J (t + 1) = executed J t := if_neg h

/-- **Working**: as long as the work has been released, the slots are busy. -/
theorem busy_of_work {t d : ℕ} (h : executed J t + d ≤ arrived J t) :
    executed J (t + d) = executed J t + d ∧ ∀ u, t ≤ u → u < t + d → Busy J u := by
  induction d with
  | zero => exact ⟨rfl, fun u h1 h2 => by omega⟩
  | succ d ih =>
      obtain ⟨hex, hbusy⟩ := ih (by omega)
      have hlast : Busy J (t + d) := by
        have hmono : arrived J t ≤ arrived J (t + d) := arrived_mono (Nat.le_add_right t d)
        rw [Busy]
        omega
      refine ⟨?_, fun u h1 h2 => ?_⟩
      · rw [← Nat.add_assoc, executed_succ_of_busy hlast, hex, Nat.add_assoc]
      · rcases Nat.lt_succ_iff_lt_or_eq.mp h2 with h | rfl
        · exact hbusy u h1 h
        · exact hlast

/-- **Waiting**: while everything released is done, the slots are idle. -/
theorem idle_of_done {t d : ℕ} (h : ∀ u, t ≤ u → u < t + d → arrived J u = executed J t) :
    executed J (t + d) = executed J t ∧ ∀ u, t ≤ u → u < t + d → ¬ Busy J u := by
  induction d with
  | zero => exact ⟨rfl, fun u h1 h2 => by omega⟩
  | succ d ih =>
      obtain ⟨hex, hidle⟩ := ih fun u h1 h2 => h u h1 (by omega)
      have hlast : ¬ Busy J (t + d) := by
        have := h (t + d) (by omega) (by omega)
        rw [Busy]
        omega
      refine ⟨?_, fun u h1 h2 => ?_⟩
      · rw [← Nat.add_assoc, executed_succ_of_not_busy hlast, hex]
      · rcases Nat.lt_succ_iff_lt_or_eq.mp h2 with h | rfl
        · exact hidle u h1 h
        · exact hlast

theorem executed_mono : Monotone (executed J) :=
  monotone_nat_of_le_succ fun t => by
    rw [executed]
    split <;> omega

/-- A slot does at most one unit, and only what was released by then. -/
theorem executed_add_le (t d : ℕ) : executed J (t + d) ≤ executed J t + d := by
  induction d with
  | zero => exact le_rfl
  | succ d ih =>
      rw [← Nat.add_assoc, executed]
      split <;> omega

theorem executed_succ_le_arrived (t : ℕ) : executed J (t + 1) ≤ arrived J t := by
  have hle := executed_le_arrived (J := J) t
  rw [executed]
  split <;> omega

/-- Nothing is left to do once all the work is done. -/
theorem not_busy_of_done {t u : ℕ} (h : executed J t = ∑ i, J.work i) (hu : t ≤ u) :
    ¬ Busy J u := by
  have h1 := executed_mono (J := J) hu
  have h2 := arrived_le (J := J) u
  rw [Busy]
  omega

/-- Since some job was released the processor has been busy, and before that
it had done all there was. -/
theorem busy_since {t : ℕ} (h : Busy J t) :
    ∃ i, J.release i ≤ t ∧
      executed J t = t - J.release i
        + ∑ j, if J.release j < J.release i then J.work j else 0 := by
  -- a job released in slot `t` itself, after everything older was done
  have hfresh : ∀ t, Busy J t → executed J t = (∑ j, if J.release j < t then J.work j else 0) →
      ∃ i, J.release i ≤ t ∧ executed J t = t - J.release i
        + ∑ j, if J.release j < J.release i then J.work j else 0 := fun t hbusy hdone => by
    have hnew : ∃ i, J.release i = t := by
      by_contra hnone
      refine absurd hbusy (not_lt.mpr (le_of_eq ?_))
      rw [hdone]
      refine Finset.sum_congr rfl fun i _ => ?_
      have hne : J.release i ≠ t := fun h => hnone ⟨i, h⟩
      have hiff : J.release i ≤ t ↔ J.release i < t := by omega
      simp only [hiff]
    obtain ⟨i, rfl⟩ := hnew
    exact ⟨i, le_rfl, by rw [Nat.sub_self, Nat.zero_add, hdone]⟩
  induction t with
  | zero => exact hfresh 0 h (by simp [executed])
  | succ t ih =>
      by_cases hbefore : Busy J t
      · obtain ⟨i, hi, hex⟩ := ih hbefore
        refine ⟨i, by omega, ?_⟩
        rw [executed_succ_of_busy hbefore, hex]
        omega
      · refine hfresh (t + 1) h ?_
        have hall : executed J t = arrived J t :=
          (executed_le_arrived t).antisymm (not_lt.mp hbefore)
        rw [executed_succ_of_not_busy hbefore, hall]
        exact Finset.sum_congr rfl fun i _ => by simp only [Nat.lt_succ_iff]

/-- Every busy slot ends by a bound on the last work of any job's contemporaries. -/
theorem busy_succ_le {b t : ℕ}
    (hb : ∀ i, J.release i + (∑ j, if J.release i ≤ J.release j then J.work j else 0) ≤ b)
    (h : Busy J t) : t + 1 ≤ b := by
  obtain ⟨i, hi, hex⟩ := busy_since h
  have hlt : executed J t < ∑ j, J.work j := lt_of_lt_of_le h (arrived_le t)
  have hsplit : ∑ j, J.work j = (∑ j, if J.release j < J.release i then J.work j else 0)
      + ∑ j, if J.release i ≤ J.release j then J.work j else 0 := by
    rw [← Finset.sum_add_distrib]
    refine Finset.sum_congr rfl fun j _ => ?_
    by_cases hj : J.release j < J.release i
    · rw [if_pos hj, if_neg (by omega), Nat.add_zero]
    · rw [if_neg hj, if_pos (by omega), Nat.zero_add]
  have := hb i
  omega

/-- The busy slots do not depend on how the jobs are numbered. -/
theorem executed_comp_equiv {κ : Type*} [Fintype κ] (e : κ ≃ ι) (t : ℕ) :
    arrived (⟨J.release ∘ e, J.work ∘ e⟩ : Jobs κ) t = arrived J t ∧
      executed (⟨J.release ∘ e, J.work ∘ e⟩ : Jobs κ) t = executed J t := by
  have harrived : ∀ t, arrived (⟨J.release ∘ e, J.work ∘ e⟩ : Jobs κ) t = arrived J t :=
    fun t => Equiv.sum_comp e fun i => if J.release i ≤ t then J.work i else 0
  refine ⟨harrived t, ?_⟩
  induction t with
  | zero => rfl
  | succ t ih => rw [executed, executed, ih, harrived t]

end Busy

end Lib.Schedule
