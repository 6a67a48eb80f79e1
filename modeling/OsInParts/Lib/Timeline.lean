import Mathlib.Algebra.BigOperators.Group.Finset.Piecewise
import Mathlib.Algebra.Order.BigOperators.Group.Finset
import Mathlib.Data.Finset.Max
import Mathlib.Tactic.Abel

/-!
# Timeline — what one processor does, in the order in which it does it

A list that grows at its end is explained entry by entry: `History P l` says
that every entry was right by `P` when it was added (`history_concat`).

A timeline is such a list of stretches of processor time. `Plan` is a feasible
schedule of jobs with release times and work, preempted or not, over any
ordered ring of times. Stretches that lie one after the other between two
times are no longer than the time between them (`Plan.work_le_span`); so of
any jobs one finishes no earlier than their total work after the first of
their releases (`Plan.exists_late`).
-/

namespace Lib.Timeline

/-! ## How a list has grown -/

section History

variable {α : Type*} {P : List α → α → Prop} {l : List α}

/-- `P l₁ x` for every entry `x` and the entries `l₁` before it. -/
def History (P : List α → α → Prop) (l : List α) : Prop :=
  ∀ l₁ x l₂, l = l₁ ++ x :: l₂ → P l₁ x

theorem History.nil : History P [] := fun l₁ x l₂ h => by simp at h

/-- A split of a longer list is one of the shorter list, or at the end. -/
theorem concat_eq_split {a x : α} {l₁ l₂ : List α} (h : l ++ [a] = l₁ ++ x :: l₂) :
    (l₁ = l ∧ x = a ∧ l₂ = []) ∨ ∃ l₂', l₂ = l₂' ++ [a] ∧ l = l₁ ++ x :: l₂' := by
  rcases List.eq_nil_or_concat l₂ with rfl | ⟨l₂', b, rfl⟩
  · obtain ⟨rfl, hx⟩ := List.append_inj' h rfl
    exact .inl ⟨rfl, (List.singleton_inj.mp hx).symm, rfl⟩
  · rw [List.concat_eq_append, ← List.cons_append, ← List.append_assoc] at h
    obtain ⟨rfl, hb⟩ := List.append_inj' h rfl
    rw [List.singleton_inj.mp hb]
    exact .inr ⟨l₂', List.concat_eq_append, rfl⟩

theorem history_concat {a : α} : History P (l ++ [a]) ↔ History P l ∧ P l a := by
  constructor
  · intro h
    refine ⟨fun l₁ x l₂ hl => h l₁ x (l₂ ++ [a]) ?_, h l a [] rfl⟩
    rw [hl, List.append_assoc, List.cons_append]
  · rintro ⟨h, ha⟩ l₁ x l₂ hl
    rcases concat_eq_split hl with ⟨rfl, rfl, -⟩ | ⟨l₂', -, hl'⟩
    · exact ha
    · exact h l₁ x l₂' hl'

end History

/-! ## Stretches of processor time -/

variable {ι T : Type*}

/-- Job `job` has the processor from `start` to `stop`. -/
structure Stretch (ι T : Type*) where
  job : ι
  start : T
  stop : T
  deriving DecidableEq

section Group

variable [AddCommGroup T]

def Stretch.length (x : Stretch ι T) : T := x.stop - x.start

/-- The time that job `i` is given. -/
def given [DecidableEq ι] (l : List (Stretch ι T)) (i : ι) : T :=
  ((l.filter fun x => x.job = i).map Stretch.length).sum

variable [DecidableEq ι]

theorem given_nil (i : ι) : given ([] : List (Stretch ι T)) i = 0 := rfl

theorem given_cons (x : Stretch ι T) (l : List (Stretch ι T)) (i : ι) :
    given (x :: l) i = (if x.job = i then x.length else 0) + given l i := by
  unfold given
  by_cases hx : x.job = i
  · rw [List.filter_cons_of_pos (by simpa using hx), List.map_cons, List.sum_cons, if_pos hx]
  · rw [List.filter_cons_of_neg (by simpa using hx), if_neg hx, zero_add]

/-- What some jobs are given is the length of their stretches. -/
theorem sum_given (l : List (Stretch ι T)) (S : Finset ι) :
    ∑ i ∈ S, given l i = ((l.filter fun x => x.job ∈ S).map Stretch.length).sum := by
  induction l with
  | nil => simp [given_nil]
  | cons x l ih =>
      simp only [given_cons, Finset.sum_add_distrib, ih, Finset.sum_ite_eq]
      by_cases hx : x.job ∈ S
      · rw [if_pos hx, List.filter_cons_of_pos (by simpa using hx), List.map_cons, List.sum_cons]
      · rw [if_neg hx, List.filter_cons_of_neg (by simpa using hx), zero_add]

end Group

/-! ## Feasible schedules -/

/-- Job `i` is done at `c`, the end of its last stretch. -/
def Finishes [Preorder T] (l : List (Stretch ι T)) (i : ι) (c : T) : Prop :=
  IsGreatest { u | ∃ x ∈ l, x.job = i ∧ x.stop = u } c

/-- **A feasible schedule** on one processor: the stretches lie one after the
other, none before the release of its job, and every job is given its work. -/
structure Plan [AddCommGroup T] [LinearOrder T] [DecidableEq ι] (release work : ι → T)
    (l : List (Stretch ι T)) : Prop where
  ordered : l.Pairwise fun x y => x.stop ≤ y.start
  forward : ∀ x ∈ l, x.start ≤ x.stop
  released : ∀ x ∈ l, release x.job ≤ x.start
  complete : ∀ i, given l i = work i

section Plan

variable [AddCommGroup T] [LinearOrder T] [IsOrderedAddMonoid T]

/-- Stretches one after the other between `a` and `b`. -/
theorem length_le_span {l : List (Stretch ι T)} (hordered : l.Pairwise fun x y => x.stop ≤ y.start)
    {a b : T} (hab : a ≤ b) (hl : ∀ x ∈ l, a ≤ x.start ∧ x.start ≤ x.stop ∧ x.stop ≤ b) :
    (l.map Stretch.length).sum ≤ b - a := by
  induction l generalizing a with
  | nil => simpa using hab
  | cons x l ih =>
      obtain ⟨hx, hordered⟩ := List.pairwise_cons.mp hordered
      obtain ⟨hstart, hforward, hstop⟩ := hl x List.mem_cons_self
      have hrest := ih hordered hstop fun y hy =>
        ⟨hx y hy, (hl y (List.mem_cons_of_mem _ hy)).2⟩
      rw [List.map_cons, List.sum_cons]
      calc x.length + (l.map Stretch.length).sum
          ≤ (x.stop - a) + (b - x.stop) :=
            add_le_add (sub_le_sub_left hstart _) hrest
        _ = b - a := by abel

variable [DecidableEq ι] {release work : ι → T} {l : List (Stretch ι T)}

/-- Jobs that are released from `a` on and done by `b` fit in between. -/
theorem Plan.work_le_span (h : Plan release work l) {S : Finset ι} {a b : T} (hab : a ≤ b)
    (ha : ∀ i ∈ S, a ≤ release i) (hb : ∀ x ∈ l, x.job ∈ S → x.stop ≤ b) :
    ∑ i ∈ S, work i ≤ b - a := by
  have hsum : ∑ i ∈ S, work i = ∑ i ∈ S, given l i :=
    Finset.sum_congr rfl fun i _ => (h.complete i).symm
  rw [hsum, sum_given]
  refine length_le_span (h.ordered.filter _) hab fun x hx => ?_
  obtain ⟨hmem, hjob⟩ := List.mem_filter.mp hx
  have hS : x.job ∈ S := by simpa using hjob
  exact ⟨(ha _ hS).trans (h.released x hmem), h.forward x hmem, hb x hmem hS⟩

/-- **Of any jobs one finishes late**: no earlier than their total work after
the first of their releases. -/
theorem Plan.exists_late (h : Plan release work l) {c : ι → T} (hc : ∀ i, Finishes l i (c i))
    {S : Finset ι} (hS : S.Nonempty) {a : T} (ha : ∀ i ∈ S, a ≤ release i) :
    ∃ i ∈ S, a + ∑ j ∈ S, work j ≤ c i := by
  obtain ⟨i, hi, hmax⟩ := Finset.exists_max_image S c hS
  refine ⟨i, hi, ?_⟩
  have hac : a ≤ c i := by
    obtain ⟨x, hx, hjob, hstop⟩ := (hc i).1
    calc a ≤ release i := ha i hi
      _ ≤ x.start := hjob ▸ h.released x hx
      _ ≤ x.stop := h.forward x hx
      _ = c i := hstop
  have hspan := h.work_le_span hac ha fun x hx hjob =>
    ((hc x.job).2 ⟨x, hx, rfl, rfl⟩).trans (hmax _ hjob)
  calc a + ∑ j ∈ S, work j ≤ a + (c i - a) := add_le_add_right hspan a
    _ = c i := by abel

end Plan

end Lib.Timeline
