import Mathlib.Data.List.TakeWhile

/-!
# Runs — the runs of a list between separators

`runs` splits at every separator and drops what is empty. `starts` counts the
same runs in one pass, as a scan does: it only knows whether it is inside a
run, and counts where one begins (`starts_eq_length_runs`). What a further
piece of the list adds to the count is then a matter of how the first one
ends (`starts_append`).
-/

namespace Lib.Runs

variable {α : Type*} (sep : α → Bool)

/-- The maximal runs of elements that are not separators. -/
def runs (l : List α) : List (List α) := (l.splitOnP sep).filter fun run => !run.isEmpty

/-- The number of runs that begin in the list, when the one before it ends
inside a run or not. -/
def starts : Bool → List α → ℕ
  | _, [] => 0
  | inside, x :: l =>
      if sep x then starts false l
      else if inside then starts true l
      else starts true l + 1

/-- Whether the list ends inside a run. -/
def endsInside (inside : Bool) (l : List α) : Bool :=
  match l.getLast? with
  | some x => !sep x
  | none => inside

variable {sep}

theorem starts_cons_sep {x : α} (h : sep x = true) (inside : Bool) (l : List α) :
    starts sep inside (x :: l) = starts sep false l := by
  rw [starts, if_pos h]

theorem starts_cons_inside {x : α} (h : sep x = false) (l : List α) :
    starts sep true (x :: l) = starts sep true l := by
  simp [starts, h]

theorem starts_cons_outside {x : α} (h : sep x = false) (l : List α) :
    starts sep false (x :: l) = starts sep true l + 1 := by
  simp [starts, h]

/-- A run that is going on is in the first piece of the split, and is not
counted again. -/
theorem starts_eq_split (l : List α) :
    starts sep false l = (runs sep l).length ∧
      starts sep true l = ((l.splitOnP sep).tail.filter fun run => !run.isEmpty).length := by
  induction l with
  | nil => simp [runs, starts]
  | cons x l ih =>
      rw [runs, List.splitOnP_cons_eq_if_modifyHead]
      cases hx : sep x with
      | true =>
          rw [if_pos rfl, starts_cons_sep hx, starts_cons_sep hx, ih.1, runs]
          simp
      | false =>
          obtain ⟨piece, pieces, hsplit⟩ := List.exists_cons_of_ne_nil (List.splitOnP_ne_nil sep l)
          have htail := ih.2
          rw [hsplit, List.tail_cons] at htail
          rw [if_neg (by simp), hsplit, List.modifyHead_cons, starts_cons_outside hx,
            starts_cons_inside hx, htail]
          simp

theorem starts_eq_length_runs (l : List α) : starts sep false l = (runs sep l).length :=
  (starts_eq_split l).1

theorem endsInside_cons (inside : Bool) (x : α) (l : List α) :
    endsInside sep inside (x :: l) = endsInside sep (!sep x) l := by
  cases l with
  | nil => rfl
  | cons y l =>
      rw [endsInside, endsInside, List.getLast?_cons_cons]
      cases hlast : (y :: l).getLast? with
      | none => simp at hlast
      | some z => rfl

theorem starts_append (inside : Bool) (l l' : List α) :
    starts sep inside (l ++ l')
      = starts sep inside l + starts sep (endsInside sep inside l) l' := by
  induction l generalizing inside with
  | nil => simp [starts, endsInside]
  | cons x l ih =>
      rw [List.cons_append, endsInside_cons]
      cases hx : sep x with
      | true => rw [starts_cons_sep hx, starts_cons_sep hx, ih, Bool.not_true]
      | false =>
          cases inside with
          | true => rw [starts_cons_inside hx, starts_cons_inside hx, ih, Bool.not_false]
          | false =>
              rw [starts_cons_outside hx, starts_cons_outside hx, ih, Bool.not_false]
              omega

/-- No run begins in a list of separators, and only there. -/
theorem starts_false_eq_zero {l : List α} : starts sep false l = 0 ↔ ∀ x ∈ l, sep x = true := by
  induction l with
  | nil => simp [starts]
  | cons x l ih =>
      cases hx : sep x with
      | true => rw [starts_cons_sep hx, ih, List.forall_mem_cons, hx, eq_self, true_and]
      | false => simp [starts_cons_outside hx, hx]

/-- A run goes on, and no other begins: after a separator there are only
separators. -/
theorem starts_true_eq_zero {l : List α} :
    starts sep true l = 0 ↔ l.Pairwise fun x y => sep x = true → sep y = true := by
  induction l with
  | nil => simp [starts]
  | cons x l ih =>
      rw [List.pairwise_cons]
      cases hx : sep x with
      | true =>
          rw [starts_cons_sep hx, starts_false_eq_zero]
          constructor
          · intro h
            exact ⟨fun y hy _ => h y hy, List.pairwise_of_forall_mem_list fun _ _ y hy _ => h y hy⟩
          · intro h y hy
            exact h.1 y hy rfl
      | false =>
          rw [starts_cons_inside hx, ih]
          simp

/-! ## The first run -/

@[simp] theorem runs_nil : runs sep ([] : List α) = [] := rfl

theorem runs_cons_sep {x : α} (h : sep x = true) (l : List α) : runs sep (x :: l) = runs sep l := by
  rw [runs, runs, List.splitOnP_cons_eq_if_modifyHead, if_pos h]
  rfl

/-- Separators in front are dropped. -/
theorem runs_append_sep {before : List α} (h : ∀ x ∈ before, sep x = true) (l : List α) :
    runs sep (before ++ l) = runs sep l := by
  induction before with
  | nil => rfl
  | cons x before ih =>
      rw [List.cons_append, runs_cons_sep (h x List.mem_cons_self)]
      exact ih fun y hy => h y (List.mem_cons_of_mem x hy)

/-- A run up to the next separator or the end. -/
theorem runs_append {run l : List α} (hne : run ≠ []) (hrun : ∀ x ∈ run, sep x = false)
    (hl : ∀ x ∈ l.head?, sep x = true) : runs sep (run ++ l) = run :: runs sep l := by
  cases l with
  | nil =>
      rw [List.append_nil, runs, List.splitOnP_eq_singleton hrun]
      simp [hne]
  | cons x l =>
      rw [runs_cons_sep (hl x rfl), runs,
        List.splitOnP_append_cons_of_forall_mem hrun x (hl x rfl) l]
      simp [runs, hne]

/-- A list begins with a run, which may be empty. -/
theorem exists_run (sep : α → Bool) (l : List α) : ∃ run rest, l = run ++ rest ∧
    (∀ x ∈ run, sep x = false) ∧ ∀ x ∈ rest.head?, sep x = true := by
  refine ⟨l.takeWhile (!sep ·), l.dropWhile (!sep ·), List.takeWhile_append_dropWhile.symm,
    fun x hx => ?_, fun x hx => ?_⟩
  · simpa using List.mem_takeWhile_imp hx
  · have hhead := List.head?_dropWhile_not (!sep ·) l
    rw [Option.mem_def.mp hx] at hhead
    simpa using hhead

end Lib.Runs
