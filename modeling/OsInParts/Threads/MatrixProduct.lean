import Mathlib.Algebra.BigOperators.Fin
import Mathlib.Data.Matrix.Mul
import OsInParts.Lib.Threads

/-!
# MatrixProduct — one thread per cell of a matrix product

`Multithreading/q4p2.c`: `sequential_matrix_multiplication`, and
`parallel_matrix_multiplication` with the `parallel_worker` threads it
creates and joins; `compute_element` of `q4p1.c` has the body of
`parallel_worker`. `pthread_create` succeeds.

The entries are in any ring-like `R`: the integers for arithmetic without
overflow, `BitVec 32` for an `int` that wraps. The two matrices are only
read, so they are parameters; the result array starts with whatever `malloc`
left in it.
-/

namespace OsInParts.MatrixProduct

variable {m n p : Nat} {R : Type*}

/-- `C[i][j] = x`. -/
def setCell (C : Matrix (Fin m) (Fin p) R) (i : Fin m) (j : Fin p) (x : R) :
    Matrix (Fin m) (Fin p) R :=
  fun i' j' => if i' = i ∧ j' = j then x else C i' j'

theorem setCell_self (C : Matrix (Fin m) (Fin p) R) (i : Fin m) (j : Fin p) (x : R) :
    setCell C i j x i j = x := by
  simp [setCell]

theorem setCell_setCell (C : Matrix (Fin m) (Fin p) R) (i : Fin m) (j : Fin p) (x y : R) :
    setCell (setCell C i j x) i j y = setCell C i j y := by
  funext i' j'
  unfold setCell
  split <;> rfl

/-- A loop whose turns give the cells they cover their final value. -/
theorem foldl_covers {ι : Type*} (body : Matrix (Fin m) (Fin p) R → ι → Matrix (Fin m) (Fin p) R)
    (covers : ι → Fin m → Fin p → Prop) (value : Matrix (Fin m) (Fin p) R)
    (hin : ∀ C x i j, covers x i j → body C x i j = value i j)
    (hout : ∀ C x i j, ¬ covers x i j → body C x i j = C i j)
    (xs : List ι) (C : Matrix (Fin m) (Fin p) R) (i : Fin m) (j : Fin p) :
    ((∃ x ∈ xs, covers x i j) → xs.foldl body C i j = value i j) ∧
      ((∀ x ∈ xs, ¬ covers x i j) → xs.foldl body C i j = C i j) := by
  induction xs generalizing C with
  | nil => simp
  | cons x xs ih =>
      obtain ⟨hcovered, hnot⟩ := ih (body C x)
      constructor
      · rintro ⟨y, hy, hcover⟩
        by_cases hrest : ∃ z ∈ xs, covers z i j
        · exact hcovered hrest
        · rcases List.mem_cons.mp hy with rfl | hmem
          · rw [List.foldl_cons, hnot fun z hz hzc => hrest ⟨z, hz, hzc⟩]
            exact hin C y i j hcover
          · exact absurd ⟨y, hmem, hcover⟩ hrest
      · intro hall
        rw [List.foldl_cons, hnot fun z hz => hall z (List.mem_cons_of_mem x hz)]
        exact hout C x i j (hall x List.mem_cons_self)

/-! ## The threads -/

/-- Where a thread is in `parallel_worker`; `k` and `sum` are its locals. -/
inductive Local (R : Type*) where
  /-- at the test of the `for` loop -/
  | loop (k : Nat) (sum : R)
  /-- at `task->C[task->row][task->col] = sum` -/
  | write (sum : R)
  | finished

/-- A thread, with the `row` and `col` of its task. -/
structure Worker (m p : Nat) (R : Type*) where
  row : Fin m
  col : Fin p
  pc : Local R

def Worker.cell (w : Worker m p R) : Fin m × Fin p := (w.row, w.col)

/-- Where `main` is in `parallel_matrix_multiplication`. -/
inductive Main where
  /-- at the test of the inner loop of the two that create the threads -/
  | create (i j : Nat)
  /-- at the test of the loop that joins them -/
  | join (i : Nat)
  | done

/-- `threads` up to `thread_index`, and the result array. The last field is
not in the code: it lists the writes to `C`, each with the thread that made
it. -/
structure State (m p : Nat) (R : Type*) where
  main : Main
  threads : List (Worker m p R)
  C : Matrix (Fin m) (Fin p) R
  writes : List (Nat × Fin m × Fin p)

def initial (C : Matrix (Fin m) (Fin p) R) : State m p R :=
  { main := .create 0 0, threads := [], C := C, writes := [] }

def State.setThread (s : State m p R) (t : Nat) (w : Worker m p R) : State m p R :=
  { s with threads := s.threads.set t w }

variable [NonUnitalNonAssocSemiring R]

/-- The next step of `main`, `none` while it waits for a thread. -/
def parallelMatrixMultiplication (s : State m p R) : Option (State m p R) :=
  match s.main with
  | .create i j =>
      if hi : i < m then
        if hj : j < p then
          let worker := { row := ⟨i, hi⟩, col := ⟨j, hj⟩, pc := .loop 0 0 }
          some { s with threads := s.threads ++ [worker], main := .create i (j + 1) }
        else some { s with main := .create (i + 1) 0 }
      else some { s with main := .join 0 }
  | .join i =>
      match s.threads[i]? with
      | some w =>
          match w.pc with
          | .finished => some { s with main := .join (i + 1) }
          | _ => none
      | none => some { s with main := .done }
  | .done => none

/-- The next step of the `t`-th thread, `none` once it has finished. -/
def parallelWorker (A : Matrix (Fin m) (Fin n) R) (B : Matrix (Fin n) (Fin p) R) (t : Nat)
    (s : State m p R) : Option (State m p R) :=
  match s.threads[t]? with
  | none => none
  | some w =>
      match w.pc with
      | .loop k sum =>
          if hk : k < n then
            let sum := sum + A w.row ⟨k, hk⟩ * B ⟨k, hk⟩ w.col
            some (s.setThread t { w with pc := .loop (k + 1) sum })
          else some (s.setThread t { w with pc := .write sum })
      | .write sum =>
          some ({ s with
              C := setCell s.C w.row w.col sum
              writes := s.writes ++ [(t, w.cell)] }.setThread t { w with pc := .finished })
      | .finished => none

/-- The thread function of `q4p1.c`, statement by statement the same. -/
def computeElement (A : Matrix (Fin m) (Fin n) R) (B : Matrix (Fin n) (Fin p) R) :
    Nat → State m p R → Option (State m p R) :=
  parallelWorker A B

/-- Who moves. -/
inductive Event where
  | main
  | worker (t : Nat)

def step (A : Matrix (Fin m) (Fin n) R) (B : Matrix (Fin n) (Fin p) R) :
    Event → State m p R → Option (State m p R)
  | .main, s => parallelMatrixMultiplication s
  | .worker t, s => parallelWorker A B t s

/-! ## The sums -/

section Sums

variable (A : Matrix (Fin m) (Fin n) R) (B : Matrix (Fin n) (Fin p) R)

/-- The sum of the first `k` products for a cell. -/
def partialSum (i : Fin m) (j : Fin p) (k : Nat) : R :=
  (((List.finRange n).take k).map fun x => A i x * B x j).sum

theorem partialSum_zero (i : Fin m) (j : Fin p) : partialSum A B i j 0 = 0 := by
  simp [partialSum]

theorem partialSum_succ (i : Fin m) (j : Fin p) {k : Nat} (hk : k < n) :
    partialSum A B i j (k + 1) = partialSum A B i j k + A i ⟨k, hk⟩ * B ⟨k, hk⟩ j := by
  have hlen : k < (List.finRange n).length := by rwa [List.length_finRange]
  rw [partialSum, List.take_succ_eq_append_getElem hlen, List.map_append, List.sum_append,
    List.getElem_finRange]
  simp [partialSum]

theorem partialSum_all (i : Fin m) (j : Fin p) {k : Nat} (hk : n ≤ k) :
    partialSum A B i j k = (A * B) i j := by
  rw [partialSum, List.take_of_length_le (by rwa [List.length_finRange]), Matrix.mul_apply,
    Fin.sum_univ_def]

end Sums

/-! ## The sequential loops -/

def sequentialMatrixMultiplication (A : Matrix (Fin m) (Fin n) R) (B : Matrix (Fin n) (Fin p) R)
    (C : Matrix (Fin m) (Fin p) R) : Matrix (Fin m) (Fin p) R :=
  (List.finRange m).foldl (fun C i =>
    (List.finRange p).foldl (fun C j =>
      (List.finRange n).foldl (fun C k => setCell C i j (C i j + A i k * B k j))
        (setCell C i j 0)) C) C

/-- Adding into one cell, term by term. -/
theorem foldl_accumulate {κ : Type*} (C : Matrix (Fin m) (Fin p) R) (i : Fin m) (j : Fin p)
    (x : R) (term : κ → R) (ks : List κ) :
    ks.foldl (fun C k => setCell C i j (C i j + term k)) (setCell C i j x)
      = setCell C i j (x + (ks.map term).sum) := by
  induction ks generalizing x with
  | nil => simp
  | cons k ks ih =>
      rw [List.foldl_cons, setCell_self, setCell_setCell, ih, List.map_cons, List.sum_cons,
        add_assoc]

/-- The inner loops give one cell its entry of the product. -/
theorem cell_loop (A : Matrix (Fin m) (Fin n) R) (B : Matrix (Fin n) (Fin p) R)
    (C : Matrix (Fin m) (Fin p) R) (i : Fin m) (j : Fin p) :
    (List.finRange n).foldl (fun C k => setCell C i j (C i j + A i k * B k j)) (setCell C i j 0)
      = setCell C i j ((A * B) i j) := by
  rw [foldl_accumulate C i j 0 fun k => A i k * B k j]
  congr 1
  rw [zero_add, Matrix.mul_apply, Fin.sum_univ_def]

theorem row_loop (A : Matrix (Fin m) (Fin n) R) (B : Matrix (Fin n) (Fin p) R)
    (C : Matrix (Fin m) (Fin p) R) (i i' : Fin m) (j' : Fin p) :
    (List.finRange p).foldl (fun C j => setCell C i j ((A * B) i j)) C i' j'
      = if i' = i then (A * B) i' j' else C i' j' := by
  have hrow := foldl_covers (fun C j => setCell C i j ((A * B) i j))
    (fun j i' j' => i' = i ∧ j' = j) (A * B)
    (by
      rintro C j i' j' ⟨rfl, rfl⟩
      exact setCell_self _ _ _ _)
    (by
      intro C j i' j' hnot
      exact if_neg hnot)
    (List.finRange p) C i' j'
  split
  · rename_i hi
    exact hrow.1 ⟨j', List.mem_finRange j', hi, rfl⟩
  · rename_i hi
    exact hrow.2 fun _ _ hcover => hi hcover.1

/-- **The three loops compute the product**, whatever was in `C`. -/
theorem sequentialMatrixMultiplication_eq (A : Matrix (Fin m) (Fin n) R)
    (B : Matrix (Fin n) (Fin p) R) (C : Matrix (Fin m) (Fin p) R) :
    sequentialMatrixMultiplication A B C = A * B := by
  funext i j
  have hrows := foldl_covers
    (fun C i => (List.finRange p).foldl (fun C j => setCell C i j ((A * B) i j)) C)
    (fun i i' _ => i' = i) (A * B)
    (by
      rintro C i i' j' rfl
      rw [row_loop, if_pos rfl])
    (by
      intro C i i' j' hnot
      rw [row_loop, if_neg hnot])
    (List.finRange m) C i j
  simp only [sequentialMatrixMultiplication, cell_loop]
  exact hrows.1 ⟨i, List.mem_finRange i, rfl⟩

end OsInParts.MatrixProduct
