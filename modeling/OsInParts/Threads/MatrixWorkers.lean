import Mathlib.Data.BitVec
import Mathlib.Data.Fintype.Prod
import OsInParts.Threads.MatrixProduct

/-!
# MatrixWorkers — every interleaving computes the product

The threads share nothing but `C`, and no two of them have the same cell
(`Inv.cells`). So whatever the order, a thread that has finished has written
its own cell, once, with the entry of the product (`Inv.sums`, `Inv.writes`);
`main` passes `pthread_join` only for threads that have finished. Every step
lowers `rank`, so the joins come to an end.
-/

namespace OsInParts.MatrixProduct

open Lib.Threads

variable {m n p : Nat} {R : Type*} [NonUnitalNonAssocSemiring R]
  (A : Matrix (Fin m) (Fin n) R) (B : Matrix (Fin n) (Fin p) R)

/-! ## The invariant -/

/-- The cells whose threads have been created, row by row. -/
def Main.Created : Main → Fin m × Fin p → Prop
  | .create i j, c => c.1.val < i ∨ (c.1.val = i ∧ c.2.val < j)
  | _, _ => True

/-- The threads that have been joined. -/
def Main.Joined : Main → Nat → Prop
  | .create _ _, _ => False
  | .join i, t => t < i
  | .done, _ => True

/-- What a thread has computed so far. -/
def Local.Correct (C : Matrix (Fin m) (Fin p) R) (i : Fin m) (j : Fin p) : Local R → Prop
  | .loop k sum => sum = partialSum A B i j k
  | .write sum => sum = (A * B) i j
  | .finished => C i j = (A * B) i j

/-- **The invariant of the program.** -/
structure Inv (s : State m p R) : Prop where
  cells : (s.threads.map Worker.cell).Nodup
  created : ∀ c, c ∈ s.threads.map Worker.cell ↔ s.main.Created c
  joined : ∀ t w, s.threads[t]? = some w → s.main.Joined t → w.pc = .finished
  sums : ∀ w ∈ s.threads, w.pc.Correct A B s.C w.row w.col
  nodup : s.writes.Nodup
  writes : ∀ t c, (t, c) ∈ s.writes ↔
    ∃ w, s.threads[t]? = some w ∧ w.cell = c ∧ w.pc = .finished

theorem inv_initial (C : Matrix (Fin m) (Fin p) R) : Inv A B (initial C) where
  cells := List.nodup_nil
  created := by simp [initial, Main.Created]
  joined := by simp [initial]
  sums := by simp [initial]
  nodup := List.nodup_nil
  writes := by simp [initial]

variable {A B}

/-! ## Steps of `main` -/

/-- `main` moves on and no thread is created. -/
theorem Inv.advance {s : State m p R} (h : Inv A B s) {main : Main}
    (hcreated : ∀ c : Fin m × Fin p, main.Created c ↔ s.main.Created c)
    (hjoined : ∀ t w, s.threads[t]? = some w → main.Joined t → w.pc = .finished) :
    Inv A B { s with main := main } where
  cells := h.cells
  created := fun c => (h.created c).trans (hcreated c).symm
  joined := hjoined
  sums := h.sums
  nodup := h.nodup
  writes := h.writes

/-- `main` creates the thread of the next cell. -/
theorem Inv.create {s : State m p R} (h : Inv A B s) {i j : Nat}
    (hmain : s.main = .create i j) (hi : i < m) (hj : j < p) :
    Inv A B { s with
      threads := s.threads ++ [{ row := ⟨i, hi⟩, col := ⟨j, hj⟩, pc := .loop 0 0 }]
      main := .create i (j + 1) } where
  cells := by
    rw [List.map_append, List.nodup_append]
    refine ⟨h.cells, List.nodup_singleton _, ?_⟩
    intro c hc c' hc' heq
    rw [h.created, hmain] at hc
    rw [List.map_singleton, List.mem_singleton] at hc'
    subst heq
    subst hc'
    simp [Main.Created, Worker.cell] at hc
  created := by
    intro c
    rw [List.map_append, List.mem_append, h.created, hmain, List.map_singleton,
      List.mem_singleton]
    constructor
    · rintro (hbefore | rfl)
      · rcases hbefore with hrow | ⟨hrow, hcol⟩
        · exact .inl hrow
        · exact .inr ⟨hrow, Nat.lt_succ_of_lt hcol⟩
      · exact .inr ⟨rfl, Nat.lt_succ_self j⟩
    · rintro (hrow | ⟨hrow, hcol⟩)
      · exact .inl (.inl hrow)
      · rcases Nat.lt_succ_iff_lt_or_eq.mp hcol with hlt | heq
        · exact .inl (.inr ⟨hrow, hlt⟩)
        · exact .inr (Prod.ext (Fin.ext hrow) (Fin.ext heq))
  joined := fun _ _ _ hfalse => hfalse.elim
  sums := by
    intro w hw
    rcases List.mem_append.mp hw with hold | hnew
    · exact h.sums w hold
    · rw [List.mem_singleton] at hnew
      subst hnew
      exact (partialSum_zero A B _ _).symm
  nodup := h.nodup
  writes := by
    intro t c
    rw [h.writes]
    constructor
    · rintro ⟨w, hw, hcell, hpc⟩
      obtain ⟨hlt, -⟩ := List.getElem?_eq_some_iff.mp hw
      exact ⟨w, by rw [List.getElem?_append_left hlt, hw], hcell, hpc⟩
    · rintro ⟨w, hw, hcell, hpc⟩
      rcases List.mem_append.mp (List.mem_of_getElem? hw) with hold | hnew
      · refine ⟨w, ?_, hcell, hpc⟩
        by_cases hlt : t < s.threads.length
        · rwa [List.getElem?_append_left hlt] at hw
        · rw [List.getElem?_append_right (not_lt.mp hlt), List.getElem?_singleton] at hw
          split at hw
          · cases hw
            cases hpc
          · cases hw
      · rw [List.mem_singleton] at hnew
        subst hnew
        cases hpc

/-- Every step of `main` keeps the invariant. -/
theorem Inv.main {s s' : State m p R} (h : Inv A B s)
    (hs : parallelMatrixMultiplication s = some s') : Inv A B s' := by
  unfold parallelMatrixMultiplication at hs
  split at hs
  case h_1 i j hmain =>
    split at hs
    · rename_i hi
      split at hs
      · rename_i hj
        cases hs
        exact h.create hmain hi hj
      · rename_i hj
        cases hs
        -- a whole row has been created
        refine h.advance (fun c => ?_) fun _ _ _ hfalse => hfalse.elim
        rw [hmain]
        have hcol := c.2.isLt
        simp only [Main.Created]
        omega
    · rename_i hi
      cases hs
      refine h.advance (fun c => ?_) fun _ _ _ hlt => absurd hlt (Nat.not_lt_zero _)
      rw [hmain]
      have hrow := c.1.isLt
      simp only [Main.Created, true_iff]
      omega
  case h_2 i hmain =>
    split at hs
    · rename_i w hw
      split at hs
      · rename_i hpc
        cases hs
        refine h.advance (fun c => by rw [hmain]; exact Iff.rfl) fun t w' hw' hlt => ?_
        rcases Nat.lt_succ_iff_lt_or_eq.mp hlt with hlt | rfl
        · exact h.joined t w' hw' (by rw [hmain]; exact hlt)
        · rw [hw] at hw'
          cases hw'
          exact hpc
      · cases hs
    · rename_i hnone
      cases hs
      refine h.advance (fun c => by rw [hmain]; exact Iff.rfl) fun t w' hw' _ => ?_
      -- every thread is below the first index past the array
      obtain ⟨hlt, -⟩ := List.getElem?_eq_some_iff.mp hw'
      have hlen := List.getElem?_eq_none_iff.mp hnone
      exact h.joined t w' hw' (by rw [hmain]; exact lt_of_lt_of_le hlt hlen)
  case h_3 => cases hs

/-! ## Steps of a thread -/

omit [NonUnitalNonAssocSemiring R] in
/-- A thread that moves keeps its cell. -/
theorem map_cell_set {threads : List (Worker m p R)} {t : Nat} {w : Worker m p R}
    (hw : threads[t]? = some w) (pc : Local R) :
    (threads.set t { w with pc := pc }).map Worker.cell = threads.map Worker.cell := by
  obtain ⟨hlt, rfl⟩ := List.getElem?_eq_some_iff.mp hw
  apply List.ext_getElem
  · simp
  · intro u h₁ h₂
    rw [List.getElem_map, List.getElem_map, List.getElem_set]
    split
    · rename_i heq
      subst heq
      rfl
    · rfl

/-- Two threads with one cell are one thread. -/
theorem Inv.thread_unique {s : State m p R} (h : Inv A B s) {t u : Nat} {w v : Worker m p R}
    (hw : s.threads[t]? = some w) (hv : s.threads[u]? = some v) (hcell : v.cell = w.cell) :
    u = t := by
  have hmap : ∀ (k : Nat) (x : Worker m p R), s.threads[k]? = some x →
      (s.threads.map Worker.cell)[k]? = some x.cell := by
    intro k x hx
    rw [List.getElem?_map, hx]
    rfl
  obtain ⟨hlt, -⟩ := List.getElem?_eq_some_iff.mp hv
  apply (List.getElem?_inj (by rwa [List.length_map]) h.cells).mp
  rw [hmap u v hv, hmap t w hw, hcell]

/-- A thread that has not finished moves on: what is left to show is what it
has computed and what has been written. -/
theorem Inv.move {s : State m p R} (h : Inv A B s) {t : Nat} {w : Worker m p R}
    (hw : s.threads[t]? = some w) (hold : w.pc ≠ .finished) {pc : Local R}
    (C : Matrix (Fin m) (Fin p) R) (writes : List (Nat × Fin m × Fin p))
    (hself : pc.Correct A B C w.row w.col)
    (hother : ∀ (u : Nat) (v : Worker m p R), t ≠ u → s.threads[u]? = some v →
      v.pc.Correct A B C v.row v.col)
    (hnodup : writes.Nodup)
    (hwrites : ∀ (u : Nat) (c : Fin m × Fin p), (u, c) ∈ writes ↔
      (u, c) ∈ s.writes ∨ (u, c) = (t, w.cell) ∧ pc = .finished) :
    Inv A B ({ s with C := C, writes := writes }.setThread t { w with pc := pc }) where
  cells := by
    show ((s.threads.set t { w with pc := pc }).map Worker.cell).Nodup
    rw [map_cell_set hw]
    exact h.cells
  created := by
    intro c
    show c ∈ (s.threads.set t { w with pc := pc }).map Worker.cell ↔ _
    rw [map_cell_set hw]
    exact h.created c
  joined := by
    intro u v hv hjoined
    have hne : t ≠ u := by
      rintro rfl
      exact hold (h.joined t w hw hjoined)
    rw [State.setThread, List.getElem?_set_ne hne] at hv
    exact h.joined u v hv hjoined
  sums := by
    intro v hv
    obtain ⟨u, hu⟩ := List.getElem?_of_mem hv
    by_cases heq : t = u
    · subst heq
      obtain ⟨hlt, -⟩ := List.getElem?_eq_some_iff.mp hw
      rw [State.setThread, List.getElem?_set_self hlt] at hu
      cases hu
      exact hself
    · rw [State.setThread, List.getElem?_set_ne heq] at hu
      exact hother u v heq hu
  nodup := hnodup
  writes := by
    intro u c
    show (u, c) ∈ writes ↔ ∃ v, (s.threads.set t { w with pc := pc })[u]? = some v ∧ _
    rw [hwrites, h.writes]
    by_cases heq : t = u
    · subst heq
      obtain ⟨hlt, -⟩ := List.getElem?_eq_some_iff.mp hw
      rw [List.getElem?_set_self hlt, hw]
      constructor
      · rintro (⟨v, hv, -, hpc⟩ | ⟨hc, hpc⟩)
        · cases hv
          exact absurd hpc hold
        · cases hc
          exact ⟨_, rfl, rfl, hpc⟩
      · rintro ⟨v, hv, hcell, hpc⟩
        cases hv
        subst hcell
        exact .inr ⟨rfl, hpc⟩
    · rw [List.getElem?_set_ne heq]
      constructor
      · rintro (hmem | ⟨hc, -⟩)
        · exact hmem
        · cases hc
          exact absurd rfl heq
      · exact .inl

/-- A thread goes on without writing. -/
theorem Inv.compute {s : State m p R} (h : Inv A B s) {t : Nat} {w : Worker m p R} {pc : Local R}
    (hw : s.threads[t]? = some w) (hold : w.pc ≠ .finished) (hnew : pc ≠ .finished)
    (hsum : pc.Correct A B s.C w.row w.col) :
    Inv A B (s.setThread t { w with pc := pc }) := by
  refine h.move hw hold s.C s.writes hsum ?_ h.nodup fun u c => ?_
  · intro u v _ hv
    exact h.sums v (List.mem_of_getElem? hv)
  · constructor
    · exact .inl
    · rintro (hmem | ⟨-, hpc⟩)
      · exact hmem
      · exact absurd hpc hnew

/-- What a thread has computed does not depend on other cells. -/
theorem Local.Correct.setCell {C : Matrix (Fin m) (Fin p) R} {i i' : Fin m} {j j' : Fin p}
    {pc : Local R} (h : pc.Correct A B C i j) (hcell : ¬ (i = i' ∧ j = j')) (x : R) :
    pc.Correct A B (setCell C i' j' x) i j := by
  cases pc with
  | loop k sum => exact h
  | write sum => exact h
  | finished =>
      show MatrixProduct.setCell C i' j' x i j = (A * B) i j
      rw [MatrixProduct.setCell, if_neg hcell]
      exact h

/-- **A thread writes its cell**, and no other. -/
theorem Inv.write {s : State m p R} (h : Inv A B s) {t : Nat} {w : Worker m p R} {sum : R}
    (hw : s.threads[t]? = some w) (hpc : w.pc = .write sum) :
    Inv A B ({ s with
      C := setCell s.C w.row w.col sum
      writes := s.writes ++ [(t, w.cell)] }.setThread t { w with pc := .finished }) := by
  have hrunning : w.pc ≠ .finished := by
    rw [hpc]
    exact fun hfinished => by cases hfinished
  have hsum : sum = (A * B) w.row w.col := by
    have hcorrect := h.sums w (List.mem_of_getElem? hw)
    rwa [hpc] at hcorrect
  refine h.move hw hrunning _ _ ?_ ?_ ?_ fun u c => ?_
  · show setCell s.C w.row w.col sum w.row w.col = (A * B) w.row w.col
    rw [setCell_self, hsum]
  · intro u v hne hv
    apply (h.sums v (List.mem_of_getElem? hv)).setCell
    rintro ⟨hrow, hcol⟩
    exact hne (h.thread_unique hw hv (Prod.ext hrow hcol)).symm
  · -- the thread has not written before
    rw [List.nodup_append]
    refine ⟨h.nodup, List.nodup_singleton _, ?_⟩
    intro x hx y hy heq
    rw [List.mem_singleton] at hy
    subst heq
    subst hy
    obtain ⟨v, hv, -, hfinished⟩ := (h.writes t w.cell).mp hx
    rw [hw] at hv
    cases hv
    exact hrunning hfinished
  · rw [List.mem_append, List.mem_singleton]
    simp

/-- Every step of a thread keeps the invariant. -/
theorem Inv.worker {s s' : State m p R} (h : Inv A B s) {t : Nat}
    (hs : parallelWorker A B t s = some s') : Inv A B s' := by
  unfold parallelWorker at hs
  split at hs
  · cases hs
  · rename_i w hw
    have hcorrect := h.sums w (List.mem_of_getElem? hw)
    split at hs
    · rename_i k sum hpc
      rw [hpc] at hcorrect
      have hrunning : w.pc ≠ .finished := by
        rw [hpc]
        exact fun hfinished => by cases hfinished
      split at hs
      · rename_i hk
        cases hs
        refine h.compute hw hrunning (fun hfinished => by cases hfinished) ?_
        show _ = partialSum A B w.row w.col (k + 1)
        rw [partialSum_succ A B w.row w.col hk, ← show sum = _ from hcorrect]
      · rename_i hk
        cases hs
        refine h.compute hw hrunning (fun hfinished => by cases hfinished) ?_
        show sum = (A * B) w.row w.col
        rw [← partialSum_all A B w.row w.col (not_lt.mp hk)]
        exact hcorrect
    · rename_i sum hpc
      cases hs
      exact h.write hw hpc
    · cases hs

theorem inv_step {e : Event} {s s' : State m p R} (h : Inv A B s) (hs : step A B e s = some s') :
    Inv A B s' := by
  cases e with
  | main => exact h.main hs
  | worker t => exact h.worker hs

theorem inv_reachable {C : Matrix (Fin m) (Fin p) R} {s : State m p R}
    (h : Reachable (step A B) (initial C) s) : Inv A B s :=
  h.invariant (inv_initial A B C) fun _ _ _ hI _ hs => inv_step hI hs

/-! ## Once all are joined -/

omit [NonUnitalNonAssocSemiring R] in
/-- One write has gone to the cell, by the thread created for it. -/
def WrittenOnce (s : State m p R) (i : Fin m) (j : Fin p) : Prop :=
  (s.writes.map Prod.snd).count (i, j) = 1 ∧
    ∃ t w, s.threads[t]? = some w ∧ w.cell = (i, j) ∧ (t, i, j) ∈ s.writes

/-- No two writes go to one cell. -/
theorem Inv.writes_nodup {s : State m p R} (h : Inv A B s) : (s.writes.map Prod.snd).Nodup := by
  apply h.nodup.map_on
  rintro ⟨t, c⟩ ht ⟨u, c'⟩ hu heq
  obtain ⟨w, hw, hcell, -⟩ := (h.writes t c).mp ht
  obtain ⟨v, hv, hcell', -⟩ := (h.writes u c').mp hu
  have heq' : c = c' := heq
  subst heq'
  rw [h.thread_unique hw hv (hcell'.trans hcell.symm)]

/-- Each cell has a thread, which has finished. -/
theorem Inv.finished {s : State m p R} (h : Inv A B s) (hdone : s.main = .done) (i : Fin m)
    (j : Fin p) : ∃ (t : Nat) (w : Worker m p R),
      s.threads[t]? = some w ∧ w.cell = (i, j) ∧ w.pc = .finished := by
  have hmem := (h.created (i, j)).mpr (by rw [hdone]; trivial)
  obtain ⟨w, hw, hcell⟩ := List.mem_map.mp hmem
  obtain ⟨t, ht⟩ := List.getElem?_of_mem hw
  exact ⟨t, w, ht, hcell, h.joined t w ht (by rw [hdone]; trivial)⟩

theorem Inv.product {s : State m p R} (h : Inv A B s) (hdone : s.main = .done) :
    s.C = A * B := by
  funext i j
  obtain ⟨t, w, ht, hcell, hpc⟩ := h.finished hdone i j
  have hcorrect := h.sums w (List.mem_of_getElem? ht)
  rw [hpc] at hcorrect
  cases hcell
  exact hcorrect

theorem Inv.writtenOnce {s : State m p R} (h : Inv A B s) (hdone : s.main = .done) (i : Fin m)
    (j : Fin p) : WrittenOnce s i j := by
  obtain ⟨t, w, ht, hcell, hpc⟩ := h.finished hdone i j
  have hmem : (t, i, j) ∈ s.writes := (h.writes t (i, j)).mpr ⟨w, ht, hcell, hpc⟩
  refine ⟨?_, t, w, ht, hcell, hmem⟩
  exact List.count_eq_one_of_mem h.writes_nodup (List.mem_map.mpr ⟨_, hmem, rfl⟩)

/-! ## The threads do finish -/

/-- An upper bound on the steps of a thread. -/
def Local.rank (n : Nat) : Local R → Nat
  | .loop k _ => n - k + 2
  | .write _ => 1
  | .finished => 0

/-- An upper bound on the steps of `main`, counting those of the threads it
has still to create. -/
def Main.rank (m n p : Nat) : Main → Nat
  | .create i j =>
      (m - (i + 1)) * (p * (n + 4) + 1) + (if i < m then (p - j) * (n + 4) + 1 else 0) +
        (m * p + 2)
  | .join i => m * p - i + 1
  | .done => 0

def State.rank (n : Nat) (s : State m p R) : Nat :=
  s.main.rank m n p + (s.threads.map fun w => w.pc.rank n).sum

theorem Inv.length_le {s : State m p R} (h : Inv A B s) : s.threads.length ≤ m * p := by
  have hle := h.cells.length_le_card
  rwa [List.length_map, Fintype.card_prod, Fintype.card_fin, Fintype.card_fin] at hle

/-- The thread created last costs less than what `main` had put aside. -/
theorem rank_create {m n p i j : Nat} (hi : i < m) (hj : j < p) :
    (Main.create i (j + 1)).rank m n p + (n + 4) = (Main.create i j).rank m n p := by
  have hcol : (p - j) * (n + 4) = (p - (j + 1)) * (n + 4) + (n + 4) := by
    rw [← Nat.succ_mul]
    congr 1
    omega
  simp only [Main.rank, if_pos hi, hcol]
  omega

theorem rank_nextRow {m n p i j : Nat} (hi : i < m) :
    (Main.create (i + 1) 0).rank m n p < (Main.create i j).rank m n p := by
  simp only [Main.rank, if_pos hi, Nat.sub_zero]
  split
  · rename_i hnext
    have hrow : (m - (i + 1)) * (p * (n + 4) + 1)
        = (m - (i + 1 + 1)) * (p * (n + 4) + 1) + (p * (n + 4) + 1) := by
      rw [← Nat.succ_mul]
      congr 1
      omega
    omega
  · rw [show m - (i + 1 + 1) = 0 by omega, Nat.zero_mul]
    omega

theorem Inv.main_rank {s s' : State m p R} (h : Inv A B s)
    (hs : parallelMatrixMultiplication s = some s') : s'.rank n < s.rank n := by
  unfold parallelMatrixMultiplication at hs
  split at hs
  case h_1 i j hmain =>
    split at hs
    · rename_i hi
      split at hs
      · rename_i hj
        cases hs
        have hcost := rank_create (n := n) hi hj
        simp only [State.rank, hmain, List.map_append, List.sum_append, List.map_cons,
          List.map_nil, List.sum_cons, List.sum_nil, Local.rank]
        omega
      · cases hs
        have hcost := rank_nextRow (n := n) (p := p) (j := j) hi
        simp only [State.rank, hmain]
        omega
    · cases hs
      simp only [State.rank, hmain, Main.rank]
      omega
  case h_2 i hmain =>
    split at hs
    · rename_i w hw
      obtain ⟨hlt, -⟩ := List.getElem?_eq_some_iff.mp hw
      have hlen := h.length_le
      split at hs
      · cases hs
        simp only [State.rank, hmain, Main.rank]
        omega
      · cases hs
    · cases hs
      simp only [State.rank, hmain, Main.rank]
      omega
  case h_3 => cases hs

omit [NonUnitalNonAssocSemiring R] in
/-- A thread that moves on costs less. -/
theorem rank_move {s : State m p R} {t : Nat} {w : Worker m p R} (hw : s.threads[t]? = some w)
    (pc : Local R) (C : Matrix (Fin m) (Fin p) R) (writes : List (Nat × Fin m × Fin p))
    (hlt : pc.rank n < w.pc.rank n) :
    ({ s with C := C, writes := writes }.setThread t { w with pc := pc }).rank n < s.rank n := by
  have hmove := sum_map_set (fun w : Worker m p R => w.pc.rank n) hw { w with pc := pc }
  dsimp only at hmove
  simp only [State.rank, State.setThread]
  omega

theorem worker_rank {s s' : State m p R} {t : Nat} (hs : parallelWorker A B t s = some s') :
    s'.rank n < s.rank n := by
  unfold parallelWorker at hs
  split at hs
  · cases hs
  · rename_i w hw
    split at hs
    · rename_i k sum hpc
      split at hs
      · cases hs
        apply rank_move hw _ s.C s.writes
        rw [hpc]
        simp only [Local.rank]
        omega
      · cases hs
        apply rank_move hw _ s.C s.writes
        rw [hpc]
        simp only [Local.rank]
        omega
    · rename_i sum hpc
      cases hs
      apply rank_move hw
      rw [hpc]
      exact Nat.zero_lt_one
    · cases hs

theorem step_rank {e : Event} {s s' : State m p R} (h : Inv A B s)
    (hs : step A B e s = some s') : s'.rank n < s.rank n := by
  cases e with
  | main => exact h.main_rank hs
  | worker t => exact worker_rank hs

/-- A thread that has not finished can move. -/
theorem parallelWorker_isSome {s : State m p R} {t : Nat} {w : Worker m p R}
    (hw : s.threads[t]? = some w) (hpc : w.pc ≠ .finished) : (parallelWorker A B t s).isSome := by
  unfold parallelWorker
  simp only [hw]
  cases hcase : w.pc with
  | loop k sum =>
      simp only
      split <;> rfl
  | write sum => rfl
  | finished => exact absurd hcase hpc

/-- `main` waits only for a thread that can move. -/
theorem progress (s : State m p R) :
    s.main = .done ∨ ∃ e, (step A B e s).isSome := by
  cases hmain : s.main with
  | create i j =>
      right
      refine ⟨.main, ?_⟩
      simp only [step, parallelMatrixMultiplication, hmain]
      split
      · split <;> rfl
      · rfl
  | join i =>
      right
      cases hw : s.threads[i]? with
      | none =>
          refine ⟨.main, ?_⟩
          simp only [step, parallelMatrixMultiplication, hmain, hw]
          rfl
      | some w =>
          by_cases hpc : w.pc = .finished
          · refine ⟨.main, ?_⟩
            simp only [step, parallelMatrixMultiplication, hmain, hw, hpc]
            rfl
          · exact ⟨.worker i, parallelWorker_isSome hw hpc⟩
  | done => exact .inl rfl

/-- **The threads compute what the loops compute.** In every interleaving,
once all threads are joined the result is that of the sequential loops and
the matrix product, each cell written once and by its own thread; and every
interleaving comes to where all are joined. -/
theorem parallel_eq_sequential (A : Matrix (Fin m) (Fin n) R) (B : Matrix (Fin n) (Fin p) R)
    (C C' : Matrix (Fin m) (Fin p) R) :
    (∀ s, Reachable (step A B) (initial C) s → s.main = .done →
      s.C = sequentialMatrixMultiplication A B C' ∧ s.C = A * B ∧
        ∀ i j, WrittenOnce s i j) ∧
      Ends (step A B) (fun _ _ => True) (fun s => s.main = .done) (initial C) := by
  constructor
  · intro s hs hdone
    have hinv := inv_reachable hs
    rw [sequentialMatrixMultiplication_eq]
    exact ⟨hinv.product hdone, hinv.product hdone, hinv.writtenOnce hdone⟩
  · apply Ends.rule (Inv A B) (State.rank n)
    · intro e s s' hinv _ hs
      exact ⟨inv_step hinv hs, step_rank hinv hs⟩
    · intro s _
      rcases progress (A := A) (B := B) s with hdone | ⟨e, he⟩
      · exact .inl hdone
      · exact .inr ⟨e, trivial, he⟩
    · exact inv_initial A B C

/-- A run of two threads, the second before the first. -/
def twoThreads : List Event :=
  List.replicate 4 .main ++ List.replicate 4 (.worker 1) ++
    List.replicate 4 (.worker 0) ++ List.replicate 3 .main

/-- `[3, 2^31]`. -/
def sampleA : Matrix (Fin 1) (Fin 2) (BitVec 32) := ![![3, 2 ^ 31]]

/-- `[2, 4; 1, 2]`. -/
def sampleB : Matrix (Fin 2) (Fin 2) (BitVec 32) := ![![2, 4], ![1, 2]]

/-- The product with `2^31` overflows. -/
theorem parallel_eq_sequential_sample :
    ∃ s, exec (step sampleA sampleB) (initial fun _ _ => 9) twoThreads = some s ∧
      s.C = sampleA * sampleB ∧ WrittenOnce s 0 1 :=
  ⟨_, rfl, ((parallel_eq_sequential sampleA sampleB (fun _ _ => 9) (fun _ _ => 0)).1 _
      (Reachable.exec .start twoThreads rfl) rfl).2.1,
    ((parallel_eq_sequential sampleA sampleB (fun _ _ => 9) (fun _ _ => 0)).1 _
      (Reachable.exec .start twoThreads rfl) rfl).2.2 0 1⟩

end OsInParts.MatrixProduct
