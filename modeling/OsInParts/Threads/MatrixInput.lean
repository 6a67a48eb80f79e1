import OsInParts.Lib.Scan
import OsInParts.Threads.MatrixWorkers

/-!
# MatrixInput — from the numbers typed in to the product printed

`main` of `Multithreading/q4p1.c`. The columns of `A` and the rows of `B` are both
read into `n`, so the first of the two numbers is forgotten. A dimension or an entry
that is not a number in the range of `int`, and an array `threads` without entries,
are undefined here; where `n` is negative no loop over it has a turn. There is enough
memory.

A matrix is printed row by row, with a space behind each entry. White space is
skipped in front of a number, so what one run prints can be typed into the next one as
its `A` (`main_chains`).
-/

namespace OsInParts.MatrixProduct

open Lib.Scan Lib.Threads

variable {m n p q : ℕ}

/-- What `main` reads. -/
structure Operands where
  m : ℕ
  n : ℕ
  p : ℕ
  A : Matrix (Fin m) (Fin n) ℤ
  B : Matrix (Fin n) (Fin p) ℤ

/-- The two loops that read a matrix with `n` columns. -/
def readRows (n : ℕ) : ℕ → List UInt8 → Option (List (List ℤ) × List UInt8)
  | 0, text => some ([], text)
  | m + 1, text => do
      let (row, text) ← scanInts n text
      let (rows, text) ← readRows n m text
      some (row :: rows, text)

def ofRows (rows : List (List ℤ)) : Matrix (Fin m) (Fin n) ℤ :=
  fun i j => (rows.getD i []).getD j 0

/-- `main` up to the first call of `clock`. -/
def readOperands (stdin : List UInt8) : Option Operands := do
  let (m, text) ← scanNew stdin
  let (_, text) ← scanNew text
  let (n, text) ← scanNew text
  let (p, text) ← scanNew text
  if 0 < m ∧ 0 < p ∧ m * p ≤ 2147483647 then
    let (a, text) ← readRows n.toNat m.toNat text
    let (b, _) ← readRows p.toNat n.toNat text
    some { m := m.toNat, n := n.toNat, p := p.toNat, A := ofRows a, B := ofRows b }
  else none

/-- The loops that print a matrix, on the list of its rows. -/
def printRows (rows : List (List ℤ)) : List UInt8 :=
  rows.flatMap fun row => (row.flatMap fun v => writeInt v ++ [32]) ++ [10]

def rows (C : Matrix (Fin m) (Fin n) ℤ) : List (List ℤ) := List.ofFn fun i => List.ofFn (C i)

/-- What `main` prints below `Resultant Matrix C:`. -/
def printMatrix (C : Matrix (Fin m) (Fin n) ℤ) : List UInt8 := printRows (rows C)

/-- Neither the next product that a thread computes nor its sum overflows. -/
def Local.Fits (A : Matrix (Fin m) (Fin n) ℤ) (B : Matrix (Fin n) (Fin p) ℤ) (i : Fin m)
    (j : Fin p) : Local ℤ → Prop
  | .loop k sum => ∀ hk : k < n,
      InInt (A i ⟨k, hk⟩ * B ⟨k, hk⟩ j) ∧ InInt (sum + A i ⟨k, hk⟩ * B ⟨k, hk⟩ j)
  | _ => True

/-- Whatever `malloc` leaves in `C` and whatever the order of the threads, the program
comes to its end without an overflow, and prints `output`. -/
def Prints (stdin output : List UInt8) : Prop :=
  ∃ o, readOperands stdin = some o ∧ ∀ C,
    (∀ s, Reachable (step o.A o.B) (initial C) s →
      ∀ w ∈ s.threads, w.pc.Fits o.A o.B w.row w.col) ∧
    Ends (step o.A o.B) (fun _ _ => True)
      (fun s => s.main = .done ∧ printMatrix s.C = output) (initial C)

/-! ## Reading -/

variable {text rest : List UInt8}

theorem readRows_ints {rows : List (List ℤ)} (hlength : ∀ row ∈ rows, row.length = n)
    (h : Ints rows.flatten text rest) : readRows n rows.length text = some (rows, rest) := by
  induction rows generalizing text with
  | nil =>
      cases h
      rfl
  | cons row rows ih =>
      rw [List.flatten_cons] at h
      obtain ⟨middle, hrow, hrows⟩ := h.split
      have hread := hrow.scanInts
      rw [hlength row List.mem_cons_self] at hread
      have hrest := ih (fun row' hrow' => hlength row' (List.mem_cons_of_mem row hrow')) hrows
      simp only [List.length_cons, readRows, hread, hrest, Option.bind_eq_bind, Option.bind_some]

theorem readRows_matrix {C : Matrix (Fin m) (Fin n) ℤ} (h : Ints (rows C).flatten text rest) :
    readRows n m text = some (rows C, rest) := by
  have hread := readRows_ints (n := n) (fun row hrow => ?_) h
  · rwa [rows, List.length_ofFn] at hread
  · obtain ⟨i, rfl⟩ := List.mem_ofFn.mp hrow
    exact List.length_ofFn

theorem ofRows_rows (C : Matrix (Fin m) (Fin n) ℤ) : ofRows (rows C) = C := by
  funext i j
  simp [ofRows, rows]

/-- The numbers for the product of `A` and `B`. -/
def numbers (k : ℤ) (A : Matrix (Fin m) (Fin n) ℤ) (B : Matrix (Fin n) (Fin p) ℤ) : List ℤ :=
  m :: k :: n :: p :: ((rows A).flatten ++ (rows B).flatten)

/-- **The matrices are read**, whatever number `k` of columns the first line gives. -/
theorem readOperands_numbers {k : ℤ} {A : Matrix (Fin m) (Fin n) ℤ}
    {B : Matrix (Fin n) (Fin p) ℤ} (hm : 0 < m) (hp : 0 < p) (hmp : m * p ≤ 2147483647)
    (h : Ints (numbers k A B) text rest) :
    readOperands text = some { m := m, n := n, p := p, A := A, B := B } := by
  obtain ⟨text₁, h₁, h⟩ := h.scanNew
  obtain ⟨text₂, h₂, h⟩ := h.scanNew
  obtain ⟨text₃, h₃, h⟩ := h.scanNew
  obtain ⟨text₄, h₄, h⟩ := h.scanNew
  obtain ⟨middle, hA, hB⟩ := h.split
  have hsize : (0 : ℤ) < m ∧ (0 : ℤ) < p ∧ (m : ℤ) * p ≤ 2147483647 := by
    refine ⟨by omega, by omega, ?_⟩
    exact_mod_cast hmp
  simp only [readOperands, h₁, h₂, h₃, h₄, Option.bind_eq_bind, Option.bind_some, if_pos hsize,
    Int.toNat_natCast, readRows_matrix hA, readRows_matrix hB]
  rw [ofRows_rows, ofRows_rows]

/-! ## The product -/

/-- No sum of the product leaves the range of `int`. -/
def Fits (A : Matrix (Fin m) (Fin n) ℤ) (B : Matrix (Fin n) (Fin p) ℤ) : Prop :=
  ∀ i j (k : Fin n), InInt (A i k * B k j) ∧ InInt (partialSum A B i j (k + 1))

variable {A : Matrix (Fin m) (Fin n) ℤ} {B : Matrix (Fin n) (Fin p) ℤ}

theorem Fits.pc (h : Fits A B) {C : Matrix (Fin m) (Fin p) ℤ} {i : Fin m} {j : Fin p}
    {pc : Local ℤ} (hcorrect : pc.Correct A B C i j) : pc.Fits A B i j := by
  cases pc with
  | loop k sum =>
      intro hk
      obtain ⟨hproduct, hsum⟩ := h i j ⟨k, hk⟩
      rw [partialSum_succ A B i j hk, ← show sum = _ from hcorrect] at hsum
      exact ⟨hproduct, hsum⟩
  | write sum => trivial
  | finished => trivial

/-- The entries of the product can be printed and read. -/
theorem Fits.entry (h : Fits A B) (i : Fin m) (j : Fin p) : InInt ((A * B) i j) := by
  rw [← partialSum_all A B i j (le_refl n)]
  cases n with
  | zero =>
      rw [partialSum_zero]
      exact ⟨by decide, by decide⟩
  | succ n => exact (h i j (Fin.last n)).2

/-- **The program multiplies** the matrices that are typed in. -/
theorem prints_product {stdin : List UInt8} {k : ℤ} (hm : 0 < m) (hp : 0 < p)
    (hmp : m * p ≤ 2147483647) (h : Ints (numbers k A B) stdin rest) (hfits : Fits A B) :
    Prints stdin (printMatrix (A * B)) := by
  refine ⟨_, readOperands_numbers hm hp hmp h, fun C => ⟨fun s hs w hw => ?_, ?_⟩⟩
  · exact hfits.pc ((inv_reachable hs).sums w hw)
  · apply Ends.rule (Inv A B) (State.rank n)
    · intro e s s' hinv _ hs
      exact ⟨inv_step hinv hs, step_rank hinv hs⟩
    · intro s hinv
      rcases progress (A := A) (B := B) s with hdone | ⟨e, he⟩
      · exact .inl ⟨hdone, by rw [hinv.product hdone]⟩
      · exact .inr ⟨e, trivial, he⟩
    · exact inv_initial A B C

/-! ## What is printed can be typed in -/

/-- A printed row is read with the blanks in front of it; those behind the last entry
are left. -/
theorem ints_row {row : List ℤ} (hrow : ∀ v ∈ row, InInt v) {blanks : List UInt8}
    (hblanks : ∀ c ∈ blanks, isSpace c = true) (rest : List UInt8) :
    ∃ blanks', (∀ c ∈ blanks', isSpace c = true) ∧
      Ints row (blanks ++ ((row.flatMap fun v => writeInt v ++ [32]) ++ rest))
        (blanks' ++ rest) := by
  induction row generalizing blanks with
  | nil => exact ⟨blanks, hblanks, .nil _⟩
  | cons v row ih =>
      have hspace : ∀ c ∈ [(32 : UInt8)], isSpace c = true := List.all_eq_true.mp rfl
      obtain ⟨blanks', hblanks', hints⟩ :=
        ih (fun v' hv' => hrow v' (List.mem_cons_of_mem v hv')) hspace
      have hdigits : Numeral 10 (write 10 v.natAbs) v.natAbs :=
        write_numeral (by decide) (by decide) 0 v.natAbs
      have hstops := stops_space (c := 32) (by decide : 10 ≤ 36) (by decide)
        ((row.flatMap fun v => writeInt v ++ [32]) ++ rest)
      refine ⟨blanks', hblanks', ?_⟩
      have hcons := Ints.cons hblanks hdigits (hrow v List.mem_cons_self) hstops hints
      simpa [writeInt] using hcons

theorem ints_rows {lines : List (List ℤ)} (hlines : ∀ row ∈ lines, ∀ v ∈ row, InInt v)
    {blanks : List UInt8} (hblanks : ∀ c ∈ blanks, isSpace c = true) (rest : List UInt8) :
    ∃ blanks', (∀ c ∈ blanks', isSpace c = true) ∧
      Ints lines.flatten (blanks ++ (printRows lines ++ rest)) (blanks' ++ rest) := by
  induction lines generalizing blanks with
  | nil => exact ⟨blanks, hblanks, .nil _⟩
  | cons row lines ih =>
      obtain ⟨behind, hbehind, hrow⟩ := ints_row (hlines row List.mem_cons_self) hblanks
        (10 :: (printRows lines ++ rest))
      have hnewline : ∀ c ∈ behind ++ [10], isSpace c = true := by
        intro c hc
        rcases List.mem_append.mp hc with hc | hc
        · exact hbehind c hc
        · rw [List.mem_singleton.mp hc]
          decide
      obtain ⟨blanks', hblanks', hrest⟩ :=
        ih (fun row' hrow' => hlines row' (List.mem_cons_of_mem row hrow')) hnewline
      refine ⟨blanks', hblanks', ?_⟩
      have happend := hrow.append (by simpa using hrest)
      simpa [printRows] using happend

/-- Blanks in front of numbers. -/
theorem ints_blanks {vs : List ℤ} (h : Ints vs text rest) {blanks : List UInt8}
    (hblanks : ∀ c ∈ blanks, isSpace c = true) : ∃ rest', Ints vs (blanks ++ text) rest' := by
  cases h with
  | nil => exact ⟨_, .nil _⟩
  | @cons v vs blanks' digits text rest hblanks' hdigits hv hstops hrest =>
      refine ⟨rest, ?_⟩
      rw [← List.append_assoc]
      refine .cons (fun c hc => ?_) hdigits hv hstops hrest
      rcases List.mem_append.mp hc with hc | hc
      · exact hblanks c hc
      · exact hblanks' c hc

/-- What is typed for the next run: the dimensions, the `output` of the last one, and
the entries of the other matrix. -/
def nextInput (m : ℕ) (k : ℤ) (p q : ℕ) (output text : List UInt8) : List UInt8 :=
  writeInts [m, k, p, q] ++ 10 :: (output ++ text)

/-- **A printed matrix is read back.** -/
theorem nextInput_numbers {k : ℤ} (hm : InInt m) (hk : InInt k) (hp : InInt p) (hq : InInt q)
    {C : Matrix (Fin m) (Fin p) ℤ} (hC : ∀ i j, InInt (C i j)) {D : Matrix (Fin p) (Fin q) ℤ}
    (hD : Ints (rows D).flatten text rest) :
    ∃ rest', Ints (numbers k C D) (nextInput m k p q (printMatrix C) text) rest' := by
  have hhead : ∀ v ∈ [(m : ℤ), k, p, q], InInt v := by
    simp only [List.mem_cons, List.not_mem_nil, or_false, forall_eq_or_imp, forall_eq]
    exact ⟨hm, hk, hp, hq⟩
  have hlines : ∀ row ∈ rows C, ∀ v ∈ row, InInt v := by
    intro row hrow v hv
    obtain ⟨i, rfl⟩ := List.mem_ofFn.mp hrow
    obtain ⟨j, rfl⟩ := List.mem_ofFn.mp hv
    exact hC i j
  obtain ⟨blanks, hblanks, hrows⟩ := ints_rows hlines
    (show ∀ c ∈ [(10 : UInt8)], isSpace c = true from List.all_eq_true.mp rfl) text
  obtain ⟨rest', hD⟩ := ints_blanks hD hblanks
  have hstops := stops_space (c := 10) (by decide : 10 ≤ 36) (by decide) (printMatrix C ++ text)
  exact ⟨rest', (ints_writeInts hhead hstops).append (hrows.append hD)⟩

/-- One input has one output. -/
theorem Prints.unique {stdin output output' : List UInt8} (h : Prints stdin output)
    (h' : Prints stdin output') : output = output' := by
  obtain ⟨o, hread, hends⟩ := h
  obtain ⟨o', hread', hends'⟩ := h'
  cases hread.symm.trans hread'
  obtain ⟨s, hs, hs'⟩ := (hends 0).2.both (hends' 0).2
  exact hs.2.symm.trans hs'.2

/-- **Two runs multiply three matrices**: the program multiplies what is typed in, and
what it prints is the `A` of the next run, below a first line with the new dimensions. -/
theorem main_chains {stdin : List UInt8} {k k' : ℤ} {D : Matrix (Fin p) (Fin q) ℤ}
    (hm : 0 < m) (hp : 0 < p) (hq : 0 < q) (hmp : m * p ≤ 2147483647)
    (hmq : m * q ≤ 2147483647) (hk' : InInt k') (h : Ints (numbers k A B) stdin rest)
    (hfits : Fits A B) (hD : Ints (rows D).flatten text rest) (hfits' : Fits (A * B) D) :
    Prints stdin (printMatrix (A * B)) ∧ ∀ output, Prints stdin output →
      Prints (nextInput m k' p q output text) (printMatrix (A * B * D)) := by
  have hle : ∀ {a b : ℕ}, 0 < b → a * b ≤ 2147483647 → InInt a := by
    intro a b hb hab
    have := Nat.le_mul_of_pos_right a hb
    exact ⟨by omega, by omega⟩
  have hfirst := prints_product hm hp hmp h hfits
  refine ⟨hfirst, fun output hprints => ?_⟩
  cases hprints.unique hfirst
  obtain ⟨rest', hnumbers⟩ := nextInput_numbers (hle hp hmp) hk'
    (hle hm (by rwa [Nat.mul_comm])) (hle hm (by rwa [Nat.mul_comm])) hfits.entry hD
  exact prints_product hm hq hmq hnumbers hfits'

/-- `(2, 3)`. -/
def rowA : Matrix (Fin 1) (Fin 2) ℤ := ![![2, 3]]

def columnB : Matrix (Fin 2) (Fin 1) ℤ := ![![4], ![5]]

def rowD : Matrix (Fin 1) (Fin 2) ℤ := ![![-1, 7]]

/-- The first line says that `A` has nine columns. -/
theorem main_chains_sample :
    Prints (writeInts (numbers 9 rowA columnB)) (printMatrix ![![23]]) ∧
      Prints (nextInput 1 0 1 2 (printMatrix ![![23]]) (writeInts [-1, 7]))
        (printMatrix ![![-23, 161]]) := by
  have hfirst : rowA * columnB = ![![23]] := by
    ext i j
    revert i j
    decide
  have hsecond : rowA * columnB * rowD = ![![-23, 161]] := by
    rw [hfirst]
    ext i j
    revert i j
    decide
  have h : Ints (numbers 9 rowA columnB) (writeInts (numbers 9 rowA columnB) ++ []) [] :=
    ints_writeInts (by unfold InInt; decide) nofun
  have hD : Ints (rows rowD).flatten (writeInts (rows rowD).flatten ++ []) [] :=
    ints_writeInts (by unfold InInt; decide) nofun
  have hk' : InInt 0 := ⟨by decide, by decide⟩
  rw [List.append_nil] at h hD
  obtain ⟨hprints, hnext⟩ := main_chains Nat.one_pos Nat.one_pos Nat.two_pos (by decide)
    (by decide) hk' h (by unfold Fits InInt; decide) hD (by unfold Fits InInt; decide)
  rw [hsecond] at hnext
  rw [hfirst] at hprints
  exact ⟨hprints, hnext _ hprints⟩

end OsInParts.MatrixProduct
