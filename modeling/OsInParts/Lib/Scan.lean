import Mathlib.Data.List.TakeWhile
import Mathlib.Data.Nat.Digits.Defs

/-!
# Scan — numerals in a text, and what `scanf` makes of them

A text is a list of bytes, the input that has not been read yet. A conversion
skips white space, takes the longest numeral there is and stores its value; it
stores nothing where there are no digits, and has no defined behaviour where the
value does not fit. What it takes are spaces, signs, digits and the `x` of a
prefix, and no other byte is lost (`mem_numeral`).

`Numeral base text n` says that `text` is one way to write `n`. Every such
text is read back (`Numeral.read`), and `digits` writes one.
-/

namespace Lib.Scan

/-- `isspace` in the C locale. -/
def isSpace (c : UInt8) : Bool := c = 32 || (9 ≤ c && c ≤ 13)

def skipSpaces (text : List UInt8) : List UInt8 := text.dropWhile isSpace

/-- What a digit or a letter is worth, 36 for every other byte. -/
def digitValue (c : UInt8) : ℕ :=
  if 48 ≤ c && c ≤ 57 then c.toNat - 48
  else if 65 ≤ c && c ≤ 90 then c.toNat - 55
  else if 97 ≤ c && c ≤ 122 then c.toNat - 87
  else 36

def isDigit (base : ℕ) (c : UInt8) : Bool := digitValue c < base

def ofDigits (base : ℕ) (text : List UInt8) : ℕ :=
  text.foldl (fun n c => base * n + digitValue c) 0

/-- An optional sign, and what follows it. -/
def sign : List UInt8 → Bool × List UInt8
  | 45 :: text => (true, text)
  | 43 :: text => (false, text)
  | text => (false, text)

/-- What follows an optional `0x` or `0X`, which base 16 allows. -/
def afterPrefix (base : ℕ) : List UInt8 → List UInt8
  | 48 :: x :: text => if base = 16 ∧ (x = 120 ∨ x = 88) then text else 48 :: x :: text
  | text => text

/-- The numeral at the head of a text, whether it has a minus sign and its
digits, and what follows it. -/
def numeral (base : ℕ) (text : List UInt8) : Option (Bool × ℕ) × List UInt8 :=
  let (minus, text) := sign (skipSpaces text)
  let text := afterPrefix base text
  let digits := text.takeWhile (isDigit base)
  (if digits = [] then none else some (minus, ofDigits base digits), text.dropWhile (isDigit base))

/-! ## Conversions -/

inductive Conversion (α : Type*) where
  | stores (a : α)
  /-- no digits: the variable keeps its value -/
  | fails
  /-- out of range -/
  | undefined
  deriving DecidableEq

/-- What the variable holds afterwards, where it held `old` (`none` for a
variable nothing has been stored in). -/
def Conversion.assign {α : Type*} (old : Option α) : Conversion α → Option (Option α)
  | .stores a => some (some a)
  | .fails => some old
  | .undefined => none

/-- The same for a variable that held `old`. -/
def Conversion.value {α : Type*} (old : α) : Conversion α → Option α
  | .stores a => some a
  | .fails => some old
  | .undefined => none

/-- The conversion of a numeral that `value` says the value of. -/
def convert {α : Type*} (base : ℕ) (value : Bool → ℕ → Option α) (text : List UInt8) :
    Conversion α × List UInt8 :=
  match numeral base text with
  | (none, rest) => (.fails, rest)
  | (some (minus, n), rest) => ((value minus n).elim .undefined .stores, rest)

/-- An `int`. -/
def intValue (minus : Bool) (n : ℕ) : Option ℤ :=
  let v : ℤ := if minus then -n else n
  if -2147483648 ≤ v ∧ v ≤ 2147483647 then some v else none

/-- What `strtoul` returns. -/
def unsignedLong (minus : Bool) (n : ℕ) : ℕ :=
  if 18446744073709551616 ≤ n then 18446744073709551615
  else if minus then (18446744073709551616 - n) % 18446744073709551616 else n

/-- An unsigned integer below `bound`. -/
def unsignedValue (bound : ℕ) (minus : Bool) (n : ℕ) : Option ℕ :=
  if unsignedLong minus n < bound then some (unsignedLong minus n) else none

/-- `%d`. -/
def scanInt : List UInt8 → Conversion ℤ × List UInt8 := convert 10 intValue

/-- `atoi`: 0 without digits, undefined out of range. -/
def atoi (s : List UInt8) : Option ℤ := (scanInt s).1.value 0

/-- `%x` into 32 bits. -/
def scanHex : List UInt8 → Conversion UInt32 × List UInt8 :=
  convert 16 fun minus n => (unsignedValue 4294967296 minus n).map UInt32.ofNat

/-- `%hhu`. -/
def scanByte : List UInt8 → Conversion UInt8 × List UInt8 :=
  convert 10 fun minus n => (unsignedValue 256 minus n).map UInt8.ofNat

/-- `%s`, or `%4s` with a width: the bytes up to the next white space, and no
more than the width; `none` at the end of the text. -/
def word (width : Option ℕ) (text : List UInt8) : Option (List UInt8) × List UInt8 :=
  let text := skipSpaces text
  let run := text.takeWhile (!isSpace ·)
  let taken := match width with
    | none => run
    | some n => run.take n
  (if taken = [] then none else some taken, text.drop taken.length)

/-- `%d` into a variable that holds nothing yet: `none` where it is left so. -/
def scanNew (text : List UInt8) : Option (ℤ × List UInt8) :=
  match scanInt text with
  | (.stores v, rest) => some (v, rest)
  | _ => none

/-- The same for `k` variables in a row. -/
def scanInts : ℕ → List UInt8 → Option (List ℤ × List UInt8)
  | 0, text => some ([], text)
  | k + 1, text => do
      let (v, text) ← scanNew text
      let (vs, text) ← scanInts k text
      some (v :: vs, text)

/-! ## Single bytes -/

theorem forall_byte {P : UInt8 → Prop} (h : ∀ n < 256, P (UInt8.ofNat n)) (c : UInt8) : P c := by
  have hc := h c.toNat c.toNat_lt
  rwa [UInt8.ofNat_toNat] at hc

/-- White space and signs are no digits, and in base 16 an `x` is none. -/
theorem digitValue_ge {c : UInt8} :
    (isSpace c = true ∨ c = 45 ∨ c = 43 → digitValue c = 36) ∧
      (c = 120 ∨ c = 88 → digitValue c = 33) :=
  forall_byte (P := fun c => (isSpace c = true ∨ c = 45 ∨ c = 43 → digitValue c = 36) ∧
    (c = 120 ∨ c = 88 → digitValue c = 33)) (by decide +kernel) c

theorem isSpace_eq_false {base : ℕ} {c : UInt8} (hbase : base ≤ 36) (hc : isDigit base c = true) :
    isSpace c = false ∧ c ≠ 45 ∧ c ≠ 43 := by
  have hlt : digitValue c < base := by simpa [isDigit] using hc
  have hnot : ¬ (isSpace c = true ∨ c = 45 ∨ c = 43) := fun h => by
    have hvalue := digitValue_ge.1 h
    omega
  simpa [not_or] using hnot

/-! ## Reading a numeral -/

/-- The ways to write `n` without a sign. -/
inductive Numeral (base : ℕ) : List UInt8 → ℕ → Prop where
  | plain (digits : List UInt8) : digits ≠ [] → (∀ c ∈ digits, isDigit base c = true) →
      Numeral base digits (ofDigits base digits)
  | prefixed (x : UInt8) (digits : List UInt8) : base = 16 → x = 120 ∨ x = 88 → digits ≠ [] →
      (∀ c ∈ digits, isDigit base c = true) →
      Numeral base (48 :: x :: digits) (ofDigits base digits)

theorem Numeral.ne_nil {base n : ℕ} {text : List UInt8} (h : Numeral base text n) : text ≠ [] := by
  cases h with
  | plain _ hne _ => exact hne
  | prefixed x digits => exact List.cons_ne_nil _ _

/-- What may follow a numeral: nothing that would be read as a part of it. -/
def Stops (base : ℕ) (rest : List UInt8) : Prop :=
  ∀ c ∈ rest.head?, isDigit base c = false ∧ (base = 16 → c ≠ 120 ∧ c ≠ 88)

variable {base n : ℕ} {text rest spaces digits : List UInt8}

theorem stops_of_isSpace {c : UInt8} (hbase : base ≤ 36) (hc : isSpace c = true) :
    isDigit base c = false ∧ (base = 16 → c ≠ 120 ∧ c ≠ 88) := by
  refine ⟨?_, fun _ => ⟨?_, ?_⟩⟩
  · rw [isDigit, digitValue_ge.1 (.inl hc), decide_eq_false_iff_not]
    omega
  · rintro rfl
    cases hc
  · rintro rfl
    cases hc

theorem stops_cons {c : UInt8} (h : isDigit base c = false ∧ (base = 16 → c ≠ 120 ∧ c ≠ 88))
    (rest : List UInt8) : Stops base (c :: rest) := by
  intro c' hc'
  cases hc'
  exact h

theorem stops_space {c : UInt8} (hbase : base ≤ 36) (hc : isSpace c = true) (rest : List UInt8) :
    Stops base (c :: rest) :=
  stops_cons (stops_of_isSpace hbase hc) rest

theorem skipSpaces_append (hspaces : ∀ c ∈ spaces, isSpace c = true)
    (hrest : ∀ c ∈ rest.head?, isSpace c = false) : skipSpaces (spaces ++ rest) = rest := by
  rw [skipSpaces, List.dropWhile_append_of_pos (by simpa using hspaces)]
  cases rest with
  | nil => rfl
  | cons c rest =>
      rw [List.dropWhile_cons_of_neg]
      simp [hrest c rfl]

theorem sign_of_digit {c : UInt8} (h : c ≠ 45 ∧ c ≠ 43) :
    sign (c :: text) = (false, c :: text) := by
  unfold sign
  split
  · rename_i heq
    cases heq
    exact absurd rfl h.1
  · rename_i heq
    cases heq
    exact absurd rfl h.2
  · rfl

/-- Digits are taken as far as they go. -/
theorem digits_append (hdigits : ∀ c ∈ digits, isDigit base c = true) (hrest : Stops base rest) :
    (digits ++ rest).takeWhile (isDigit base) = digits ∧
      (digits ++ rest).dropWhile (isDigit base) = rest := by
  rw [List.takeWhile_append_of_pos hdigits, List.dropWhile_append_of_pos hdigits]
  cases rest with
  | nil => simp
  | cons c rest =>
      have hc : ¬ isDigit base c = true := by simp [(hrest c rfl).1]
      rw [List.takeWhile_cons_of_neg hc, List.dropWhile_cons_of_neg hc, List.append_nil]
      exact ⟨rfl, rfl⟩

/-- Digits have no prefix: their second byte is a digit or what follows them. -/
theorem afterPrefix_digits (hdigits : ∀ c ∈ digits, isDigit base c = true)
    (hrest : Stops base rest) (hne : digits ≠ []) :
    afterPrefix base (digits ++ rest) = digits ++ rest := by
  have hx : ∀ x text, digits ++ rest = 48 :: x :: text → ¬ (base = 16 ∧ (x = 120 ∨ x = 88)) := by
    rintro x text heq ⟨hbase, hx⟩
    obtain ⟨d, digits, rfl⟩ := List.exists_cons_of_ne_nil hne
    simp only [List.cons_append, List.cons.injEq] at heq
    cases digits with
    | nil =>
        have hstop := (hrest x (by rw [← List.nil_append rest, heq.2]; rfl)).2 hbase
        exact hx.elim hstop.1 hstop.2
    | cons e digits =>
        simp only [List.cons_append, List.cons.injEq] at heq
        have hdigit := hdigits x (by simp [heq.2.1])
        rw [isDigit, digitValue_ge.2 hx, hbase] at hdigit
        exact absurd hdigit (by decide)
  unfold afterPrefix
  split
  · rename_i x text heq
    rw [if_neg (hx x text heq), heq]
  · rfl

/-- A minus sign, or none. -/
def signText (minus : Bool) : List UInt8 := if minus then [45] else []

/-- **Every way to write a number is read back**, whatever white space comes before it. -/
theorem Numeral.read (h : Numeral base text n) (hbase : base ≤ 36)
    (hspaces : ∀ c ∈ spaces, isSpace c = true) (minus : Bool) (hrest : Stops base rest) :
    numeral base (spaces ++ (signText minus ++ (text ++ rest))) = (some (minus, n), rest) := by
  have hread : ∀ text digits : List UInt8,
      (∀ c ∈ text.head?, isSpace c = false ∧ c ≠ 45 ∧ c ≠ 43) → text ≠ [] →
      afterPrefix base text = digits ++ rest → digits ≠ [] →
      (∀ c ∈ digits, isDigit base c = true) →
      numeral base (spaces ++ (signText minus ++ text))
        = (some (minus, ofDigits base digits), rest) := by
    intro text digits hhead htext hprefix hne hdigits
    obtain ⟨c, text, rfl⟩ := List.exists_cons_of_ne_nil htext
    obtain ⟨hspace, hsign⟩ := hhead c rfl
    have hskip : skipSpaces (spaces ++ (signText minus ++ c :: text))
        = signText minus ++ c :: text := by
      refine skipSpaces_append hspaces fun c' hc' => ?_
      cases minus <;> cases hc'
      · exact hspace
      · decide
    have hminus : sign (signText minus ++ c :: text) = (minus, c :: text) := by
      cases minus
      · exact sign_of_digit hsign
      · rfl
    obtain ⟨htake, hdrop⟩ := digits_append hdigits hrest
    simp only [numeral, hskip, hminus, hprefix, htake, hdrop, if_neg hne]
  cases h with
  | plain _ hne hdigits =>
      have hprefix := afterPrefix_digits hdigits hrest hne
      obtain ⟨c, digits, rfl⟩ := List.exists_cons_of_ne_nil hne
      refine hread _ _ ?_ (List.cons_ne_nil _ _) hprefix hne hdigits
      intro c' hc'
      cases hc'
      exact isSpace_eq_false hbase (hdigits c (by simp))
  | prefixed x digits hsixteen hx hne hdigits =>
      refine hread _ digits ?_ (List.cons_ne_nil _ _) (if_pos ⟨hsixteen, hx⟩) hne hdigits
      intro c hc
      cases hc
      decide

theorem convert_read {α : Type*} {value : Bool → ℕ → Option α} {a : α}
    (h : Numeral base text n) (minus : Bool) (hbase : base ≤ 36)
    (hspaces : ∀ c ∈ spaces, isSpace c = true) (hrest : Stops base rest)
    (hvalue : value minus n = some a) :
    convert base value (spaces ++ (signText minus ++ (text ++ rest))) = (.stores a, rest) := by
  simp only [convert, h.read hbase hspaces minus hrest, hvalue, Option.elim]

theorem scanInt_read {v : ℤ} (h : Numeral 10 text v.natAbs)
    (hspaces : ∀ c ∈ spaces, isSpace c = true) (hrest : Stops 10 rest)
    (hv : -2147483648 ≤ v ∧ v ≤ 2147483647) :
    scanInt (spaces ++ (signText (v < 0) ++ (text ++ rest))) = (.stores v, rest) := by
  refine convert_read h _ (by decide) hspaces hrest ?_
  have habs : (if decide (v < 0) = true then -(v.natAbs : ℤ) else v.natAbs) = v := by
    by_cases hneg : v < 0
    · rw [decide_eq_true hneg, if_pos rfl]
      omega
    · rw [decide_eq_false hneg, if_neg Bool.false_ne_true]
      omega
  simp only [intValue, habs, if_pos hv]

theorem unsignedValue_of_lt {bound : ℕ} (hn : n < bound) (hbound : bound ≤ 18446744073709551616) :
    unsignedValue bound false n = some n := by
  have hlong : unsignedLong false n = n := by
    rw [unsignedLong, if_neg (by omega), if_neg Bool.false_ne_true]
  rw [unsignedValue, hlong, if_pos hn]

theorem scanHex_read {v : UInt32} (h : Numeral 16 text v.toNat)
    (hspaces : ∀ c ∈ spaces, isSpace c = true) (hrest : Stops 16 rest) :
    scanHex (spaces ++ (text ++ rest)) = (.stores v, rest) := by
  refine convert_read h false (by decide) hspaces hrest ?_
  rw [unsignedValue_of_lt v.toNat_lt (by decide), Option.map_some, UInt32.ofNat_toNat]

theorem scanByte_read {v : UInt8} (h : Numeral 10 text v.toNat)
    (hspaces : ∀ c ∈ spaces, isSpace c = true) (hrest : Stops 10 rest) :
    scanByte (spaces ++ (text ++ rest)) = (.stores v, rest) := by
  refine convert_read h false (by decide) hspaces hrest ?_
  rw [unsignedValue_of_lt v.toNat_lt (by decide), Option.map_some, UInt8.ofNat_toNat]

/-! ## What a conversion takes -/

/-- A byte that a conversion may take. -/
def Taken (base : ℕ) (c : UInt8) : Prop :=
  isSpace c = true ∨ c = 45 ∨ c = 43 ∨ c = 48 ∨ c = 120 ∨ c = 88 ∨ isDigit base c = true

theorem sign_split (text : List UInt8) : ∃ taken, text = taken ++ (sign text).2 ∧
    ∀ c ∈ taken, c = 45 ∨ c = 43 := by
  unfold sign
  split
  · exact ⟨[45], rfl, by simp⟩
  · exact ⟨[43], rfl, by simp⟩
  · exact ⟨[], rfl, by simp⟩

theorem afterPrefix_split (base : ℕ) (text : List UInt8) :
    ∃ taken, text = taken ++ afterPrefix base text ∧ ∀ c ∈ taken, c = 48 ∨ c = 120 ∨ c = 88 := by
  unfold afterPrefix
  split
  · rename_i x text
    split
    · rename_i hx
      refine ⟨[48, x], rfl, fun c hc => ?_⟩
      simp only [List.mem_cons, List.not_mem_nil, or_false] at hc
      rcases hc with rfl | rfl
      · exact .inl rfl
      · exact .inr hx.2
    · exact ⟨[], rfl, by simp⟩
  · exact ⟨[], rfl, by simp⟩

/-- **What follows a numeral is the end of the text**, and what comes before it is
white space and the numeral's own bytes. -/
theorem numeral_split (base : ℕ) (text : List UInt8) :
    ∃ taken, text = taken ++ (numeral base text).2 ∧ ∀ c ∈ taken, Taken base c := by
  obtain ⟨signs, hsigns, hsign⟩ := sign_split (skipSpaces text)
  obtain ⟨xs, hxs, hx⟩ := afterPrefix_split base (sign (skipSpaces text)).2
  refine ⟨text.takeWhile isSpace ++ (signs ++ (xs ++ (afterPrefix base
    (sign (skipSpaces text)).2).takeWhile (isDigit base))), ?_, fun c hc => ?_⟩
  · have hspaces : text = text.takeWhile isSpace ++ skipSpaces text :=
      List.takeWhile_append_dropWhile.symm
    have hdigits : afterPrefix base (sign (skipSpaces text)).2
        = (afterPrefix base (sign (skipSpaces text)).2).takeWhile (isDigit base)
          ++ (numeral base text).2 := List.takeWhile_append_dropWhile.symm
    conv_lhs => rw [hspaces, hsigns, hxs, hdigits]
    simp only [List.append_assoc]
  · simp only [List.mem_append] at hc
    unfold Taken
    rcases hc with hc | hc | hc | hc
    · exact .inl (List.mem_takeWhile_imp hc)
    · rcases hsign c hc with rfl | rfl <;> simp
    · rcases hx c hc with rfl | rfl | rfl <;> simp
    · simp [List.mem_takeWhile_imp hc]

theorem convert_split {α : Type*} (base : ℕ) (value : Bool → ℕ → Option α) (text : List UInt8) :
    ∃ taken, text = taken ++ (convert base value text).2 ∧ ∀ c ∈ taken, Taken base c := by
  have hrest : (convert base value text).2 = (numeral base text).2 := by
    unfold convert
    split <;> (rename_i heq; rw [heq])
  rw [hrest]
  exact numeral_split base text

/-! ## Writing a numeral -/

/-- The byte of a digit. -/
def digitByte (d : ℕ) : UInt8 := UInt8.ofNat (if d < 10 then 48 + d else 55 + d)

/-- The digits of a number, and one for 0. -/
def write (base n : ℕ) : List UInt8 :=
  if n = 0 then [48] else ((Nat.digits base n).map digitByte).reverse

theorem digitValue_digitByte {d : ℕ} (hd : d < 36) : digitValue (digitByte d) = d := by
  revert d
  decide +kernel

theorem ofDigits_reverse (hbase : base ≤ 36) {ds : List ℕ} (hds : ∀ d ∈ ds, d < base) :
    ofDigits base ((ds.map digitByte).reverse) = Nat.ofDigits base ds := by
  rw [ofDigits, List.foldl_reverse]
  induction ds with
  | nil => rfl
  | cons d ds ih =>
      have hd := hds d List.mem_cons_self
      rw [List.map_cons, List.foldr_cons, ih fun d' hd' => hds d' (List.mem_cons_of_mem d hd'),
        Nat.ofDigits_cons, digitValue_digitByte (by omega)]
      omega

/-- Zeros in front are worth nothing. -/
theorem ofDigits_zeros (base zeros : ℕ) (text : List UInt8) :
    ofDigits base (List.replicate zeros 48 ++ text) = ofDigits base text := by
  have hfold : (List.replicate zeros 48).foldl (fun n c => base * n + digitValue c) 0 = 0 := by
    induction zeros with
    | zero => rfl
    | succ zeros ih =>
        rw [List.replicate_succ, List.foldl_cons, show digitValue 48 = 0 from rfl]
        exact ih
  rw [ofDigits, List.foldl_append, hfold, ← ofDigits]

theorem isDigit_write (hbase : 2 ≤ base) (hle : base ≤ 36) {c : UInt8} (hc : c ∈ write base n) :
    isDigit base c = true := by
  rw [isDigit, decide_eq_true_iff]
  rw [write] at hc
  split at hc
  · rw [List.mem_singleton.mp hc, show digitValue 48 = 0 from rfl]
    omega
  · obtain ⟨d, hd, rfl⟩ := List.mem_map.mp (List.mem_reverse.mp hc)
    have hlt := Nat.digits_lt_base (by omega) hd
    rwa [digitValue_digitByte (by omega)]

theorem ofDigits_write (hbase : 2 ≤ base) (hle : base ≤ 36) (n : ℕ) :
    ofDigits base (write base n) = n := by
  rw [write]
  split
  · rename_i hn
    rw [hn]
    rfl
  · rw [ofDigits_reverse hle fun d hd => Nat.digits_lt_base (by omega) hd, Nat.ofDigits_digits]

/-- **What is written is a numeral**, also with zeros in front. -/
theorem write_numeral (hbase : 2 ≤ base) (hle : base ≤ 36) (zeros n : ℕ) :
    Numeral base (List.replicate zeros 48 ++ write base n) n := by
  have hne : write base n ≠ [] := by
    rw [write]
    split
    · exact List.cons_ne_nil _ _
    · simpa [Nat.digits_eq_nil_iff_eq_zero] using ‹¬ n = 0›
  have hnumeral : Numeral base (List.replicate zeros 48 ++ write base n)
      (ofDigits base (List.replicate zeros 48 ++ write base n)) := by
    refine .plain _ (by simp [hne]) fun c hc => ?_
    rcases List.mem_append.mp hc with hc | hc
    · rw [(List.mem_replicate.mp hc).2, isDigit, decide_eq_true_iff]
      exact Nat.lt_of_lt_of_le Nat.zero_lt_two hbase
    · exact isDigit_write hbase hle hc
  rwa [ofDigits_zeros, ofDigits_write hbase hle] at hnumeral

/-! ## Words -/

/-- A word is read up to the next white space. -/
theorem word_read {run : List UInt8} (hspaces : ∀ c ∈ spaces, isSpace c = true) (hne : run ≠ [])
    (hrun : ∀ c ∈ run, isSpace c = false) (hrest : ∀ c ∈ rest.head?, isSpace c = true) :
    word none (spaces ++ (run ++ rest)) = (some run, rest) := by
  have hskip : skipSpaces (spaces ++ (run ++ rest)) = run ++ rest := by
    refine skipSpaces_append hspaces fun c hc => ?_
    obtain ⟨d, run, rfl⟩ := List.exists_cons_of_ne_nil hne
    cases hc
    exact hrun c List.mem_cons_self
  have htake : (run ++ rest).takeWhile (!isSpace ·) = run := by
    rw [List.takeWhile_append_of_pos fun x hx => by simp [hrun x hx]]
    cases rest with
    | nil => simp
    | cons x rest => simp [hrest x rfl]
  simp only [word, hskip, htake, if_neg hne, List.drop_left]

/-! ## Sequences of numbers -/

/-- The range of `int`. -/
def InInt (v : ℤ) : Prop := -2147483648 ≤ v ∧ v ≤ 2147483647

/-- The texts that hold `vs` and then `rest`, with white space before each number
where it is needed or not. -/
inductive Ints : List ℤ → List UInt8 → List UInt8 → Prop where
  | nil (rest : List UInt8) : Ints [] rest rest
  | cons {v : ℤ} {vs : List ℤ} {blanks digits text rest : List UInt8} :
      (∀ c ∈ blanks, isSpace c = true) → Numeral 10 digits v.natAbs → InInt v → Stops 10 text →
      Ints vs text rest → Ints (v :: vs) (blanks ++ (signText (v < 0) ++ (digits ++ text))) rest

theorem scanNew_inInt {v : ℤ} (h : scanNew text = some (v, rest)) : InInt v := by
  unfold scanNew at h
  split at h
  · rename_i hscan
    cases h
    unfold scanInt convert at hscan
    split at hscan
    · cases hscan
    · rename_i minus n _ _
      cases hvalue : intValue minus n with
      | none =>
          rw [hvalue] at hscan
          cases hscan
      | some v' =>
          rw [hvalue] at hscan
          cases hscan
          simp only [intValue, Option.ite_none_right_eq_some, Option.some.injEq] at hvalue
          obtain ⟨hrange, rfl⟩ := hvalue
          exact hrange
  · cases h

theorem Ints.scanNew {v : ℤ} {vs : List ℤ} (h : Ints (v :: vs) text rest) :
    ∃ text', Scan.scanNew text = some (v, text') ∧ Ints vs text' rest := by
  cases h with
  | cons hblanks hdigits hv hstops hrest =>
      exact ⟨_, by rw [Scan.scanNew, scanInt_read hdigits hblanks hstops hv], hrest⟩

/-- **The numbers are read back.** -/
theorem Ints.scanInts {vs : List ℤ} (h : Ints vs text rest) :
    Scan.scanInts vs.length text = some (vs, rest) := by
  induction vs generalizing text with
  | nil =>
      cases h
      rfl
  | cons v vs ih =>
      obtain ⟨text', hscan, hrest⟩ := h.scanNew
      simp only [List.length_cons, Scan.scanInts, hscan, ih hrest, Option.bind_eq_bind,
        Option.bind_some]

theorem Ints.append {vs vs' : List ℤ} {middle : List UInt8} (h : Ints vs text middle)
    (h' : Ints vs' middle rest) : Ints (vs ++ vs') text rest := by
  induction h with
  | nil => exact h'
  | cons hblanks hdigits hv hstops _ ih => exact .cons hblanks hdigits hv hstops (ih h')

theorem Ints.split {vs vs' : List ℤ} (h : Ints (vs ++ vs') text rest) :
    ∃ middle, Ints vs text middle ∧ Ints vs' middle rest := by
  induction vs generalizing text with
  | nil => exact ⟨text, .nil text, h⟩
  | cons v vs ih =>
      rw [List.cons_append] at h
      cases h with
      | cons hblanks hdigits hv hstops hrest =>
          obtain ⟨middle, hvs, hvs'⟩ := ih hrest
          exact ⟨middle, .cons hblanks hdigits hv hstops hvs, hvs'⟩

/-- A number as it is printed. -/
def writeInt (v : ℤ) : List UInt8 := signText (v < 0) ++ write 10 v.natAbs

/-- Numbers with a space in front of each. -/
def writeInts (vs : List ℤ) : List UInt8 := vs.flatMap fun v => 32 :: writeInt v

theorem ints_writeInts {vs : List ℤ} (hvs : ∀ v ∈ vs, InInt v) (hrest : Stops 10 rest) :
    Ints vs (writeInts vs ++ rest) rest := by
  induction vs with
  | nil => exact .nil rest
  | cons v vs ih =>
      have hstops : Stops 10 (writeInts vs ++ rest) := by
        cases vs with
        | nil => exact hrest
        | cons v' vs =>
            exact stops_space (by decide) (by decide) _
      have hdigits : Numeral 10 (write 10 v.natAbs) v.natAbs :=
        write_numeral (by decide) (by decide) 0 v.natAbs
      have hblank : ∀ c ∈ [(32 : UInt8)], isSpace c = true := List.all_eq_true.mp rfl
      have hcons := Ints.cons hblank hdigits (hvs v List.mem_cons_self) hstops
        (ih fun v' hv' => hvs v' (List.mem_cons_of_mem v hv'))
      simpa [writeInts, writeInt] using hcons

end Lib.Scan
