import Mathlib.Algebra.Ring.Int.Defs
import Mathlib.Data.List.TakeWhile
import OsInParts.Lib.Runs

/-!
# CountWords — counting the words of a file

`Hard Disk and File IO/q5/countw.c`. What `fgetc` returns is narrowed to a
`char`, which is signed, before it is compared with `EOF`: the byte 255 ends
the loop like the end of the file does. The words counted are those that
begin before the first such byte (`countWords_toNat`), and that is all of
them exactly if that byte goes on with a word and none begins after it
(`countWords_eq_iff`).
-/

namespace OsInParts.FileIO

open Lib.Runs

/-! ## The scan -/

def eof : Int := -1

/-- `(char) i`, for a signed `char` of 8 bits. -/
def toChar (i : Int) : Int8 := Int8.ofInt i

/-- `isspace` in the C locale: space, and tab to carriage return. -/
def isspace (c : Int) : Bool := c = 32 || (9 ≤ c && c ≤ 13)

/-- The loop of `count_words`: `fgetc` returns the next byte of the file, or
`EOF`. A `count` that does not fit wraps around. -/
def countLoop (count : Int32) (inWord : Bool) : List UInt8 → Int32
  | [] => count
  | b :: file =>
      let c := toChar b.toNat
      if c.toInt = eof then count
      else if isspace c.toInt then countLoop count false file
      else if !inWord then countLoop (count + 1) true file
      else countLoop count inWord file

/-- `count_words`, the number of words of the rest of the file. -/
def countWords (file : List UInt8) : Int32 := countLoop 0 false file

/-- A byte that is ASCII white space. -/
def isSpace (b : UInt8) : Bool := isspace b.toNat

/-! ## What the narrowing does -/

/-- The end test: 255 is the one byte that looks like `EOF`. -/
theorem toChar_eq_eof (b : UInt8) : (toChar b.toNat).toInt = eof ↔ b = 255 := by
  have hall : ∀ n < 256, (toChar (UInt8.ofNat n).toNat).toInt = eof ↔ UInt8.ofNat n = 255 := by
    decide +kernel
  have hb := hall b.toNat b.toNat_lt
  rwa [UInt8.ofNat_toNat] at hb

/-- White space is ASCII, and keeps its value. -/
theorem isspace_toChar (b : UInt8) : isspace (toChar b.toNat).toInt = isSpace b := by
  have hall : ∀ n < 256,
      isspace (toChar (UInt8.ofNat n).toNat).toInt = isSpace (UInt8.ofNat n) := by
    decide +kernel
  have hb := hall b.toNat b.toNat_lt
  rwa [UInt8.ofNat_toNat] at hb

/-! ## What is counted -/

/-- The part of the file before the first byte 255. -/
def beforeEof (file : List UInt8) : List UInt8 := file.takeWhile (· ≠ 255)

theorem countLoop_eq (count : Int32) (inWord : Bool) (file : List UInt8) :
    countLoop count inWord file
      = count + Int32.ofNat (starts isSpace inWord (beforeEof file)) := by
  induction file generalizing count inWord with
  | nil => simp [countLoop, beforeEof, starts]
  | cons b file ih =>
      rw [countLoop]
      simp only [toChar_eq_eof, isspace_toChar]
      by_cases hb : b = 255
      · simp [hb, beforeEof, starts]
      · have hcons : beforeEof (b :: file) = b :: beforeEof file := by
          rw [beforeEof, List.takeWhile_cons_of_pos (by simpa using hb), beforeEof]
        rw [if_neg hb, hcons]
        cases hspace : isSpace b with
        | true => rw [if_pos rfl, ih, starts_cons_sep hspace]
        | false =>
            cases inWord with
            | true => simp [ih, starts_cons_inside hspace]
            | false =>
                rw [starts_cons_outside hspace, if_neg (by simp), if_pos (by simp), ih,
                  Int32.ofNat_add, Int32.add_assoc, Int32.add_comm 1]
                rfl

theorem countWords_eq (file : List UInt8) :
    countWords file = Int32.ofNat (runs isSpace (beforeEof file)).length := by
  rw [countWords, countLoop_eq, starts_eq_length_runs, Int32.zero_add]

/-- The words of a file: the maximal runs of bytes that are not white space. -/
def words (file : List UInt8) : List (List UInt8) := runs isSpace file

/-- Nothing is hidden by a byte 255: there is none, or the first one goes on
with a word and no word begins after it. -/
def NothingHidden (file : List UInt8) : Prop :=
  255 ∉ file ∨ ∃ before after, file = before ++ 255 :: after ∧ 255 ∉ before ∧
    (∃ b ∈ before.getLast?, isSpace b = false) ∧
    after.Pairwise fun b b' => isSpace b = true → isSpace b' = true

theorem beforeEof_of_notMem {file : List UInt8} (h : 255 ∉ file) : beforeEof file = file := by
  rw [beforeEof, List.takeWhile_eq_self_iff]
  intro b hb
  have hne : b ≠ 255 := fun heq => h (heq ▸ hb)
  simpa using hne

theorem beforeEof_split {before : List UInt8} (after : List UInt8) (h : 255 ∉ before) :
    beforeEof (before ++ 255 :: after) = before := by
  have hall : ∀ b ∈ before, decide (b ≠ 255) = true := by
    intro b hb
    have hne : b ≠ 255 := fun heq => h (heq ▸ hb)
    simpa using hne
  rw [beforeEof, List.takeWhile_append_of_pos hall, List.takeWhile_cons_of_neg (by simp),
    List.append_nil]

/-- What the rest of the file adds to the words before a byte 255. -/
theorem length_words_split (before after : List UInt8) :
    (words (before ++ 255 :: after)).length
      = (words before).length
        + starts isSpace (endsInside isSpace false before) (255 :: after) := by
  rw [words, words, ← starts_eq_length_runs, ← starts_eq_length_runs, starts_append]

theorem starts_eof_eq_zero (inside : Bool) (after : List UInt8) :
    starts isSpace inside (255 :: after) = 0 ↔
      inside = true ∧ after.Pairwise fun b b' => isSpace b = true → isSpace b' = true := by
  have hword : isSpace 255 = false := rfl
  cases inside with
  | true => rw [starts_cons_inside hword, starts_true_eq_zero, eq_self, true_and]
  | false => simp [starts_cons_outside hword]

theorem endsInside_iff (before : List UInt8) :
    endsInside isSpace false before = true ↔ ∃ b ∈ before.getLast?, isSpace b = false := by
  rw [endsInside]
  cases before.getLast? <;> simp

/-- All words begin before the first byte 255. -/
theorem words_beforeEof (file : List UInt8) :
    (words (beforeEof file)).length ≤ (words file).length ∧
      ((words (beforeEof file)).length = (words file).length ↔ NothingHidden file) := by
  by_cases hmem : 255 ∈ file
  · obtain ⟨before, after, rfl, hbefore⟩ := List.eq_append_cons_of_mem hmem
    -- the byte 255 is not white space, so it begins a word or goes on with one
    have hzero := starts_eof_eq_zero (endsInside isSpace false before) after
    rw [beforeEof_split after hbefore, length_words_split]
    refine ⟨Nat.le_add_right _ _, ?_⟩
    constructor
    · intro heq
      obtain ⟨hinside, hrest⟩ := hzero.mp (by omega)
      exact .inr ⟨before, after, rfl, hbefore, (endsInside_iff before).mp hinside, hrest⟩
    · rintro (hnone | ⟨before', after', heq, hbefore', hlast, hrest⟩)
      · exact absurd hmem hnone
      · -- the first byte 255 is the same
        have hsame : before = before' := by
          rw [← beforeEof_split after hbefore, heq, beforeEof_split after' hbefore']
        subst hsame
        obtain rfl : after = after' := by simpa using heq
        rw [hzero.mpr ⟨(endsInside_iff before).mpr hlast, hrest⟩, Nat.add_zero]
  · rw [beforeEof_of_notMem hmem]
    exact ⟨le_rfl, fun _ => .inl hmem, fun _ => rfl⟩

/-- A count of at most `n` that is returned as an `int` is `n` exactly if it is
`n` and fits. -/
theorem toInt_ofNat_eq_iff {m n : Nat} (h : m ≤ n) :
    (Int32.ofNat m).toInt = n ↔ m = n ∧ n ≤ 2147483647 := by
  rw [Int32.toInt_ofNat', Int.bmod_def, Int32.size]
  split <;> omega

/-- **The word count** of a file is right exactly if it fits an `int` and no
byte 255 hides a word. -/
theorem countWords_eq_iff (file : List UInt8) :
    (countWords file).toInt = (words file).length ↔
      (words file).length ≤ 2147483647 ∧ NothingHidden file := by
  obtain ⟨hle, hiff⟩ := words_beforeEof file
  rw [countWords_eq, ← words, toInt_ofNat_eq_iff hle, hiff, and_comm]

/-- `a`, a space, the byte 255, a space, `b`. -/
theorem countWords_stops :
    ¬ ∀ file : List UInt8, (countWords file).toInt = (words file).length := by
  intro hclaim
  have h := hclaim [97, 32, 255, 32, 98]
  revert h
  decide

end OsInParts.FileIO
