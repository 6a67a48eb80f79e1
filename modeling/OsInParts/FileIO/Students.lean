import OsInParts.Lib.CString
import OsInParts.Lib.Scan
import OsInParts.Lib.Words

/-!
# Students — a name looked up by the place of its record

`Hard Disk and File IO/q3.c`. `students.rec` holds one `struct Student` after the
other; the program reads the one at the place that is typed in, and never compares the
`id` that is stored there. `printf` with a name that has no terminator in its 20 bytes
reads past the structure, as it does with a `student_id` that was never stored: both are
undefined here. `read` returns the bytes that are there.
-/

namespace OsInParts.Students

open Lib.CString Lib.Scan Lib.Words

/-- `RECORD_SIZE`: the four bytes of `id`, and `name[20]`. -/
def recordSize : ℕ := 24

structure File where
  bytes : List UInt8
  /-- not a pipe -/
  seekable : Bool

/-- What is printed last. -/
inductive Outcome where
  | invalidId
  | openFailed
  | seekFailed
  | readFailed
  | studentName (name : List UInt8)
  deriving DecidableEq

/-- `printf("Student name: %s\n", student.name)`. -/
def printName (record : List UInt8) : Option Outcome :=
  if 0 ∈ record.drop 4 then some (.studentName (content (record.drop 4))) else none

def main (studentsRec : Option File) (stdin : List UInt8) : Option Outcome := do
  let (studentId, _) ← scanNew stdin
  if studentId < 1 ∨ 5 < studentId then some .invalidId
  else
    match studentsRec with
    | none => some .openFailed
    | some file =>
        let offset := (studentId - 1).toNat * recordSize
        if file.seekable then
          let record := (file.bytes.drop offset).take recordSize
          if record.length = recordSize then printName record else some .readFailed
        else some .seekFailed

/-! ## The file -/

/-- A student who fits into a record. -/
structure Student where
  id : Int32
  name : List UInt8
  zero_notMem : 0 ∉ name
  length_lt : name.length < 20

/-- The records for a student: any bytes behind the terminator. -/
def Student.Record (student : Student) (record : List UInt8) : Prop :=
  record.length = recordSize ∧
    ∃ junk, record = toBytes student.id ++ (student.name ++ 0 :: junk)

/-- A file with such records, and perhaps a part of one more. -/
def Holds (students : List Student) (bytes : List UInt8) : Prop :=
  ∃ records tail, List.Forall₂ Student.Record students records ∧ tail.length < recordSize ∧
    bytes = records.flatten ++ tail

theorem Student.Record.print {student : Student} {record : List UInt8}
    (h : student.Record record) : printName record = some (.studentName student.name) := by
  obtain ⟨-, junk, rfl⟩ := h
  have hdrop : (toBytes student.id ++ (student.name ++ 0 :: junk)).drop 4
      = student.name ++ 0 :: junk := rfl
  have hcontent : content (student.name ++ 0 :: junk) = student.name := by
    rw [content_append student.zero_notMem, content_zero, List.append_nil]
  rw [printName, hdrop, if_pos (by simp), hcontent]

/-- The bytes at the `k`-th place are the record of the `k`-th student, or too few. -/
theorem Holds.place {students : List Student} {bytes : List UInt8} (h : Holds students bytes)
    (k : ℕ) : match students[k]? with
      | some student => student.Record ((bytes.drop (k * recordSize)).take recordSize)
      | none => ((bytes.drop (k * recordSize)).take recordSize).length ≠ recordSize := by
  obtain ⟨records, tail, hrecords, htail, rfl⟩ := h
  induction hrecords generalizing k with
  | nil =>
      rw [List.getElem?_nil]
      dsimp only
      rw [List.flatten_nil, List.nil_append, List.length_take, List.length_drop]
      omega
  | @cons student record students records hrecord _ ih =>
      have hlength := hrecord.1
      cases k with
      | zero =>
          have hfirst : ((((record :: records).flatten ++ tail).drop (0 * recordSize)).take
              recordSize) = record := by
            rw [Nat.zero_mul, List.drop_zero, List.flatten_cons, List.append_assoc, ← hlength,
              List.take_left]
          rw [List.getElem?_cons_zero, hfirst]
          exact hrecord
      | succ k =>
          have hrest : ((record :: records).flatten ++ tail).drop ((k + 1) * recordSize)
              = (records.flatten ++ tail).drop (k * recordSize) := by
            rw [List.flatten_cons, List.append_assoc, Nat.succ_mul, Nat.add_comm,
              ← List.drop_drop, ← hlength, List.drop_left]
          rw [List.getElem?_cons_succ, hrest]
          exact ih k

/-- **The name of the student at the place that is typed in** is printed, whatever the
stored ids are; `read` fails where there is none. -/
theorem lookup {students : List Student} {bytes stdin rest : List UInt8} {i : ℤ}
    (h : Holds students bytes) (hi : Ints [i] stdin rest) :
    main (some { bytes := bytes, seekable := true }) stdin = some
      (if i < 1 ∨ 5 < i then .invalidId
        else (students[(i - 1).toNat]?).elim .readFailed
          fun student => .studentName student.name) := by
  obtain ⟨text, hscan, -⟩ := hi.scanNew
  have hplace := h.place (i - 1).toNat
  simp only [main, hscan, Option.bind_eq_bind, Option.bind_some, if_true]
  split
  · rfl
  · cases hstudent : students[(i - 1).toNat]? with
    | some student =>
        rw [hstudent] at hplace
        dsimp only at hplace
        rw [if_pos hplace.1, hplace.print]
        rfl
    | none =>
        rw [hstudent] at hplace
        rw [if_neg hplace]
        rfl

/-- `Bo` with the id 3. -/
def boRecord : List UInt8 := [3, 0, 0, 0, 66, 111] ++ List.replicate 18 0

/-- `Ann` with the id 7. -/
def annRecord : List UInt8 := [7, 0, 0, 0, 65, 110, 110] ++ List.replicate 17 0

/-- The file has two students, and `2` is typed. -/
theorem lookup_second :
    main (some { bytes := boRecord ++ annRecord, seekable := true }) [50, 10]
      = some (.studentName [65, 110, 110]) := by
  have hbo : Student.Record ⟨3, [66, 111], by decide, by decide⟩ boRecord :=
    ⟨rfl, List.replicate 17 0, rfl⟩
  have hann : Student.Record ⟨7, [65, 110, 110], by decide, by decide⟩ annRecord :=
    ⟨rfl, List.replicate 16 0, rfl⟩
  have hholds : Holds [⟨3, [66, 111], by decide, by decide⟩, ⟨7, [65, 110, 110], by decide,
      by decide⟩] (boRecord ++ annRecord) :=
    ⟨_, [], .cons hbo (.cons hann .nil), by decide, rfl⟩
  have hdigits : Numeral 10 [50] (2 : ℤ).natAbs := .plain [50] (by decide) (List.all_eq_true.mp rfl)
  have hrange : InInt 2 := ⟨by decide, by decide⟩
  have hstops : Stops 10 [10] := stops_space (by decide) (by decide) []
  have htyped : Ints [2] [50, 10] [10] :=
    .cons (List.forall_mem_nil _) hdigits hrange hstops (.nil [10])
  exact lookup hholds htyped

end OsInParts.Students
