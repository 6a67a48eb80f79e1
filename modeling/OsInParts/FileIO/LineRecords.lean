import OsInParts.FileIO.Readers

/-!
# Line records — which records the lines of a file contribute

Either reader parses a sequence of buffers that the table has no part in:
`mmapLines` are the copies that `process_file_mmap` makes, `freadLines` what
`fgets` leaves in `line`. A reader is the fold of these buffers into the table
(`processFileMmap_eq`, `processFileFread_eq`), so that one line is one record
exactly when the records on the buffers are those on the lines.
-/

namespace OsInParts.FileIO

open Lib.CString Lib.Loop

variable {D : Type*} [LT D] [DecidableLT D] [Add D] [Neg D] [Zero D]

/-! ## The buffers of a file -/

/-- What a line passes to `find_or_add_station`, and its temperature. -/
def parse (atof : List UInt8 → D) (line : List UInt8) : Option (List UInt8 × D) :=
  (strchr line separator).map fun semicolon =>
    let line := line.set semicolon 0
    (line, atof (content (line.drop (semicolon + 1))))

/-- The calls of a reader, with the updates under them. -/
def processRecords (dblMax : D) (stack : Stack) (stations : List (StationData D))
    (rs : List (List UInt8 × D)) : Option (List (StationData D)) :=
  rs.foldlM (fun stations r =>
    (findOrAddStation dblMax stack stations r.1).map (updateStation r.2)) stations

/-- Every `line_copy` from an offset on; `none` where one has no room for its
line. -/
def lineCopies (stack : Stack) (fileContents : List UInt8) :
    Nat → Nat → Option (List (List UInt8))
  | 0, _ => none
  | turns + 1, line =>
      if line < fileContents.length then
        let nextLine := nextLine fileContents line
        (storeString (List.ofFn (stack.line line))
            ((fileContents.drop line).take (nextLine - line))).bind fun lineCopy =>
          (lineCopies stack fileContents turns (nextLine + 1)).map (lineCopy :: ·)
      else some []

/-- Every `line` that `fgets` reads, without its newline. -/
def bufferedLines : Nat → List UInt8 → List UInt8 → Option (List (List UInt8))
  | 0, _, _ => none
  | turns + 1, line, file =>
      match fgets line lineSize file with
      | none => some []
      | some (line, file) =>
          let line := line.set (strcspn line newline) 0
          (bufferedLines turns line file).map (line :: ·)

/-- What `process_file_mmap` parses. -/
def mmapLines (stack : Stack) (file : List UInt8) : Option (List (List UInt8)) :=
  lineCopies stack file (file.length + 1) 0

/-- What `process_file_fread` parses. -/
def freadLines (stack : Stack) (file : List UInt8) : Option (List (List UInt8)) :=
  bufferedLines (file.length + 1) (List.ofFn (stack.line 0)) file

/-! ## The readers as folds -/

section Folds

variable {dblMax : D} {atof : List UInt8 → D} {stack : Stack} {stations : List (StationData D)}

omit [LT D] [DecidableLT D] [Add D] [Neg D] [Zero D] in
/-- The record that a line shows is the one it passes on. -/
theorem record_eq_parse (atof : List UInt8 → D) (line : List UInt8) :
    record atof line = (parse atof line).map fun r => (content r.1, r.2) := by
  unfold record parse
  cases hchr : strchr line separator with
  | none => rfl
  | some i =>
      obtain ⟨-, -, -, hi⟩ := strchr_eq_some hchr
      have hlen : i < line.length := hi.trans_le (content_length_le line)
      have hdrop : (line.set i 0).drop (i + 1) = line.drop (i + 1) :=
        List.drop_set_of_lt (Nat.lt_succ_self i)
      dsimp only [Option.map_some]
      rw [content_set_zero hi.le hlen, hdrop, content_drop hi]

theorem processLine_eq (dblMax : D) (atof : List UInt8 → D) (stack : Stack)
    (stations : List (StationData D)) (line : List UInt8) :
    processLine dblMax atof stack stations line
      = processRecords dblMax stack stations (parse atof line).toList := by
  unfold processLine parse processRecords
  cases strchr line separator with
  | none => rfl
  | some i => exact (Option.bind_fun_some _).symm

theorem processRecords_append (rs rs' : List (List UInt8 × D)) :
    processRecords dblMax stack stations (rs ++ rs')
      = (processRecords dblMax stack stations rs).bind fun stations =>
          processRecords dblMax stack stations rs' :=
  List.foldlM_append

/-- The first line, then the others. -/
theorem processRecords_parse_cons (line : List UInt8) (buffers : List (List UInt8)) :
    processRecords dblMax stack stations ((line :: buffers).filterMap (parse atof))
      = (processLine dblMax atof stack stations line).bind fun stations =>
          processRecords dblMax stack stations (buffers.filterMap (parse atof)) := by
  have hcons : (line :: buffers).filterMap (parse atof)
      = (parse atof line).toList ++ buffers.filterMap (parse atof) := by
    rw [List.filterMap_cons]
    cases parse atof line <;> rfl
  rw [hcons, processRecords_append, processLine_eq]

/-- **`processFileMmap`** folds its copies into the table. -/
theorem runWhile_mmapTurn (file : List UInt8) (turns : Nat) (s : MmapState D) :
    (runWhile (fun s => s.line < file.length) (mmapTurn dblMax atof stack file) turns s).map
        MmapState.stations
      = (lineCopies stack file turns s.line).bind fun copies =>
          processRecords dblMax stack s.stations (copies.filterMap (parse atof)) := by
  induction turns generalizing s with
  | zero => rfl
  | succ turns ih =>
      rw [runWhile_succ, lineCopies]
      by_cases hline : s.line < file.length
      · rw [if_pos (decide_eq_true hline), if_pos hline, mmapTurn]
        dsimp only
        cases storeString (List.ofFn (stack.line s.line))
            ((file.drop s.line).take (nextLine file s.line - s.line)) with
        | none => rfl
        | some lineCopy =>
            have hrest := fun stations =>
              ih { line := nextLine file s.line + 1, stations := stations }
            simp only [Option.bind_some, Option.bind_map, Option.map_bind, Function.comp_def,
              hrest, processRecords_parse_cons]
            exact Option.bind_comm _ _
      · rw [if_neg (by simpa using hline), if_neg hline]
        rfl

theorem processFileMmap_eq (dblMax : D) (atof : List UInt8 → D) (stack : Stack)
    (file : List UInt8) :
    processFileMmap dblMax atof stack file
      = (mmapLines stack file).bind fun copies =>
          processRecords dblMax stack [] (copies.filterMap (parse atof)) := by
  unfold processFileMmap mmap
  cases file with
  | nil => rfl
  | cons b file => exact runWhile_mmapTurn (b :: file) _ _

/-- **`processFileFread`** folds its lines into the table. -/
theorem run_freadTurn (turns : Nat) (s : FreadState D) :
    (match run (freadTurn dblMax atof stack) turns s with
      | .exit stations => some stations
      | _ => none)
      = (bufferedLines turns s.line s.file).bind fun buffers =>
          processRecords dblMax stack s.stations (buffers.filterMap (parse atof)) := by
  induction turns generalizing s with
  | zero => rfl
  | succ turns ih =>
      rw [run, bufferedLines, freadTurn]
      cases fgets s.line lineSize s.file with
      | none => rfl
      | some next =>
          obtain ⟨line, file⟩ := next
          dsimp only
          simp only [Option.bind_map, Function.comp_def, processRecords_parse_cons]
          rw [Option.bind_comm]
          cases processLine dblMax atof stack s.stations (line.set (strcspn line newline) 0) with
          | none => rfl
          | some stations => exact ih _

theorem processFileFread_eq (dblMax : D) (atof : List UInt8 → D) (stack : Stack)
    (file : List UInt8) :
    processFileFread dblMax atof stack file
      = (freadLines stack file).bind fun buffers =>
          processRecords dblMax stack [] (buffers.filterMap (parse atof)) :=
  run_freadTurn _ _

end Folds

/-! ## One line, one record -/

section Lines

omit [LT D] [DecidableLT D] [Add D] [Neg D] [Zero D]

/-- The record of a line: the text before its first `';'` and the number behind
it. -/
def lineRecord (atof : List UInt8 → D) (line : List UInt8) : Option (List UInt8 × D) :=
  if separator ∈ line then
    some (line.takeWhile (· ≠ separator),
      atof (content ((line.dropWhile (· ≠ separator)).drop 1)))
  else none

/-- Every line contributes its record to either reader, and no buffer is
overrun. -/
structure OneRecordEach (atof : List UInt8 → D) (stack : Stack) (file : List UInt8) : Prop where
  mmap : ∃ copies, mmapLines stack file = some copies ∧
    (∀ lineCopy ∈ copies, lineCopy.length = lineSize) ∧
    (copies.filterMap (parse atof)).map (fun r => (content r.1, r.2))
      = (lines file).filterMap (lineRecord atof)
  fread : ∃ buffers, freadLines stack file = some buffers ∧
    (∀ line ∈ buffers, line.length = lineSize) ∧
    (buffers.filterMap (parse atof)).map (fun r => (content r.1, r.2))
      = (lines file).filterMap (lineRecord atof)

variable {atof : List UInt8 → D} {stack : Stack} {file line : List UInt8}

/-- No NUL byte stands before the `';'` of the line. -/
def NameUncut (line : List UInt8) : Prop :=
  separator ∈ line → 0 ∉ line.takeWhile (· ≠ separator)

theorem lineRecord_append {name : List UInt8} (hname : separator ∉ name) (rest : List UInt8) :
    lineRecord atof (name ++ separator :: rest) = some (name, atof (content rest)) := by
  have hdrop : (name ++ separator :: rest).dropWhile (· ≠ separator) = separator :: rest := by
    have happ := List.takeWhile_append_dropWhile (p := (· ≠ separator))
      (l := name ++ separator :: rest)
    rw [takeWhile_append_cons hname] at happ
    exact List.append_cancel_left happ
  rw [lineRecord, if_pos (by simp), takeWhile_append_cons hname, hdrop]
  rfl

/-- `strchr` finds the first `';'` of a line unless a NUL byte hides it. -/
theorem record_eq_lineRecord (h : NameUncut line) : record atof line = lineRecord atof line := by
  by_cases hmem : separator ∈ line
  · obtain ⟨name, rest, rfl, hname⟩ := List.eq_append_cons_of_mem hmem
    have hzero : 0 ∉ name := by
      have := h hmem
      rwa [takeWhile_append_cons hname] at this
    have hsep : separator ≠ 0 := by decide
    rw [lineRecord_append hname, record, strchr_append hzero hsep hname, content_append hzero,
      content_cons hsep, Option.map_some, List.take_left]
    have hdrop : (name ++ separator :: content rest).drop (name.length + 1) = content rest := by
      simp [List.drop_append]
    rw [hdrop]
  · have hnone : strchr line separator = none :=
      List.idxOf?_eq_none_iff.mpr fun h => hmem ((List.takeWhile_sublist _).mem h)
    rw [record, hnone, lineRecord, if_neg hmem]
    rfl

theorem record_of_not_nameUncut (atof : List UInt8 → D) (h : ¬ NameUncut line) :
    record atof line = none ∧ lineRecord atof line ≠ none := by
  obtain ⟨hmem, hzero⟩ := Classical.not_imp.mp h
  obtain ⟨name, rest, rfl, hname⟩ := List.eq_append_cons_of_mem hmem
  rw [takeWhile_append_cons hname, not_not] at hzero
  rw [lineRecord_append hname]
  refine ⟨?_, Option.some_ne_none _⟩
  have hcontent : content (name ++ separator :: rest) = content name :=
    content_append_of_mem hzero _
  have hnone : strchr (name ++ separator :: rest) separator = none := by
    rw [strchr, hcontent]
    exact List.idxOf?_eq_none_iff.mpr fun h => hname ((List.takeWhile_sublist _).mem h)
  rw [record, hnone]
  rfl

section FilterMap

variable {α β : Type*} {f g : α → Option β} {l : List α}

/-- A result that is the other one or is missing. -/
theorem filterMap_sublist (h : ∀ a ∈ l, f a = none ∨ f a = g a) :
    (l.filterMap f).Sublist (l.filterMap g) := by
  induction l with
  | nil => exact List.Sublist.refl _
  | cons a l ih =>
      obtain ⟨ha, hl⟩ := List.forall_mem_cons.mp h
      rw [List.filterMap_cons, List.filterMap_cons]
      rcases ha with hnone | heq
      · rw [hnone]
        cases g a with
        | none => exact ih hl
        | some b => exact (ih hl).cons b
      · rw [heq]
        cases g a with
        | none => exact ih hl
        | some b => exact (ih hl).cons_cons b

/-- Where one is missing, the list is shorter. -/
theorem filterMap_eq_iff (h : ∀ a ∈ l, f a = none ∨ f a = g a) :
    l.filterMap f = l.filterMap g ↔ ∀ a ∈ l, f a = g a := by
  refine ⟨fun heq => ?_, List.filterMap_congr⟩
  induction l with
  | nil => exact fun a ha => by cases ha
  | cons a l ih =>
      obtain ⟨ha, hl⟩ := List.forall_mem_cons.mp h
      rw [List.filterMap_cons, List.filterMap_cons] at heq
      rw [List.forall_mem_cons]
      cases hf : f a with
      | some b =>
          have hg := ha.resolve_left (by simp [hf])
          rw [hf] at hg heq
          rw [← hg, List.cons.injEq] at heq
          exact ⟨hg, ih hl heq.2⟩
      | none =>
          rw [hf] at heq
          cases hg : g a with
          | none =>
              rw [hg] at heq
              exact ⟨rfl, ih hl heq⟩
          | some b =>
              rw [hg] at heq
              dsimp only at heq
              have hle := (filterMap_sublist hl).length_le
              have hlen := congrArg List.length heq
              rw [List.length_cons] at hlen
              omega

end FilterMap

/-- **One record each**, as far as `strchr` sees them. -/
theorem records_eq_iff (atof : List UInt8 → D) (file : List UInt8) :
    records atof file = (lines file).filterMap (lineRecord atof)
      ↔ ∀ line ∈ lines file, NameUncut line := by
  have hmissed : ∀ line ∈ lines file,
      record atof line = none ∨ record atof line = lineRecord atof line := by
    intro line _
    by_cases h : NameUncut line
    · exact .inr (record_eq_lineRecord h)
    · exact .inl (record_of_not_nameUncut atof h).1
  refine (filterMap_eq_iff hmissed).trans (forall₂_congr fun line _ => ?_)
  refine ⟨fun heq => ?_, record_eq_lineRecord⟩
  by_contra h
  obtain ⟨hnone, hsome⟩ := record_of_not_nameUncut atof h
  exact hsome (heq ▸ hnone)

theorem map_filterMap_parse (atof : List UInt8 → D) (buffers : List (List UInt8)) :
    (buffers.filterMap (parse atof)).map (fun r => (content r.1, r.2))
      = buffers.filterMap (record atof) := by
  rw [List.map_filterMap]
  exact List.filterMap_congr fun line _ => (record_eq_parse atof line).symm

/-! ### `process_file_mmap` -/

/-- Copies that are made hold their lines, and show the records of the file. -/
theorem lineCopies_eq_some (atof : List UInt8 → D) {turns line : Nat}
    {copies : List (List UInt8)} (h : lineCopies stack file turns line = some copies) :
    (∀ l ∈ lines (file.drop line), l.length < lineSize) ∧
      (∀ lineCopy ∈ copies, lineCopy.length = lineSize) ∧
      copies.filterMap (record atof) = records atof (file.drop line) := by
  induction turns generalizing line copies with
  | zero => cases h
  | succ turns ih =>
      rw [lineCopies] at h
      by_cases hline : line < file.length
      · rw [if_pos hline] at h
        obtain ⟨lineCopy, hstore, hrest⟩ := Option.bind_eq_some_iff.mp h
        obtain ⟨copies', hcopies, rfl⟩ := Option.map_eq_some_iff.mp hrest
        obtain ⟨hroom, hlen, hcontent⟩ := storeString_eq_some hstore
        rw [List.length_ofFn] at hroom hlen
        obtain ⟨hshort, hlens, hrecords⟩ := ih hcopies
        obtain ⟨-, hcut⟩ := nextLine_cut hline
        refine ⟨(hcut.forall_lines (by decide)).mpr ⟨hroom, hshort⟩,
          List.forall_mem_cons.mpr ⟨hlen, hlens⟩, ?_⟩
        rw [hcut.records_eq, ← hrecords, List.filterMap_cons, record_congr hcontent]
        cases record atof ((file.drop line).take (nextLine file line - line)) <;> rfl
      · rw [if_neg hline, Option.some.injEq] at h
        subst h
        rw [List.drop_of_length_le (Nat.not_lt.mp hline)]
        exact ⟨by decide, List.forall_mem_nil _, rfl⟩

theorem lineCopies_total (stack : Stack) (line : Nat) {turns : Nat}
    (hturns : file.length - line < turns)
    (hshort : ∀ l ∈ lines (file.drop line), l.length < lineSize) :
    ∃ copies, lineCopies stack file turns line = some copies := by
  induction turns generalizing line with
  | zero => cases hturns
  | succ turns ih =>
      rw [lineCopies]
      by_cases hline : line < file.length
      · obtain ⟨hle, hcut⟩ := nextLine_cut hline
        obtain ⟨hroom, hrest⟩ := (hcut.forall_lines (by decide)).mp hshort
        obtain ⟨copies, hcopies⟩ := ih _ (by omega) hrest
        rw [← List.length_ofFn (f := stack.line line)] at hroom
        obtain ⟨lineCopy, hstore, -⟩ := storeString_eq hroom
        rw [if_pos hline]
        dsimp only
        rw [hstore, Option.bind_some, hcopies]
        exact ⟨_, rfl⟩
      · rw [if_neg hline]
        exact ⟨_, rfl⟩

/-! ### `process_file_fread` -/

/-- The loop ends, and no line leaves the buffer. -/
theorem bufferedLines_total {turns : Nat} (hturns : file.length < turns)
    (hline : line.length = lineSize) :
    ∃ buffers, bufferedLines turns line file = some buffers ∧
      ∀ buffer ∈ buffers, buffer.length = lineSize := by
  induction turns generalizing line file with
  | zero => cases hturns
  | succ turns ih =>
      rw [bufferedLines]
      by_cases hfile : file = []
      · subst hfile
        exact ⟨[], rfl, List.forall_mem_nil _⟩
      · obtain ⟨s, hfgets, hlen, -, hlt⟩ :=
          fgets_eq_some (by decide : 1 < lineSize) hfile hline
        have hset : (s.set (strcspn s newline) 0).length = lineSize := by
          rw [List.length_set, hlen]
        obtain ⟨buffers, hbuffers, hlens⟩ := ih (hlt.trans_le (Nat.le_of_lt_succ hturns)) hset
        rw [hfgets]
        dsimp only
        rw [hbuffers]
        exact ⟨_, rfl, List.forall_mem_cons.mpr ⟨hset, hlens⟩⟩

/-- Lines that fit into the buffer show the records of the file. -/
theorem bufferedLines_records (atof : List UInt8 → D) {turns : Nat}
    {buffers : List (List UInt8)} (hline : line.length = lineSize)
    (hshort : ∀ l ∈ lines file, l.length < lineSize)
    (h : bufferedLines turns line file = some buffers) :
    buffers.filterMap (record atof) = records atof file := by
  induction turns generalizing line file buffers with
  | zero => cases h
  | succ turns ih =>
      rw [bufferedLines] at h
      by_cases hfile : file = []
      · subst hfile
        cases h
        rfl
      · obtain ⟨s, hfgets, hlen, -, -⟩ :=
          fgets_eq_some (by decide : 1 < lineSize) hfile hline
        obtain ⟨s', rest, l, hfgets', hcut, hcontent⟩ := freadLine_cut hline hfile hshort
        rw [hfgets, Option.some.injEq, Prod.mk.injEq] at hfgets'
        obtain ⟨rfl, rfl⟩ := hfgets'
        rw [hfgets] at h
        obtain ⟨buffers', hbuffers, rfl⟩ := Option.map_eq_some_iff.mp h
        have hrest := ih (by rw [List.length_set, hlen])
          ((hcut.forall_lines (by decide)).mp hshort).2 hbuffers
        rw [hcut.records_eq, ← hrest, List.filterMap_cons, record_congr hcontent]
        cases record atof l <;> rfl

/-! ### Both readers -/

/-- Two lists of records, one seen through the buffers. -/
theorem parsed_eq_iff (atof : List UInt8 → D) {buffers : List (List UInt8)}
    (h : buffers.filterMap (record atof) = records atof file) :
    (buffers.filterMap (parse atof)).map (fun r => (content r.1, r.2))
        = (lines file).filterMap (lineRecord atof)
      ↔ ∀ line ∈ lines file, NameUncut line := by
  rw [map_filterMap_parse, h, records_eq_iff]

theorem OneRecordEach.fits (h : OneRecordEach atof stack file) :
    ∀ line ∈ lines file, line.length < lineSize ∧ NameUncut line := by
  obtain ⟨copies, hcopies, -, hrecords⟩ := h.mmap
  obtain ⟨hshort, -, heq⟩ := lineCopies_eq_some atof hcopies
  have huncut := (parsed_eq_iff atof heq).mp hrecords
  exact fun line hline => ⟨hshort line hline, huncut line hline⟩

theorem OneRecordEach.of_fits (atof : List UInt8 → D) (stack : Stack)
    (h : ∀ line ∈ lines file, line.length < lineSize ∧ NameUncut line) :
    OneRecordEach atof stack file := by
  have hshort : ∀ line ∈ lines file, line.length < lineSize := fun line hline => (h line hline).1
  have huncut : ∀ line ∈ lines file, NameUncut line := fun line hline => (h line hline).2
  constructor
  · obtain ⟨copies, hcopies⟩ :=
      lineCopies_total stack 0 (Nat.lt_succ_of_le (Nat.sub_le _ _)) hshort
    obtain ⟨-, hlens, heq⟩ := lineCopies_eq_some atof hcopies
    exact ⟨copies, hcopies, hlens, (parsed_eq_iff atof heq).mpr huncut⟩
  · have hbuffer : (List.ofFn (stack.line 0)).length = lineSize := List.length_ofFn
    obtain ⟨buffers, hbuffers, hlens⟩ :=
      bufferedLines_total (Nat.lt_succ_self file.length) hbuffer
    have heq := bufferedLines_records atof hbuffer hshort hbuffers
    exact ⟨buffers, hbuffers, hlens, (parsed_eq_iff atof heq).mpr huncut⟩

end Lines

omit [LT D] [DecidableLT D] [Add D] [Neg D] [Zero D] in
/-- **One line, one record**: both readers take every line of a file for one
record, in the buffers they have, exactly when a buffer holds each line and no
NUL byte hides a `';'`. -/
theorem oneRecordEach_iff (atof : List UInt8 → D) (stack : Stack) (file : List UInt8) :
    OneRecordEach atof stack file ↔
      ∀ line ∈ lines file, line.length ≤ 119 ∧
        (separator ∈ line → 0 ∉ line.takeWhile (· ≠ separator)) := by
  have hsize : ∀ n, n < lineSize ↔ n ≤ 119 := fun n => Nat.lt_succ_iff
  refine ⟨fun h line hline => ?_, fun h => OneRecordEach.of_fits atof stack fun line hline => ?_⟩
  · obtain ⟨hlen, huncut⟩ := h.fits line hline
    exact ⟨(hsize _).mp hlen, huncut⟩
  · obtain ⟨hlen, huncut⟩ := h line hline
    exact ⟨(hsize _).mpr hlen, huncut⟩

/-- A name of 120 bytes: the line does not fit into `line_copy`. -/
theorem not_oneRecordEach : ¬ ∀ (atof : List UInt8 → Int) (stack : Stack) (file : List UInt8),
    OneRecordEach atof stack file := by
  intro h
  have hnewline : newline ∉ List.replicate 120 (97 : UInt8) ++ [59, 49] := by
    rw [List.mem_append, not_or, List.mem_replicate]
    decide
  have hline := (h decimal ⟨fun _ _ => 0, fun _ _ => 0⟩ _).fits
    (List.replicate 120 97 ++ [59, 49]) (lines_line hnewline ▸ List.mem_singleton_self _)
  exact absurd hline.1 (by simp [lineSize, maxNameLength])

end OsInParts.FileIO
