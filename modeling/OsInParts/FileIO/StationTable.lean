import Mathlib.Data.List.TakeWhile
import OsInParts.FileIO.Stations

/-!
# Station table — the table of a file's lines

The table of a file (`tabulate`) is a fold over the records of its lines, in
which names are plain lists of bytes. A table in memory shows one
(`StationData.visible`): what stands behind the terminator of a name is not
seen. `processLine` adds the record of its line to what its table shows
(`processLine_spec`). `Cut` is how a line comes off the front of a file.
-/

namespace OsInParts.FileIO

open Lib.CString Lib.Loop

variable {D : Type*} [LT D] [DecidableLT D] [Add D] [Neg D] [Zero D]

/-! ## The table of a file -/

/-- The lines of a file; a file that ends in a newline has an empty last one. -/
def lines (file : List UInt8) : List (List UInt8) := file.splitOn newline

/-- The name and the temperature on a line: what stands before and after the
first `';'` of the string. -/
def record (atof : List UInt8 → D) (line : List UInt8) : Option (List UInt8 × D) :=
  (strchr line separator).map fun i =>
    ((content line).take i, atof ((content line).drop (i + 1)))

def records (atof : List UInt8 → D) (file : List UInt8) : List (List UInt8 × D) :=
  (lines file).filterMap (record atof)

/-- A station without a record. -/
def emptyStation (dblMax : D) (name : List UInt8) : StationData D where
  name := name
  minTemp := dblMax
  maxTemp := -dblMax
  totalTemp := 0
  count := 0

/-- One record: the entry of that name is updated, or one is added while there
is room. -/
def addRecord (dblMax : D) (stations : List (StationData D)) (r : List UInt8 × D) :
    List (StationData D) :=
  match stations.findIdx? (fun station => station.name = r.1) with
  | some i => stations.modify i (·.update r.2)
  | none =>
      if stations.length < maxStations then
        stations ++ [(emptyStation dblMax r.1).update r.2]
      else stations

def tabulate (dblMax : D) (stations : List (StationData D)) (rs : List (List UInt8 × D)) :
    List (StationData D) :=
  rs.foldl (addRecord dblMax) stations

/-- Changing an entry of what a table shows. -/
theorem map_modify {α β : Type*} {f : α → α} {f' : β → β} {g : α → β}
    (h : ∀ a, g (f a) = f' (g a)) (l : List α) (i : Nat) :
    (l.modify i f).map g = (l.map g).modify i f' := by
  induction l generalizing i with
  | nil => simp
  | cons a l ih =>
      cases i with
      | zero => simp [h]
      | succ i => simp [ih i]

/-- Changing the last entry. -/
theorem modify_concat {α : Type*} (f : α → α) (l : List α) (a : α) :
    (l ++ [a]).modify l.length f = l ++ [f a] := by
  induction l with
  | nil => rfl
  | cons b l ih => simp [ih]

omit [Neg D] [Zero D] in
theorem names_modify (stations : List (StationData D)) (i : Nat) (temperature : D) :
    (stations.modify i (·.update temperature)).map StationData.name
      = stations.map StationData.name := by
  have hname : ∀ station : StationData D, (station.update temperature).name = id station.name :=
    fun _ => rfl
  rw [map_modify hname, List.modify_id]

/-- No name has two entries. -/
theorem addRecord_nodup {dblMax : D} {stations : List (StationData D)} (r : List UInt8 × D)
    (h : (stations.map StationData.name).Nodup) :
    ((addRecord dblMax stations r).map StationData.name).Nodup := by
  unfold addRecord
  split
  · rwa [names_modify]
  · split
    · rename_i hnone _
      rw [List.map_append, List.nodup_append]
      refine ⟨h, List.nodup_singleton _, ?_⟩
      rintro name hname _ hr rfl
      obtain ⟨station, hmem, rfl⟩ := List.mem_map.mp hname
      have hne := List.findIdx?_eq_none_iff.mp hnone station hmem
      rw [List.map_singleton, List.mem_singleton] at hr
      exact of_decide_eq_false hne hr
    · exact h

theorem tabulate_nodup {dblMax : D} {stations : List (StationData D)}
    (rs : List (List UInt8 × D)) (h : (stations.map StationData.name).Nodup) :
    ((tabulate dblMax stations rs).map StationData.name).Nodup := by
  induction rs generalizing stations with
  | nil => exact h
  | cons r rs ih => exact ih (addRecord_nodup r h)

/-! ## What a table in memory shows -/

/-- The entry as its readers see it. -/
def StationData.visible (station : StationData D) : StationData D :=
  { station with name := content station.name }

omit [LT D] [DecidableLT D] [Add D] [Neg D] [Zero D] in
@[simp] theorem visible_name (station : StationData D) :
    station.visible.name = content station.name := rfl

/-- Every name in the table has a terminator. -/
def Terminated (stations : List (StationData D)) : Prop :=
  ∀ name ∈ stations.map StationData.name, 0 ∈ name

omit [LT D] [DecidableLT D] [Add D] [Neg D] [Zero D] in
theorem Terminated.nil : Terminated ([] : List (StationData D)) := by
  intro name h
  cases h

section Table

variable {dblMax : D} {atof : List UInt8 → D} {stack : Stack} {stations : List (StationData D)}
  {name line : List UInt8}

omit [LT D] [DecidableLT D] [Add D] [Neg D] [Zero D] in
/-- **The search** finds the entry that shows the name. -/
theorem findStation_eq (hterm : Terminated stations) (hname : 0 ∈ name) :
    findStation name stations
      = some ((stations.map StationData.visible).findIdx? fun s => s.name = content name) := by
  induction stations with
  | nil => rfl
  | cons station stations ih =>
      obtain ⟨hstation, hstations⟩ := List.forall_mem_cons.mp hterm
      have hrest := ih hstations
      rw [findStation, strcmp_eq hstation hname, Option.bind_some, hrest, List.map_cons,
        List.findIdx?_cons, visible_name]
      have heq := order_eq_zero (zero_notMem_content station.name) (zero_notMem_content name)
      by_cases h : content station.name = content name
      · rw [if_pos (heq.mpr h), if_pos (decide_eq_true h)]
      · rw [if_neg (fun h0 => h (heq.mp h0)), if_neg (ne_true_of_eq_false (decide_eq_false h))]
        rfl

omit [LT D] [DecidableLT D] [Add D] in
/-- The new entry shows the name, whatever the array held. -/
theorem newStation_visible (dblMax : D) (hlen : (content name).length < maxNameLength - 1)
    (memory : Fin maxNameLength → UInt8) :
    (newStation dblMax memory name).visible = emptyStation dblMax (content name) ∧
      0 ∈ (newStation dblMax memory name).name := by
  obtain ⟨hcontent, hzero⟩ := content_strncpy hlen (List.ofFn memory)
  refine ⟨?_, hzero⟩
  rw [StationData.visible, newStation, hcontent]
  rfl

/-- **A record** is added to what the table shows. -/
theorem findOrAddStation_spec (dblMax : D) (stack : Stack) (hterm : Terminated stations)
    (hname : 0 ∈ name)
    (hlen : (content name).length < maxNameLength - 1) (temperature : D) :
    ∃ stations', (findOrAddStation dblMax stack stations name).map
        (updateStation temperature) = some stations' ∧ Terminated stations' ∧
      stations'.map StationData.visible
        = addRecord dblMax (stations.map StationData.visible) (content name, temperature) := by
  have hupdate : ∀ (l : List (StationData D)) i,
      (l.modify i (·.update temperature)).map StationData.visible
        = (l.map StationData.visible).modify i (·.update temperature) :=
    map_modify fun _ => rfl
  rw [findOrAddStation, findStation_eq hterm hname, Option.map_some, Option.map_some]
  refine ⟨_, rfl, ?_⟩
  unfold addRecord
  cases hfind : (stations.map StationData.visible).findIdx? fun s => s.name = content name with
  | some i =>
      refine ⟨?_, hupdate stations i⟩
      rw [updateStation, Terminated, names_modify]
      exact hterm
  | none =>
      obtain ⟨hvisible, hzero⟩ :=
        newStation_visible dblMax hlen (stack.name stations.length)
      rw [List.length_map]
      by_cases hroom : stations.length < maxStations
      · rw [if_pos hroom, if_pos hroom, updateStation]
        constructor
        · rw [Terminated, names_modify, List.map_append, List.forall_mem_append]
          exact ⟨hterm, by simpa using hzero⟩
        · rw [hupdate, List.map_append, List.map_singleton, hvisible,
            ← List.length_map StationData.visible, modify_concat]
      · rw [if_neg hroom, if_neg hroom]
        exact ⟨hterm, rfl⟩

/-- **`processLine`** adds the record of the line to what the table shows. -/
theorem processLine_spec (dblMax : D) (stack : Stack) (hterm : Terminated stations)
    (hname : ∀ r, record atof line = some r → r.1.length < maxNameLength - 1) :
    ∃ stations', processLine dblMax atof stack stations line = some stations' ∧
      Terminated stations' ∧
      stations'.map StationData.visible
        = tabulate dblMax (stations.map StationData.visible) (record atof line).toList := by
  unfold processLine
  cases hchr : strchr line separator with
  | none =>
      refine ⟨stations, rfl, hterm, ?_⟩
      rw [record, hchr]
      rfl
  | some i =>
      obtain ⟨y, hcut, -, hi⟩ := strchr_eq_some hchr
      have hlen : i < line.length := hi.trans_le (content_length_le line)
      have hcontent : content (line.set i 0) = (content line).take i :=
        content_set_zero hi.le hlen
      have hrecord : record atof line = some (content (line.set i 0),
          atof (content (line.drop (i + 1)))) := by
        rw [record, hchr, content_drop hi, hcontent]
        rfl
      have hzero : 0 ∈ line.set i 0 :=
        List.mem_iff_getElem.mpr ⟨i, by rwa [List.length_set], List.getElem_set_self _⟩
      have hdrop : (line.set i 0).drop (i + 1) = line.drop (i + 1) :=
        List.drop_set_of_lt (Nat.lt_succ_self i)
      rw [hrecord]
      dsimp only
      rw [hdrop]
      exact findOrAddStation_spec dblMax stack hterm hzero (hname _ hrecord) _

end Table

/-! ## Cutting a file into lines -/

/-- `line` is cut off a file and the second list is left: the last line, a line
with its newline, or a line without it. -/
inductive Cut : List UInt8 → List UInt8 → List UInt8 → Prop where
  | last {line} : newline ∉ line → Cut line line []
  | line {line rest} : newline ∉ line → Cut (line ++ newline :: rest) line rest
  | chunk {line rest} : newline ∉ line → Cut (line ++ newline :: rest) line (newline :: rest)

/-- A line that both buffers hold, with a name that an entry holds. -/
def Short (line : List UInt8) : Prop :=
  line.length < lineSize ∧
    (separator ∈ line → (line.takeWhile (· ≠ separator)).length < maxNameLength - 1)

section Lines

variable {atof : List UInt8 → D} {file line rest : List UInt8}

omit [LT D] [DecidableLT D] [Add D] [Neg D] [Zero D]

theorem lines_line (h : newline ∉ line) : lines line = [line] :=
  List.splitOn_eq_singleton h

theorem lines_cons (h : newline ∉ line) (rest : List UInt8) :
    lines (line ++ newline :: rest) = line :: lines rest :=
  List.splitOn_append_cons_self_of_not_mem h rest

theorem records_eq_of_lines {file rest : List UInt8} (h : lines file = line :: lines rest) :
    records atof file = (record atof line).toList ++ records atof rest := by
  rw [records, h, List.filterMap_cons]
  cases record atof line <;> rfl

/-- An empty line has no record. -/
theorem records_nil : records atof [] = [] := rfl

theorem records_newline (rest : List UInt8) :
    records atof (newline :: rest) = records atof rest :=
  records_eq_of_lines (lines_cons (List.not_mem_nil) rest)

/-- **A cut** takes one record off the file. -/
theorem Cut.records_eq (h : Cut file line rest) :
    records atof file = (record atof line).toList ++ records atof rest := by
  cases h with
  | last hline =>
      rw [records, lines_line hline, records_nil, List.append_nil, List.filterMap_cons]
      cases record atof file <;> rfl
  | line hline => exact records_eq_of_lines (lines_cons hline rest)
  | chunk hline => rw [records_newline, records_eq_of_lines (lines_cons hline _)]

theorem Cut.newline_notMem (h : Cut file line rest) : newline ∉ line := by
  cases h <;> assumption

theorem Short.nil : Short [] := ⟨by decide, fun h => by cases h⟩

/-- A cut takes one line off, and may leave an empty one. -/
theorem Cut.forall_lines {P : List UInt8 → Prop} (hnil : P []) (h : Cut file line rest) :
    (∀ l ∈ lines file, P l) ↔ P line ∧ ∀ l ∈ lines rest, P l := by
  have hempty : lines [] = [[]] := rfl
  cases h with
  | last hline => simp [lines_line hline, hempty, hnil]
  | line hline => rw [lines_cons hline, List.forall_mem_cons]
  | chunk hline =>
      rw [lines_cons hline, List.forall_mem_cons, ← List.nil_append (newline :: _),
        lines_cons List.not_mem_nil, List.forall_mem_cons]
      simp [hnil]

theorem Cut.short (h : Cut file line rest) (hshort : ∀ l ∈ lines file, Short l) :
    Short line ∧ ∀ l ∈ lines rest, Short l :=
  (h.forall_lines Short.nil).mp hshort

theorem takeWhile_of_notMem {c : UInt8} {x : List UInt8} (hx : c ∉ x) :
    x.takeWhile (· ≠ c) = x :=
  List.takeWhile_eq_self_iff.mpr fun _ hb => decide_eq_true fun h => hx (h ▸ hb)

theorem takeWhile_append_cons {c : UInt8} {x : List UInt8} (hx : c ∉ x) (y : List UInt8) :
    (x ++ c :: y).takeWhile (· ≠ c) = x := by
  have hpos : ∀ b ∈ x, decide (b ≠ c) = true := fun b hb =>
    decide_eq_true fun h => hx (h ▸ hb)
  rw [List.takeWhile_append_of_pos hpos, List.takeWhile_cons_of_neg (by simp), List.append_nil]

/-- The name on a short line fits. -/
theorem Short.name_lt (h : Short line) {r : List UInt8 × D} (hr : record atof line = some r) :
    r.1.length < maxNameLength - 1 := by
  obtain ⟨i, hchr, rfl⟩ := Option.map_eq_some_iff.mp hr
  obtain ⟨y, hcut, hnot, -⟩ := strchr_eq_some hchr
  obtain ⟨tail, heq, -⟩ := exists_content_append line
  have hline : line = (content line).take i ++ separator :: (y ++ tail) := by
    conv_lhs => rw [heq, hcut]
    simp
  have hlen := h.2 (by rw [hline]; simp)
  rw [hline, takeWhile_append_cons hnot] at hlen
  exact hlen

/-- The record of a line is read from the string on it. -/
theorem record_congr {l l' : List UInt8} (h : content l = content l') :
    record atof l = record atof l' := by
  unfold record strchr
  rw [h]

end Lines

end OsInParts.FileIO
