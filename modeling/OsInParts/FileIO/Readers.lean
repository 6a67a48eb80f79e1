import Mathlib.Algebra.Ring.Int.Defs
import OsInParts.FileIO.StationTable

/-!
# Readers — both ways of reading a file build the same table

`Reading` is what holds at the head of either loop: the table in memory will
show what the whole file says once the records of the bytes that are left are
added. `memchr` and `fgets` both cut a line off these bytes (`nextLine_cut`,
`fgets_cut`); `fgets` may leave its newline for the next turn, which then sees
an empty line. Two tables that show the same are reported alike, whatever
order `qsort` goes through.
-/

namespace OsInParts.FileIO

open Lib.CString Lib.Loop

variable {D : Type*} [LT D] [DecidableLT D] [Add D] [Neg D] [Zero D]

/-! ## The loop invariant -/

section Readers

variable {dblMax : D} {atof : List UInt8 → D} {stack : Stack} {file : List UInt8}

/-- A table in memory, with `rest` of the file still to come, that will show
what the whole file says. -/
structure Reading (dblMax : D) (atof : List UInt8 → D) (file rest : List UInt8)
    (stations : List (StationData D)) : Prop where
  terminated : Terminated stations
  short : ∀ line ∈ lines rest, Short line
  tabulated : tabulate dblMax (stations.map StationData.visible) (records atof rest)
    = tabulate dblMax [] (records atof file)

/-- **One line**: whatever buffer it stands in, its record is added. -/
theorem Reading.processLine {rest line rest' buffer : List UInt8}
    {stations : List (StationData D)} (stack : Stack) (h : Reading dblMax atof file rest stations)
    (hcut : Cut rest line rest') (hbuffer : content buffer = content line) :
    ∃ stations', processLine dblMax atof stack stations buffer = some stations' ∧
      Reading dblMax atof file rest' stations' := by
  obtain ⟨hline, hrest⟩ := hcut.short h.short
  have hrecord : record atof buffer = record atof line := record_congr hbuffer
  obtain ⟨stations', hs, hterm, hvisible⟩ := processLine_spec dblMax stack h.terminated
    fun r hr => hline.name_lt (hrecord ▸ hr)
  refine ⟨stations', hs, hterm, hrest, ?_⟩
  rw [hvisible, hrecord, ← h.tabulated, hcut.records_eq, tabulate, tabulate, tabulate,
    List.foldl_append]

/-- What the table shows when nothing is left. -/
theorem Reading.done {stations : List (StationData D)}
    (h : Reading dblMax atof file [] stations) :
    Terminated stations ∧
      stations.map StationData.visible = tabulate dblMax [] (records atof file) :=
  ⟨h.terminated, h.tabulated⟩

theorem Reading.start (hshort : ∀ line ∈ lines file, Short line) :
    Reading dblMax atof file file [] :=
  ⟨Terminated.nil, hshort, rfl⟩

/-! ## `processFileMmap` -/

/-- `memchr` cuts off a line. -/
theorem nextLine_cut {line : Nat} (h : line < file.length) :
    line ≤ nextLine file line ∧
      Cut (file.drop line) ((file.drop line).take (nextLine file line - line))
        (file.drop (nextLine file line + 1)) := by
  unfold nextLine
  cases hchr : memchr (file.drop line) newline (file.length - line) with
  | none =>
      rw [memchr_eq_none, ← List.length_drop, List.take_length] at hchr
      refine ⟨h.le, ?_⟩
      rw [← List.length_drop, List.take_length, List.drop_of_length_le (Nat.le_succ _)]
      exact .last hchr
  | some k =>
      obtain ⟨-, heq, hnot⟩ := memchr_eq_some hchr
      rw [List.drop_drop] at heq
      refine ⟨Nat.le_add_right _ _, ?_⟩
      dsimp only
      rw [Nat.add_sub_cancel_left, Nat.add_assoc]
      have hcut : Cut ((file.drop line).take k ++ newline :: file.drop (line + (k + 1)))
          ((file.drop line).take k) (file.drop (line + (k + 1))) := .line hnot
      rwa [← heq] at hcut

theorem storeString_eq {buffer bytes : List UInt8} (h : bytes.length < buffer.length) :
    ∃ s, storeString buffer bytes = some s ∧ content s = content bytes :=
  ⟨_, if_pos h, content_append_zero _ _⟩

/-- One turn of `processFileMmap`. -/
theorem mmapTurn_spec {s : MmapState D} (hs : s.line < file.length)
    (h : Reading dblMax atof file (file.drop s.line) s.stations) :
    ∃ s', mmapTurn dblMax atof stack file s = some s' ∧
      Reading dblMax atof file (file.drop s'.line) s'.stations ∧ s.line < s'.line := by
  obtain ⟨hle, hcut⟩ := nextLine_cut hs
  have hroom : ((file.drop s.line).take (nextLine file s.line - s.line)).length
      < (List.ofFn (stack.line s.line)).length := by
    rw [List.length_ofFn]
    exact (hcut.short h.short).1.1
  obtain ⟨lineCopy, hstore, hcontent⟩ := storeString_eq hroom
  obtain ⟨stations', hprocess, hreading⟩ := h.processLine stack hcut hcontent
  refine ⟨{ line := nextLine file s.line + 1, stations := stations' }, ?_, hreading,
    Nat.lt_succ_of_le hle⟩
  rw [mmapTurn, hstore, Option.bind_some, hprocess, Option.map_some]

/-- **`processFileMmap`** builds the table of the file. -/
theorem processFileMmap_spec (dblMax : D) (atof : List UInt8 → D) (stack : Stack)
    (hshort : ∀ line ∈ lines file, Short line) :
    ∃ stations, processFileMmap dblMax atof stack file = some stations ∧
      Terminated stations ∧
      stations.map StationData.visible = tabulate dblMax [] (records atof file) := by
  unfold processFileMmap mmap
  by_cases hempty : file.isEmpty
  · obtain rfl := List.isEmpty_iff.mp hempty
    exact ⟨[], rfl, Terminated.nil, rfl⟩
  · rw [if_neg hempty]
    obtain ⟨s, hrun, hreading, hend⟩ := runWhile_spec (c := fun s => s.line < file.length)
      (f := mmapTurn dblMax atof stack file)
      (fun s => Reading dblMax atof file (file.drop s.line) s.stations)
      (fun s => file.length - s.line)
      (fun s h hs => by
        rw [decide_eq_true_eq] at hs
        obtain ⟨s', hturn, hreading, hlt⟩ := mmapTurn_spec hs h
        exact ⟨s', hturn, hreading, by omega⟩)
      (s := { line := 0, stations := [] }) (Reading.start hshort) (file.length + 1)
      (Nat.lt_succ_of_le (Nat.sub_le _ _))
    refine ⟨s.stations, by dsimp only; rw [hrun]; rfl, ?_⟩
    rw [List.drop_of_length_le (Nat.le_of_not_lt (of_decide_eq_false hend))] at hreading
    exact hreading.done

/-! ## `processFileFread` -/

/-- The first line of a file. -/
theorem takeWhile_mem_lines (file : List UInt8) : file.takeWhile (· ≠ newline) ∈ lines file := by
  cases hchr : memchr file newline file.length with
  | none =>
      rw [memchr_eq_none, List.take_length] at hchr
      rw [lines_line hchr, takeWhile_of_notMem hchr]
      exact List.mem_singleton_self _
  | some k =>
      obtain ⟨-, heq, hnot⟩ := memchr_eq_some hchr
      rw [heq, takeWhile_append_cons hnot, lines_cons hnot]
      exact List.mem_cons_self

/-- **`fgets`** cuts off a line, with its newline if the newline has room. -/
theorem fgets_cut (hshort : ∀ line ∈ lines file, line.length < lineSize) :
    ∃ line, Cut file line (file.drop (fgetsCount lineSize file)) ∧
      (file.take (fgetsCount lineSize file) = line ∨
        file.take (fgetsCount lineSize file) = line ++ [newline]) := by
  cases hchr : memchr file newline (lineSize - 1) with
  | some k =>
      have hcount : fgetsCount lineSize file = k + 1 := by rw [fgetsCount, hchr]
      obtain ⟨hk, heq, hnot⟩ := memchr_eq_some hchr
      have hcut : Cut (file.take k ++ newline :: file.drop (k + 1)) (file.take k)
          (file.drop (k + 1)) := .line hnot
      rw [← heq] at hcut
      have htake : file.take (k + 1) = file.take k ++ [newline] := by
        conv_lhs => rw [heq]
        rw [List.take_append, List.length_take, Nat.min_eq_left hk.le, Nat.add_sub_cancel_left,
          List.take_take, Nat.min_eq_right (Nat.le_succ k)]
        rfl
      rw [hcount]
      exact ⟨file.take k, hcut, .inr htake⟩
  | none =>
      have hcount : fgetsCount lineSize file = min (lineSize - 1) file.length := by
        rw [fgetsCount, hchr]
      rw [memchr_eq_none] at hchr
      rw [hcount]
      rcases Nat.lt_or_ge (lineSize - 1) file.length with hlt | hle
      · -- the newline of the line has no room
        rw [Nat.min_eq_left hlt.le]
        refine ⟨file.take (lineSize - 1), ?_, .inl rfl⟩
        have hcons : file.drop (lineSize - 1)
            = file[lineSize - 1] :: file.drop (lineSize - 1 + 1) :=
          List.drop_eq_getElem_cons hlt
        have heq : file = file.take (lineSize - 1)
            ++ file[lineSize - 1] :: file.drop (lineSize - 1 + 1) := by
          rw [← hcons, List.take_append_drop]
        have hnewline : file[lineSize - 1] = newline := by
          by_contra hne
          have hfirst := hshort _ (takeWhile_mem_lines file)
          have hpos : ∀ b ∈ file.take (lineSize - 1), decide (b ≠ newline) = true := fun b hb =>
            decide_eq_true fun h => hchr (h ▸ hb)
          rw [heq, List.takeWhile_append_of_pos hpos,
            List.takeWhile_cons, if_pos (decide_eq_true hne), List.length_append,
            List.length_take, List.length_cons] at hfirst
          omega
        have hcut : Cut (file.take (lineSize - 1) ++ newline :: file.drop (lineSize - 1 + 1))
            (file.take (lineSize - 1)) (newline :: file.drop (lineSize - 1 + 1)) :=
          .chunk hchr
        rw [hnewline] at hcons heq
        rwa [← hcons, List.take_append_drop] at hcut
      · rw [Nat.min_eq_right hle, List.drop_length, List.take_length]
        rw [List.take_of_length_le hle] at hchr
        exact ⟨file, .last hchr, .inl rfl⟩

/-- What `strcspn` leaves of a line with its newline, or without. -/
theorem content_chunk {line chunk : List UInt8} (hline : newline ∉ line)
    (hchunk : chunk = line ∨ chunk = line ++ [newline]) :
    (content chunk).takeWhile (· ≠ newline) = content line := by
  have hcontent : newline ∉ content line := fun h => hline ((List.takeWhile_sublist _).mem h)
  rcases hchunk with rfl | rfl
  · exact takeWhile_of_notMem hcontent
  · by_cases hzero : 0 ∈ line
    · rw [content_append_of_mem hzero, takeWhile_of_notMem hcontent]
    · rw [content_append hzero, content_of_notMem hzero]
      exact takeWhile_append_cons hline _

/-- **The buffer** after `fgets` and `strcspn` shows the line that is cut off. -/
theorem freadLine_cut {buffer : List UInt8} (hbuffer : buffer.length = lineSize)
    (hfile : file ≠ []) (hshort : ∀ line ∈ lines file, line.length < lineSize) :
    ∃ s rest line, fgets buffer lineSize file = some (s, rest) ∧ Cut file line rest ∧
      content (s.set (strcspn s newline) 0) = content line := by
  obtain ⟨line, hcut, hchunk⟩ := fgets_cut hshort
  obtain ⟨s, hfgets, -, hzero, -⟩ := fgets_eq_some (by decide : 1 < lineSize) hfile hbuffer
  refine ⟨s, _, line, hfgets, hcut, ?_⟩
  rw [fgets, if_neg (by simpa using hfile), Option.some.injEq, Prod.mk.injEq] at hfgets
  rw [content_set_strcspn hzero, ← hfgets.1, content_append_zero,
    content_chunk hcut.newline_notMem hchunk]

/-- One turn of `processFileFread`. -/
theorem freadTurn_spec (stack : Stack) {s : FreadState D} (hbuffer : s.line.length = lineSize)
    (h : Reading dblMax atof file s.file s.stations) :
    (∃ s', freadTurn dblMax atof stack s = .again s' ∧ (s'.line.length = lineSize ∧
      Reading dblMax atof file s'.file s'.stations) ∧ s'.file.length < s.file.length) ∨
    ∃ stations, freadTurn dblMax atof stack s = .exit stations ∧ Terminated stations ∧
      stations.map StationData.visible = tabulate dblMax [] (records atof file) := by
  by_cases hfile : s.file = []
  · right
    rw [hfile] at h
    exact ⟨s.stations, by rw [freadTurn, fgets, hfile]; rfl, h.done⟩
  · left
    obtain ⟨s', hfgets, hlen, -, hlt⟩ :=
      fgets_eq_some (by decide : 1 < lineSize) hfile hbuffer
    obtain ⟨s'', rest, line, hfgets', hcut, hcontent⟩ :=
      freadLine_cut hbuffer hfile fun l hl => (h.short l hl).1
    rw [hfgets, Option.some.injEq, Prod.mk.injEq] at hfgets'
    obtain ⟨rfl, rfl⟩ := hfgets'
    obtain ⟨stations', hprocess, hreading⟩ := h.processLine stack hcut hcontent
    refine ⟨⟨_, s'.set (strcspn s' newline) 0, stations'⟩, ?_, ⟨?_, hreading⟩, hlt⟩
    · rw [freadTurn, hfgets]
      dsimp only
      rw [hprocess]
    · rw [List.length_set, hlen]

/-- **`processFileFread`** builds the table of the file. -/
theorem processFileFread_spec (dblMax : D) (atof : List UInt8 → D) (stack : Stack)
    (hshort : ∀ line ∈ lines file, Short line) :
    ∃ stations, processFileFread dblMax atof stack file = some stations ∧
      Terminated stations ∧
      stations.map StationData.visible = tabulate dblMax [] (records atof file) := by
  obtain ⟨stations, hrun, hstations⟩ := returns_of_variant
    (fun s : FreadState D => s.line.length = lineSize ∧
      Reading dblMax atof file s.file s.stations)
    (fun stations => Terminated stations ∧
      stations.map StationData.visible = tabulate dblMax [] (records atof file))
    (fun s => s.file.length) (fun s h => freadTurn_spec stack h.1 h.2)
    (s := { file := file, line := List.ofFn (stack.line 0), stations := [] })
    ⟨List.length_ofFn, Reading.start hshort⟩
  exact ⟨stations, by rw [processFileFread, hrun], hstations⟩

end Readers

/-! ## The report -/

section Report

variable {stations sorted : List (StationData D)}

omit [LT D] [DecidableLT D] [Add D] [Neg D] [Zero D]

/-- Names in the order of what they show. -/
theorem Qsorted.visible_ordered (hterm : Terminated stations) (h : Qsorted stations sorted) :
    (sorted.map StationData.visible).Pairwise fun a b => order a.name b.name ≤ 0 := by
  rw [List.pairwise_map]
  refine h.ordered.imp_of_mem fun {a b} ha hb hab => ?_
  obtain ⟨c, hc, hle⟩ := hab
  have hzero : ∀ s ∈ sorted, 0 ∈ s.name := fun s hs =>
    hterm _ (List.mem_map_of_mem (h.perm.mem_iff.mp hs))
  rw [compareStations, strcmp_eq (hzero a ha) (hzero b hb), Option.some.injEq] at hc
  rw [visible_name, visible_name, hc]
  exact hle

/-- **One order**: two tables that show the same entries, with no name twice, are
sorted alike. -/
theorem Qsorted.visible_eq {stations' sorted' : List (StationData D)}
    (hterm : Terminated stations) (hterm' : Terminated stations')
    (hvisible : stations.map StationData.visible = stations'.map StationData.visible)
    (hnodup : ((stations.map StationData.visible).map StationData.name).Nodup)
    (h : Qsorted stations sorted) (h' : Qsorted stations' sorted') :
    sorted.map StationData.visible = sorted'.map StationData.visible := by
  have hperm : (sorted.map StationData.visible).Perm (sorted'.map StationData.visible) :=
    (h.perm.map _).trans (hvisible ▸ (h'.perm.map _).symm)
  refine hperm.eq_of_pairwise (fun a b ha hb hab hba => ?_) (h.visible_ordered hterm)
    (h'.visible_ordered hterm')
  have hmem : ∀ s, s ∈ sorted.map StationData.visible →
      s ∈ stations.map StationData.visible ∧ 0 ∉ s.name := by
    intro s hs
    refine ⟨(h.perm.map _).mem_iff.mp hs, ?_⟩
    obtain ⟨t, -, rfl⟩ := List.mem_map.mp hs
    exact zero_notMem_content t.name
  obtain ⟨ha, hazero⟩ := hmem a ha
  obtain ⟨hb, hbzero⟩ := hmem b (hperm.mem_iff.mpr hb)
  have hname : a.name = b.name := by
    refine (order_eq_zero hazero hbzero).mp ?_
    rw [order_swap] at hba
    omega
  exact List.inj_on_of_nodup_map hnodup ha hb hname

/-- Only what an entry shows is printed. -/
theorem report_visible [Div D] (toDouble : Int32 → D) (station : StationData D) :
    station.visible.report toDouble = station.report toDouble := by
  rw [StationData.report, visible_name, content_content]
  rfl

end Report

/-- **Both readers agree**: whatever was on the stack, they build tables of the
same entries in the same order, and however `qsort` arranges them they report
the same. -/
theorem readers_agree [Div D] (dblMax : D) (atof : List UInt8 → D) (toDouble : Int32 → D)
    (stack stack' : Stack) (file : List UInt8)
    (hlength : ∀ line ∈ lines file, line.length ≤ 119)
    (hname : ∀ line ∈ lines file, separator ∈ line →
      (line.takeWhile (· ≠ separator)).length ≤ 98) :
    ∃ stations stations', processFileMmap dblMax atof stack file = some stations ∧
      processFileFread dblMax atof stack' file = some stations' ∧
      stations.map StationData.visible = stations'.map StationData.visible ∧
      ∀ sorted sorted', Qsorted stations sorted → Qsorted stations' sorted' →
        sorted.map (·.report toDouble) = sorted'.map (·.report toDouble) := by
  have hshort : ∀ line ∈ lines file, Short line := fun line hline =>
    ⟨Nat.lt_succ_of_le (hlength line hline), fun h => Nat.lt_succ_of_le (hname line hline h)⟩
  obtain ⟨stations, hmmap, hterm, hvisible⟩ :=
    processFileMmap_spec dblMax atof stack hshort
  obtain ⟨stations', hfread, hterm', hvisible'⟩ :=
    processFileFread_spec dblMax atof stack' hshort
  have hsame := hvisible.trans hvisible'.symm
  have hnodup : ((stations.map StationData.visible).map StationData.name).Nodup := by
    rw [hvisible]
    exact tabulate_nodup _ List.nodup_nil
  refine ⟨stations, stations', hmmap, hfread, hsame, fun sorted sorted' h h' => ?_⟩
  have heq := Qsorted.visible_eq hterm hterm' hsame hnodup h h'
  have hreport : ∀ l : List (StationData D), l.map (·.report toDouble)
      = (l.map StationData.visible).map (·.report toDouble) := by
    intro l
    rw [List.map_map]
    exact List.map_congr_left fun s _ => (report_visible toDouble s).symm
  rw [hreport, heq, ← hreport]

/-- The number that a string of digits stands for. -/
def decimal (digits : List UInt8) : Int := digits.foldl (fun n d => 10 * n + (d.toNat - 48)) 0

/-- `a;1`, `b;2` and `a;3`, the last line without a newline. -/
theorem readers_agree_threeLines :
    ∃ stations stations',
      processFileMmap 1000 decimal ⟨fun _ _ => 1, fun _ _ => 1⟩
        [97, 59, 49, 10, 98, 59, 50, 10, 97, 59, 51] = some stations ∧
      processFileFread 1000 decimal ⟨fun _ _ => 2, fun _ _ => 2⟩
        [97, 59, 49, 10, 98, 59, 50, 10, 97, 59, 51] = some stations' ∧
      stations.map StationData.visible = stations'.map StationData.visible ∧
      ∀ sorted sorted', Qsorted stations sorted → Qsorted stations' sorted' →
        sorted.map (·.report Int32.toInt) = sorted'.map (·.report Int32.toInt) :=
  readers_agree 1000 decimal Int32.toInt _ _ _ (by decide) (by decide)

end OsInParts.FileIO
