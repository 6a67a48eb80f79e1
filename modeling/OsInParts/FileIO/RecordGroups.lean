import Mathlib.Algebra.Group.Nat.Defs
import Mathlib.Order.Basic
import OsInParts.FileIO.LineRecords
import OsInParts.Lib.GroupBy

/-!
# Record groups — the table groups the temperatures by name

The calls of either reader fill the table as a grouping of their records:
`stationSummary` is what an entry keeps of the temperatures of its name, and
what the table shows after any calls is `Summary.table` of the records. The
initial extremes `DBL_MAX` and `-DBL_MAX` bound every temperature, so that the
first one replaces them. `count` is an `int`: it counts fewer than 2^31
records.
-/

namespace OsInParts.FileIO

open Lib.CString Lib.GroupBy

/-! ## One entry -/

/-- The number of temperatures, as an `int`. -/
theorem count_foldl {D : Type*} [LT D] [DecidableLT D] [Add D] [Neg D] [Zero D] (dblMax : D)
    (name : List UInt8) (ts : List D) :
    (ts.foldl StationData.update (emptyStation dblMax name)).count = Int32.ofNat ts.length := by
  induction ts using List.reverseRecOn with
  | nil => rfl
  | append_singleton ts t ih =>
      rw [List.foldl_append, List.length_append, Int32.ofNat_add, ← ih]
      rfl

section Entry

variable {D : Type*} [LinearOrder D]

/-- The least of some values, starting from a bound of all of them. -/
theorem foldl_least {ts : List D} {bound : D} (hne : ts ≠ []) (hbound : ∀ t ∈ ts, t ≤ bound) :
    ts.foldl (fun m t => if t < m then t else m) bound ∈ ts ∧
      ∀ t ∈ ts, ts.foldl (fun m t => if t < m then t else m) bound ≤ t := by
  induction ts using List.reverseRecOn with
  | nil => exact absurd rfl hne
  | append_singleton ts t ih =>
      rw [List.foldl_append, List.foldl_cons, List.foldl_nil]
      obtain ⟨hts, ht⟩ := List.forall_mem_append.mp hbound
      rw [List.forall_mem_singleton] at ht
      by_cases hnil : ts = []
      · subst hnil
        have hfirst : (if t < bound then t else bound) = t := by
          split
          · rfl
          · exact le_antisymm (le_of_not_gt ‹_›) ht
        rw [List.foldl_nil, hfirst]
        simp
      · obtain ⟨hmem, hle⟩ := ih hnil hts
        split
        · rename_i hlt
          refine ⟨by simp, List.forall_mem_append.mpr ⟨fun s hs => ?_, by simp⟩⟩
          exact hlt.le.trans (hle s hs)
        · rename_i hlt
          refine ⟨List.mem_append_left _ hmem, List.forall_mem_append.mpr ⟨hle, ?_⟩⟩
          simpa using hlt

variable [Add D] [Neg D] [Zero D]

/-- What an entry says of the temperatures of its name. -/
structure Summarises (temperatures : List D) (station : StationData D) : Prop where
  /-- The count, and no mean divides by zero. -/
  count : temperatures.length < 2 ^ 31 →
    station.count.toInt = temperatures.length ∧ 1 ≤ station.count.toInt
  total : station.totalTemp = temperatures.foldl (· + ·) 0
  least : station.minTemp ∈ temperatures ∧ ∀ t ∈ temperatures, station.minTemp ≤ t
  greatest : station.maxTemp ∈ temperatures ∧ ∀ t ∈ temperatures, t ≤ station.maxTemp

/-- **The fold** of the temperatures of one name. -/
theorem summarises_foldl {dblMax : D} {ts : List D} (name : List UInt8) (hne : ts ≠ [])
    (hbounds : ∀ t ∈ ts, -dblMax ≤ t ∧ t ≤ dblMax) :
    Summarises ts (ts.foldl StationData.update (emptyStation dblMax name)) := by
  have hpos : 0 < ts.length := List.length_pos_iff.mpr hne
  have hmin : (ts.foldl StationData.update (emptyStation dblMax name)).minTemp
      = ts.foldl (fun m t => if t < m then t else m) dblMax :=
    (List.foldl_hom StationData.minTemp fun _ _ => rfl).symm
  have hmax : (ts.foldl StationData.update (emptyStation dblMax name)).maxTemp
      = ts.foldl (fun m t => if t > m then t else m) (-dblMax) :=
    (List.foldl_hom StationData.maxTemp fun _ _ => rfl).symm
  refine ⟨fun hlt => ?_, (List.foldl_hom StationData.totalTemp fun _ _ => rfl).symm, ?_, ?_⟩
  · rw [count_foldl, Int32.toInt_ofNat_of_lt hlt]
    omega
  · rw [hmin]
    exact foldl_least hne fun t ht => (hbounds t ht).2
  · rw [hmax]
    exact foldl_least (D := Dᵒᵈ) hne fun t ht => (hbounds t ht).1

end Entry

/-! ## The table -/

section Table

variable {D : Type*} [LT D] [DecidableLT D] [Add D] [Neg D] [Zero D]

/-- How the table summarises the temperatures of a name. -/
def stationSummary (dblMax : D) : Summary (List UInt8) D (StationData D) where
  key := StationData.name
  fresh := emptyStation dblMax
  update := StationData.update
  key_fresh _ := rfl
  key_update _ _ := rfl

theorem tabulate_eq_table (dblMax : D) (rs : List (List UInt8 × D)) :
    tabulate dblMax [] rs = (stationSummary dblMax).table maxStations rs := rfl

/-- A buffer with a name that an entry holds with its terminator. -/
def Named (buffer : List UInt8) : Prop := 0 ∈ buffer ∧ (content buffer).length ≤ 98

instance (buffer : List UInt8) : Decidable (Named buffer) :=
  inferInstanceAs (Decidable (0 ∈ buffer ∧ (content buffer).length ≤ 98))

/-- The records with their names as strings. -/
def named (rs : List (List UInt8 × D)) : List (List UInt8 × D) :=
  rs.map fun r => (content r.1, r.2)

variable {dblMax : D} {stack : Stack} {stations : List (StationData D)}
  {rs : List (List UInt8 × D)}

/-- What the calls make of a table. -/
theorem processRecords_spec (dblMax : D) (stack : Stack) (hterm : Terminated stations)
    (hnamed : ∀ r ∈ rs, Named r.1) :
    ∃ stations', processRecords dblMax stack stations rs = some stations' ∧
      Terminated stations' ∧
      stations'.map StationData.visible
        = tabulate dblMax (stations.map StationData.visible) (named rs) := by
  induction rs generalizing stations with
  | nil => exact ⟨stations, rfl, hterm, rfl⟩
  | cons r rs ih =>
      obtain ⟨⟨hzero, hlen⟩, hrest⟩ := List.forall_mem_cons.mp hnamed
      obtain ⟨stations₁, hadd, hterm₁, hvisible₁⟩ := findOrAddStation_spec dblMax stack hterm
        hzero (Nat.lt_succ_of_le hlen) r.2
      obtain ⟨stations', hstations', hterm', hvisible'⟩ := ih hterm₁ hrest
      refine ⟨stations', ?_, hterm', ?_⟩
      · rw [processRecords, List.foldlM_cons, hadd]
        exact hstations'
      · rw [hvisible', hvisible₁]
        rfl

/-- **The table** after any calls shows the groups of the names that came
first. -/
theorem processRecords_table (dblMax : D) (stack : Stack) (hnamed : ∀ r ∈ rs, Named r.1) :
    ∃ stations, processRecords dblMax stack [] rs = some stations ∧ Terminated stations ∧
      stations.map StationData.visible
        = ((keys (named rs)).take maxStations).map ((stationSummary dblMax).group (named rs)) := by
  obtain ⟨stations, hstations, hterm, hvisible⟩ :=
    processRecords_spec dblMax stack Terminated.nil hnamed
  refine ⟨stations, hstations, hterm, ?_⟩
  rw [hvisible, List.map_nil, tabulate_eq_table, Summary.table_eq]

/-- The names that a table of groups shows. -/
theorem names_of_visible {names : List (List UInt8)}
    (h : stations.map StationData.visible
      = names.map ((stationSummary dblMax).group rs)) :
    stations.map (fun station => content station.name) = names := by
  have hkeys := congrArg (List.map StationData.name) h
  rw [List.map_map, List.map_map] at hkeys
  refine hkeys.trans ?_
  conv_rhs => rw [← List.map_id names]
  exact List.map_congr_left fun name _ => (stationSummary dblMax).key_group rs name

omit [LT D] [DecidableLT D] [Add D] in
/-- A name without an entry is ignored when the table is full. -/
theorem findOrAddStation_full {name : List UInt8} (hterm : Terminated stations)
    (hzero : 0 ∈ name) (hfull : maxStations ≤ stations.length)
    (hname : content name ∉ stations.map (fun station => content station.name)) :
    findOrAddStation dblMax stack stations name = some (stations, none) := by
  have hfind : ((stations.map StationData.visible).findIdx? fun s => s.name = content name)
      = none := by
    refine List.findIdx?_eq_none_iff.mpr fun s hs => decide_eq_false ?_
    obtain ⟨station, hstation, rfl⟩ := List.mem_map.mp hs
    exact fun h => hname (List.mem_map.mpr ⟨station, hstation, h⟩)
  rw [findOrAddStation, findStation_eq hterm hzero, hfind, Option.map_some]
  exact congrArg some (if_neg (Nat.not_lt.mpr hfull))

omit [LT D] [DecidableLT D] [Add D] [Neg D] [Zero D] in
/-- **After `qsort`** names that differ are in strict order. -/
theorem Qsorted.strict {sorted : List (StationData D)} (hterm : Terminated stations)
    (hnodup : (stations.map fun station => content station.name).Nodup)
    (h : Qsorted stations sorted) :
    sorted.Pairwise fun a b => ∃ c, compareStations a b = some c ∧ c < 0 := by
  have hdistinct : sorted.Pairwise fun a b => content a.name ≠ content b.name :=
    List.pairwise_map.mp ((h.perm.map _).nodup_iff.mpr hnodup)
  refine (h.ordered.and hdistinct).imp_of_mem fun {a b} ha hb hab => ?_
  obtain ⟨⟨c, hc, hle⟩, hne⟩ := hab
  have hzero : ∀ s ∈ sorted, 0 ∈ s.name := fun s hs =>
    hterm _ (List.mem_map_of_mem (h.perm.mem_iff.mp hs))
  refine ⟨c, hc, lt_of_le_of_ne hle fun hzero' => hne ?_⟩
  rw [compareStations, strcmp_eq (hzero a ha) (hzero b hb), hzero', Option.some.injEq] at hc
  exact (order_eq_zero (zero_notMem_content _) (zero_notMem_content _)).mp hc

end Table

/-- An entry summarises what the records say of its name. -/
theorem summarises_of_visible {D : Type*} [LinearOrder D] [Add D] [Neg D] [Zero D] {dblMax : D}
    {rs : List (List UInt8 × D)} {stations : List (StationData D)} {station : StationData D}
    (hbounds : ∀ r ∈ rs, -dblMax ≤ r.2 ∧ r.2 ≤ dblMax)
    (hvisible : stations.map StationData.visible
      = ((keys (named rs)).take maxStations).map ((stationSummary dblMax).group (named rs)))
    (hstation : station ∈ stations) :
    Summarises (values (named rs) (content station.name)) station := by
  have hmem : station.visible ∈ stations.map StationData.visible := List.mem_map_of_mem hstation
  rw [hvisible] at hmem
  obtain ⟨name, hname, heq⟩ := List.mem_map.mp hmem
  have hkey : content station.name = name := by
    rw [← visible_name, ← heq]
    exact (stationSummary dblMax).key_group (named rs) name
  have htemperatures : ∀ t ∈ values (named rs) name, -dblMax ≤ t ∧ t ≤ dblMax := by
    intro t ht
    obtain ⟨r, hr, heq⟩ := List.mem_map.mp (mem_values.mp ht)
    exact (Prod.mk.inj heq).2 ▸ hbounds r hr
  have hsummary := summarises_foldl name (values_ne_nil.mpr (List.mem_of_mem_take hname))
    htemperatures
  rw [show (values (named rs) name).foldl StationData.update (emptyStation dblMax name)
    = station.visible from heq] at hsummary
  rw [hkey]
  exact ⟨hsummary.count, hsummary.total, hsummary.least, hsummary.greatest⟩

/-- **Group by name**: after any records with names of at most 98 bytes there is
one entry for each of the first names, in the order in which they came, with
what its records say; names beyond the limit change nothing, and `qsort` puts
the names into strict order. -/
theorem processRecords_groups {D : Type*} [LinearOrder D] [Add D] [Neg D] [Zero D] (dblMax : D)
    (stack : Stack) (rs : List (List UInt8 × D)) (hnamed : ∀ r ∈ rs, Named r.1)
    (hbounds : ∀ r ∈ rs, -dblMax ≤ r.2 ∧ r.2 ≤ dblMax) :
    ∃ stations, processRecords dblMax stack [] rs = some stations ∧
      stations.map (fun station => content station.name)
        = (keys (named rs)).take maxStations ∧
      (∀ station ∈ stations, Summarises (values (named rs) (content station.name)) station) ∧
      (∀ r, Named r.1 → maxStations ≤ (keys (named rs)).length →
        content r.1 ∉ (keys (named rs)).take maxStations →
        processRecords dblMax stack [] (rs ++ [r]) = some stations) ∧
      ∀ sorted, Qsorted stations sorted →
        sorted.Pairwise fun a b => ∃ c, compareStations a b = some c ∧ c < 0 := by
  obtain ⟨stations, hstations, hterm, hvisible⟩ := processRecords_table dblMax stack hnamed
  have hnames := names_of_visible hvisible
  refine ⟨stations, hstations, hnames, fun station hstation => ?_, fun r hr hfull hout => ?_,
    fun sorted => Qsorted.strict hterm (hnames ▸ (nodup_keys _).sublist (List.take_sublist _ _))⟩
  · exact summarises_of_visible hbounds hvisible hstation
  · have hlen : maxStations ≤ stations.length := by
      rw [← List.length_map (fun station => content station.name), hnames, List.length_take]
      omega
    rw [processRecords_append, hstations, Option.bind_some, processRecords, List.foldlM_cons,
      findOrAddStation_full hterm hr.1 hlen (hnames ▸ hout)]
    rfl

/-- `a;1`, `b;2` and `a;3`. -/
theorem processRecords_groups_threeRecords :
    ∃ stations, processRecords (1000 : Int) ⟨fun _ _ => 1, fun _ _ => 1⟩ []
        [([97, 0], 1), ([98, 0], 2), ([97, 0], 3)] = some stations ∧
      stations.map (fun station => content station.name) = [[97], [98]] := by
  obtain ⟨stations, hstations, hnames, -⟩ :=
    processRecords_groups (1000 : Int) ⟨fun _ _ => 1, fun _ _ => 1⟩
      [([97, 0], 1), ([98, 0], 2), ([97, 0], 3)] (by decide) (by decide)
  exact ⟨stations, hstations, hnames.trans (by decide)⟩

/-- One record many times. -/
theorem keys_replicate {K V : Type*} [DecidableEq K] (n : Nat) (r : K × V) :
    keys (List.replicate (n + 1) r) = [r.1] := by
  induction n with
  | zero => rfl
  | succ n ih =>
      rw [List.replicate_succ', keys_concat, ih, if_pos (List.mem_singleton_self _)]

theorem values_replicate {K V : Type*} [DecidableEq K] (n : Nat) (r : K × V) :
    values (List.replicate n r) r.1 = List.replicate n r.2 := by
  simp [values]

theorem named_replicate {D : Type*} (n : Nat) (r : List UInt8 × D) :
    named (List.replicate n r) = List.replicate n (content r.1, r.2) :=
  List.map_replicate

/-- The one entry of records of one name. -/
theorem processRecords_replicate {D : Type*} [LT D] [DecidableLT D] [Add D] [Neg D] [Zero D]
    (dblMax : D) (stack : Stack) (n : Nat) (r : List UInt8 × D) (hr : Named r.1) :
    ∃ station, processRecords dblMax stack [] (List.replicate (n + 1) r) = some [station] ∧
      content station.name = content r.1 ∧ station.count = Int32.ofNat (n + 1) := by
  have hnamed : ∀ r' ∈ List.replicate (n + 1) r, Named r'.1 := fun r' hr' =>
    List.eq_of_mem_replicate hr' ▸ hr
  obtain ⟨stations, hstations, -, hvisible⟩ := processRecords_table dblMax stack hnamed
  have htake : [content r.1].take maxStations = [content r.1] := rfl
  rw [named_replicate, keys_replicate, htake, List.map_singleton] at hvisible
  obtain ⟨station, rfl, heq⟩ := List.map_eq_singleton_iff.mp hvisible
  refine ⟨station, hstations, ?_, ?_⟩
  · rw [← visible_name, heq]
    exact (stationSummary dblMax).key_group _ _
  · have hcount := count_foldl dblMax (content r.1) (List.replicate (n + 1) r.2)
    rw [List.length_replicate, ← values_replicate (n + 1) (content r.1, r.2)] at hcount
    rw [show station.count = station.visible.count from rfl, heq]
    exact hcount

/-- 2^31 records of one name: the count is negative. -/
theorem not_processRecords_counts : ¬ ∀ (stack : Stack) (rs : List (List UInt8 × Int)),
    (∀ r ∈ rs, Named r.1) → (∀ r ∈ rs, -1000 ≤ r.2 ∧ r.2 ≤ 1000) →
    ∃ stations, processRecords 1000 stack [] rs = some stations ∧
      ∀ station ∈ stations, station.count.toInt
        = (values (named rs) (content station.name)).length := by
  intro h
  have ha : Named [97, 0] := by decide
  obtain ⟨stations, hstations, hcount⟩ := h ⟨fun _ _ => 0, fun _ _ => 0⟩
    (List.replicate (2147483647 + 1) ([97, 0], 0))
    (fun r hr => List.eq_of_mem_replicate hr ▸ ha)
    (fun r hr => by rw [List.eq_of_mem_replicate hr]; decide)
  obtain ⟨station, hstation, hname, hwrapped⟩ :=
    processRecords_replicate (1000 : Int) ⟨fun _ _ => 0, fun _ _ => 0⟩ 2147483647 ([97, 0], 0) ha
  rw [hstation, Option.some.injEq] at hstations
  have heq := hcount station (hstations ▸ List.mem_singleton_self _)
  rw [hwrapped, named_replicate, hname, values_replicate _ (content [97, 0], (0 : Int)),
    List.length_replicate] at heq
  exact absurd heq (by decide)

end OsInParts.FileIO
