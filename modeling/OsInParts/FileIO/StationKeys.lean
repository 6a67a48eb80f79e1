import Mathlib.Algebra.Ring.Int.Defs
import OsInParts.FileIO.StationTable

/-!
# Station keys — the key of a name against the name

`strncpy` keeps the first 99 bytes of a name and writes no terminator behind
them, `strcmp` compares the whole name. An entry keeps a name (`Keeps`) when
it has at most 98 bytes, or 99 with a terminator that is there already;
exactly then a second call finds what the first one returned. In runs whose
calls all keep their names, names and entries correspond one to one.
-/

namespace OsInParts.FileIO

open Lib.CString

variable {D : Type*} [LT D] [DecidableLT D] [Add D] [Neg D] [Zero D]

/-- A name in the line buffer of a caller, before the `';'`. -/
def Admitted (name : List UInt8) : Prop := 0 ∈ name ∧ (content name).length ≤ 118

/-- Calls from the empty table on, each of which `P` admits: what they returned
and the table. -/
inductive Calls (dblMax : D) (stack : Stack) (P : List (StationData D) → List UInt8 → Prop) :
    List (List UInt8 × Option Nat) → List (StationData D) → Prop where
  | start : Calls dblMax stack P [] []
  | call {log stations name stations' station} (temperature : D) :
      Calls dblMax stack P log stations → Admitted name → P stations name →
      findOrAddStation dblMax stack stations name = some (stations', station) →
      Calls dblMax stack P (log ++ [(content name, station)])
        (updateStation temperature (stations', station))

/-- A second call returns the same entry and adds none. -/
def ReturnsSame (dblMax : D) (stack : Stack) (stations : List (StationData D))
    (name : List UInt8) : Prop :=
  ∃ stations' station,
    findOrAddStation dblMax stack stations name = some (stations', some station) ∧
    findOrAddStation dblMax stack stations' name = some (stations', some station)

/-- The entry of a name holds all of it and a terminator: of a name of 99 bytes
one that is in the table, or in the memory of the next entry. -/
def Keeps (stack : Stack) (stations : List (StationData D)) (name : List UInt8) : Prop :=
  (content name).length ≤ 98 ∨
    (content name).length = 99 ∧
      ((∃ station ∈ stations, station.name = content name ++ [0]) ∨
        stack.name stations.length ⟨maxNameLength - 1, by decide⟩ = 0)

/-! ## One call -/

section Call

variable {dblMax : D} {stack : Stack} {stations stations' : List (StationData D)}
  {station : StationData D} {name : List UInt8} {found : Option Nat}

omit [LT D] [DecidableLT D] [Add D] in
/-- **What a call does.** -/
theorem findOrAddStation_cases
    (h : findOrAddStation dblMax stack stations name = some (stations', found)) :
    (∃ i, findStation name stations = some (some i) ∧ stations' = stations ∧ found = some i) ∨
    (findStation name stations = some none ∧ stations.length < maxStations ∧
      stations' = stations ++ [newStation dblMax (stack.name stations.length) name] ∧
      found = some stations.length) ∨
    (findStation name stations = some none ∧ maxStations ≤ stations.length ∧
      stations' = stations ∧ found = none) := by
  obtain ⟨r, hr, heq⟩ := Option.map_eq_some_iff.mp h
  cases r with
  | some i =>
      obtain ⟨rfl, rfl⟩ := Prod.mk.inj heq
      exact .inl ⟨i, hr, rfl, rfl⟩
  | none =>
      right
      dsimp only at heq
      split at heq
      · obtain ⟨rfl, rfl⟩ := Prod.mk.inj heq
        exact .inl ⟨hr, ‹_›, rfl, rfl⟩
      · obtain ⟨rfl, rfl⟩ := Prod.mk.inj heq
        exact .inr ⟨hr, Nat.not_lt.mp ‹_›, rfl, rfl⟩

omit [LT D] [DecidableLT D] [Add D] [Neg D] [Zero D]

/-- An entry that is found compares equal. -/
theorem findStation_some {i : Nat} (h : findStation name stations = some (some i)) :
    ∃ station, stations[i]? = some station ∧ strcmp station.name name = some 0 := by
  induction stations generalizing i with
  | nil => cases h
  | cons station stations ih =>
      rw [findStation] at h
      obtain ⟨c, hc, hrest⟩ := Option.bind_eq_some_iff.mp h
      split at hrest
      · rename_i hzero
        cases hrest
        exact ⟨station, rfl, hzero ▸ hc⟩
      · obtain ⟨found, hfound, heq⟩ := Option.map_eq_some_iff.mp hrest
        obtain ⟨j, rfl, rfl⟩ := Option.map_eq_some_iff.mp heq
        exact ih hfound

/-- A search without a result compared every entry. -/
theorem findStation_none :
    findStation name stations = some none ↔
      ∀ station ∈ stations, ∃ c, strcmp station.name name = some c ∧ c ≠ 0 := by
  induction stations with
  | nil => simp [findStation]
  | cons station stations ih =>
      rw [findStation, List.forall_mem_cons, ← ih, Option.bind_eq_some_iff]
      constructor
      · rintro ⟨c, hc, hrest⟩
        split at hrest
        · cases hrest
        · rename_i hne
          obtain ⟨found, hfound, heq⟩ := Option.map_eq_some_iff.mp hrest
          rw [Option.map_eq_none_iff] at heq
          exact ⟨⟨c, hc, hne⟩, heq ▸ hfound⟩
      · rintro ⟨⟨c, hc, hne⟩, hrest⟩
        refine ⟨c, hc, ?_⟩
        rw [if_neg hne, hrest]
        rfl

/-- The search goes on to an entry behind those that differ. -/
theorem findStation_concat (h : findStation name stations = some none)
    (hc : strcmp station.name name = some 0) :
    findStation name (stations ++ [station]) = some (some stations.length) := by
  induction stations with
  | nil => rw [List.nil_append, findStation, hc]; rfl
  | cons s stations ih =>
      obtain ⟨⟨c, hs, hne⟩, hrest⟩ := List.forall_mem_cons.mp (findStation_none.mp h)
      rw [List.cons_append, findStation, hs, Option.bind_some, if_neg hne,
        ih (findStation_none.mpr hrest)]
      rfl

/-- A search that leaves no entry has a result. -/
theorem findStation_total (h : ∀ station ∈ stations, ∃ c, strcmp station.name name = some c) :
    ∃ found, findStation name stations = some found := by
  induction stations with
  | nil => exact ⟨none, rfl⟩
  | cons station stations ih =>
      obtain ⟨⟨c, hc⟩, hrest⟩ := List.forall_mem_cons.mp h
      obtain ⟨found, hfound⟩ := ih hrest
      rw [findStation, hc, Option.bind_some, hfound]
      split <;> exact ⟨_, rfl⟩

end Call

/-! ## The key of a new entry -/

section Key

variable {dblMax : D} {memory : Fin maxNameLength → UInt8} {name : List UInt8}

omit [LT D] [DecidableLT D] [Add D]

theorem newStation_length (dblMax : D) (memory : Fin maxNameLength → UInt8)
    (name : List UInt8) : (newStation dblMax memory name).name.length = maxNameLength := by
  have hlen : (List.ofFn memory).length = maxNameLength := List.length_ofFn
  rw [newStation, length_strncpy (by rw [hlen]; decide), hlen]

/-- A name of 99 bytes is followed by what was in the memory. -/
theorem newStation_name (dblMax : D) (memory : Fin maxNameLength → UInt8)
    (h : (content name).length = maxNameLength - 1) :
    (newStation dblMax memory name).name
      = content name ++ [memory ⟨maxNameLength - 1, by decide⟩] := by
  have hdrop : (List.ofFn memory).drop (maxNameLength - 1)
      = [memory ⟨maxNameLength - 1, by decide⟩] := by
    have hlast : maxNameLength - 1 < (List.ofFn memory).length := by
      rw [List.length_ofFn]
      decide
    rw [List.drop_eq_getElem_cons hlast, List.getElem_ofFn,
      List.drop_of_length_le (by rw [List.length_ofFn]; decide)]
  have htake : (content name).take (maxNameLength - 1) = content name :=
    List.take_of_length_le h.le
  rw [newStation, strncpy, htake, h, Nat.sub_self, hdrop]
  simp

/-- **The key of a new entry** is the whole name in two cases. -/
theorem newStation_shows :
    0 ∈ (newStation dblMax memory name).name ∧
        content (newStation dblMax memory name).name = content name
      ↔ (content name).length ≤ 98 ∨
        (content name).length = 99 ∧ memory ⟨maxNameLength - 1, by decide⟩ = 0 := by
  constructor
  · rintro ⟨hzero, heq⟩
    have hlt := content_length_lt hzero
    rw [heq, newStation_length] at hlt
    by_cases hshort : (content name).length ≤ 98
    · exact .inl hshort
    · have hlen : (content name).length = maxNameLength - 1 := by
        simp only [maxNameLength] at hlt ⊢
        omega
      rw [newStation_name dblMax memory hlen, List.mem_append, List.mem_singleton] at hzero
      exact .inr ⟨hlen, (hzero.resolve_left (zero_notMem_content name)).symm⟩
  · rintro (hshort | ⟨hlen, hmemory⟩)
    · obtain ⟨heq, hzero⟩ := content_strncpy (Nat.lt_succ_of_le hshort) (List.ofFn memory)
      exact ⟨hzero, heq⟩
    · rw [newStation_name dblMax memory hlen, hmemory]
      exact ⟨by simp, by rw [content_append_zero, content_content]⟩

end Key

/-! ## Two calls -/

/-- Every key fills its field. -/
def KeysFill (stations : List (StationData D)) : Prop :=
  ∀ key ∈ stations.map StationData.name, key.length = maxNameLength

omit [Neg D] [Zero D] in
theorem names_updateStation (temperature : D) (stations : List (StationData D))
    (found : Option Nat) :
    (updateStation temperature (stations, found)).map StationData.name
      = stations.map StationData.name := by
  cases found with
  | none => rfl
  | some i => exact names_modify stations i temperature

section Twice

variable {dblMax : D} {stack : Stack} {stations : List (StationData D)} {name : List UInt8}
  {log : List (List UInt8 × Option Nat)} {P : List (StationData D) → List UInt8 → Prop}

theorem Calls.keysFill (h : Calls dblMax stack P log stations) : KeysFill stations := by
  induction h with
  | start =>
      intro key hkey
      cases hkey
  | call temperature _ _ _ hcall ih =>
      rw [KeysFill, names_updateStation]
      obtain ⟨i, -, rfl, -⟩ | ⟨-, -, rfl, -⟩ | ⟨-, -, rfl, -⟩ := findOrAddStation_cases hcall
      · exact ih
      · rw [List.map_append, List.forall_mem_append]
        refine ⟨ih, fun key hkey => ?_⟩
        rw [List.map_singleton, List.mem_singleton] at hkey
        rw [hkey, newStation_length]
      · exact ih

omit [LT D] [DecidableLT D] [Add D] [Neg D] [Zero D] in
/-- The key of a long name is the name and its terminator. -/
theorem KeysFill.eq_concat (hfill : KeysFill stations) {station : StationData D}
    (hstation : station ∈ stations) (hzero : strcmp station.name name = some 0)
    (hlong : 99 ≤ (content name).length) :
    (content name).length = 99 ∧ station.name = content name ++ [0] := by
  have hlen : station.name.length = 100 := hfill _ (List.mem_map_of_mem hstation)
  obtain ⟨hmem, -, heq⟩ := strcmp_eq_zero hzero
  have hlt := content_length_lt hmem
  obtain ⟨tail, htail, -⟩ := exists_content_append station.name
  rw [heq] at hlt htail
  have hsum := congrArg List.length htail
  rw [List.length_append, hlen] at hsum
  obtain ⟨b, rfl⟩ := List.length_eq_one_iff.mp (show tail.length = 1 by omega)
  rw [htail, List.mem_append, List.mem_singleton] at hmem
  rw [htail, ← hmem.resolve_left (zero_notMem_content name)]
  exact ⟨by omega, rfl⟩

omit [LT D] [DecidableLT D] [Add D] [Neg D] [Zero D] in
/-- An entry that shows the name is not passed over. -/
theorem ne_of_findStation_none (hname : 0 ∈ name) (h : findStation name stations = some none)
    {station : StationData D} (hstation : station ∈ stations) (hzero : 0 ∈ station.name) :
    content station.name ≠ content name := by
  intro heq
  obtain ⟨c, hc, hne⟩ := findStation_none.mp h station hstation
  rw [(strcmp_eq_zero_iff hname).mpr ⟨hzero, heq⟩, Option.some.injEq] at hc
  exact hne hc.symm

omit [LT D] [DecidableLT D] [Add D] in
/-- The entry that is added for a kept name shows it. -/
theorem Keeps.newStation_shows (dblMax : D) (hname : 0 ∈ name) (h : Keeps stack stations name)
    (hfound : findStation name stations = some none) :
    0 ∈ (newStation dblMax (stack.name stations.length) name).name ∧
      content (newStation dblMax (stack.name stations.length) name).name = content name := by
  refine FileIO.newStation_shows.mpr ?_
  rcases h with hshort | ⟨hlen, ⟨station, hstation, heq⟩ | hmemory⟩
  · exact .inl hshort
  · refine absurd ?_ (ne_of_findStation_none hname hfound hstation (by rw [heq]; simp))
    rw [heq, content_append_zero, content_content]
  · exact .inr ⟨hlen, hmemory⟩

omit [LT D] [DecidableLT D] [Add D] in
/-- **Kept names** are found again. -/
theorem Keeps.returnsSame (dblMax : D) (hfill : KeysFill stations)
    (hroom : stations.length < maxStations) (hname : Admitted name)
    (h : Keeps stack stations name) : ReturnsSame dblMax stack stations name := by
  have hlt : (content name).length < 100 := by
    rcases h with h | h
    · omega
    · omega
  obtain ⟨found, hfound⟩ := findStation_total fun station hstation =>
    strcmp_ne_none hname.1 (by rw [hfill _ (List.mem_map_of_mem hstation)]; exact hlt)
  cases found with
  | some i =>
      have hcall : findOrAddStation dblMax stack stations name = some (stations, some i) := by
        rw [findOrAddStation, hfound]
        rfl
      exact ⟨stations, i, hcall, hcall⟩
  | none =>
      have hzero := (strcmp_eq_zero_iff hname.1).mpr (h.newStation_shows dblMax hname.1 hfound)
      refine ⟨stations ++ [newStation dblMax (stack.name stations.length) name],
        stations.length, ?_, ?_⟩
      · rw [findOrAddStation, hfound, Option.map_some]
        exact congrArg some (if_pos hroom)
      · rw [findOrAddStation, findStation_concat hfound hzero]
        rfl

omit [LT D] [DecidableLT D] [Add D] in
/-- **Names that are found again** are kept. -/
theorem ReturnsSame.keeps (hfill : KeysFill stations)
    (h : ReturnsSame dblMax stack stations name) : Keeps stack stations name := by
  obtain ⟨stations', i, hfirst, hsecond⟩ := h
  by_cases hshort : (content name).length ≤ 98
  · exact .inl hshort
  have hlong : 99 ≤ (content name).length := by omega
  right
  obtain ⟨j, hfound, -, -⟩ | ⟨-, -, rfl, hi⟩ | ⟨-, -, -, hi⟩ := findOrAddStation_cases hfirst
  · obtain ⟨station, hget, hzero⟩ := findStation_some hfound
    have hstation := List.mem_of_getElem? hget
    obtain ⟨hlen, heq⟩ := hfill.eq_concat hstation hzero hlong
    exact ⟨hlen, .inl ⟨station, hstation, heq⟩⟩
  · obtain ⟨j, hfound, -, hj⟩ | ⟨-, -, hsame, -⟩ | ⟨-, -, -, hj⟩ := findOrAddStation_cases hsecond
    · obtain ⟨station, hget, hzero⟩ := findStation_some hfound
      rw [← Option.some.inj hj, Option.some.inj hi, List.getElem?_concat_length,
        Option.some.injEq] at hget
      obtain ⟨hmem, -, heq⟩ := strcmp_eq_zero (hget ▸ hzero)
      obtain hle | hkept := newStation_shows.mp ⟨hmem, heq⟩
      · exact absurd hle hshort
      · exact ⟨hkept.1, .inr hkept.2⟩
    · -- a second entry
      have := congrArg List.length hsame
      simp at this
    · cases hj
  · cases hi

end Twice

/-! ## Runs that keep their names -/

section Runs

variable {dblMax : D} {stack : Stack} {stations : List (StationData D)}
  {log : List (List UInt8 × Option Nat)}

/-- What the table shows of the calls: one entry for each name. -/
structure OneToOne (log : List (List UInt8 × Option Nat)) (keys : List (List UInt8)) :
    Prop where
  terminated : ∀ key ∈ keys, 0 ∈ key
  nodup : (keys.map content).Nodup
  returned : ∀ name i, (name, some i) ∈ log → (keys.map content)[i]? = some name

theorem OneToOne.start : OneToOne [] [] :=
  ⟨List.forall_mem_nil _, List.nodup_nil, fun _ _ h => (List.not_mem_nil h).elim⟩

/-- A call that returns an entry of the name, or none. -/
theorem OneToOne.hit {keys : List (List UInt8)} {name : List UInt8} {found : Option Nat}
    (h : OneToOne log keys) (hfound : ∀ i, found = some i → (keys.map content)[i]? = some name) :
    OneToOne (log ++ [(name, found)]) keys := by
  refine ⟨h.terminated, h.nodup, fun name' i hmem => ?_⟩
  rcases List.mem_append.mp hmem with hold | hnew
  · exact h.returned name' i hold
  · obtain ⟨rfl, hi⟩ := Prod.mk.inj (List.mem_singleton.mp hnew)
    exact hfound i hi.symm

/-- A call that adds an entry that shows the name. -/
theorem OneToOne.concat {keys : List (List UInt8)} {key name : List UInt8}
    (h : OneToOne log keys) (hzero : 0 ∈ key) (hshows : content key = name)
    (hfresh : name ∉ keys.map content) :
    OneToOne (log ++ [(name, some keys.length)]) (keys ++ [key]) := by
  have hgrown : OneToOne log (keys ++ [key]) := by
    refine ⟨List.forall_mem_append.mpr ⟨h.terminated, by simpa using hzero⟩, ?_,
      fun name' i hmem => ?_⟩
    · rw [List.map_append, List.map_singleton, hshows]
      exact List.nodup_append.mpr ⟨h.nodup, List.nodup_singleton _, by
        rintro a ha _ hb rfl
        exact hfresh (List.mem_singleton.mp hb ▸ ha)⟩
    · rw [List.map_append]
      obtain ⟨hi, -⟩ := List.getElem?_eq_some_iff.mp (h.returned name' i hmem)
      rw [List.getElem?_append_left hi]
      exact h.returned name' i hmem
  refine hgrown.hit fun i hi => ?_
  rw [← Option.some.inj hi, List.map_append, List.map_singleton, hshows,
    ← List.length_map content, List.getElem?_concat_length]

/-- Names and the entries that they got. -/
theorem OneToOne.eq_iff {keys : List (List UInt8)} {a b : List UInt8} {i j : Nat}
    (h : OneToOne log keys) (ha : (a, some i) ∈ log) (hb : (b, some j) ∈ log) :
    a = b ↔ i = j := by
  have hi := h.returned a i ha
  have hj := h.returned b j hb
  constructor
  · rintro rfl
    obtain ⟨hilt, -⟩ := List.getElem?_eq_some_iff.mp hi
    exact (List.getElem?_inj hilt h.nodup).mp (hi.trans hj.symm)
  · rintro rfl
    exact Option.some.inj (hi.symm.trans hj)

theorem Calls.oneToOne (h : Calls dblMax stack (Keeps stack) log stations) :
    OneToOne log (stations.map StationData.name) := by
  induction h with
  | start => exact OneToOne.start
  | @call log stations name stations' found temperature _ hname hkeeps hcall ih =>
      rw [names_updateStation]
      obtain ⟨i, hfound, rfl, rfl⟩ | ⟨hfound, -, rfl, rfl⟩ | ⟨-, -, rfl, rfl⟩ :=
        findOrAddStation_cases hcall
      · obtain ⟨station, hget, hzero⟩ := findStation_some hfound
        refine ih.hit fun j hj => ?_
        rw [← Option.some.inj hj, List.map_map, List.getElem?_map, hget]
        exact congrArg some (strcmp_eq_zero hzero).2.2
      · obtain ⟨hzero, hshows⟩ := hkeeps.newStation_shows dblMax hname.1 hfound
        have hfresh : content name ∉ (stations.map StationData.name).map content := by
          intro hmem
          obtain ⟨key, hkey, heq⟩ := List.mem_map.mp hmem
          have hterm := ih.terminated key hkey
          obtain ⟨station, hstation, rfl⟩ := List.mem_map.mp hkey
          exact ne_of_findStation_none hname.1 hfound hstation hterm heq
        have hadded := ih.concat hzero hshows hfresh
        rw [List.length_map] at hadded
        rwa [List.map_append, List.map_singleton]
      · exact ih.hit fun j hj => by cases hj

end Runs

/-- **Station keys**: in every table that calls with arbitrary names lead to, a
second call returns the entry of the first one exactly if the entry keeps the
name. Where every call keeps its name, no name owns two entries and no two
names share one. -/
theorem stationKeys (dblMax : D) (stack : Stack) :
    (∀ log stations, Calls dblMax stack (fun _ _ => True) log stations →
      stations.length < maxStations → ∀ name, Admitted name →
        (ReturnsSame dblMax stack stations name ↔ Keeps stack stations name)) ∧
    ∀ log stations, Calls dblMax stack (Keeps stack) log stations →
      ∀ a b i j, (a, some i) ∈ log → (b, some j) ∈ log → (a = b ↔ i = j) := by
  refine ⟨fun log stations h hroom name hname => ?_, fun log stations h a b i j ha hb => ?_⟩
  · exact ⟨fun hsame => hsame.keeps h.keysFill,
      fun hkeeps => hkeeps.returnsSame dblMax h.keysFill hroom hname⟩
  · exact h.oneToOne.eq_iff ha hb

/-- Memory with zero bytes in the second entry only. -/
def zeroSecond : Stack := ⟨fun k _ => if k = 1 then 0 else 1, fun _ _ => 1⟩

/-- After a call for `a` the table has one entry; a name of 99 bytes fills the next one. -/
theorem stationKeys_second : ∃ stations, stations.length = 1 ∧
    ReturnsSame (1000 : Int) zeroSecond stations (List.replicate 99 97 ++ [0]) := by
  have hname : Admitted [97, 0] := ⟨by decide, by decide⟩
  have hcalls : Calls (1000 : Int) zeroSecond (fun _ _ => True) _ _ :=
    .call 5 .start hname trivial rfl
  have hlen : (content (List.replicate 99 97 ++ [0])).length = 99 := by decide
  exact ⟨_, rfl, ((stationKeys (1000 : Int) zeroSecond).1 _ _ hcalls (by decide)
    (List.replicate 99 97 ++ [0]) ⟨by simp, by rw [hlen]; decide⟩).mpr
      (.inr ⟨hlen, .inr (by decide)⟩)⟩

/-- A name of 99 bytes in memory without a zero byte. -/
theorem not_stationKeys : ¬ ∀ (dblMax : Int) (stack : Stack)
    (log : List (List UInt8 × Option Nat)) (stations : List (StationData Int)),
    Calls dblMax stack (fun _ _ => True) log stations → stations.length < maxStations →
    ∀ name, Admitted name → ReturnsSame dblMax stack stations name := by
  intro h
  have hstart : Calls (1000 : Int) ⟨fun _ _ => 1, fun _ _ => 1⟩ (fun _ _ => True) [] [] := .start
  have hlen : (content (List.replicate 99 97 ++ [0])).length = 99 := by decide
  have hsame := h 1000 _ [] [] hstart (by decide) (List.replicate 99 97 ++ [0])
    ⟨by simp, by rw [hlen]; decide⟩
  rcases hsame.keeps hstart.keysFill with hshort | ⟨-, ⟨station, hstation, -⟩ | hmemory⟩
  · rw [hlen] at hshort
    exact absurd hshort (by decide)
  · cases hstation
  · exact absurd hmemory (by decide)

end OsInParts.FileIO
