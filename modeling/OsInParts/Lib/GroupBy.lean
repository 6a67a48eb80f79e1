import Mathlib.Data.List.Induction
import Mathlib.Data.List.Nodup

/-!
# GroupBy — a table filled by linear search groups a stream of records

A record is a key and a value. The table holds an entry for each key it has
seen, in the order in which they came, up to a capacity (`Summary.add`): the
first entry of the key takes the value in, a key without an entry gets one at
the end while there is room, and is ignored after that.

* `keys`, `values` — the distinct keys of a stream in the order in which they
  come first, and the values that it gives to a key;
* `Summary.table_eq` — the table is the list of the groups of the first keys.
-/

namespace Lib.GroupBy

variable {K V S : Type*} [DecidableEq K]

/-- A new element is kept if it has not come before. -/
theorem eraseDups_concat (as : List K) (a : K) :
    (as ++ [a]).eraseDups = if a ∈ as.eraseDups then as.eraseDups else as.eraseDups ++ [a] := by
  rw [List.eraseDups_append]
  by_cases h : a ∈ as
  · rw [if_pos (List.mem_eraseDups.mpr h)]
    simp [List.removeAll, h]
  · rw [if_neg (mt List.mem_eraseDups.mp h)]
    simp [List.removeAll, h, List.eraseDups_cons]

theorem eraseDups_of_nodup {as : List K} (h : as.Nodup) : as.eraseDups = as := by
  induction as using List.reverseRecOn with
  | nil => rfl
  | append_singleton as a ih =>
      obtain ⟨hnodup, -, hne⟩ := List.nodup_append.mp h
      have ha : a ∉ as := fun ha => hne a ha a List.mem_cons_self rfl
      rw [eraseDups_concat, ih hnodup, if_neg ha]

theorem length_eraseDups_le_append (as bs : List K) :
    as.eraseDups.length ≤ (as ++ bs).eraseDups.length := by
  rw [List.eraseDups_append, List.length_append]
  exact Nat.le_add_right _ _

/-! ## Streams of records -/

/-- The distinct keys, in order of first appearance. -/
def keys (rs : List (K × V)) : List K := (rs.map Prod.fst).eraseDups

/-- The values of a key, in order. -/
def values (rs : List (K × V)) (k : K) : List V := (rs.filter (·.1 = k)).map Prod.snd

variable {rs : List (K × V)} {r : K × V} {k : K}

theorem mem_keys : k ∈ keys rs ↔ k ∈ rs.map Prod.fst := List.mem_eraseDups

theorem keys_concat (rs : List (K × V)) (r : K × V) :
    keys (rs ++ [r]) = if r.1 ∈ keys rs then keys rs else keys rs ++ [r.1] := by
  rw [keys, List.map_append, List.map_singleton, eraseDups_concat]
  rfl

theorem nodup_keys (rs : List (K × V)) : (keys rs).Nodup := by
  induction rs using List.reverseRecOn with
  | nil => exact List.nodup_nil
  | append_singleton rs r ih =>
      rw [keys_concat]
      split
      · exact ih
      · rename_i h
        exact List.nodup_append.mpr ⟨ih, List.nodup_singleton _, by
          rintro a ha _ hb rfl
          exact h (List.mem_singleton.mp hb ▸ ha)⟩

theorem values_concat_self (rs : List (K × V)) (r : K × V) :
    values (rs ++ [r]) r.1 = values rs r.1 ++ [r.2] := by
  simp [values]

theorem values_concat_ne (h : k ≠ r.1) : values (rs ++ [r]) k = values rs k := by
  simp [values, Ne.symm h]

theorem mem_values {v : V} : v ∈ values rs k ↔ (k, v) ∈ rs := by
  simp [values]

/-- Only a key of the stream has values. -/
theorem values_ne_nil : values rs k ≠ [] ↔ k ∈ keys rs := by
  simp [values, mem_keys]

theorem values_of_notMem (h : k ∉ keys rs) : values rs k = [] :=
  not_not.mp (mt values_ne_nil.mp h)

/-! ## The table -/

/-- How an entry summarises the values of its key. -/
structure Summary (K V S : Type*) where
  key : S → K
  /-- The entry without a value. -/
  fresh : K → S
  update : S → V → S
  key_fresh : ∀ k, key (fresh k) = k
  key_update : ∀ s v, key (update s v) = key s

namespace Summary

variable (G : Summary K V S) (capacity : Nat)

/-- One record. -/
def add (entries : List S) (r : K × V) : List S :=
  match entries.findIdx? (fun s => G.key s = r.1) with
  | some i => entries.modify i fun s => G.update s r.2
  | none =>
      if entries.length < capacity then entries ++ [G.update (G.fresh r.1) r.2] else entries

/-- The table of a stream. -/
def table (rs : List (K × V)) : List S := rs.foldl (G.add capacity) []

/-- The entry that summarises all values of a key. -/
def group (rs : List (K × V)) (k : K) : S := (values rs k).foldl G.update (G.fresh k)

omit [DecidableEq K] in
theorem key_foldl (vs : List V) (s : S) : G.key (vs.foldl G.update s) = G.key s := by
  induction vs generalizing s with
  | nil => rfl
  | cons v vs ih => rw [List.foldl_cons, ih, G.key_update]

theorem key_group (rs : List (K × V)) (k : K) : G.key (G.group rs k) = k := by
  rw [group, key_foldl, G.key_fresh]

theorem group_concat_self (rs : List (K × V)) (r : K × V) :
    G.group (rs ++ [r]) r.1 = G.update (G.group rs r.1) r.2 := by
  rw [group, values_concat_self, List.foldl_append]
  rfl

theorem group_concat_ne (h : k ≠ r.1) : G.group (rs ++ [r]) k = G.group rs k := by
  rw [group, values_concat_ne h, group]

variable {ks : List K} {g g' : K → S}

/-- A record of a key that has an entry. -/
theorem add_of_mem (hnodup : ks.Nodup) (hkey : ∀ k, G.key (g k) = k) (hr : r.1 ∈ ks)
    (hself : g' r.1 = G.update (g r.1) r.2) (hne : ∀ k, k ≠ r.1 → g' k = g k) :
    G.add capacity (ks.map g) r = ks.map g' := by
  unfold add
  cases hfind : (ks.map g).findIdx? fun s => G.key s = r.1 with
  | none =>
      have hall := List.findIdx?_eq_none_iff.mp hfind (g r.1) (List.mem_map_of_mem hr)
      exact absurd (hkey r.1) (of_decide_eq_false hall)
  | some i =>
      obtain ⟨hi, hfound, -⟩ := List.findIdx?_eq_some_iff_getElem.mp hfind
      rw [decide_eq_true_eq, List.getElem_map, hkey] at hfound
      rw [List.length_map] at hi
      dsimp only
      refine List.ext_getElem (by simp) fun j hj hj' => ?_
      rw [List.length_map] at hj'
      rw [List.getElem_modify, List.getElem_map, List.getElem_map]
      by_cases hij : i = j
      · subst hij
        rw [if_pos rfl, hfound, hself]
      · have hother : ks[j] ≠ r.1 := fun h =>
          hij (hnodup.getElem_inj_iff.mp (hfound.trans h.symm))
        rw [if_neg hij, hne _ hother]

/-- A record of a key that has none. -/
theorem add_of_notMem (hkey : ∀ k, G.key (g k) = k) (hr : r.1 ∉ ks) :
    G.add capacity (ks.map g) r
      = if ks.length < capacity then ks.map g ++ [G.update (G.fresh r.1) r.2]
        else ks.map g := by
  have hfind : ((ks.map g).findIdx? fun s => G.key s = r.1) = none := by
    refine List.findIdx?_eq_none_iff.mpr fun s hs => decide_eq_false ?_
    obtain ⟨k, hk, rfl⟩ := List.mem_map.mp hs
    rw [hkey]
    exact fun h => hr (h ▸ hk)
  rw [add, hfind, List.length_map]

/-- Records of other keys. -/
theorem map_group_concat (h : r.1 ∉ ks) :
    ks.map (G.group (rs ++ [r])) = ks.map (G.group rs) :=
  List.map_congr_left fun _ hk => G.group_concat_ne fun heq => h (heq ▸ hk)

/-- **The table** holds the groups of the keys that came first. -/
theorem table_eq (rs : List (K × V)) :
    G.table capacity rs = ((keys rs).take capacity).map (G.group rs) := by
  induction rs using List.reverseRecOn with
  | nil => simp [table, keys]
  | append_singleton rs r ih =>
      rw [table, List.foldl_append, List.foldl_cons, List.foldl_nil, ← table, ih, keys_concat]
      have hkey := G.key_group rs
      have hlen : ((keys rs).take capacity).length = min capacity (keys rs).length :=
        List.length_take
      by_cases htake : r.1 ∈ (keys rs).take capacity
      · rw [if_pos (List.mem_of_mem_take htake)]
        exact G.add_of_mem capacity ((nodup_keys rs).sublist (List.take_sublist _ _)) hkey htake
          (G.group_concat_self rs r) fun k hk => G.group_concat_ne hk
      · rw [G.add_of_notMem capacity hkey htake, hlen]
        by_cases hmem : r.1 ∈ keys rs
        · -- an entry was refused to the key before
          have hfull : capacity < (keys rs).length := by
            by_contra hle
            exact htake ((List.take_of_length_le (Nat.not_lt.mp hle)).symm ▸ hmem)
          rw [if_pos hmem, if_neg (by omega), G.map_group_concat htake]
        · rw [if_neg hmem]
          by_cases hroom : (keys rs).length < capacity
          · have hfresh : G.group (rs ++ [r]) r.1 = G.update (G.fresh r.1) r.2 := by
              rw [group_concat_self, group, values_of_notMem hmem, List.foldl_nil]
            rw [if_pos (by omega), List.take_of_length_le (Nat.le_of_lt hroom),
              List.take_of_length_le (by rw [List.length_append]; exact hroom), List.map_append,
              List.map_singleton, hfresh, G.map_group_concat hmem]
          · rw [if_neg (by omega), List.take_append_of_le_length (Nat.not_lt.mp hroom),
              G.map_group_concat htake]

end Summary

end Lib.GroupBy
