import Mathlib.Data.Finmap
import OsInParts.Lib.Loop

/-!
# LinkedList — singly linked lists in a heap

A heap is a finite map from addresses to cells, a pointer an optional address.
`Chain` says which list a pointer leads to, cell by cell; it determines that
list (`Chain.unique`), and for that reason no address comes twice
(`Chain.nodup`).

The two loops that are run on such a list are here with what they do: the
search for the first value that passes a test (`walk_spec`), and the loop that
frees every cell (`freeAll_spec`). Reading or freeing a cell that is not there
is undefined, so both lemmas also say that this does not happen.
-/

namespace Lib.LinkedList

open Lib.Loop

structure Cell (α : Type*) where
  value : α
  next : Option ℕ
  deriving DecidableEq

/-- The cells that are allocated. -/
abbrev Heap (α : Type*) := Finmap fun _ : ℕ => Cell α

variable {α ρ : Type*}

/-- An allocator returns an address that is not in use. -/
structure Malloc where
  pick : Finset ℕ → ℕ
  fresh : ∀ used, pick used ∉ used

/-! ## Chains -/

/-- From `p` on the list consists of these addresses and values. -/
def Chain (h : Heap α) : Option ℕ → List (ℕ × α) → Prop
  | p, [] => p = none
  | p, (a, x) :: cells =>
      p = some a ∧ ∃ next, h.lookup a = some ⟨x, next⟩ ∧ Chain h next cells

/-- The addresses of a list. -/
def addresses (cells : List (ℕ × α)) : List ℕ := cells.map Prod.fst

variable {h h' : Heap α} {p : Option ℕ} {cells cells' : List (ℕ × α)} {a : ℕ} {x y : α}

theorem Chain.lookup_isSome (hc : Chain h p cells) (ha : a ∈ addresses cells) :
    (h.lookup a).isSome := by
  induction cells generalizing p with
  | nil => cases ha
  | cons cell cells ih =>
      obtain ⟨b, z⟩ := cell
      obtain ⟨-, next, hb, hrest⟩ := hc
      rcases List.mem_cons.mp ha with rfl | hmem
      · rw [hb]
        rfl
      · exact ih hrest hmem

/-- A pointer leads to one list. -/
theorem Chain.unique (hc : Chain h p cells) (hc' : Chain h p cells') : cells = cells' := by
  induction cells generalizing p cells' with
  | nil =>
      cases cells' with
      | nil => rfl
      | cons cell cells' => exact absurd (hc.symm.trans hc'.1) (by simp)
  | cons cell cells ih =>
      obtain ⟨a, x⟩ := cell
      obtain ⟨rfl, next, ha, hrest⟩ := hc
      cases cells' with
      | nil => cases hc'
      | cons cell' cells' =>
          obtain ⟨a', x'⟩ := cell'
          obtain ⟨heq, next', ha', hrest'⟩ := hc'
          cases heq
          rw [ha] at ha'
          cases ha'
          rw [ih hrest hrest']

/-- The rest of a list is the list of its first cell. -/
theorem Chain.tail {after : List (ℕ × α)} (before : List (ℕ × α))
    (hc : Chain h p (before ++ (a, x) :: after)) :
    Chain h (some a) ((a, x) :: after) := by
  induction before generalizing p with
  | nil =>
      obtain ⟨rfl, hrest⟩ := hc
      exact ⟨rfl, hrest⟩
  | cons cell before ih =>
      obtain ⟨b, z⟩ := cell
      obtain ⟨-, next, -, hrest⟩ := hc
      exact ih hrest

/-- **No address comes twice**: a list that came back to a cell would be as long
as a part of itself. -/
theorem Chain.nodup (hc : Chain h p cells) : (addresses cells).Nodup := by
  induction cells generalizing p with
  | nil => exact List.nodup_nil
  | cons cell cells ih =>
      obtain ⟨a, x⟩ := cell
      have hself : Chain h (some a) ((a, x) :: cells) := hc.tail []
      obtain ⟨-, next, ha, hrest⟩ := hc
      refine List.nodup_cons.mpr ⟨fun hmem => ?_, ih hrest⟩
      obtain ⟨cell, hcell, hfst⟩ := List.mem_map.mp hmem
      obtain ⟨before, after, heq⟩ := List.append_of_mem hcell
      obtain ⟨b, z⟩ := cell
      obtain rfl : b = a := hfst
      rw [heq] at hrest
      have hlength := congrArg List.length (hself.unique (hrest.tail before))
      rw [heq] at hlength
      simp only [List.length_cons, List.length_append] at hlength
      omega

/-- A list depends on its own cells only. -/
theorem Chain.frame (hc : Chain h p cells)
    (hsame : ∀ a ∈ addresses cells, h'.lookup a = h.lookup a) : Chain h' p cells := by
  induction cells generalizing p with
  | nil => exact hc
  | cons cell cells ih =>
      obtain ⟨a, x⟩ := cell
      obtain ⟨hp, next, ha, hrest⟩ := hc
      refine ⟨hp, next, ?_, ih hrest fun b hb => hsame b (List.mem_cons_of_mem _ hb)⟩
      rw [hsame a List.mem_cons_self, ha]

/-- A cell in front of a list. -/
theorem Chain.push (hc : Chain h p cells) (ha : a ∉ h.keys) (x : α) :
    Chain (h.insert a ⟨x, p⟩) (some a) ((a, x) :: cells) := by
  refine ⟨rfl, p, Finmap.lookup_insert h, hc.frame fun b hb => ?_⟩
  refine Finmap.lookup_insert_of_ne h ?_
  rintro rfl
  exact ha (Finmap.mem_keys.mpr (Finmap.lookup_isSome.mp (hc.lookup_isSome hb)))

theorem keys_insert (h : Heap α) (a : ℕ) (cell : Cell α) :
    (h.insert a cell).keys = insert a h.keys := by
  ext b
  rw [Finmap.mem_keys, Finmap.mem_insert, Finset.mem_insert, Finmap.mem_keys]

/-- A value is overwritten. -/
theorem Chain.write {before after : List (ℕ × α)} {next : Option ℕ}
    (hc : Chain h p (before ++ (a, x) :: after)) (ha : h.lookup a = some ⟨x, next⟩) (y : α) :
    Chain (h.insert a ⟨y, next⟩) p (before ++ (a, y) :: after) := by
  have hnodup := hc.nodup
  induction before generalizing p with
  | nil =>
      obtain ⟨rfl, next', ha', hrest⟩ := hc
      rw [ha] at ha'
      cases ha'
      refine ⟨rfl, next, Finmap.lookup_insert h, hrest.frame fun b hb => ?_⟩
      refine Finmap.lookup_insert_of_ne h ?_
      rintro rfl
      exact (List.nodup_cons.mp hnodup).1 hb
  | cons cell before ih =>
      obtain ⟨b, z⟩ := cell
      obtain ⟨rfl, next', hb, hrest⟩ := hc
      obtain ⟨hfirst, hnodup'⟩ := List.nodup_cons.mp hnodup
      refine ⟨rfl, next', ?_, ih hrest hnodup'⟩
      rw [Finmap.lookup_insert_of_ne h, hb]
      rintro rfl
      exact hfirst (by simp)

/-! ## The search loop -/

/-- `while (current != NULL) { if (test) …; current = current->next; }`, with
what is done at the first cell that passes and at the end. -/
def walkBody (h : Heap α) (test : α → Bool) (found : ℕ → Cell α → ρ) (absent : ρ) :
    Option ℕ → Next (Option ℕ) ρ
  | none => .exit absent
  | some a =>
      match h.lookup a with
      | none => .undefined
      | some cell => if test cell.value then .exit (found a cell) else .again cell.next

/-- The loop in one turn more than there are cells, which is all it takes. -/
def walk (h : Heap α) (test : α → Bool) (found : ℕ → Cell α → ρ) (absent : ρ) (p : Option ℕ) :
    Option ρ :=
  match run (walkBody h test found absent) (h.keys.card + 1) p with
  | .exit r => some r
  | _ => none

/-- No list has more cells than there are. -/
theorem Chain.length_le (hc : Chain h p cells) : cells.length ≤ h.keys.card := by
  have hsub : (addresses cells).toFinset ⊆ h.keys := fun a ha =>
    Finmap.mem_keys.mpr (Finmap.lookup_isSome.mp (hc.lookup_isSome (List.mem_toFinset.mp ha)))
  have hcard := Finset.card_le_card hsub
  rw [List.toFinset_card_of_nodup hc.nodup, addresses, List.length_map] at hcard
  exact hcard

theorem run_walkBody (test : α → Bool) (found : ℕ → Cell α → ρ) (absent : ρ)
    (hc : Chain h p cells) {turns : ℕ} (hturns : cells.length < turns) :
    (∀ cell ∈ cells, test cell.2 = false) ∧
        run (walkBody h test found absent) turns p = .exit absent ∨
      ∃ before a x after next, cells = before ++ (a, x) :: after ∧
        (∀ cell ∈ before, test cell.2 = false) ∧ test x = true ∧
        h.lookup a = some ⟨x, next⟩ ∧
        run (walkBody h test found absent) turns p = .exit (found a ⟨x, next⟩) := by
  induction cells generalizing p turns with
  | nil =>
      obtain rfl : p = none := hc
      have hexit : walkBody h test found absent none = .exit absent := rfl
      exact .inl ⟨by simp, run_exit_of_pos hexit hturns⟩
  | cons cell cells ih =>
      obtain ⟨a, x⟩ := cell
      obtain ⟨rfl, next, ha, hrest⟩ := hc
      cases turns with
      | zero => simp at hturns
      | succ turns =>
          cases htest : test x with
          | true =>
              refine .inr ⟨[], a, x, cells, next, rfl, by simp, htest, ha, ?_⟩
              exact run_exit (by simp [walkBody, ha, htest]) turns
          | false =>
              have hagain : walkBody h test found absent (some a) = .again next := by
                simp [walkBody, ha, htest]
              rw [run_again hagain]
              rcases ih hrest (by simpa using hturns) with ⟨hall, hrun⟩ |
                ⟨before, b, y, after, next', rfl, hbefore, hy, hb, hrun⟩
              · exact .inl ⟨by simpa [htest] using hall, hrun⟩
              · refine .inr ⟨(a, x) :: before, b, y, after, next', rfl, ?_, hy, hb, hrun⟩
                simpa [htest] using hbefore

/-- **The search** comes to an end without reading where there is no cell: at
the first value that passes the test, or behind the last one. -/
theorem walk_spec (test : α → Bool) (found : ℕ → Cell α → ρ) (absent : ρ)
    (hc : Chain h p cells) :
    (∀ cell ∈ cells, test cell.2 = false) ∧ walk h test found absent p = some absent ∨
      ∃ before a x after next, cells = before ++ (a, x) :: after ∧
        (∀ cell ∈ before, test cell.2 = false) ∧ test x = true ∧
        h.lookup a = some ⟨x, next⟩ ∧
        walk h test found absent p = some (found a ⟨x, next⟩) := by
  have hlt : cells.length < h.keys.card + 1 := Nat.lt_succ_of_le hc.length_le
  rcases run_walkBody test found absent hc hlt with
    ⟨hall, hrun⟩ | ⟨before, a, x, after, next, heq, hbefore, hx, ha, hrun⟩
  · exact .inl ⟨hall, by rw [walk, hrun]⟩
  · exact .inr ⟨before, a, x, after, next, heq, hbefore, hx, ha, by rw [walk, hrun]⟩

/-! ## Freeing -/

/-- `temp = head; head = head->next; free(temp)`. -/
def freeFirst (s : Heap α × Option ℕ) : Option (Heap α × Option ℕ) :=
  s.2.bind fun a => (s.1.lookup a).map fun cell => (s.1.erase a, cell.next)

/-- `while (head != NULL)` with that body: the heap that is left. -/
def freeAll (h : Heap α) (p : Option ℕ) : Option (Heap α) :=
  (runWhile (fun s => s.2.isSome) freeFirst (h.keys.card + 1) (h, p)).map Prod.fst

theorem runWhile_freeFirst (hc : Chain h p cells) (turns : ℕ) (hturns : cells.length < turns) :
    ∃ h', runWhile (fun s => s.2.isSome) freeFirst turns (h, p) = some (h', none) ∧
      h'.keys = h.keys \ (addresses cells).toFinset := by
  induction cells generalizing h p turns with
  | nil =>
      obtain rfl : p = none := hc
      cases turns with
      | zero => simp at hturns
      | succ turns => exact ⟨h, by simp [runWhile_succ], by simp [addresses]⟩
  | cons cell cells ih =>
      have hnodup := hc.nodup
      obtain ⟨a, x⟩ := cell
      obtain ⟨rfl, next, ha, hrest⟩ := hc
      have hrest' : Chain (h.erase a) next cells := hrest.frame fun b hb =>
        Finmap.lookup_erase_ne fun hba => (List.nodup_cons.mp hnodup).1 (hba ▸ hb)
      cases turns with
      | zero => simp at hturns
      | succ turns =>
          obtain ⟨h', hrun, hkeys⟩ := ih hrest' turns (by simpa using hturns)
          refine ⟨h', ?_, ?_⟩
          · rw [runWhile_succ]
            simpa [freeFirst, ha] using hrun
          · rw [hkeys, Finmap.keys_erase]
            ext b
            simp only [addresses, List.map_cons, List.toFinset_cons, Finset.mem_sdiff,
              Finset.mem_erase, Finset.mem_insert, not_or]
            exact ⟨fun ⟨⟨hne, hb⟩, hnot⟩ => ⟨hb, hne, hnot⟩,
              fun ⟨hb, hne, hnot⟩ => ⟨⟨hne, hb⟩, hnot⟩⟩

/-- **Every cell of a list is freed**, once. -/
theorem freeAll_spec (hc : Chain h p cells) :
    ∃ h', freeAll h p = some h' ∧ h'.keys = h.keys \ (addresses cells).toFinset := by
  obtain ⟨h', hrun, hkeys⟩ := runWhile_freeFirst hc _ (Nat.lt_succ_of_le hc.length_le)
  exact ⟨h', by rw [freeAll, hrun]; rfl, hkeys⟩

end Lib.LinkedList
