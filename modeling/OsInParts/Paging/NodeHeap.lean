import OsInParts.Lib.LinkedList
import OsInParts.Paging.FrameAllocation

/-!
# NodeHeap — the page tables and the memory list as they lie in the heap

`PageTable` has a page table where the source has a pointer to one, and a list
where it has nodes with `next` pointers. Here are the same functions over a
heap of page tables and a heap of nodes; what reads or frees a pointer that is
NULL or dangling is undefined (`none`). `malloc` and `calloc` pick any address
that is not in use.

The heap mirrors the state of `PageTable` throughout (`Mirrors`): every table
belongs to one entry of the directory, every node is on the list once. So no
session has undefined behaviour, all of them get the answers of `PageTable`,
and the clean-up frees everything, each block once (`heap_session`).
-/

namespace OsInParts.Paging

open Lib Lib.LinkedList

/-- The tables and the nodes that are allocated, with the globals. -/
structure HeapState where
  tables : Finmap fun _ : ℕ => PageTable
  nodes : LinkedList.Heap PhysicalMemoryNode
  pageDirectory : Fin pageTableEntries → Option ℕ
  physicalMemory : Option ℕ
  pageFaults : UInt32
  pageHits : UInt32
  nextFrame : UInt32

structure Allocator where
  malloc : Malloc
  calloc : Malloc

namespace HeapState

/-- NULL pointers and zeros. -/
def initial : HeapState :=
  { tables := ∅, nodes := ∅, pageDirectory := fun _ => none, physicalMemory := none,
    pageFaults := 0, pageHits := 0, nextFrame := 0 }

variable (alloc : Allocator)

/-- `page_directory[pd].page_table[pt]`. -/
def entry (t : HeapState) (pd pt : Fin pageTableEntries) : Option PageTableEntry := do
  let pageTable ← t.pageDirectory pd
  let table ← t.tables.lookup pageTable
  return table pt

/-- The first `if` of `handle_page_fault`. -/
def provideTable (t : HeapState) (pd : Fin pageTableEntries) : HeapState :=
  match t.pageDirectory pd with
  | some _ => t
  | none =>
      let pageTable := alloc.calloc.pick t.tables.keys
      { t with
        tables := t.tables.insert pageTable callocTable
        pageDirectory := Function.update t.pageDirectory pd (some pageTable) }

/-- Two fields of an entry are assigned. -/
def setEntry (t : HeapState) (pd pt : Fin pageTableEntries) (e : PageTableEntry) :
    Option HeapState := do
  let pageTable ← t.pageDirectory pd
  let table ← t.tables.lookup pageTable
  return { t with tables := t.tables.insert pageTable (Function.update table pt e) }

/-- The second `if` of `handle_page_fault`. -/
def mapEntry (t : HeapState) (pd pt : Fin pageTableEntries) : Option HeapState := do
  let e ← t.entry pd pt
  if e.valid then return t
  else
    let frame := t.nextFrame
    let t := { t with nextFrame := t.nextFrame + 1 }
    t.setEntry pd pt { frameNumber := frame.toBitVec.setWidth 20, valid := true }

def handlePageFault (t : HeapState) (pd pt : Fin pageTableEntries) : Option HeapState :=
  let t := { t with pageFaults := t.pageFaults + 1 }
  (t.provideTable alloc pd).mapEntry pd pt

/-- `page_table == NULL || !page_table[pt].valid`, negated. -/
def present (t : HeapState) (pd pt : Fin pageTableEntries) : Option Bool :=
  match t.pageDirectory pd with
  | none => some false
  | some _ => (t.entry pd pt).map PageTableEntry.valid

/-- The `if` of `translate_address`. -/
def touch (t : HeapState) (pd pt : Fin pageTableEntries) : Option HeapState := do
  let present ← t.present pd pt
  if present then some { t with pageHits := t.pageHits + 1 }
  else t.handlePageFault alloc pd pt

def translateAddress (t : HeapState) (va : UInt32) : Option (UInt32 × HeapState) := do
  let offset := va &&& 0xFFF
  let t ← t.touch alloc (pdIndex va) (ptIndex va)
  let e ← t.entry (pdIndex va) (ptIndex va)
  let frame := UInt32.ofBitVec (e.frameNumber.setWidth 32)
  return ((frame <<< 12) ||| offset, t)

def load (t : HeapState) (va : UInt32) : Option (UInt8 × HeapState) := do
  let (pa, t) ← t.translateAddress alloc va
  let value ← walk t.nodes (fun node => node.address = pa) (fun _ current => current.value.value)
    0 t.physicalMemory
  return (value, t)

def store (t : HeapState) (va : UInt32) (value : UInt8) : Option HeapState := do
  let (pa, t) ← t.translateAddress alloc va
  let newNode := alloc.malloc.pick t.nodes.keys
  walk t.nodes (fun node => node.address = pa)
    (fun current cell =>
      { t with
        nodes := t.nodes.insert current { cell with value := { cell.value with value := value } } })
    { t with
      nodes := t.nodes.insert newNode
        { value := { address := pa, value := value }, next := t.physicalMemory }
      physicalMemory := some newNode }
    t.physicalMemory

/-- One command, with the value that is loaded. -/
def step (t : HeapState) : Op → Option (Option UInt8 × HeapState)
  | .load va => (t.load alloc va).map fun (value, t) => (some value, t)
  | .store va value => (t.store alloc va value).map fun t => (none, t)

/-- A sequence of commands, with what they answer. -/
def run : HeapState → List Op → Option (List (Option UInt8) × HeapState)
  | t, [] => some ([], t)
  | t, op :: ops => do
      let (answer, t) ← t.step alloc op
      let (answers, t) ← run t ops
      return (answer :: answers, t)

/-- `free(page_directory[i].page_table)`. -/
def freeTable (t : HeapState) (pd : Fin pageTableEntries) : Option HeapState :=
  match t.pageDirectory pd with
  | none => some t
  | some pageTable =>
      (t.tables.lookup pageTable).map fun _ => { t with tables := t.tables.erase pageTable }

/-- The two loops of the clean-up, and what is still allocated after them. -/
def cleanUp (t : HeapState) :
    Option ((Finmap fun _ : ℕ => PageTable) × LinkedList.Heap PhysicalMemoryNode) := do
  let t ← (List.finRange pageTableEntries).foldlM freeTable t
  let nodes ← freeAll t.nodes t.physicalMemory
  return (t.tables, nodes)

end HeapState

/-! ## The heap and the state it stands for -/

/-- The same globals, a table for every pointer in the directory and none
besides, and the nodes of the memory list and none besides. -/
structure Mirrors (t : HeapState) (s : State) : Prop where
  faults : t.pageFaults = s.pageFaults
  hits : t.pageHits = s.pageHits
  frames : t.nextFrame = s.nextFrame
  directory : ∀ pd, (t.pageDirectory pd).bind t.tables.lookup = s.pageDirectory pd
  live : ∀ pd p, t.pageDirectory pd = some p → p ∈ t.tables
  owned : ∀ p ∈ t.tables, ∃ pd, t.pageDirectory pd = some p
  apart : ∀ pd pd' p, t.pageDirectory pd = some p → t.pageDirectory pd' = some p → pd = pd'
  memory : ∃ cells, Chain t.nodes t.physicalMemory cells ∧
    cells.map Prod.snd = s.physicalMemory ∧
    t.nodes.keys = (LinkedList.addresses cells).toFinset

theorem mirrors_initial : Mirrors .initial initial where
  faults := rfl
  hits := rfl
  frames := rfl
  directory _ := rfl
  live _ _ h := nomatch h
  owned _ hp := absurd hp Finmap.notMem_empty
  apart _ _ _ h := nomatch h
  memory := ⟨[], rfl, rfl, rfl⟩

/-- The state with another table under one entry of the directory. -/
def State.setTable (s : State) (pd : Fin pageTableEntries) (table : PageTable) : State :=
  { s with pageDirectory := Function.update s.pageDirectory pd (some table) }

variable {alloc : Allocator} {t : HeapState} {s : State} {pd pt : Fin pageTableEntries}

theorem Mirrors.pointer_isSome (h : Mirrors t s) (pd : Fin pageTableEntries) :
    (t.pageDirectory pd).isSome = (s.pageDirectory pd).isSome := by
  rw [← h.directory pd]
  cases hp : t.pageDirectory pd with
  | none => rfl
  | some p => exact (Finmap.lookup_isSome.mpr (h.live pd p hp)).symm

theorem Mirrors.entry (h : Mirrors t s) (pd pt : Fin pageTableEntries) :
    t.entry pd pt = (s.pageDirectory pd).map fun table => table pt := by
  rw [← h.directory pd]
  unfold HeapState.entry
  cases t.pageDirectory pd with
  | none => rfl
  | some p =>
      simp only [Option.bind_eq_bind, Option.bind_some]
      cases t.tables.lookup p <;> rfl

theorem Mirrors.present (h : Mirrors t s) (pd pt : Fin pageTableEntries) :
    t.present pd pt = some (Paging.present s pd pt) := by
  have hsome := h.pointer_isSome pd
  unfold HeapState.present Paging.present
  rw [h.entry pd pt]
  cases hp : t.pageDirectory pd with
  | none =>
      rw [hp] at hsome
      rw [Option.isSome_eq_false_iff.mp hsome.symm |> Option.isNone_iff_eq_none.mp]
  | some p =>
      rw [hp] at hsome
      obtain ⟨table, htable⟩ := Option.isSome_iff_exists.mp hsome.symm
      rw [htable]
      rfl

/-- A table is put at a pointer that belongs to no other entry of the
directory. -/
theorem Mirrors.putTable (h : Mirrors t s) {p : ℕ} (table : PageTable)
    (hp : ∀ pd', t.pageDirectory pd' = some p → pd' = pd)
    (hold : ∀ p', t.pageDirectory pd = some p' → p' = p) :
    Mirrors
      { t with
        tables := t.tables.insert p table
        pageDirectory := Function.update t.pageDirectory pd (some p) }
      (s.setTable pd table) where
  faults := h.faults
  hits := h.hits
  frames := h.frames
  directory pd' := by
    unfold State.setTable
    by_cases hpd : pd' = pd
    · subst hpd
      simp
    · simp only [Function.update_of_ne hpd]
      rw [← h.directory pd']
      cases hq : t.pageDirectory pd' with
      | none => rfl
      | some q =>
          refine Finmap.lookup_insert_of_ne _ ?_
          rintro rfl
          exact hpd (hp pd' hq)
  live pd' q hq := by
    dsimp only at hq
    refine Finmap.mem_insert.mpr ?_
    by_cases hpd : pd' = pd
    · subst hpd
      rw [Function.update_self, Option.some.injEq] at hq
      exact .inl hq.symm
    · rw [Function.update_of_ne hpd] at hq
      exact .inr (h.live pd' q hq)
  owned q hq := by
    rcases Finmap.mem_insert.mp hq with rfl | hmem
    · exact ⟨pd, Function.update_self ..⟩
    · obtain ⟨pd', hpd'⟩ := h.owned q hmem
      by_cases hpd : pd' = pd
      · subst hpd
        exact ⟨pd', (Function.update_self ..).trans (congrArg some (hold q hpd').symm)⟩
      · exact ⟨pd', (Function.update_of_ne hpd ..).trans hpd'⟩
  apart pd₁ pd₂ q h₁ h₂ := by
    dsimp only at h₁ h₂
    by_cases hpd₁ : pd₁ = pd <;> by_cases hpd₂ : pd₂ = pd
    · rw [hpd₁, hpd₂]
    · subst hpd₁
      rw [Function.update_self, Option.some.injEq] at h₁
      rw [Function.update_of_ne hpd₂] at h₂
      exact (hp pd₂ (h₁ ▸ h₂)).symm
    · subst hpd₂
      rw [Function.update_self, Option.some.injEq] at h₂
      rw [Function.update_of_ne hpd₁] at h₁
      exact hp pd₁ (h₂ ▸ h₁)
    · rw [Function.update_of_ne hpd₁] at h₁
      rw [Function.update_of_ne hpd₂] at h₂
      exact h.apart pd₁ pd₂ q h₁ h₂
  memory := h.memory

theorem Mirrors.provideTable (h : Mirrors t s) (pd : Fin pageTableEntries) :
    Mirrors (t.provideTable alloc pd)
      (s.setTable pd ((s.pageDirectory pd).getD callocTable)) := by
  have hsome := h.pointer_isSome pd
  unfold HeapState.provideTable
  cases hp : t.pageDirectory pd with
  | none =>
      rw [hp] at hsome
      have hnone : s.pageDirectory pd = none := by simpa using hsome.symm
      rw [hnone]
      -- `calloc` returns a pointer that no entry has
      refine h.putTable _ (fun pd' hpd' => ?_) fun p' hp' => ?_
      · refine absurd (h.live pd' _ hpd') fun hmem => ?_
        exact alloc.calloc.fresh _ (Finmap.mem_keys.mpr hmem)
      · rw [hp] at hp'
        cases hp'
  | some p =>
      rw [hp] at hsome
      obtain ⟨table, htable⟩ := Option.isSome_iff_exists.mp hsome.symm
      rw [htable, Option.getD_some, State.setTable, ← htable, Function.update_eq_self]
      exact h

theorem Mirrors.setEntry (h : Mirrors t s) {table : PageTable}
    (htable : s.pageDirectory pd = some table) (pt : Fin pageTableEntries) (e : PageTableEntry) :
    ∃ t', t.setEntry pd pt e = some t' ∧
      Mirrors t' (s.setTable pd (Function.update table pt e)) := by
  have hlookup := h.directory pd
  rw [htable] at hlookup
  obtain ⟨p, hp, hlookup⟩ := Option.bind_eq_some_iff.mp hlookup
  have hput := h.putTable (Function.update table pt e)
    (fun pd' hpd' => h.apart pd' pd p hpd' hp) fun p' hp' => by
      rw [hp] at hp'
      exact (Option.some.inj hp').symm
  rw [← hp, Function.update_eq_self] at hput
  exact ⟨_, by simp [HeapState.setEntry, hp, hlookup], hput⟩

theorem Mirrors.mapEntry (h : Mirrors t s) {table : PageTable}
    (htable : s.pageDirectory pd = some table) (pt : Fin pageTableEntries) :
    ∃ t', t.mapEntry pd pt = some t' ∧
      Mirrors t' (if (table pt).valid then s
        else ({ s with nextFrame := s.nextFrame + 1 } : State).setTable pd (Function.update table pt
          { frameNumber := s.nextFrame.toBitVec.setWidth 20, valid := true })) := by
  have hentry : t.entry pd pt = some (table pt) := by rw [h.entry, htable, Option.map_some]
  unfold HeapState.mapEntry
  simp only [hentry, Option.bind_eq_bind, Option.bind_some]
  cases hvalid : (table pt).valid with
  | true => exact ⟨t, rfl, h⟩
  | false =>
      have hframe : Mirrors { t with nextFrame := t.nextFrame + 1 }
          { s with nextFrame := s.nextFrame + 1 } :=
        { h with frames := congrArg (· + 1) h.frames }
      rw [h.frames] at hframe ⊢
      exact hframe.setEntry htable pt _

theorem Mirrors.handlePageFault (h : Mirrors t s) (pd pt : Fin pageTableEntries) :
    ∃ t', t.handlePageFault alloc pd pt = some t' ∧
      Mirrors t' (Paging.handlePageFault s pd pt) := by
  have hfault : Mirrors { t with pageFaults := t.pageFaults + 1 }
      { s with pageFaults := s.pageFaults + 1 } :=
    { h with faults := congrArg (· + 1) h.faults }
  exact (hfault.provideTable pd).mapEntry (Function.update_self ..) pt

/-! ## The commands -/

theorem Mirrors.translateAddress (h : Mirrors t s) (alloc : Allocator) (va : UInt32) :
    ∃ t', t.translateAddress alloc va = some ((Paging.translateAddress s va).1, t') ∧
      Mirrors t' (Paging.translateAddress s va).2 := by
  have hafter : ∃ t', t.touch alloc (pdIndex va) (ptIndex va) = some t' ∧
      Mirrors t' (Paging.translateAddress s va).2 := by
    unfold Paging.translateAddress HeapState.touch
    rw [h.present]
    cases Paging.present s (pdIndex va) (ptIndex va) with
    | true => exact ⟨_, rfl, { h with hits := congrArg (· + 1) h.hits }⟩
    | false => exact h.handlePageFault _ _
  obtain ⟨t', ht', hmirrors⟩ := hafter
  -- the table that is read last has been allocated
  obtain ⟨table, htable⟩ := Option.isSome_iff_exists.mp (translateAddress_allocated s va)
  have hentry : t'.entry (pdIndex va) (ptIndex va) = some (table (ptIndex va)) := by
    rw [hmirrors.entry, htable, Option.map_some]
  have hpa : (Paging.translateAddress s va).1
      = (UInt32.ofBitVec ((table (ptIndex va)).frameNumber.setWidth 32) <<< 12)
        ||| (va &&& 0xFFF) := by
    have hframe : frameNumber (Paging.translateAddress s va).2 (pdIndex va) (ptIndex va)
        = UInt32.ofBitVec ((table (ptIndex va)).frameNumber.setWidth 32) := by
      rw [frameNumber, htable]
    rw [← hframe]
    rfl
  refine ⟨t', ?_, hmirrors⟩
  unfold HeapState.translateAddress
  simp only [Option.bind_eq_bind, Option.bind_some, ht', hentry, hpa]
  rfl

/-- The two list walks stop at the first node with the address. -/
theorem walks_append {pa : UInt32} {before after : List PhysicalMemoryNode}
    {node : PhysicalMemoryNode} (hbefore : ∀ n ∈ before, n.address ≠ pa)
    (hnode : node.address = pa) (value : UInt8) :
    findValue pa (before ++ node :: after) = node.value ∧
      overwrite pa value (before ++ node :: after)
        = some (before ++ { node with value := value } :: after) := by
  induction before with
  | nil => simp [findValue, overwrite, hnode]
  | cons n before ih =>
      have hn := hbefore n List.mem_cons_self
      obtain ⟨hfind, hover⟩ := ih fun m hm => hbefore m (List.mem_cons_of_mem _ hm)
      rw [List.cons_append, findValue, if_neg hn, overwrite, if_neg hn, hover]
      exact ⟨hfind, rfl⟩

/-- A cell that does not pass the test holds a node with another address. -/
theorem address_ne {pa : UInt32} {cells : List (ℕ × PhysicalMemoryNode)}
    (h : ∀ cell ∈ cells, decide (cell.2.address = pa) = false) :
    ∀ node ∈ cells.map Prod.snd, node.address ≠ pa := by
  intro node hnode
  obtain ⟨cell, hcell, rfl⟩ := List.mem_map.mp hnode
  simpa using h cell hcell

theorem Mirrors.load (h : Mirrors t s) (alloc : Allocator) (va : UInt32) :
    ∃ t', t.load alloc va = some ((Paging.load s va).1, t') ∧
      Mirrors t' (Paging.load s va).2 := by
  obtain ⟨t', htranslate, hmirrors⟩ := h.translateAddress alloc va
  obtain ⟨cells, hchain, hlist, -⟩ := hmirrors.memory
  refine ⟨t', ?_, hmirrors⟩
  have hwalk : walk t'.nodes (fun node => node.address = (Paging.translateAddress s va).1)
      (fun _ current => current.value.value) 0 t'.physicalMemory
      = some (Paging.load s va).1 := by
    change _ = some (findValue (Paging.translateAddress s va).1
      (Paging.translateAddress s va).2.physicalMemory)
    rw [← hlist]
    rcases walk_spec (fun node => node.address = (Paging.translateAddress s va).1)
        (fun _ current => current.value.value) (0 : UInt8) hchain with
      ⟨hall, hwalk⟩ | ⟨before, a, node, after, next, rfl, hbefore, hnode, -, hwalk⟩
    · rw [hwalk, findValue_of_absent (address_ne hall)]
    · rw [hwalk, List.map_append, List.map_cons,
        (walks_append (address_ne hbefore) (by simpa using hnode) 0).1]
  unfold HeapState.load
  simp only [htranslate, Option.bind_eq_bind, Option.bind_some, hwalk]
  rfl

theorem Mirrors.store (h : Mirrors t s) (alloc : Allocator) (va : UInt32) (value : UInt8) :
    ∃ t', t.store alloc va value = some t' ∧ Mirrors t' (Paging.store s va value) := by
  obtain ⟨t₁, htranslate, hmirrors⟩ := h.translateAddress alloc va
  obtain ⟨cells, hchain, hlist, hkeys⟩ := hmirrors.memory
  rw [store_eq, storeNode, ← hlist]
  unfold HeapState.store
  simp only [htranslate, Option.bind_eq_bind, Option.bind_some]
  rcases walk_spec (fun node => node.address = (Paging.translateAddress s va).1)
      (fun current cell => ({ t₁ with
        nodes := t₁.nodes.insert current
          { cell with value := { cell.value with value := value } } } : HeapState))
      ({ t₁ with
        nodes := t₁.nodes.insert (alloc.malloc.pick t₁.nodes.keys)
          { value := { address := (Paging.translateAddress s va).1, value := value }
            next := t₁.physicalMemory }
        physicalMemory := some (alloc.malloc.pick t₁.nodes.keys) } : HeapState) hchain with
    ⟨hall, hwalk⟩ | ⟨before, a, node, after, next, rfl, hbefore, hnode, ha, hwalk⟩
  · -- a new node in front
    refine ⟨_, hwalk, { hmirrors with memory := ⟨_, hchain.push (alloc.malloc.fresh _) _, ?_, ?_⟩ }⟩
    · have hnone : overwrite (Paging.translateAddress s va).1 value (cells.map Prod.snd) = none :=
        overwrite_eq_none.mpr fun hmem => by
          obtain ⟨n, hn, hpa⟩ := List.mem_map.mp hmem
          exact address_ne hall n hn hpa
      rw [hnone, List.map_cons]
      rfl
    · rw [keys_insert, hkeys]
      simp [LinkedList.addresses]
  · refine ⟨_, hwalk, { hmirrors with memory := ⟨_, hchain.write ha _, ?_, ?_⟩ }⟩
    · rw [List.map_append, List.map_cons, List.map_append, List.map_cons,
        (walks_append (address_ne hbefore) (by simpa using hnode) value).2]
      rfl
    · rw [keys_insert, hkeys, LinkedList.addresses, List.map_append, List.map_cons,
        LinkedList.addresses, List.map_append, List.map_cons]
      exact Finset.insert_eq_of_mem (List.mem_toFinset.mpr (by simp))

/-! ## Sessions -/

theorem Mirrors.step (h : Mirrors t s) (alloc : Allocator) (op : Op) :
    ∃ t' s', t.step alloc op = some ((Paging.step s op).1, t') ∧
      (Paging.step s op).2 = some s' ∧ Mirrors t' s' := by
  cases op with
  | load va =>
      obtain ⟨t', hload, hmirrors⟩ := h.load alloc va
      exact ⟨t', _, by rw [HeapState.step, hload]; rfl, rfl, hmirrors⟩
  | store va value =>
      obtain ⟨t', hstore, hmirrors⟩ := h.store alloc va value
      exact ⟨t', _, by rw [HeapState.step, hstore]; rfl, rfl, hmirrors⟩

theorem Mirrors.run (h : Mirrors t s) (alloc : Allocator) (ops : List Op) :
    ∃ t' s', t.run alloc ops = some (Machine.outputs Paging.step s ops, t') ∧
      Machine.final Paging.step s ops = some s' ∧ Mirrors t' s' := by
  induction ops generalizing t s with
  | nil => exact ⟨t, s, rfl, rfl, h⟩
  | cons op ops ih =>
      obtain ⟨t₁, s₁, hstep, hs₁, h₁⟩ := h.step alloc op
      obtain ⟨t₂, s₂, hrun, hs₂, h₂⟩ := ih h₁
      refine ⟨t₂, s₂, ?_, ?_, h₂⟩
      · have houtputs : Machine.outputs Paging.step s (op :: ops)
            = (Paging.step s op).1 :: Machine.outputs Paging.step s₁ ops := by
          rw [Machine.outputs]
          split
          · rename_i answer hnone
            rw [hnone] at hs₁
            cases hs₁
          · rename_i answer s' hsome
            rw [hsome] at hs₁ ⊢
            cases hs₁
            rfl
        rw [HeapState.run, houtputs]
        simp only [hstep, hrun, Option.bind_eq_bind, Option.bind_some]
        rfl
      · rw [Machine.final, hs₁]
        exact hs₂

/-- The tables that the first loop of the clean-up has not come to. -/
structure Freeing (t t' : HeapState) (k : ℕ) : Prop where
  directory : t'.pageDirectory = t.pageDirectory
  nodes : t'.nodes = t.nodes ∧ t'.physicalMemory = t.physicalMemory
  tables : ∀ p, p ∈ t'.tables ↔ ∃ pd : Fin pageTableEntries, k ≤ pd.val ∧
    t.pageDirectory pd = some p

/-- Every table is freed, once. -/
theorem Mirrors.freeTables (h : Mirrors t s) :
    ∃ t', (List.finRange pageTableEntries).foldlM HeapState.freeTable t = some t' ∧
      Freeing t t' pageTableEntries := by
  refine Loop.for_rule (fun k t' => Freeing t t' k) (fun pd t' hf => ?_)
    ⟨rfl, ⟨rfl, rfl⟩, fun p => ⟨fun hp => ?_, ?_⟩⟩
  · have hdirectory : t'.pageDirectory pd = t.pageDirectory pd := by rw [hf.directory]
    cases hp : t.pageDirectory pd with
    | none =>
        rw [hp] at hdirectory
        refine ⟨t', by rw [HeapState.freeTable, hdirectory], hf.directory, hf.nodes, fun q => ?_⟩
        rw [hf.tables q]
        refine exists_congr fun pd' => and_congr_left fun hq => ?_
        have hne : pd'.val ≠ pd.val := fun heq => by
          rw [Fin.ext heq, hp] at hq
          cases hq
        omega
    | some p =>
        have hmem : p ∈ t'.tables := (hf.tables p).mpr ⟨pd, Nat.le_refl _, hp⟩
        obtain ⟨table, htable⟩ := Finmap.mem_iff.mp hmem
        rw [hp] at hdirectory
        refine ⟨{ t' with tables := t'.tables.erase p }, ?_, hf.directory, hf.nodes, fun q => ?_⟩
        · simp only [HeapState.freeTable, hdirectory, htable, Option.map_some]
        change q ∈ t'.tables.erase p ↔ _
        rw [Finmap.mem_erase, hf.tables q]
        constructor
        · rintro ⟨hne, pd', hle, hq⟩
          refine ⟨pd', ?_, hq⟩
          have hne' : pd'.val ≠ pd.val := fun heq => by
            rw [Fin.ext heq, hp] at hq
            exact hne (Option.some.inj hq).symm
          omega
        · rintro ⟨pd', hlt, hq⟩
          refine ⟨?_, pd', by omega, hq⟩
          -- no two entries share a table
          rintro rfl
          have hsame := congrArg Fin.val (h.apart pd pd' q hp hq)
          omega
  · obtain ⟨pd, hpd⟩ := h.owned p hp
    exact ⟨pd, Nat.zero_le _, hpd⟩
  · rintro ⟨pd, -, hpd⟩
    exact h.live pd p hpd

theorem Mirrors.cleanUp (h : Mirrors t s) : t.cleanUp = some (∅, ∅) := by
  obtain ⟨t', htables, hfreed⟩ := h.freeTables
  obtain ⟨cells, hchain, -, hkeys⟩ := h.memory
  obtain ⟨nodes, hnodes, hleft⟩ := freeAll_spec hchain
  have hempty : t'.tables = ∅ := Finmap.ext_lookup fun p => by
    rw [Finmap.lookup_empty, Finmap.lookup_eq_none, hfreed.tables]
    rintro ⟨pd, hle, -⟩
    exact absurd pd.isLt (Nat.not_lt.mpr hle)
  have hnone : nodes = ∅ := Finmap.ext_lookup fun a => by
    rw [Finmap.lookup_empty, Finmap.lookup_eq_none, ← Finmap.mem_keys, hleft, hkeys,
      Finset.sdiff_self]
    exact Finset.notMem_empty a
  unfold HeapState.cleanUp
  simp only [htables, Option.bind_eq_bind, Option.bind_some, hfreed.nodes.1, hfreed.nodes.2,
    hnodes, hempty, hnone]
  rfl

/-- **No session goes wrong in the heap**: whatever addresses `malloc` and
`calloc` pick, no sequence of commands reads or writes through a pointer that is
NULL or dangling, the answers are those of the page table and list of
`PageTable`, and the clean-up frees every block that is left exactly once. -/
theorem heap_session (alloc : Allocator) (ops : List Op) :
    ∃ t, HeapState.initial.run alloc ops = some (Machine.outputs Paging.step initial ops, t) ∧
      Mirrors t (run initial ops) ∧ t.cleanUp = some (∅, ∅) := by
  obtain ⟨t, s, hrun, hfinal, hmirrors⟩ := mirrors_initial.run alloc ops
  rw [final_step_eq_run] at hfinal
  cases hfinal
  exact ⟨t, hrun, hmirrors, hmirrors.cleanUp⟩

end OsInParts.Paging
