import OsInParts.Paging.FrameAllocation

/-!
# Statistics — the page table size `print_statistics` reports

The report multiplies the size of one page table by `page_faults`, and every
page accessed for the first time counts as a fault. A table is allocated only
for the first page under its directory entry, so the report is right for the
runs that never access two pages under one entry, and too large for all
others (`ptSize_eq_iff`).
-/

namespace OsInParts.Paging

/-! ## The report -/

/-- `sizeof(PageTableEntry)`: 20 + 1 + 11 bits. -/
def sizeofPageTableEntry : UInt64 := 4

/-- `sizeof(PageDirectoryEntry)`: one pointer. -/
def sizeofPageDirectoryEntry : UInt64 := 8

/-- What `print_statistics` prints, but for the floating-point hit ratio; the
sizes are `size_t`. -/
structure Statistics where
  pageFaults : UInt32
  pageHits : UInt32
  pdSize : UInt64
  ptSize : UInt64
  deriving DecidableEq

def printStatistics (s : State) : Statistics :=
  { pageFaults := s.pageFaults
    pageHits := s.pageHits
    pdSize := sizeofPageDirectoryEntry * UInt64.ofNat pageTableEntries
    ptSize := sizeofPageTableEntry * UInt64.ofNat pageTableEntries * s.pageFaults.toUInt64 }

/-- The number of non-NULL entries of `page_directory`. -/
def allocatedTables (s : State) : Nat :=
  (Finset.univ.filter fun pd => (s.pageDirectory pd).isSome).card

/-- The bytes of page tables that have been allocated. -/
def tableBytes (s : State) : Nat :=
  pageTableEntries * sizeofPageTableEntry.toNat * allocatedTables s

/-- No two different pages under one directory entry are accessed. -/
def OnePagePerTable (ops : List Op) : Prop :=
  ∀ op ∈ ops, ∀ op' ∈ ops,
    pdIndex op.address = pdIndex op'.address → ptIndex op.address = ptIndex op'.address

/-- The size fits a `size_t` whatever the counter. -/
theorem ptSize_toNat (s : State) :
    (printStatistics s).ptSize.toNat = 4096 * s.pageFaults.toNat := by
  have hlt := s.pageFaults.toNat_lt
  have hsize : (sizeofPageTableEntry * UInt64.ofNat pageTableEntries).toNat = 4096 := rfl
  rw [printStatistics, UInt64.toNat_mul, hsize, UInt32.toNat_toUInt64]
  exact Nat.mod_eq_of_lt (by omega)

theorem tableBytes_eq (s : State) : tableBytes s = 4096 * allocatedTables s := rfl

/-! ## Which tables a run has allocated -/

theorem handlePageFault_directory (s : State) (pd pt pd' : Fin pageTableEntries) :
    ((handlePageFault s pd pt).pageDirectory pd').isSome ↔
      pd' = pd ∨ (s.pageDirectory pd').isSome := by
  by_cases h : pd' = pd
  · subst h
    simp only [handlePageFault, allocateFrame]
    split <;> simp
  · simp only [handlePageFault, allocateFrame]
    split <;> simp [h]

/-- A hit finds its table, a fault allocates one where there was none. -/
theorem translateAddress_directory (s : State) (va : UInt32) (pd : Fin pageTableEntries) :
    ((translateAddress s va).2.pageDirectory pd).isSome ↔
      pd = pdIndex va ∨ (s.pageDirectory pd).isSome := by
  cases hva : frameOf s (pageOf va) with
  | some frame =>
      -- the page is mapped, so its table is there
      have htable : (s.pageDirectory (pdIndex va)).isSome := by
        obtain ⟨table, ht, -⟩ := Option.bind_eq_some_iff.mp hva
        exact Option.isSome_of_eq_some ht
      rw [translateAddress_hit hva]
      constructor
      · exact .inr
      · intro h
        rcases h with rfl | h
        · exact htable
        · exact h
  | none =>
      rw [translateAddress_fault hva]
      exact handlePageFault_directory s (pdIndex va) (ptIndex va) pd

/-- **Allocated tables**: a directory entry has a table exactly if a page
under it has been accessed. -/
theorem run_directory (ops : List Op) (pd : Fin pageTableEntries) :
    ((run initial ops).pageDirectory pd).isSome ↔ ∃ op ∈ ops, pdIndex op.address = pd := by
  induction ops using List.reverseRecOn with
  | nil => simp [run, initial]
  | append_singleton ops op ih =>
      have hstep : ((run initial (ops ++ [op])).pageDirectory pd).isSome ↔
          pd = pdIndex op.address ∨ ((run initial ops).pageDirectory pd).isSome := by
        rw [run_append]
        cases op with
        | load va => exact translateAddress_directory _ va pd
        | store va value =>
            show ((store (run initial ops) va value).pageDirectory pd).isSome ↔ _
            rw [store_eq]
            exact translateAddress_directory _ va pd
      rw [hstep, ih]
      simp [or_comm, or_and_right, exists_or, eq_comm]

/-! ## Pages against tables -/

/-- The directory and table indices of the accessed pages. -/
def accessedEntries (ops : List Op) : Finset Page :=
  (ops.map fun op => pageOf op.address).toFinset

theorem mem_accessedEntries {ops : List Op} {page : Page} :
    page ∈ accessedEntries ops ↔ ∃ op ∈ ops, pageOf op.address = page := by
  simp [accessedEntries]

theorem accessedEntries_eq (ops : List Op) :
    accessedEntries ops = (accessedPages ops).image entryIndex := by
  ext page
  simp [mem_accessedEntries, accessedPages, pageOf_eq]

/-- One fault for each accessed page. -/
theorem run_faults (ops : List Op) :
    (run initial ops).pageFaults.toNat = (accessedEntries ops).card := by
  have hall := allocated_run ops
  rw [hall.faults, accessedEntries_eq, Finset.card_image_of_injOn hall.entries.injOn]

/-- One table for each directory entry with an accessed page. -/
theorem run_tables (ops : List Op) :
    allocatedTables (run initial ops) = ((accessedEntries ops).image Prod.fst).card := by
  apply congrArg Finset.card
  ext pd
  rw [Finset.mem_filter, run_directory]
  simp [mem_accessedEntries, pageOf]

theorem onePagePerTable_iff (ops : List Op) :
    OnePagePerTable ops ↔ Set.InjOn Prod.fst (accessedEntries ops : Set Page) := by
  constructor
  · intro h page hpage page' hpage' heq
    obtain ⟨op, hop, rfl⟩ := mem_accessedEntries.mp hpage
    obtain ⟨op', hop', rfl⟩ := mem_accessedEntries.mp hpage'
    exact Prod.ext heq (h op hop op' hop' heq)
  · intro h op hop op' hop' heq
    have hpage : pageOf op.address = pageOf op'.address :=
      h (mem_accessedEntries.mpr ⟨op, hop, rfl⟩) (mem_accessedEntries.mpr ⟨op', hop', rfl⟩) heq
    exact congrArg Prod.snd hpage

/-- The report is never too small. -/
theorem tableBytes_le_ptSize (ops : List Op) :
    tableBytes (run initial ops) ≤ (printStatistics (run initial ops)).ptSize.toNat := by
  rw [tableBytes_eq, ptSize_toNat, run_faults, run_tables]
  exact Nat.mul_le_mul_left 4096 Finset.card_image_le

/-- **The reported page table size** is the size of the tables allocated
exactly after those commands that access no two pages under one directory
entry. -/
theorem ptSize_eq_iff (ops : List Op) :
    (printStatistics (run initial ops)).ptSize.toNat = tableBytes (run initial ops) ↔
      OnePagePerTable ops := by
  rw [tableBytes_eq, ptSize_toNat, run_faults, run_tables, onePagePerTable_iff,
    ← Finset.card_image_iff]
  constructor
  · intro h
    omega
  · intro h
    rw [h]

/-- Two neighbouring pages share one table. -/
theorem ptSize_counts_pages :
    ¬ ∀ ops : List Op,
      (printStatistics (run initial ops)).ptSize.toNat = tableBytes (run initial ops) := by
  intro hclaim
  have h := hclaim [.load 0, .load 4096]
  have hpages : accessedEntries [.load 0, .load 4096] = {(0, 0), (0, 1)} := by decide
  rw [tableBytes_eq, ptSize_toNat, run_faults, run_tables, hpages] at h
  revert h
  decide

end OsInParts.Paging
