import Mathlib.Data.Set.Function
import OsInParts.Paging.FlatMemory

/-!
# FrameAllocation — directory, counters and list against the history

What a run of loads and stores has accessed and stored decides which page
table entries are valid, which frames are in use and which addresses the list
holds. `History` ties the state to the commands so far; with `Represents` it
gives the whole allocation invariant (`Allocated`).

`page_hits` and `page_faults` are `uint32_t`. There are only `2^20` faults in
any run, but the hits wrap, and with them the sum (`counters_wrap`).
-/

namespace OsInParts.Paging

open Lib.Machine

/-! ## What a run has accessed -/

def Op.address : Op → UInt32
  | .load va => va
  | .store va _ => va

/-- The 20-bit virtual page number of an address. -/
def virtualPage (va : UInt32) : Nat := va.toNat / 4096

/-- The directory and table index of a virtual page number. -/
def entryIndex (page : Nat) : Page :=
  (⟨page / 1024 % 1024, Nat.mod_lt _ (by decide)⟩, ⟨page % 1024, Nat.mod_lt _ (by decide)⟩)

/-- The virtual pages a run has accessed. -/
def accessedPages (ops : List Op) : Finset Nat :=
  (ops.map fun op => virtualPage op.address).toFinset

/-- The address a command stores to. -/
def Op.storedAddress : Op → Option UInt32
  | .load _ => none
  | .store va _ => some va

/-- The virtual addresses a run has stored to. -/
def storedAddresses (ops : List Op) : Finset UInt32 :=
  (ops.filterMap Op.storedAddress).toFinset

theorem pageOf_eq (va : UInt32) : pageOf va = entryIndex (virtualPage va) := by
  apply Prod.ext <;> apply Fin.ext
  · show (pdIndex va).val = virtualPage va / 1024 % 1024
    rw [pdIndex_val, virtualPage]
    omega
  · show (ptIndex va).val = virtualPage va % 1024
    rw [ptIndex_val, virtualPage, show 2 ^ 12 = 4096 from rfl]

theorem entryIndex_inj {page page' : Nat} (h : page < 2 ^ 20) (h' : page' < 2 ^ 20)
    (heq : entryIndex page = entryIndex page') : page = page' := by
  have h1 := congrArg (fun p : Page => p.1.val) heq
  have h2 := congrArg (fun p : Page => p.2.val) heq
  simp only [entryIndex] at h1 h2
  omega

theorem accessedPages_lt {ops : List Op} {page : Nat} (h : page ∈ accessedPages ops) :
    page < 2 ^ 20 := by
  simp only [accessedPages, List.mem_toFinset, List.mem_map] at h
  obtain ⟨op, -, rfl⟩ := h
  have hlt := op.address.toNat_lt
  rw [virtualPage]
  omega

theorem accessedPages_append (ops : List Op) (op : Op) :
    accessedPages (ops ++ [op]) = insert (virtualPage op.address) (accessedPages ops) := by
  ext page
  simp [accessedPages]

/-- Whatever is stored to is accessed. -/
theorem virtualPage_mem_of_stored {ops : List Op} {va : UInt32}
    (h : va ∈ storedAddresses ops) : virtualPage va ∈ accessedPages ops := by
  simp only [storedAddresses, List.mem_toFinset, List.mem_filterMap] at h
  obtain ⟨op, hop, haddress⟩ := h
  simp only [accessedPages, List.mem_toFinset, List.mem_map]
  refine ⟨op, hop, ?_⟩
  cases op with
  | load va' => cases haddress
  | store va' value =>
      cases haddress
      rfl

/-! ## One translation -/

/-- A mapped page keeps its frame. -/
theorem translateAddress_keeps {s : State} {page : Page} {frame : BitVec 20}
    (h : frameOf s page = some frame) (va : UInt32) :
    frameOf (translateAddress s va).2 page = some frame := by
  cases hva : frameOf s (pageOf va) with
  | some f =>
      rw [translateAddress_hit hva]
      exact h
  | none =>
      have hne : page ≠ pageOf va := by
        rintro rfl
        rw [hva] at h
        cases h
      rw [translateAddress_fault hva]
      show frameOf (handlePageFault s (pageOf va).1 (pageOf va).2) page = some frame
      rw [(handlePageFault_frameOf hva).1, Function.update_of_ne hne, h]

theorem translateAddress_mapped (s : State) (va : UInt32) (page : Page) :
    (frameOf (translateAddress s va).2 page).isSome ↔
      page = pageOf va ∨ (frameOf s page).isSome := by
  cases hva : frameOf s (pageOf va) with
  | some f =>
      rw [translateAddress_hit hva]
      constructor
      · exact .inr
      · rintro (rfl | h)
        · exact Option.isSome_of_eq_some hva
        · exact h
  | none =>
      rw [translateAddress_fault hva]
      show (frameOf (handlePageFault s (pageOf va).1 (pageOf va).2) page).isSome ↔ _
      rw [(handlePageFault_frameOf hva).1]
      by_cases hpage : page = pageOf va
      · simp [hpage]
      · simp [hpage]

theorem translateAddress_memory (s : State) (va : UInt32) :
    (translateAddress s va).2.physicalMemory = s.physicalMemory := by
  cases hva : frameOf s (pageOf va) with
  | some f => rw [translateAddress_hit hva]
  | none =>
      rw [translateAddress_fault hva]
      exact (handlePageFault_frameOf hva).2.2

theorem handlePageFault_counters (s : State) (pd pt : Fin pageTableEntries) :
    (handlePageFault s pd pt).pageFaults = s.pageFaults + 1 ∧
      (handlePageFault s pd pt).pageHits = s.pageHits := by
  simp only [handlePageFault, allocateFrame]
  split <;> exact ⟨rfl, rfl⟩

/-- A translation counts as one hit, or as one fault with one new frame. -/
theorem translateAddress_counters {s : State} (h : s.pageFaults = s.nextFrame) (va : UInt32) :
    (translateAddress s va).2.pageFaults = (translateAddress s va).2.nextFrame ∧
      (translateAddress s va).2.pageHits + (translateAddress s va).2.pageFaults
        = s.pageHits + s.pageFaults + 1 := by
  cases hva : frameOf s (pageOf va) with
  | some f =>
      rw [translateAddress_hit hva]
      refine ⟨h, ?_⟩
      show s.pageHits + 1 + s.pageFaults = s.pageHits + s.pageFaults + 1
      rw [UInt32.add_assoc, UInt32.add_comm 1, UInt32.add_assoc]
  | none =>
      rw [translateAddress_fault hva]
      obtain ⟨hfaults, hhits⟩ := handlePageFault_counters s (pdIndex va) (ptIndex va)
      have hnext : (handlePageFault s (pdIndex va) (ptIndex va)).nextFrame = s.nextFrame + 1 :=
        (handlePageFault_frameOf hva).2.1
      dsimp only
      rw [hfaults, hhits, hnext, h]
      exact ⟨rfl, (UInt32.add_assoc _ _ _).symm⟩

/-! ## The list -/

/-- The addresses in the list, in order. -/
def addresses (nodes : List PhysicalMemoryNode) : List UInt32 :=
  nodes.map PhysicalMemoryNode.address

theorem overwrite_addresses {pa : UInt32} {value : UInt8}
    {nodes nodes' : List PhysicalMemoryNode} (h : overwrite pa value nodes = some nodes') :
    addresses nodes' = addresses nodes := by
  induction nodes generalizing nodes' with
  | nil => cases h
  | cons node next ih =>
      rw [overwrite] at h
      split at h
      · cases h
        rfl
      · obtain ⟨next', hn, rfl⟩ := Option.map_eq_some_iff.mp h
        simp only [addresses, List.map_cons, List.cons.injEq, true_and]
        exact ih hn

theorem overwrite_eq_none {pa : UInt32} {value : UInt8} {nodes : List PhysicalMemoryNode} :
    overwrite pa value nodes = none ↔ pa ∉ addresses nodes := by
  induction nodes with
  | nil => simp [overwrite, addresses]
  | cons node next ih =>
      rw [overwrite]
      split
      · rename_i heq
        simp [addresses, heq]
      · rename_i hne
        rw [Option.map_eq_none_iff, ih]
        simp [addresses, Ne.symm hne]

/-- `store` leaves one node at its address. -/
theorem storeNode_addresses (pa : UInt32) (value : UInt8) (nodes : List PhysicalMemoryNode) :
    addresses (storeNode pa value nodes)
      = if pa ∈ addresses nodes then addresses nodes else pa :: addresses nodes := by
  unfold storeNode
  cases h : overwrite pa value nodes with
  | none =>
      rw [if_neg (overwrite_eq_none.mp h)]
      rfl
  | some nodes' =>
      have hmem : pa ∈ addresses nodes := by
        by_contra hnot
        rw [overwrite_eq_none.mpr hnot] at h
        cases h
      rw [if_pos hmem]
      exact overwrite_addresses h

theorem storeNode_nodup {pa : UInt32} {value : UInt8} {nodes : List PhysicalMemoryNode}
    (h : (addresses nodes).Nodup) : (addresses (storeNode pa value nodes)).Nodup := by
  rw [storeNode_addresses]
  split
  · exact h
  · rename_i hnot
    exact List.nodup_cons.mpr ⟨hnot, h⟩

theorem mem_storeNode_addresses {pa pa' : UInt32} {value : UInt8}
    {nodes : List PhysicalMemoryNode} :
    pa' ∈ addresses (storeNode pa value nodes) ↔ pa' = pa ∨ pa' ∈ addresses nodes := by
  rw [storeNode_addresses]
  split
  · rename_i hmem
    constructor
    · exact .inr
    · rintro (rfl | h)
      · exact hmem
      · exact h
  · exact List.mem_cons

/-! ## The invariant -/

/-- **The history invariant**: the state after the commands `ops`. -/
structure History (ops : List Op) (s : State) : Prop where
  pages : ∀ page, (frameOf s page).isSome ↔ page ∈ (accessedPages ops).image entryIndex
  faults : s.pageFaults = s.nextFrame
  count : s.pageHits + s.pageFaults = UInt32.ofNat ops.length
  nodup : (addresses s.physicalMemory).Nodup
  nodes : ∀ pa, pa ∈ addresses s.physicalMemory ↔
    ∃ va ∈ storedAddresses ops, ∃ frame, frameOf s (pageOf va) = some frame ∧
      physical frame va = pa

theorem history_initial : History [] initial where
  pages := by simp [frameOf, initial, accessedPages]
  faults := rfl
  count := rfl
  nodup := List.nodup_nil
  nodes := by simp [initial, addresses, storedAddresses]

theorem History.mapped {ops : List Op} {s : State} (h : History ops s) {va : UInt32}
    (hva : va ∈ storedAddresses ops) : ∃ frame, frameOf s (pageOf va) = some frame := by
  rw [← Option.isSome_iff_exists, h.pages, pageOf_eq]
  exact Finset.mem_image_of_mem _ (virtualPage_mem_of_stored hva)

/-- What a translation leaves for either command: everything but the list is
as after `ops ++ [op]`. -/
theorem History.translate {ops : List Op} {s : State} (h : History ops s) (op : Op) :
    (∀ page, (frameOf (translateAddress s op.address).2 page).isSome ↔
        page ∈ (accessedPages (ops ++ [op])).image entryIndex) ∧
      (translateAddress s op.address).2.pageFaults
        = (translateAddress s op.address).2.nextFrame ∧
      (translateAddress s op.address).2.pageHits + (translateAddress s op.address).2.pageFaults
        = UInt32.ofNat (ops ++ [op]).length ∧
      ∀ va ∈ storedAddresses ops, ∀ frame,
        frameOf (translateAddress s op.address).2 (pageOf va) = some frame ↔
          frameOf s (pageOf va) = some frame := by
  obtain ⟨hfaults, hcount⟩ := translateAddress_counters h.faults op.address
  refine ⟨fun page => ?_, hfaults, ?_, ?_⟩
  · rw [translateAddress_mapped, accessedPages_append, Finset.image_insert, Finset.mem_insert,
      h.pages, pageOf_eq]
  · rw [hcount, h.count, List.length_append, List.length_singleton, UInt32.ofNat_add]
    rfl
  · intro va hva frame
    obtain ⟨old, hold⟩ := h.mapped hva
    rw [translateAddress_keeps hold, hold]

theorem History.load {ops : List Op} {s : State} (h : History ops s) (va : UInt32) :
    History (ops ++ [.load va]) (load s va).2 := by
  obtain ⟨hpages, hfaults, hcount, hkeeps⟩ := h.translate (.load va)
  have hmemory := translateAddress_memory s va
  have hstored : storedAddresses (ops ++ [.load va]) = storedAddresses ops := by
    rw [storedAddresses, List.filterMap_append,
      show [Op.load va].filterMap Op.storedAddress = [] from rfl, List.append_nil,
      storedAddresses]
  refine ⟨hpages, hfaults, hcount, ?_, fun pa => ?_⟩
  · show (addresses (translateAddress s va).2.physicalMemory).Nodup
    rw [hmemory]
    exact h.nodup
  · show pa ∈ addresses (translateAddress s va).2.physicalMemory ↔ _
    rw [hmemory, h.nodes, hstored]
    constructor
    · rintro ⟨va', hva', frame, hframe, heq⟩
      exact ⟨va', hva', frame, (hkeeps va' hva' frame).mpr hframe, heq⟩
    · rintro ⟨va', hva', frame, hframe, heq⟩
      exact ⟨va', hva', frame, (hkeeps va' hva' frame).mp hframe, heq⟩

theorem History.store {ops : List Op} {s : State} {m : FlatMemory} (h : History ops s)
    (hs : Represents s m) (va : UInt32) (value : UInt8) :
    History (ops ++ [.store va value]) (store s va value) := by
  obtain ⟨hpages, hfaults, hcount, hkeeps⟩ := h.translate (.store va value)
  obtain ⟨frame, hpa, hframe, -⟩ := hs.translate va
  have hmemory := translateAddress_memory s va
  have hstored : ∀ va', va' ∈ storedAddresses (ops ++ [.store va value]) ↔
      va' = va ∨ va' ∈ storedAddresses ops := by
    intro va'
    simp [storedAddresses, List.filterMap_append, Op.storedAddress]
  rw [store_eq]
  refine ⟨hpages, hfaults, hcount, ?_, fun pa => ?_⟩
  · dsimp only
    rw [hmemory]
    exact storeNode_nodup h.nodup
  · dsimp only
    rw [hmemory, mem_storeNode_addresses, h.nodes, hpa]
    constructor
    · rintro (rfl | ⟨va', hva', f, hf, heq⟩)
      · exact ⟨va, (hstored va).mpr (.inl rfl), frame, hframe, rfl⟩
      · exact ⟨va', (hstored va').mpr (.inr hva'), f, (hkeeps va' hva' f).mpr hf, heq⟩
    · rintro ⟨va', hva', f, hf, heq⟩
      rcases (hstored va').mp hva' with rfl | hold
      · left
        have hsame : f = frame := Option.some.inj (hf.symm.trans hframe)
        rw [← heq, hsame]
      · exact .inr ⟨va', hold, f, (hkeeps va' hold f).mp hf, heq⟩

theorem run_append (s : State) (ops ops' : List Op) :
    run s (ops ++ ops') = run (run s ops) ops' := by
  induction ops generalizing s with
  | nil => rfl
  | cons op ops ih => cases op <;> exact ih _

theorem history_run (ops : List Op) : History ops (run initial ops) := by
  induction ops using List.reverseRecOn with
  | nil => exact history_initial
  | append_singleton ops op ih =>
      rw [run_append]
      cases op with
      | load va => exact ih.load va
      | store va value => exact ih.store (represents_run ops) va value

/-- A page once mapped keeps its frame. -/
theorem run_keeps {s : State} {page : Page} {frame : BitVec 20}
    (h : frameOf s page = some frame) (ops : List Op) :
    frameOf (run s ops) page = some frame := by
  induction ops generalizing s with
  | nil => exact h
  | cons op ops ih =>
      cases op with
      | load va => exact ih (translateAddress_keeps h va)
      | store va value =>
          apply ih
          rw [store_eq]
          exact translateAddress_keeps h va

/-! ## Frame allocation -/

/-- Distinct numbers below `c`, given to `c` elements, are all the numbers
below `c`. -/
theorem exists_of_card {α : Type*} [Fintype α] {f : α → Option Nat} {c : Nat}
    (hcard : c = (Finset.univ.filter fun a => (f a).isSome).card)
    (hbound : ∀ a k, f a = some k → k < c)
    (hinj : ∀ a b k, f a = some k → f b = some k → a = b) {k : Nat} (hk : k < c) :
    ∃ a, f a = some k := by
  have himage : (Finset.univ.filter fun a => (f a).isSome).image (fun a => (f a).getD 0)
      = Finset.range c := by
    apply Finset.eq_of_subset_of_card_le
    · intro j hj
      obtain ⟨a, ha, rfl⟩ := Finset.mem_image.mp hj
      obtain ⟨k', hk'⟩ := Option.isSome_iff_exists.mp (Finset.mem_filter.mp ha).2
      rw [hk', Finset.mem_range]
      exact hbound a k' hk'
    · rw [Finset.card_range, hcard, Finset.card_image_of_injOn]
      intro a ha b hb heq
      obtain ⟨i, hi⟩ := Option.isSome_iff_exists.mp (Finset.mem_filter.mp ha).2
      obtain ⟨j, hj⟩ := Option.isSome_iff_exists.mp (Finset.mem_filter.mp hb).2
      simp only [hi, hj, Option.getD_some] at heq
      exact hinj a b i hi (heq ▸ hj)
  have hmem := Finset.mem_range.mpr hk
  rw [← himage] at hmem
  obtain ⟨a, ha, heq⟩ := Finset.mem_image.mp hmem
  obtain ⟨k', hk'⟩ := Option.isSome_iff_exists.mp (Finset.mem_filter.mp ha).2
  rw [hk'] at heq
  exact ⟨a, heq ▸ hk'⟩

/-- The frames in use are the first `next_frame` ones. -/
theorem Represents.frames {s : State} {m : FlatMemory} (h : Represents s m) (k : Nat) :
    (∃ page frame, frameOf s page = some frame ∧ frame.toNat = k) ↔ k < s.nextFrame.toNat := by
  constructor
  · rintro ⟨page, frame, hframe, rfl⟩
    exact h.bound page frame hframe
  · intro hk
    have hframe : ∀ page k, (frameOf s page).map BitVec.toNat = some k →
        ∃ frame, frameOf s page = some frame ∧ frame.toNat = k := by
      intro page k heq
      exact Option.map_eq_some_iff.mp heq
    have hcard : s.nextFrame.toNat
        = (Finset.univ.filter fun page => ((frameOf s page).map BitVec.toNat).isSome).card := by
      simp only [Option.isSome_map]
      exact h.count
    obtain ⟨page, hpage⟩ := exists_of_card hcard
      (fun page k heq => by
        obtain ⟨frame, hframe, rfl⟩ := hframe page k heq
        exact h.bound page frame hframe)
      (fun page page' k heq heq' => by
        obtain ⟨frame, hpage, rfl⟩ := hframe page k heq
        obtain ⟨frame', hpage', hk'⟩ := hframe page' _ heq'
        rw [BitVec.eq_of_toNat_eq hk'] at hpage'
        exact h.inj page page' frame hpage hpage')
      hk
    exact ⟨page, hframe page k hpage⟩

theorem Represents.nextFrame_le {s : State} {m : FlatMemory} (h : Represents s m) :
    s.nextFrame.toNat ≤ 2 ^ 20 := by
  rw [h.count]
  calc (mappedPages s).card ≤ (Finset.univ : Finset Page).card :=
        Finset.card_le_card (Finset.subset_univ _)
    _ = 2 ^ 20 := by simp [Page, pageTableEntries]

/-- **The allocation invariant** of the state `s` after the commands `ops`,
but for the sum of the two counters. -/
structure Allocated (ops : List Op) (s : State) : Prop where
  /-- valid entries and accessed pages -/
  entries : Set.BijOn entryIndex (accessedPages ops) {page | (frameOf s page).isSome}
  distinct : ∀ page page' frame, frameOf s page = some frame →
    frameOf s page' = some frame → page = page'
  frames : ∀ k, (∃ page frame, frameOf s page = some frame ∧ frame.toNat = k) ↔
    k < s.nextFrame.toNat
  bound : s.nextFrame.toNat ≤ 2 ^ 20
  /-- the next allocation fits the bit-field -/
  fits : ∀ page, frameOf s page = none → s.nextFrame.toNat < 2 ^ 20
  faults : s.pageFaults.toNat = (accessedPages ops).card
  keeps : ∀ page frame, frameOf s page = some frame →
    ∀ ops', frameOf (run s ops') page = some frame
  /-- list nodes and stored addresses -/
  nodes : Set.BijOn (fun va => (translateAddress s va).1) (storedAddresses ops)
    {pa | pa ∈ addresses s.physicalMemory}
  nodup : (addresses s.physicalMemory).Nodup

theorem allocated_run (ops : List Op) : Allocated ops (run initial ops) := by
  have hhist := history_run ops
  have hrep := represents_run ops
  generalize run initial ops = s at hhist hrep
  have hinj : Set.InjOn entryIndex (accessedPages ops) := by
    intro page hpage page' hpage' heq
    exact entryIndex_inj (accessedPages_lt hpage) (accessedPages_lt hpage') heq
  have htranslate : ∀ va frame, frameOf s (pageOf va) = some frame →
      (translateAddress s va).1 = physical frame va := by
    intro va frame hframe
    rw [translateAddress_hit hframe]
  refine ⟨⟨?_, hinj, ?_⟩, hrep.inj, hrep.frames, hrep.nextFrame_le,
    fun _ hp => hrep.nextFrame_lt hp, ?_, fun _ _ h => run_keeps h, ⟨?_, ?_, ?_⟩, hhist.nodup⟩
  · intro page hpage
    rw [Set.mem_ofPred_eq, hhist.pages]
    exact Finset.mem_image_of_mem _ hpage
  · intro entry hentry
    rw [Set.mem_ofPred_eq, hhist.pages] at hentry
    obtain ⟨page, hpage, heq⟩ := Finset.mem_image.mp hentry
    exact ⟨page, hpage, heq⟩
  · have hmapped : mappedPages s = (accessedPages ops).image entryIndex := by
      ext page
      rw [mappedPages, Finset.mem_filter, hhist.pages]
      simp
    rw [hhist.faults, hrep.count, hmapped, Finset.card_image_of_injOn hinj]
  · intro va hva
    obtain ⟨frame, hframe⟩ := hhist.mapped hva
    exact (hhist.nodes _).mpr ⟨va, hva, frame, hframe, (htranslate va frame hframe).symm⟩
  · intro va hva va' hva' heq
    obtain ⟨frame, hframe⟩ := hhist.mapped hva
    obtain ⟨frame', hframe'⟩ := hhist.mapped hva'
    dsimp only at heq
    rw [htranslate va frame hframe, htranslate va' frame' hframe'] at heq
    exact hrep.physical_inj hframe hframe' heq
  · intro pa hpa
    obtain ⟨va, hva, frame, hframe, heq⟩ := (hhist.nodes pa).mp hpa
    refine ⟨va, hva, ?_⟩
    dsimp only
    rw [htranslate va frame hframe, heq]

/-- **Frame allocation**: after any loads and stores directory, counters and
list say what was accessed and stored; hits and faults add up to the number
of commands modulo `2^32`. -/
theorem frame_allocation (ops : List Op) :
    Allocated ops (run initial ops) ∧
      (run initial ops).pageHits + (run initial ops).pageFaults = UInt32.ofNat ops.length :=
  ⟨allocated_run ops, (history_run ops).count⟩

/-- Loading one address over and over faults once. -/
theorem run_replicate_load (va : UInt32) (k : Nat) :
    (run initial (List.replicate (k + 1) (.load va))).pageFaults = 1 ∧
      (run initial (List.replicate (k + 1) (.load va))).pageHits = UInt32.ofNat k := by
  have hhist := history_run (List.replicate (k + 1) (.load va))
  have hall := allocated_run (List.replicate (k + 1) (.load va))
  have hpages : accessedPages (List.replicate (k + 1) (.load va)) = {virtualPage va} := by
    ext page
    simp [accessedPages, Op.address, eq_comm]
  have hfaults : (run initial (List.replicate (k + 1) (.load va))).pageFaults = 1 := by
    apply UInt32.toNat_inj.mp
    rw [hall.faults, hpages]
    rfl
  refine ⟨hfaults, ?_⟩
  have hcount := hhist.count
  rw [hfaults, List.length_replicate, UInt32.ofNat_add] at hcount
  have hsub := congrArg (· - 1) hcount
  simpa using hsub

/-- Enough loads of one address for `page_hits` to wrap. -/
def manyLoads : List Op := List.replicate (2 ^ 32 + 1) (.load 0)

/-- The sum of the two counters is not the number of commands of every run. -/
theorem counters_wrap :
    ¬ ∀ ops : List Op, Allocated ops (run initial ops) ∧
      (run initial ops).pageHits.toNat + (run initial ops).pageFaults.toNat = ops.length := by
  intro hclaim
  have hsum := (hclaim manyLoads).2
  obtain ⟨hfaults, hhits⟩ := run_replicate_load 0 (2 ^ 32)
  rw [manyLoads, hfaults, hhits, List.length_replicate] at hsum
  have hwrap : (UInt32.ofNat (2 ^ 32)).toNat = 0 := by
    rw [UInt32.toNat_ofNat', Nat.mod_self]
  rw [hwrap, show (1 : UInt32).toNat = 1 from rfl] at hsum
  norm_num at hsum

end OsInParts.Paging
