import Mathlib.Data.Fintype.Prod
import Mathlib.Tactic.NormNum
import OsInParts.Lib.Machine

/-!
# PageTable — the two-level page table and its physical memory

`Segmentation, Paging, IPC/q4.c`, function by function: a directory of page
tables that are allocated on the first fault under them, frames handed out
by a counter, and physical memory kept as a linked list of the bytes stored
so far. `malloc` and `calloc` succeed.

The facts the refinement needs are stated once: how an address splits into
directory index, table index and offset (`va_split`), how a frame and an
offset are put together (`physical_toNat`), and the two things a translation
can do (`translateAddress_hit`, `translateAddress_fault`).
-/

namespace OsInParts.Paging

/-- `PAGE_TABLE_ENTRIES`, the length of the directory and of every table. -/
abbrev pageTableEntries : Nat := 1024

/-- The fields of the bit-field struct that are read (`unused` never is). -/
structure PageTableEntry where
  frameNumber : BitVec 20
  valid : Bool
  deriving DecidableEq

abbrev PageTable := Fin pageTableEntries → PageTableEntry

structure PhysicalMemoryNode where
  address : UInt32
  value : UInt8
  deriving DecidableEq

/-- The globals, with the `static next_frame` of `allocate_frame`. A NULL
`page_table` is `none`; the list runs from the `physical_memory` pointer. -/
structure State where
  pageDirectory : Fin pageTableEntries → Option PageTable
  physicalMemory : List PhysicalMemoryNode
  pageFaults : UInt32
  pageHits : UInt32
  nextFrame : UInt32

/-- The zero-initialised globals. -/
def initial : State :=
  { pageDirectory := fun _ => none, physicalMemory := [], pageFaults := 0,
    pageHits := 0, nextFrame := 0 }

/-- `calloc(PAGE_TABLE_ENTRIES, sizeof(PageTableEntry))`. -/
def callocTable : PageTable := fun _ => { frameNumber := 0, valid := false }

def allocateFrame (s : State) : UInt32 × State :=
  (s.nextFrame, { s with nextFrame := s.nextFrame + 1 })

def handlePageFault (s : State) (pdIndex ptIndex : Fin pageTableEntries) : State :=
  let table := (s.pageDirectory pdIndex).getD callocTable
  let s := { s with
    pageFaults := s.pageFaults + 1
    pageDirectory := Function.update s.pageDirectory pdIndex (some table) }
  if (table ptIndex).valid then s
  else
    let (frame, s) := allocateFrame s
    -- the assignment to the 20-bit field keeps the low 20 bits of `frame`
    let entry := { frameNumber := frame.toBitVec.setWidth 20, valid := true }
    { s with
      pageDirectory := Function.update s.pageDirectory pdIndex
        (some (Function.update table ptIndex entry)) }

/-- `(virtual_address >> 22) & 0x3FF`. -/
def pdIndex (va : UInt32) : Fin pageTableEntries :=
  ⟨((va >>> 22) &&& 0x3FF).toNat, by
    rw [UInt32.toNat_and]
    exact Nat.lt_of_le_of_lt Nat.and_le_right (by decide)⟩

/-- `(virtual_address >> 12) & 0x3FF`. -/
def ptIndex (va : UInt32) : Fin pageTableEntries :=
  ⟨((va >>> 12) &&& 0x3FF).toNat, by
    rw [UInt32.toNat_and]
    exact Nat.lt_of_le_of_lt Nat.and_le_right (by decide)⟩

/-- The table is there and its entry is valid. -/
def present (s : State) (pd pt : Fin pageTableEntries) : Bool :=
  match s.pageDirectory pd with
  | none => false
  | some table => (table pt).valid

/-- `page_directory[pd].page_table[pt].frame_number` as a `uint32_t`. The
table is never NULL where this is read (`translateAddress_allocated`). -/
def frameNumber (s : State) (pd pt : Fin pageTableEntries) : UInt32 :=
  match s.pageDirectory pd with
  | none => 0
  | some table => UInt32.ofBitVec ((table pt).frameNumber.setWidth 32)

def translateAddress (s : State) (va : UInt32) : UInt32 × State :=
  let offset := va &&& 0xFFF
  let s :=
    if present s (pdIndex va) (ptIndex va) then
      { s with pageHits := s.pageHits + 1 }
    else handlePageFault s (pdIndex va) (ptIndex va)
  let frame := frameNumber s (pdIndex va) (ptIndex va)
  ((frame <<< 12) ||| offset, s)

/-- The list walk of `load`: the first node at `pa`, `0` if there is none. -/
def findValue (pa : UInt32) : List PhysicalMemoryNode → UInt8
  | [] => 0
  | node :: next => if node.address = pa then node.value else findValue pa next

/-- The list walk of `store`: the list with the first node at `pa`
overwritten, `none` if there is no such node. -/
def overwrite (pa : UInt32) (value : UInt8) :
    List PhysicalMemoryNode → Option (List PhysicalMemoryNode)
  | [] => none
  | node :: next =>
      if node.address = pa then some ({ node with value := value } :: next)
      else (overwrite pa value next).map (node :: ·)

def load (s : State) (va : UInt32) : UInt8 × State :=
  let (pa, s) := translateAddress s va
  (findValue pa s.physicalMemory, s)

def store (s : State) (va : UInt32) (value : UInt8) : State :=
  let (pa, s) := translateAddress s va
  match overwrite pa value s.physicalMemory with
  | some memory => { s with physicalMemory := memory }
  | none =>
      { s with physicalMemory := { address := pa, value := value } :: s.physicalMemory }

/-- One turn of `main`'s loop: an `l` or an `s` command. -/
inductive Op where
  | load (va : UInt32)
  | store (va : UInt32) (value : UInt8)
  deriving DecidableEq

/-- The loaded value, `none` after a store. -/
def step : Lib.Machine.Step State Op (Option UInt8)
  | s, .load va => (some (load s va).1, some (load s va).2)
  | s, .store va value => (none, some (store s va value))

/-- The state after a sequence of commands (no command stops the program). -/
def run (s : State) : List Op → State
  | [] => s
  | .load va :: ops => run (load s va).2 ops
  | .store va value :: ops => run (store s va value) ops

/-! ## Address arithmetic -/

theorem pdIndex_val (va : UInt32) : (pdIndex va).val = va.toNat / 2 ^ 22 % 1024 := by
  simp only [pdIndex, UInt32.toNat_and, UInt32.toNat_shiftRight]
  norm_num
  rw [Nat.shiftRight_eq_div_pow]
  exact Nat.and_two_pow_sub_one_eq_mod _ 10

theorem ptIndex_val (va : UInt32) : (ptIndex va).val = va.toNat / 2 ^ 12 % 1024 := by
  simp only [ptIndex, UInt32.toNat_and, UInt32.toNat_shiftRight]
  norm_num
  rw [Nat.shiftRight_eq_div_pow]
  exact Nat.and_two_pow_sub_one_eq_mod _ 10

theorem offset_toNat (va : UInt32) : (va &&& 0xFFF).toNat = va.toNat % 4096 := by
  rw [UInt32.toNat_and]
  exact Nat.and_two_pow_sub_one_eq_mod _ 12

/-- The virtual page of an address: its directory and its table index. -/
abbrev Page := Fin pageTableEntries × Fin pageTableEntries

def pageOf (va : UInt32) : Page := (pdIndex va, ptIndex va)

/-- **The split loses nothing**: page and offset determine the address. -/
theorem va_split {va va' : UInt32} (hpage : pageOf va = pageOf va')
    (hoff : va.toNat % 4096 = va'.toNat % 4096) : va = va' := by
  have hpd := congrArg (fun p : Page => p.1.val) hpage
  have hpt := congrArg (fun p : Page => p.2.val) hpage
  simp only [pageOf, pdIndex_val, ptIndex_val] at hpd hpt
  have h1 := va.toNat_lt
  have h2 := va'.toNat_lt
  apply UInt32.toNat_inj.mp
  omega

/-- `(frame << 12) | offset` for a frame that fits its bit-field. -/
def physical (frame : BitVec 20) (va : UInt32) : UInt32 :=
  (UInt32.ofBitVec (frame.setWidth 32) <<< 12) ||| (va &&& 0xFFF)

theorem physical_toNat (frame : BitVec 20) (va : UInt32) :
    (physical frame va).toNat = frame.toNat * 4096 + va.toNat % 4096 := by
  have hf := frame.isLt
  have hoff : (va &&& 0xFFF).toNat < 2 ^ 12 := by rw [offset_toNat]; omega
  rw [physical, UInt32.toNat_or, UInt32.toNat_shiftLeft]
  have h1 : (UInt32.ofBitVec (frame.setWidth 32)).toNat = frame.toNat := by
    simp only [UInt32.toNat_ofBitVec, BitVec.toNat_setWidth]
    exact Nat.mod_eq_of_lt (by omega)
  rw [h1, show (12 : UInt32).toNat % 32 = 12 from rfl, Nat.shiftLeft_eq,
    Nat.mod_eq_of_lt (by omega), ← Nat.shiftLeft_eq,
    ← Nat.shiftLeft_add_eq_or_of_lt hoff, Nat.shiftLeft_eq, offset_toNat]

/-! ## What a translation does -/

/-- The frame a page is mapped to: the whole page table, flattened. -/
def frameOf (s : State) (page : Page) : Option (BitVec 20) :=
  (s.pageDirectory page.1).bind fun table =>
    if (table page.2).valid then some (table page.2).frameNumber else none

theorem present_eq_isSome (s : State) (page : Page) :
    present s page.1 page.2 = (frameOf s page).isSome := by
  unfold present frameOf
  cases s.pageDirectory page.1 with
  | none => rfl
  | some table => cases h : (table page.2).valid <;> simp [h]

theorem frameNumber_of_frameOf {s : State} (page : Page) {frame : BitVec 20}
    (h : frameOf s page = some frame) :
    frameNumber s page.1 page.2 = UInt32.ofBitVec (frame.setWidth 32) := by
  unfold frameOf at h
  unfold frameNumber
  cases ht : s.pageDirectory page.1 with
  | none => simp [ht] at h
  | some table =>
      simp only [ht, Option.bind_some, Option.ite_none_right_eq_some,
        Option.some.injEq] at h
      exact congrArg (fun f : BitVec 20 => UInt32.ofBitVec (f.setWidth 32)) h.2

/-- **A hit**: a mapped page keeps its frame and only `page_hits` moves. -/
theorem translateAddress_hit {s : State} {va : UInt32} {frame : BitVec 20}
    (h : frameOf s (pageOf va) = some frame) :
    translateAddress s va = (physical frame va, { s with pageHits := s.pageHits + 1 }) := by
  have hp : present s (pdIndex va) (ptIndex va) = true := by
    rw [show present s (pdIndex va) (ptIndex va) = (frameOf s (pageOf va)).isSome
      from present_eq_isSome s (pageOf va), h]
    rfl
  have hf : frameNumber { s with pageHits := s.pageHits + 1 } (pdIndex va) (ptIndex va)
      = UInt32.ofBitVec (frame.setWidth 32) :=
    frameNumber_of_frameOf (s := { s with pageHits := s.pageHits + 1 }) (pageOf va) h
  simp only [translateAddress, hp, if_true, hf, physical]

/-- The state a fault leaves behind: the counters moved, the page mapped to
the low 20 bits of the old `next_frame`, memory untouched. -/
theorem handlePageFault_frameOf {s : State} {page : Page}
    (h : frameOf s page = none) :
    frameOf (handlePageFault s page.1 page.2)
        = Function.update (frameOf s) page (some (s.nextFrame.toBitVec.setWidth 20)) ∧
      (handlePageFault s page.1 page.2).nextFrame = s.nextFrame + 1 ∧
      (handlePageFault s page.1 page.2).physicalMemory = s.physicalMemory := by
  obtain ⟨pd, pt⟩ := page
  have hinv : (((s.pageDirectory pd).getD callocTable) pt).valid = false := by
    unfold frameOf at h
    cases ht : s.pageDirectory pd with
    | none => rfl
    | some table => simpa [ht] using h
  simp only [handlePageFault, hinv, Bool.false_eq_true, if_false, allocateFrame,
    and_true]
  funext q
  obtain ⟨pd', pt'⟩ := q
  by_cases hq : pd' = pd
  · subst hq
    by_cases hq2 : pt' = pt
    · subst hq2
      simp [frameOf]
    · have hne : (pd', pt') ≠ (pd', pt) := by simpa using hq2
      simp only [frameOf, Function.update_self, Option.bind_some,
        Function.update_of_ne hq2, Function.update_of_ne hne]
      cases s.pageDirectory pd' with
      | none => simp [callocTable]
      | some table => rfl
  · have hne : (pd', pt') ≠ (pd, pt) := by simp [hq]
    simp [frameOf, Function.update_of_ne hq, Function.update_of_ne hne]

/-- **A fault**: an unmapped page gets the next frame. -/
theorem translateAddress_fault {s : State} {va : UInt32}
    (h : frameOf s (pageOf va) = none) :
    translateAddress s va
      = (physical (s.nextFrame.toBitVec.setWidth 20) va,
          handlePageFault s (pdIndex va) (ptIndex va)) := by
  have hp : present s (pdIndex va) (ptIndex va) = false := by
    rw [show present s (pdIndex va) (ptIndex va) = (frameOf s (pageOf va)).isSome
      from present_eq_isSome s (pageOf va), h]
    rfl
  have hf : frameNumber (handlePageFault s (pdIndex va) (ptIndex va)) (pageOf va).1 (pageOf va).2
      = UInt32.ofBitVec ((s.nextFrame.toBitVec.setWidth 20).setWidth 32) :=
    frameNumber_of_frameOf (pageOf va) (by
      rw [show handlePageFault s (pdIndex va) (ptIndex va)
          = handlePageFault s (pageOf va).1 (pageOf va).2 from rfl,
        (handlePageFault_frameOf h).1, Function.update_self])
  simp only [pageOf] at hf
  simp only [translateAddress, hp, Bool.false_eq_true, if_false, hf, physical]

/-- The table read at the end of a translation has been allocated. -/
theorem translateAddress_allocated (s : State) (va : UInt32) :
    ((translateAddress s va).2.pageDirectory (pdIndex va)).isSome := by
  cases h : frameOf s (pageOf va) with
  | some frame =>
      rw [translateAddress_hit h]
      unfold frameOf at h
      obtain ⟨table, ht, _⟩ := Option.bind_eq_some_iff.mp h
      simp only [pageOf] at ht
      simp [ht]
  | none =>
      rw [translateAddress_fault h]
      dsimp only [handlePageFault, allocateFrame]
      split <;> simp

end OsInParts.Paging
