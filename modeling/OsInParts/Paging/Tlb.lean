import OsInParts.Lib.Machine
import Mathlib.Data.List.FinRange

/-!
# Tlb — the four-entry TLB in front of a flat page table

`Segmentation, Paging, IPC/q3.c`: `check_tlb`, `update_tlb` and
`translate_address`, over a page table that no translation writes. A fault
ends the program (`exit(1)`), so a run of translations is a machine that
halts at its first fault.

What the TLB must keep is `Coherent`: a valid entry repeats the page table's
frame and protection bits for its page, and was admitted only after both
checks passed. That makes the run with the TLB answer exactly as `walk`, the
translator without one (`tlb_transparent`).
-/

namespace OsInParts.Tlb

open Lib.Machine

/-- `NUM_PAGES`. -/
abbrev numPages : Nat := 16

/-- `TLB_SIZE`. -/
abbrev tlbSize : Nat := 4

structure PageTableEntry where
  pfn : UInt8
  valid : Bool
  protectBits : UInt8
  deriving DecidableEq

structure TLBEntry where
  vpn : UInt8
  pfn : UInt8
  valid : Bool
  protectBits : UInt8
  deriving DecidableEq

abbrev PageTable := Fin numPages → PageTableEntry

/-- The TLB globals. `next_tlb_entry` is reduced modulo `TLB_SIZE` at each
write, so it is an index of the array. -/
structure State where
  tlb : Fin tlbSize → TLBEntry
  nextTlbEntry : Fin tlbSize
  tlbHits : UInt32
  tlbMisses : UInt32

/-- What the program prints before `exit(1)`. -/
inductive Fault where
  /-- `Segmentation Fault` -/
  | segmentation
  /-- `Protection Fault (TLB)` -/
  | protectionTlb
  /-- `Protection Fault (Page Table)` -/
  | protectionPageTable
  deriving DecidableEq

/-- A virtual page number: the top four bits of an address. -/
abbrev Vpn := { vpn : UInt8 // vpn.toNat < numPages }

def Vpn.index (vpn : Vpn) : Fin numPages := ⟨vpn.1.toNat, vpn.2⟩

theorem vpn_bits_lt (la : UInt16) :
    ((la &&& 0xF000) >>> 12).toUInt8.toNat < numPages := by
  have hla := la.toNat_lt
  have hand : (la &&& 0xF000).toNat ≤ la.toNat := by
    rw [UInt16.toNat_and]
    exact Nat.and_le_left
  rw [UInt16.toNat_toUInt8, UInt16.toNat_shiftRight, Nat.shiftRight_eq_div_pow,
    show (12 : UInt16).toNat % 16 = 12 from rfl]
  show _ < 16
  omega

/-- `(logical_addr & VPN_MASK) >> VPN_SHIFT`. -/
def vpnOf (la : UInt16) : Vpn := ⟨((la &&& 0xF000) >>> 12).toUInt8, vpn_bits_lt la⟩

/-- `logical_addr & OFFSET_MASK`. -/
def offsetOf (la : UInt16) : UInt16 := la &&& 0x0FFF

/-- `(pfn << PFN_SHIFT) | offset`, computed as an `int` and returned as a
`uint16_t`. -/
def physicalAddr (pfn : UInt8) (offset : UInt16) : UInt16 :=
  ((pfn.toUInt32 <<< 12) ||| offset.toUInt32).toUInt16

def initTlb (s : State) : State :=
  { s with tlb := fun i => { s.tlb i with valid := false } }

/-- The scan of `check_tlb`: the first valid entry for `vpn`. -/
def findEntry (s : State) (vpn : UInt8) : Option TLBEntry :=
  ((List.finRange tlbSize).map s.tlb).find? fun e => e.valid && e.vpn == vpn

/-- The frame and protection bits on a hit, with the counter moved. -/
def checkTlb (s : State) (vpn : UInt8) : Option (UInt8 × UInt8) × State :=
  match findEntry s vpn with
  | some e => (some (e.pfn, e.protectBits), { s with tlbHits := s.tlbHits + 1 })
  | none => (none, { s with tlbMisses := s.tlbMisses + 1 })

def updateTlb (s : State) (vpn pfn protectBits : UInt8) : State :=
  { s with
    tlb := Function.update s.tlb s.nextTlbEntry
      { vpn := vpn, pfn := pfn, valid := true, protectBits := protectBits }
    nextTlbEntry := ⟨(s.nextTlbEntry.val + 1) % tlbSize, Nat.mod_lt _ (by decide)⟩ }

/-- The physical address, the `tlb_hit` flag and the new state, or the fault
the program exits with. -/
def translateAddress (pageTable : PageTable) (s : State) (la : UInt16) :
    Except Fault (UInt16 × Bool × State) :=
  let vpn := vpnOf la
  let offset := offsetOf la
  match checkTlb s vpn.1 with
  | (some (pfn, protectBits), s) =>
      if protectBits &&& 0xFF = 0 then .error .protectionTlb
      else .ok (physicalAddr pfn offset, true, s)
  | (none, s) =>
      let pte := pageTable vpn.index
      if !pte.valid then .error .segmentation
      else if pte.protectBits &&& 0xFF = 0 then .error .protectionPageTable
      else .ok (physicalAddr pte.pfn offset, false,
        updateTlb s vpn.1 pte.pfn pte.protectBits)

/-- One call of `translate_address`; a fault ends the run. -/
def step (pageTable : PageTable) : Step State UInt16 (Except Fault UInt16) :=
  fun s la =>
    match translateAddress pageTable s la with
    | .error fault => (.error fault, none)
    | .ok (pa, _, s') => (.ok pa, some s')

/-! ## The translator without a TLB -/

/-- Translation by the page table alone: its two checks, then the address. -/
def walk (pageTable : PageTable) (la : UInt16) : Except Fault UInt16 :=
  let pte := pageTable (vpnOf la).index
  if !pte.valid then .error .segmentation
  else if pte.protectBits = 0 then .error .protectionPageTable
  else .ok (physicalAddr pte.pfn (offsetOf la))

def walkStep (pageTable : PageTable) : Step Unit UInt16 (Except Fault UInt16) :=
  fun _ la =>
    match walk pageTable la with
    | .error fault => (.error fault, none)
    | .ok pa => (.ok pa, some ())

/-! ## Coherence -/

/-- A TLB entry repeats what the page table says about a page, and the page
may be accessed. -/
structure Agrees (e : TLBEntry) (pte : PageTableEntry) : Prop where
  valid : pte.valid = true
  pfn : e.pfn = pte.pfn
  protectBits : e.protectBits = pte.protectBits
  accessible : pte.protectBits ≠ 0

/-- **The TLB invariant**: every valid entry agrees with the page table. -/
def Coherent (pageTable : PageTable) (s : State) : Prop :=
  ∀ (i : Fin tlbSize) (vpn : Vpn), (s.tlb i).valid = true →
    (s.tlb i).vpn = vpn.1 → Agrees (s.tlb i) (pageTable vpn.index)

theorem coherent_initTlb (pageTable : PageTable) (s : State) :
    Coherent pageTable (initTlb s) := by
  intro i vpn hv
  simp [initTlb] at hv

theorem and_ff (x : UInt8) : x &&& 0xFF = x := by
  apply UInt8.toNat_inj.mp
  rw [UInt8.toNat_and, show (0xFF : UInt8).toNat = 2 ^ 8 - 1 from rfl,
    Nat.and_two_pow_sub_one_eq_mod]
  exact Nat.mod_eq_of_lt x.toNat_lt

/-- A hit returns a valid entry for the page asked for. -/
theorem findEntry_some {s : State} {vpn : UInt8} {e : TLBEntry}
    (h : findEntry s vpn = some e) : ∃ i, s.tlb i = e ∧ e.valid = true ∧ e.vpn = vpn := by
  have hp := List.find?_some h
  obtain ⟨i, _, hi⟩ := List.mem_map.mp (List.mem_of_find?_eq_some h)
  simp only [Bool.and_eq_true, beq_iff_eq] at hp
  exact ⟨i, hi, hp.1, hp.2⟩

/-- Admitting an entry that agrees with the page table keeps coherence. -/
theorem Coherent.updateTlb {pageTable : PageTable} {s : State}
    (h : Coherent pageTable s) (vpn : Vpn)
    (hv : (pageTable vpn.index).valid = true)
    (hb : (pageTable vpn.index).protectBits ≠ 0) :
    Coherent pageTable (updateTlb s vpn.1 (pageTable vpn.index).pfn
      (pageTable vpn.index).protectBits) := by
  intro i vpn' hvi hvpn
  by_cases hi : i = s.nextTlbEntry
  · subst hi
    simp only [Tlb.updateTlb, Function.update_self] at hvpn ⊢
    have : vpn = vpn' := Subtype.ext hvpn
    subst this
    exact ⟨hv, rfl, rfl, hb⟩
  · simp only [Tlb.updateTlb, Function.update_of_ne hi] at hvi hvpn ⊢
    exact h i vpn' hvi hvpn

/-- **One translation**: the TLB answers as the walk does and stays
coherent; on a fault both stop. -/
theorem simulates_walkStep (pageTable : PageTable) :
    Simulates (fun s (_ : Unit) => Coherent pageTable s) (step pageTable)
      (walkStep pageTable) := by
  intro s _ la h
  cases he : findEntry s (vpnOf la).1 with
  | some e =>
      obtain ⟨i, rfl, hvalid, hvpn⟩ := findEntry_some he
      have ha := h i (vpnOf la) hvalid hvpn
      have hwalk : walk pageTable la
          = .ok (physicalAddr (s.tlb i).pfn (offsetOf la)) := by
        simp [walk, ha.valid, ha.accessible, ha.pfn]
      have htr : translateAddress pageTable s la
          = .ok (physicalAddr (s.tlb i).pfn (offsetOf la), true,
              { s with tlbHits := s.tlbHits + 1 }) := by
        simp [translateAddress, checkTlb, he, and_ff, ha.protectBits, ha.accessible]
      simp only [step, htr, walkStep, hwalk]
      exact ⟨trivial, h⟩
  | none =>
      simp only [step, walkStep, translateAddress, walk, checkTlb, he, and_ff]
      by_cases hv : (pageTable (vpnOf la).index).valid = true
      · by_cases hb : (pageTable (vpnOf la).index).protectBits = 0
        · simp [hv, hb, Continues]
        · simp only [hv, hb, Bool.not_true, Bool.false_eq_true, if_false]
          have hmiss : Coherent pageTable { s with tlbMisses := s.tlbMisses + 1 } := h
          exact ⟨trivial, hmiss.updateTlb (vpnOf la) hv hb⟩
      · simp [hv, Continues]

/-- **TLB transparency**: after `init_tlb`, whatever the arrays held before,
every sequence of addresses gets the outcomes of the page table alone. -/
theorem tlb_transparent (pageTable : PageTable) (s : State) (las : List UInt16) :
    outputs (step pageTable) (initTlb s) las = outputs (walkStep pageTable) () las :=
  (simulates_walkStep pageTable).outputs_eq las (initTlb s) () (coherent_initTlb pageTable s)

end OsInParts.Tlb
