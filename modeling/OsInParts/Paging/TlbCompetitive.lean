import OsInParts.Lib.FifoCache
import OsInParts.Paging.TlbHistory

/-!
# TlbCompetitive — the TLB against the best one of its size

Between `init_tlb` and the end of any sequence of addresses, the misses against the
entries that any TLB with as many slots or fewer has to load for the same sequence. The
TLB misses where its history says (`Remembers`), so the ratio is that of the order of
loading.
-/

namespace OsInParts.Tlb

open Lib Lib.Machine

/-- The calls that miss are those of a cache with the same history. -/
theorem Remembers.missedVpns_eq {pageTable : PageTable} (hall : AllAccessible pageTable)
    {s : State} {missed : List UInt8} {calls : Nat} (h : Remembers pageTable s missed calls)
    (las : List UInt16) :
    missedVpns pageTable s las
      = (RecentRing.inOrder tlbSize).missed missed (las.map fun la => (vpnOf la).1) := by
  induction las generalizing s missed calls with
  | nil => rfl
  | cons la las ih =>
      rw [List.map_cons]
      by_cases hrecent : (vpnOf la).1 ∈ RecentRing.recent tlbSize missed
      · obtain ⟨pa, s', htranslate, h'⟩ := h.hit hrecent
        rw [RecentRing.missed_hit hrecent, missedVpns]
        simp only [htranslate, if_true]
        exact ih h'
      · obtain ⟨pa, s', htranslate, h'⟩ := h.miss hall hrecent
        rw [RecentRing.missed_miss hrecent, missedVpns]
        simp only [htranslate, Bool.false_eq_true, if_false]
        rw [ih h']

/-- **The miss ratio**: at most four times as many misses as any TLB with four slots has
loads, and `4 / (5 - h)` times as many, up to a constant, as one with `h` slots. -/
theorem tlb_competitive {pageTable : PageTable} (hall : AllAccessible pageTable)
    (tlb : Fin tlbSize → TLBEntry) {las : List UInt16} {h cost : ℕ}
    (hserves : Caching.Serves h ∅ (las.map fun la => (vpnOf la).1) cost) :
    ∃ s, final (step pageTable) (initial tlb) las = some s ∧
      s.tlbMisses = UInt32.ofNat (missedVpns pageTable (initial tlb) las).length ∧
      (tlbSize + 1 - h) * (missedVpns pageTable (initial tlb) las).length
        ≤ tlbSize * (cost + (tlbSize - h)) := by
  obtain ⟨s, hfinal, hremembers⟩ := remembers_final hall tlb las
  refine ⟨s, hfinal, hremembers.misses, ?_⟩
  rw [(remembers_initial pageTable tlb).missedVpns_eq hall]
  exact RecentRing.inOrder_conservative.competitive (by decide) trivial hserves

/-- Two slots do for two pages asked for in turn. -/
theorem tlb_competitive_sample :
    ∃ s, final (step initPageTable) (initial fun _ => zeroEntry) [0x0000, 0x1000, 0x0001]
        = some s ∧
      s.tlbMisses = UInt32.ofNat (missedVpns initPageTable (initial fun _ => zeroEntry)
        [0x0000, 0x1000, 0x0001]).length ∧
      (tlbSize + 1 - 2) * (missedVpns initPageTable (initial fun _ => zeroEntry)
        [0x0000, 0x1000, 0x0001]).length ≤ tlbSize * (2 + (tlbSize - 2)) := by
  have hlast : Caching.Serves 2 {0, 1} [(0 : UInt8)] (0 + 0) :=
    .request {0, 1} (by decide) (by decide) (.nil _)
  have hsecond : Caching.Serves 2 {0} [(1 : UInt8), 0] (1 + (0 + 0)) :=
    .request {0, 1} (by decide) (by decide) hlast
  have hfirst : Caching.Serves 2 ∅ [(0 : UInt8), 1, 0] (1 + (1 + (0 + 0))) :=
    .request {0} (by decide) (by decide) hsecond
  exact tlb_competitive initPageTable_accessible (fun _ => zeroEntry) hfirst

end OsInParts.Tlb
