import OsInParts.Lib.RecentRing
import OsInParts.Paging.Tlb

/-!
# TlbHistory — the TLB holds the last four pages that missed

Over a page table whose entries are all valid and accessible no translation
ends the program, and `update_tlb` is reached exactly on a miss. So the TLB
is a ring written by the misses, and a page that misses is not in it:
`Remembers` ties it to the list of vpns that have missed so far.

The two counters are `uint32_t` and count modulo `2^32` (`hits_wrap`).
-/

namespace OsInParts.Tlb

open Lib Lib.Machine

/-- All entries valid and accessible, as `init_page_table` leaves them. -/
def AllAccessible (pageTable : PageTable) : Prop :=
  ∀ i, (pageTable i).valid = true ∧ (pageTable i).protectBits ≠ 0

/-- The zero-initialised counters and index, and `init_tlb` over whatever the
array holds. -/
def initial (tlb : Fin tlbSize → TLBEntry) : State :=
  initTlb { tlb := tlb, nextTlbEntry := ⟨0, by decide⟩, tlbHits := 0, tlbMisses := 0 }

/-- The vpns of the calls that set `*tlb_hit` to false, in order. -/
def missedVpns (pageTable : PageTable) : State → List UInt16 → List UInt8
  | _, [] => []
  | s, la :: las =>
      match translateAddress pageTable s la with
      | .error _ => []
      | .ok (_, hit, s') =>
          if hit then missedVpns pageTable s' las
          else (vpnOf la).1 :: missedVpns pageTable s' las

/-- The vpn of a valid entry. -/
def storedVpn (e : TLBEntry) : Option UInt8 := if e.valid then some e.vpn else none

theorem storedVpn_eq {e : TLBEntry} {vpn : UInt8} :
    storedVpn e = some vpn ↔ e.valid = true ∧ e.vpn = vpn := by
  simp [storedVpn]

/-- **The history invariant**: the state after `calls` calls, of which those
for the vpns in `missed` missed. -/
structure Remembers (pageTable : PageTable) (s : State) (missed : List UInt8) (calls : Nat) :
    Prop where
  coherent : Coherent pageTable s
  ring : RecentRing.Holds (fun i => storedVpn (s.tlb i)) s.nextTlbEntry missed
  nodup : (RecentRing.recent tlbSize missed).Nodup
  misses : s.tlbMisses = UInt32.ofNat missed.length
  count : s.tlbHits + s.tlbMisses = UInt32.ofNat calls

theorem remembers_initial (pageTable : PageTable) (tlb : Fin tlbSize → TLBEntry) :
    Remembers pageTable (initial tlb) [] 0 where
  coherent := coherent_initTlb pageTable _
  ring := RecentRing.Holds.empty (by decide)
  nodup := List.nodup_nil
  misses := rfl
  count := rfl

/-- The scan finds exactly the recent vpns. -/
theorem Remembers.findEntry_isSome {pageTable : PageTable} {s : State} {missed : List UInt8}
    {calls : Nat} (h : Remembers pageTable s missed calls) (vpn : UInt8) :
    (findEntry s vpn).isSome ↔ vpn ∈ RecentRing.recent tlbSize missed := by
  rw [← h.ring.mem, findEntry, List.find?_isSome]
  constructor
  · rintro ⟨e, he, hmatch⟩
    obtain ⟨i, -, rfl⟩ := List.mem_map.mp he
    simp only [Bool.and_eq_true, beq_iff_eq] at hmatch
    exact ⟨i, storedVpn_eq.mpr hmatch⟩
  · rintro ⟨i, hi⟩
    refine ⟨s.tlb i, List.mem_map_of_mem (List.mem_finRange i), ?_⟩
    simp only [Bool.and_eq_true, beq_iff_eq]
    exact storedVpn_eq.mp hi

/-- A call for a recent vpn is a hit and changes one counter. -/
theorem Remembers.hit {pageTable : PageTable} {s : State} {missed : List UInt8} {calls : Nat}
    (h : Remembers pageTable s missed calls) {la : UInt16}
    (hrecent : (vpnOf la).1 ∈ RecentRing.recent tlbSize missed) :
    ∃ pa s', translateAddress pageTable s la = .ok (pa, true, s') ∧
      Remembers pageTable s' missed (calls + 1) := by
  obtain ⟨e, he⟩ := Option.isSome_iff_exists.mp ((h.findEntry_isSome _).mpr hrecent)
  obtain ⟨i, rfl, hvalid, hvpn⟩ := findEntry_some he
  have hagrees := h.coherent i (vpnOf la) hvalid hvpn
  refine ⟨physicalAddr (s.tlb i).pfn (offsetOf la), { s with tlbHits := s.tlbHits + 1 }, ?_, ?_⟩
  · simp [translateAddress, checkTlb, he, and_ff, hagrees.protectBits, hagrees.accessible]
  · refine ⟨h.coherent, h.ring, h.nodup, h.misses, ?_⟩
    show s.tlbHits + 1 + s.tlbMisses = UInt32.ofNat (calls + 1)
    rw [UInt32.add_assoc, UInt32.add_comm 1, ← UInt32.add_assoc, h.count, UInt32.ofNat_add]
    rfl

/-- Any other call is a miss, and its vpn is the newest in the ring. -/
theorem Remembers.miss {pageTable : PageTable} (hall : AllAccessible pageTable) {s : State}
    {missed : List UInt8} {calls : Nat} (h : Remembers pageTable s missed calls) {la : UInt16}
    (hrecent : (vpnOf la).1 ∉ RecentRing.recent tlbSize missed) :
    ∃ pa s', translateAddress pageTable s la = .ok (pa, false, s') ∧
      Remembers pageTable s' (missed ++ [(vpnOf la).1]) (calls + 1) := by
  have hnone : findEntry s (vpnOf la).1 = none := by
    rw [← Option.not_isSome_iff_eq_none, h.findEntry_isSome]
    exact hrecent
  obtain ⟨hvalid, haccess⟩ := hall (vpnOf la).index
  refine ⟨physicalAddr (pageTable (vpnOf la).index).pfn (offsetOf la),
    updateTlb { s with tlbMisses := s.tlbMisses + 1 } (vpnOf la).1
      (pageTable (vpnOf la).index).pfn (pageTable (vpnOf la).index).protectBits, ?_, ?_⟩
  · simp [translateAddress, checkTlb, hnone, hvalid, haccess, and_ff]
  · have hcoherent : Coherent pageTable { s with tlbMisses := s.tlbMisses + 1 } := h.coherent
    refine ⟨hcoherent.updateTlb (vpnOf la) hvalid haccess, ?_,
      RecentRing.recent_nodup_append h.nodup hrecent, ?_, ?_⟩
    · have hwrite := h.ring.write (vpnOf la).1 (Nat.mod_lt _ (by decide))
      have hslots : (fun i => storedVpn ((updateTlb { s with tlbMisses := s.tlbMisses + 1 }
            (vpnOf la).1 (pageTable (vpnOf la).index).pfn
            (pageTable (vpnOf la).index).protectBits).tlb i))
          = Function.update (fun i => storedVpn (s.tlb i)) s.nextTlbEntry
            (some (vpnOf la).1) := by
        funext i
        by_cases hi : i = s.nextTlbEntry
        · simp [updateTlb, hi, storedVpn]
        · simp [updateTlb, hi]
      rw [hslots]
      exact hwrite
    · show s.tlbMisses + 1 = _
      rw [h.misses, List.length_append, List.length_singleton, UInt32.ofNat_add]
      rfl
    · show s.tlbHits + (s.tlbMisses + 1) = UInt32.ofNat (calls + 1)
      rw [← UInt32.add_assoc, h.count, UInt32.ofNat_add]
      rfl

/-- A whole run. -/
theorem Remembers.run {pageTable : PageTable} (hall : AllAccessible pageTable) {s : State}
    {missed : List UInt8} {calls : Nat} (h : Remembers pageTable s missed calls)
    (las : List UInt16) :
    ∃ s', final (step pageTable) s las = some s' ∧
      Remembers pageTable s' (missed ++ missedVpns pageTable s las) (calls + las.length) := by
  induction las generalizing s missed calls with
  | nil =>
      refine ⟨s, rfl, ?_⟩
      rw [missedVpns, List.append_nil]
      exact h
  | cons la las ih =>
      by_cases hrecent : (vpnOf la).1 ∈ RecentRing.recent tlbSize missed
      · obtain ⟨pa, s₁, htranslate, h₁⟩ := h.hit hrecent
        obtain ⟨s', hfinal, h'⟩ := ih h₁
        refine ⟨s', ?_, ?_⟩
        · simp [final, step, htranslate, hfinal]
        · simp only [missedVpns, htranslate, if_true]
          rw [List.length_cons, ← Nat.add_assoc, Nat.add_right_comm]
          exact h'
      · obtain ⟨pa, s₁, htranslate, h₁⟩ := h.miss hall hrecent
        obtain ⟨s', hfinal, h'⟩ := ih h₁
        refine ⟨s', ?_, ?_⟩
        · simp [final, step, htranslate, hfinal]
        · simp only [missedVpns, htranslate, Bool.false_eq_true, if_false]
          rw [List.append_cons, List.length_cons, ← Nat.add_assoc, Nat.add_right_comm]
          exact h'

/-! ## Contents as a function of history -/

/-- **What the TLB holds** after calls of which those for `missed` missed. -/
structure Contents (pageTable : PageTable) (s : State) (missed : List UInt8) : Prop where
  distinct : ∀ i j, (s.tlb i).valid = true → (s.tlb j).valid = true →
    (s.tlb i).vpn = (s.tlb j).vpn → i = j
  /-- the valid entries, in slot order, are the last misses in some order -/
  entries : ((List.finRange tlbSize).filterMap fun i => storedVpn (s.tlb i)).Perm
    (missed.drop (missed.length - tlbSize))
  next : s.nextTlbEntry.val = missed.length % tlbSize
  /-- the next call -/
  hits : ∀ la, ∃ pa s', translateAddress pageTable s la
    = .ok (pa, decide ((vpnOf la).1 ∈ missed.drop (missed.length - tlbSize)), s')

theorem Remembers.contents {pageTable : PageTable} (hall : AllAccessible pageTable) {s : State}
    {missed : List UInt8} {calls : Nat} (h : Remembers pageTable s missed calls) :
    Contents pageTable s missed where
  distinct := by
    intro i j hi hj hvpn
    exact h.ring.inj h.nodup (storedVpn_eq.mpr ⟨hi, hvpn⟩) (storedVpn_eq.mpr ⟨hj, rfl⟩)
  entries := h.ring.perm h.nodup
  next := h.ring.next
  hits := by
    intro la
    by_cases hrecent : (vpnOf la).1 ∈ missed.drop (missed.length - tlbSize)
    · obtain ⟨pa, s', htranslate, -⟩ := h.hit hrecent
      exact ⟨pa, s', by rw [htranslate, decide_eq_true hrecent]⟩
    · obtain ⟨pa, s', htranslate, -⟩ := h.miss hall hrecent
      exact ⟨pa, s', by rw [htranslate, decide_eq_false hrecent]⟩

/-- What is remembered after a sequence of calls. -/
theorem remembers_final {pageTable : PageTable} (hall : AllAccessible pageTable)
    (tlb : Fin tlbSize → TLBEntry) (las : List UInt16) :
    ∃ s, final (step pageTable) (initial tlb) las = some s ∧
      Remembers pageTable s (missedVpns pageTable (initial tlb) las) las.length := by
  obtain ⟨s, hfinal, h⟩ := (remembers_initial pageTable tlb).run hall las
  rw [List.nil_append, Nat.zero_add] at h
  exact ⟨s, hfinal, h⟩

/-- **The TLB is the recent history**, for any calls after `init_tlb`: the
valid entries are the last misses, at most four, the index is their number
modulo four, and the two counters hold the numbers of hits and misses modulo
`2^32`. -/
theorem tlb_history {pageTable : PageTable} (hall : AllAccessible pageTable)
    (tlb : Fin tlbSize → TLBEntry) (las : List UInt16) :
    ∃ s, final (step pageTable) (initial tlb) las = some s ∧
      Contents pageTable s (missedVpns pageTable (initial tlb) las) ∧
      s.nextTlbEntry.val = s.tlbMisses.toNat % tlbSize ∧
      s.tlbMisses = UInt32.ofNat (missedVpns pageTable (initial tlb) las).length ∧
      s.tlbHits + s.tlbMisses = UInt32.ofNat las.length := by
  obtain ⟨s, hfinal, h⟩ := remembers_final hall tlb las
  refine ⟨s, hfinal, h.contents hall, ?_, h.misses, h.count⟩
  rw [h.ring.next, h.misses, UInt32.toNat_ofNat']
  -- `TLB_SIZE` divides `2^32`
  exact (Nat.mod_mod_of_dvd _ (by decide)).symm

/-- The page table of `init_page_table`. -/
def initPageTable : PageTable := fun i =>
  { pfn := UInt8.ofNat i.val, valid := true, protectBits := 0xFF }

theorem initPageTable_accessible : AllAccessible initPageTable :=
  fun _ => ⟨rfl, by simp [initPageTable]⟩

/-- An all-zero entry. -/
def zeroEntry : TLBEntry := { vpn := 0, pfn := 0, valid := false, protectBits := 0 }

/-- Five pages, the first of them again: it was evicted. -/
theorem tlb_history_sample :
    ∃ s, final (step initPageTable) (initial fun _ => zeroEntry)
        [0x0000, 0x1000, 0x2000, 0x3000, 0x4000, 0x0000] = some s ∧
      Contents initPageTable s (missedVpns initPageTable (initial fun _ => zeroEntry)
        [0x0000, 0x1000, 0x2000, 0x3000, 0x4000, 0x0000]) ∧
      s.nextTlbEntry.val = s.tlbMisses.toNat % tlbSize ∧
      s.tlbMisses = UInt32.ofNat (missedVpns initPageTable (initial fun _ => zeroEntry)
        [0x0000, 0x1000, 0x2000, 0x3000, 0x4000, 0x0000]).length ∧
      s.tlbHits + s.tlbMisses = UInt32.ofNat 6 :=
  tlb_history initPageTable_accessible (fun _ => zeroEntry)
    [0x0000, 0x1000, 0x2000, 0x3000, 0x4000, 0x0000]

/-- Repeated calls for a recent vpn all hit. -/
theorem Remembers.replicate {pageTable : PageTable} {s : State} {missed : List UInt8}
    {calls : Nat} (h : Remembers pageTable s missed calls) {la : UInt16}
    (hrecent : (vpnOf la).1 ∈ RecentRing.recent tlbSize missed) (k : Nat) :
    missedVpns pageTable s (List.replicate k la) = [] := by
  induction k generalizing s calls with
  | zero => rfl
  | succ k ih =>
      obtain ⟨pa, s', htranslate, h'⟩ := h.hit hrecent
      rw [List.replicate_succ, missedVpns]
      simp only [htranslate, if_true]
      exact ih h'

/-- Calls for one address miss once. -/
theorem missedVpns_replicate {pageTable : PageTable} (hall : AllAccessible pageTable)
    (tlb : Fin tlbSize → TLBEntry) (la : UInt16) (k : Nat) :
    missedVpns pageTable (initial tlb) (List.replicate (k + 1) la) = [(vpnOf la).1] := by
  have hstart := remembers_initial pageTable tlb
  have hrecent : (vpnOf la).1 ∉ RecentRing.recent tlbSize [] := by
    simp [RecentRing.recent]
  obtain ⟨pa, s', htranslate, h'⟩ := hstart.miss hall hrecent
  rw [List.replicate_succ, missedVpns]
  simp only [htranslate, Bool.false_eq_true, if_false]
  rw [h'.replicate List.mem_cons_self k]

/-- Enough calls for one address for `tlb_hits` to wrap. -/
def manyCalls : List UInt16 := List.replicate (4294967296 + 1) 0

/-- The sum of the two counters is not the number of calls of every run. -/
theorem hits_wrap :
    ¬ ∀ (pageTable : PageTable) (tlb : Fin tlbSize → TLBEntry) (las : List UInt16) (s : State),
      AllAccessible pageTable → final (step pageTable) (initial tlb) las = some s →
      s.tlbHits.toNat + s.tlbMisses.toNat = las.length := by
  intro hclaim
  obtain ⟨s, hfinal, h⟩ := remembers_final initPageTable_accessible (fun _ => zeroEntry) manyCalls
  have hmisses := h.misses
  have hsum := hclaim initPageTable (fun _ => zeroEntry) manyCalls s initPageTable_accessible hfinal
  rw [manyCalls, missedVpns_replicate initPageTable_accessible] at hmisses
  rw [hmisses, manyCalls, List.length_replicate, List.length_singleton,
    show (UInt32.ofNat 1).toNat = 1 from rfl] at hsum
  have hlt := s.tlbHits.toNat_lt
  omega

end OsInParts.Tlb
