import OsInParts.Lib.GroupBy
import OsInParts.Paging.TlbHistory

/-!
# TlbSession — the main loop and the addresses it remembers

`Segmentation, Paging, IPC/q3.c`: the loop of `main` keeps the addresses that
were typed in `previous_addresses[100]`, each once. A session is the list of
the addresses typed before the `q`, as `strtol` converts them.

The array grows with every address that is new and nothing tests its length,
so a session is kept as it should be exactly if it has at most 100 distinct
addresses (`session_iff`). The flag of the scan is passed to
`translate_address`, which overwrites it on both of its paths.
-/

namespace OsInParts.Tlb

open Lib Lib.GroupBy

/-- The length of `previous_addresses`. -/
abbrev maxAddresses : Nat := 100

/-- What one turn prints. -/
structure Line where
  logicalAddr : UInt16
  physicalAddr : UInt16
  tlbHit : Bool
  deriving DecidableEq

/-- The TLB globals, the locals of `main`, and what has been printed. -/
structure Session extends State where
  previousAddresses : Fin maxAddresses → UInt16
  addressCount : Nat
  printed : List Line

/-- What ends a session other than the `q`. -/
inductive Stop where
  /-- an access of `previous_addresses` outside its length -/
  | outOfBounds
  /-- the `exit(1)` of `translate_address` -/
  | exited (fault : Fault)
  deriving DecidableEq

/-- The loop that looks for an earlier entry, over the indices that are left. -/
def scanPrevious (s : Session) (la : UInt16) : List Nat → Except Stop Bool
  | [] => .ok false
  | i :: is =>
      if h : i < maxAddresses then
        if s.previousAddresses ⟨i, h⟩ = la then .ok true else scanPrevious s la is
      else .error .outOfBounds

/-- `previous_addresses[address_count++] = logical_addr_decimal`. -/
def Session.remember (s : Session) (la : UInt16) : Except Stop Session :=
  if h : s.addressCount < maxAddresses then
    .ok { s with
      previousAddresses := Function.update s.previousAddresses ⟨s.addressCount, h⟩ la
      addressCount := s.addressCount + 1 }
  else .error .outOfBounds

/-- `translate_address(logical_addr, &tlb_hit)`, and the lines that follow it. -/
def Session.report (pageTable : PageTable) (s : Session) (la : UInt16) : Except Stop Session :=
  match translateAddress pageTable s.toState la with
  | .error fault => .error (.exited fault)
  | .ok (pa, tlbHit, state) =>
      .ok { s with
        toState := state
        printed := s.printed ++ [{ logicalAddr := la, physicalAddr := pa, tlbHit := tlbHit }] }

/-- One turn of `while (1)`. -/
def mainTurn (pageTable : PageTable) (s : Session) (la : UInt16) : Except Stop Session := do
  let tlbHit ← scanPrevious s la (List.range s.addressCount)
  let s ← if !tlbHit then s.remember la else .ok s
  s.report pageTable la

def mainLoop (pageTable : PageTable) (s : Session) (las : List UInt16) : Except Stop Session :=
  las.foldlM (mainTurn pageTable) s

/-- `main` before the loop; `previous` is what the array holds. -/
def mainStart (previous : Fin maxAddresses → UInt16) : Session :=
  { initial fun _ => zeroEntry with
    previousAddresses := previous
    addressCount := 0
    printed := [] }

/-! ## What a session is for -/

/-- The lines that `translate_address` gives by itself: nothing is known of
earlier addresses. -/
def translations (pageTable : PageTable) : State → List UInt16 → List Line
  | _, [] => []
  | s, la :: las =>
      match translateAddress pageTable s la with
      | .error _ => []
      | .ok (pa, tlbHit, s') =>
          { logicalAddr := la, physicalAddr := pa, tlbHit := tlbHit }
            :: translations pageTable s' las

/-- The array holds the distinct addresses in order of first entry. -/
structure Kept (s : Session) (entered : List UInt16) : Prop where
  count : s.addressCount = entered.eraseDups.length
  entries : ∀ i : Fin maxAddresses, i.val < s.addressCount →
    entered.eraseDups[i.val]? = some (s.previousAddresses i)

/-- **A session that does what it should**: after each address, no access was
outside the array, the array holds the distinct addresses, and every line has
the flag that `translate_address` set. -/
def Faithful (previous : Fin maxAddresses → UInt16) (las : List UInt16) : Prop :=
  ∀ entered, entered <+: las →
    ∃ s, mainLoop initPageTable (mainStart previous) entered = .ok s ∧ Kept s entered ∧
      s.printed = translations initPageTable (mainStart previous).toState entered ∧
      s.printed.map (·.logicalAddr) = entered

/-! ## One turn -/

theorem scanPrevious_ok (s : Session) (la : UInt16) (is : List Nat)
    (his : ∀ i ∈ is, i < maxAddresses) :
    ∃ tlbHit, scanPrevious s la is = .ok tlbHit ∧
      (tlbHit = true ↔ ∃ i : Fin maxAddresses, i.val ∈ is ∧ s.previousAddresses i = la) := by
  induction is with
  | nil => exact ⟨false, rfl, by simp⟩
  | cons i is ih =>
      have hi : i < maxAddresses := his i List.mem_cons_self
      obtain ⟨tlbHit, hscan, hiff⟩ := ih fun j hj => his j (List.mem_cons_of_mem i hj)
      rw [scanPrevious, dif_pos hi]
      by_cases heq : s.previousAddresses ⟨i, hi⟩ = la
      · rw [if_pos heq]
        exact ⟨true, rfl, iff_of_true rfl ⟨⟨i, hi⟩, List.mem_cons_self, heq⟩⟩
      · rw [if_neg heq]
        refine ⟨tlbHit, hscan, hiff.trans ⟨?_, ?_⟩⟩
        · rintro ⟨j, hj, hla⟩
          exact ⟨j, List.mem_cons_of_mem i hj, hla⟩
        · rintro ⟨j, hj, hla⟩
          rcases List.mem_cons.mp hj with rfl | hj
          · exact absurd hla heq
          · exact ⟨j, hj, hla⟩

variable {s s' : Session} {entered las : List UInt16} {la : UInt16}

/-- The scan finds exactly the addresses that were entered. -/
theorem Kept.scan (h : Kept s entered) (hbound : s.addressCount ≤ maxAddresses) (la : UInt16) :
    scanPrevious s la (List.range s.addressCount) = .ok (decide (la ∈ entered.eraseDups)) := by
  obtain ⟨tlbHit, hscan, hiff⟩ := scanPrevious_ok s la (List.range s.addressCount)
    fun i hi => (List.mem_range.mp hi).trans_le hbound
  rw [hscan, Except.ok.injEq, Bool.eq_iff_iff, hiff, decide_eq_true_iff]
  constructor
  · rintro ⟨i, hi, rfl⟩
    exact List.mem_of_getElem? (h.entries i (List.mem_range.mp hi))
  · intro hmem
    obtain ⟨i, hi, hla⟩ := List.getElem_of_mem hmem
    have hcount : i < s.addressCount := h.count ▸ hi
    refine ⟨⟨i, hcount.trans_le hbound⟩, List.mem_range.mpr hcount, ?_⟩
    have hentry := h.entries ⟨i, hcount.trans_le hbound⟩ hcount
    rw [List.getElem?_eq_getElem hi, hla] at hentry
    exact (Option.some.inj hentry).symm

theorem Kept.known (h : Kept s entered) (hla : la ∈ entered.eraseDups) :
    Kept s (entered ++ [la]) := by
  have hsame : (entered ++ [la]).eraseDups = entered.eraseDups := by
    rw [eraseDups_concat, if_pos hla]
  exact ⟨hsame ▸ h.count, hsame ▸ h.entries⟩

theorem Kept.remember (h : Kept s entered) (hla : la ∉ entered.eraseDups)
    (hroom : s.addressCount < maxAddresses) :
    ∃ s', s.remember la = .ok s' ∧ s'.toState = s.toState ∧ s'.printed = s.printed ∧
      Kept s' (entered ++ [la]) := by
  have hnew : (entered ++ [la]).eraseDups = entered.eraseDups ++ [la] := by
    rw [eraseDups_concat, if_neg hla]
  rw [Session.remember, dif_pos hroom]
  refine ⟨_, rfl, rfl, rfl, by simp [hnew, h.count], fun i hi => ?_⟩
  dsimp only at hi ⊢
  rw [hnew]
  rcases Nat.lt_succ_iff_lt_or_eq.mp hi with hlt | heq
  · have hne : i ≠ ⟨s.addressCount, hroom⟩ := fun heq => hlt.ne (congrArg Fin.val heq)
    rw [List.getElem?_append_left (h.count ▸ hlt), Function.update_of_ne hne]
    exact h.entries i hlt
  · have hself : i = ⟨s.addressCount, hroom⟩ := Fin.ext heq
    rw [hself, Function.update_self]
    simp [h.count]

theorem remember_full (la : UInt16) (hcount : s.addressCount = maxAddresses) :
    s.remember la = .error .outOfBounds := by
  rw [Session.remember, dif_neg hcount.not_lt]

/-- **The session invariant**: what the array holds, and a TLB on which no
translation faults. -/
structure Ready (s : Session) (entered : List UInt16) : Prop where
  kept : Kept s entered
  bound : s.addressCount ≤ maxAddresses
  remembers : ∃ missed calls, Remembers initPageTable s.toState missed calls
  asked : s.printed.map (·.logicalAddr) = entered

theorem ready_start (previous : Fin maxAddresses → UInt16) : Ready (mainStart previous) [] where
  kept := ⟨rfl, fun i hi => absurd hi i.val.not_lt_zero⟩
  bound := Nat.zero_le _
  remembers := ⟨[], 0, remembers_initial initPageTable _⟩
  asked := rfl

/-- The translation faults on no address. -/
theorem Ready.report (hkept : Kept s (entered ++ [la])) (hbound : s.addressCount ≤ maxAddresses)
    (hremembers : ∃ missed calls, Remembers initPageTable s.toState missed calls)
    (hasked : s.printed.map (·.logicalAddr) = entered) :
    ∃ s', s.report initPageTable la = .ok s' ∧ Ready s' (entered ++ [la]) := by
  obtain ⟨missed, calls, h⟩ := hremembers
  have htranslate : ∃ pa tlbHit state,
      translateAddress initPageTable s.toState la = .ok (pa, tlbHit, state) ∧
        ∃ missed calls, Remembers initPageTable state missed calls := by
    -- every page of the table is accessible, so a miss does not fault either
    by_cases hrecent : (vpnOf la).1 ∈ RecentRing.recent tlbSize missed
    · obtain ⟨pa, state, htranslate, h'⟩ := h.hit hrecent
      exact ⟨pa, true, state, htranslate, missed, _, h'⟩
    · obtain ⟨pa, state, htranslate, h'⟩ := h.miss initPageTable_accessible hrecent
      exact ⟨pa, false, state, htranslate, _, _, h'⟩
  obtain ⟨pa, tlbHit, state, htranslate, h'⟩ := htranslate
  rw [Session.report, htranslate]
  exact ⟨_, rfl, ⟨hkept.count, hkept.entries⟩, hbound, h', by simp [hasked]⟩

/-- **A turn within the array.** -/
theorem Ready.turn (h : Ready s entered) (la : UInt16)
    (hfits : (entered ++ [la]).eraseDups.length ≤ maxAddresses) :
    ∃ s', mainTurn initPageTable s la = .ok s' ∧ Ready s' (entered ++ [la]) := by
  rw [mainTurn, h.kept.scan h.bound la]
  by_cases hla : la ∈ entered.eraseDups
  · obtain ⟨s', hreport, h'⟩ := Ready.report (h.kept.known hla) h.bound h.remembers h.asked
    exact ⟨s', by simpa [hla, bind, Except.bind] using hreport, h'⟩
  · -- a new address, for which there is room
    have hroom : s.addressCount < maxAddresses := by
      rw [eraseDups_concat, if_neg hla, List.length_append, List.length_singleton,
        ← h.kept.count] at hfits
      exact hfits
    obtain ⟨s₁, hremember, hstate, hprinted, hkept⟩ := h.kept.remember hla hroom
    have hbound : s₁.addressCount ≤ maxAddresses := hkept.count ▸ hfits
    obtain ⟨s', hreport, h'⟩ := Ready.report hkept hbound (hstate ▸ h.remembers)
      (hprinted ▸ h.asked)
    exact ⟨s', by simpa [hla, hremember, bind, Except.bind] using hreport, h'⟩

/-- **A turn out of it**: the array is full and the address is new. -/
theorem Ready.turn_out (h : Ready s entered)
    (hfull : maxAddresses < (entered ++ [la]).eraseDups.length) :
    mainTurn initPageTable s la = .error .outOfBounds := by
  have hbound := h.bound
  rw [eraseDups_concat] at hfull
  split at hfull
  · rw [h.kept.count] at hbound
    -- the address is known, so the array would have been full before
    omega
  · rename_i hla
    rw [List.length_append, List.length_singleton, ← h.kept.count] at hfull
    rw [mainTurn, h.kept.scan h.bound la]
    simp [hla, remember_full (s := s) la (by omega), bind, Except.bind]

/-! ## Whole sessions -/

theorem Ready.loop (h : Ready s entered) (las : List UInt16)
    (hfits : (entered ++ las).eraseDups.length ≤ maxAddresses) :
    ∃ s', mainLoop initPageTable s las = .ok s' ∧ Ready s' (entered ++ las) := by
  induction las generalizing s entered with
  | nil => exact ⟨s, rfl, by rwa [List.append_nil]⟩
  | cons la las ih =>
      rw [List.append_cons] at hfits ⊢
      obtain ⟨s₁, hturn, h₁⟩ := h.turn la
        ((length_eraseDups_le_append _ las).trans hfits)
      obtain ⟨s', hloop, h'⟩ := ih h₁ hfits
      refine ⟨s', ?_, h'⟩
      rw [mainLoop, List.foldlM_cons, hturn]
      exact hloop

theorem Ready.loop_out (h : Ready s entered) (las : List UInt16)
    (hfull : maxAddresses < (entered ++ las).eraseDups.length) :
    mainLoop initPageTable s las = .error .outOfBounds := by
  induction las generalizing s entered with
  | nil =>
      rw [List.append_nil, ← h.kept.count] at hfull
      exact absurd h.bound hfull.not_ge
  | cons la las ih =>
      rw [List.append_cons] at hfull
      rw [mainLoop, List.foldlM_cons]
      by_cases hfits : (entered ++ [la]).eraseDups.length ≤ maxAddresses
      · obtain ⟨s₁, hturn, h₁⟩ := h.turn la hfits
        rw [hturn]
        exact ih h₁ hfull
      · rw [h.turn_out (not_le.mp hfits)]
        rfl

theorem remember_frame (h : s.remember la = .ok s') :
    s'.toState = s.toState ∧ s'.printed = s.printed := by
  unfold Session.remember at h
  split at h <;> cases h
  exact ⟨rfl, rfl⟩

theorem report_line {pageTable : PageTable} (h : s.report pageTable la = .ok s') :
    ∃ pa tlbHit, translateAddress pageTable s.toState la = .ok (pa, tlbHit, s'.toState) ∧
      s'.printed = s.printed
        ++ [{ logicalAddr := la, physicalAddr := pa, tlbHit := tlbHit }] := by
  unfold Session.report at h
  split at h
  · cases h
  · rename_i pa tlbHit state htranslate
    cases h
    exact ⟨pa, tlbHit, htranslate, rfl⟩

/-- Whatever the scan has found, the line of a turn is that of
`translate_address`. -/
theorem mainTurn_line {pageTable : PageTable} (h : mainTurn pageTable s la = .ok s') :
    ∃ pa tlbHit, translateAddress pageTable s.toState la = .ok (pa, tlbHit, s'.toState) ∧
      s'.printed = s.printed
        ++ [{ logicalAddr := la, physicalAddr := pa, tlbHit := tlbHit }] := by
  unfold mainTurn at h
  cases hscan : scanPrevious s la (List.range s.addressCount) with
  | error stop =>
      rw [hscan] at h
      cases h
  | ok found =>
      rw [hscan] at h
      cases found with
      -- the flag that was found is overwritten
      | true => exact report_line h
      | false =>
          cases hremember : s.remember la with
          | error stop => simp [bind, Except.bind, hremember] at h
          | ok s₁ =>
              obtain ⟨hstate, hprinted⟩ := remember_frame hremember
              rw [← hstate, ← hprinted]
              exact report_line (by simpa [bind, Except.bind, hremember] using h)

theorem mainLoop_printed {pageTable : PageTable} (h : mainLoop pageTable s las = .ok s') :
    s'.printed = s.printed ++ translations pageTable s.toState las := by
  induction las generalizing s with
  | nil =>
      cases h
      simp [translations]
  | cons la las ih =>
      rw [mainLoop, List.foldlM_cons] at h
      cases hturn : mainTurn pageTable s la with
      | error stop =>
          rw [hturn] at h
          cases h
      | ok s₁ =>
          rw [hturn] at h
          obtain ⟨pa, tlbHit, htranslate, hprinted⟩ := mainTurn_line hturn
          rw [ih h, hprinted, translations, htranslate, List.append_assoc]
          rfl

/-- **When a session does what it should**: exactly if it has at most 100
distinct addresses. -/
theorem session_iff (previous : Fin maxAddresses → UInt16) (las : List UInt16) :
    Faithful previous las ↔ las.eraseDups.length ≤ maxAddresses := by
  have hstart := ready_start previous
  constructor
  · intro h
    obtain ⟨s, hloop, -⟩ := h las List.prefix_rfl
    by_contra hfull
    rw [hstart.loop_out las (by simpa using hfull)] at hloop
    cases hloop
  · rintro hfits entered ⟨rest, rfl⟩
    have hle := (length_eraseDups_le_append entered rest).trans hfits
    obtain ⟨s, hloop, h⟩ := hstart.loop entered hle
    refine ⟨s, hloop, h.kept, ?_, h.asked⟩
    simpa [mainStart] using mainLoop_printed hloop

/-- The addresses `0x0000` to `0x0064`. -/
def manyAddresses : List UInt16 := (List.range 101).map UInt16.ofNat

/-- The last of them is written past the end. -/
theorem not_always_faithful : ¬ ∀ (previous : Fin maxAddresses → UInt16) (las : List UInt16),
    Faithful previous las := by
  intro h
  obtain ⟨s, hloop, -⟩ := h (fun _ => 0) manyAddresses manyAddresses List.prefix_rfl
  have hnodup : manyAddresses.Nodup := by
    refine List.Nodup.map_on (fun i hi j hj heq => ?_) List.nodup_range
    have hval := congrArg UInt16.toNat heq
    rw [List.mem_range] at hi hj
    rwa [UInt16.toNat_ofNat', UInt16.toNat_ofNat', Nat.mod_eq_of_lt (by omega),
      Nat.mod_eq_of_lt (by omega)] at hval
  have hfull : maxAddresses < ([] ++ manyAddresses).eraseDups.length := by
    rw [List.nil_append, eraseDups_of_nodup hnodup]
    simp [manyAddresses]
  rw [(ready_start fun _ => 0).loop_out manyAddresses hfull] at hloop
  cases hloop

end OsInParts.Tlb
