import OsInParts.Paging.Clock

/-!
# ClockRefinement — the simulator is the second-chance algorithm

The simulator never finds an empty frame, and stops its search after a full
circle; the textbook algorithm fills the lowest empty frame first, without
moving the hand, and searches until it meets a clear bit. `Matches` relates
the two hand movements: while frames are still empty the simulator's hand
counts the pages loaded so far and the textbook's rests at `0`; from the
first full memory on the two hands are equal.
-/

namespace OsInParts.Clock

open Lib Lib.Loop Lib.Machine

/-- A page number from 0 to 254: 255 marks an empty frame. -/
abbrev PageNumber := { p : UInt8 // p.toNat ≤ 254 }

/-- The textbook algorithm on page numbers. -/
abbrev Reference (n : Nat) := SecondChance.State PageNumber n

variable {n : Nat}

/-- How an empty or a loaded frame is stored. -/
def encode : Option PageNumber → UInt8
  | none => 255
  | some p => p.1

theorem PageNumber.ne_empty (p : PageNumber) : p.1 ≠ 255 := by
  intro h
  have := p.2
  rw [h] at this
  exact absurd this (by decide)

theorem encode_eq_page {f : Option PageNumber} {p : PageNumber} :
    encode f = p.1 ↔ f = some p := by
  cases f with
  | none => simpa [encode] using (PageNumber.ne_empty p).symm
  | some q => simp [encode, Subtype.ext_iff]

/-- Where the two hands are: both algorithms full and at the same frame, or
the simulator's hand on the lowest empty frame and the textbook's at `0`. -/
inductive Hands (s : State n) (r : Reference n) : Prop where
  | full (hfull : ∀ i, r.frames i ≠ none) (hand : s.clockHand = r.hand)
  | filling (hand : r.hand.val = 0)
      (empty : ∀ i, r.frames i = none ↔ s.clockHand ≤ i)
      (clear : ∀ i, s.clockHand ≤ i → r.bits i = false)

/-- The frames of both algorithms agree, and no frame is dirty. -/
structure SameFrames (s : State n) (r : Reference n) : Prop where
  page : ∀ i, (s.memory i).pageNumber = encode (r.frames i)
  bit : ∀ i, (s.memory i).referenceBit = r.bits i
  clean : ∀ i, (s.memory i).dirtyBit = false

/-- **The simulation relation.** -/
structure Matches (s : State n) (r : Reference n) : Prop where
  same : SameFrames s r
  hands : Hands s r
  hits : s.totalHits = r.hits
  faults : s.totalFaults = r.faults

theorem nextHand_eq (i : Fin n) : nextHand i = SecondChance.next i := rfl

theorem matches_initial (hn : 0 < n) :
    Matches (initializeMemory (initial hn)) (SecondChance.empty hn) where
  same := ⟨fun _ => rfl, fun _ => rfl, fun _ => rfl⟩
  hands := .filling rfl (fun i => iff_of_true rfl (Fin.mk_le_of_le_val (Nat.zero_le i.val)))
    (fun _ _ => rfl)
  hits := rfl
  faults := rfl

/-! ## Updates of one frame -/

theorem SameFrames.loadPage {s : State n} {r : Reference n} (h : SameFrames s r)
    (i : Fin n) (p : PageNumber) :
    SameFrames (loadPage s i p.1) (SecondChance.fill r i p) := by
  constructor <;> intro j <;> by_cases hj : j = i <;>
    simp [Clock.loadPage, State.setFrame, SecondChance.fill, hj, encode,
      h.page, h.bit, h.clean]

theorem SameFrames.setBit {s : State n} {r : Reference n} (h : SameFrames s r)
    (i : Fin n) (b : Bool) :
    SameFrames (s.setFrame i { s.memory i with referenceBit := b })
      { r with bits := Function.update r.bits i b } := by
  constructor <;> intro j <;> by_cases hj : j = i <;>
    simp [State.setFrame, hj, h.page, h.bit, h.clean]

/-! ## The search -/

/-- A clear bit stops both searches. -/
theorem clockBody_stops (start : Fin n) {s : State n} {r : Reference n} (hsame : SameFrames s r)
    (hhand : s.clockHand = r.hand) (hbit : r.bits r.hand = false) :
    clockBody start s = .exit (takeVictim s) := by
  have hs : (s.memory s.clockHand).referenceBit = false := by rw [hsame.bit, hhand, hbit]
  simp [clockBody, hs, hsame.clean]

/-- A set bit is cleared by both, and both hands move on; the simulator looks
whether the circle is closed. -/
theorem clockBody_moves (start : Fin n) {s : State n} {r : Reference n} (hsame : SameFrames s r)
    (hhand : s.clockHand = r.hand) (hbit : r.bits r.hand = true) :
    ∃ s' : State n, clockBody start s
        = (if SecondChance.next r.hand = start then .exit (takeVictim s') else .again s') ∧
      SameFrames s' { r with
        bits := Function.update r.bits r.hand false, hand := SecondChance.next r.hand } ∧
      s'.clockHand = SecondChance.next r.hand ∧
      s'.totalHits = s.totalHits ∧ s'.totalFaults = s.totalFaults := by
  have hs : (s.memory r.hand).referenceBit = true := by rw [hsame.bit, hbit]
  have hcleared := hsame.setBit r.hand false
  refine ⟨{ s.setFrame r.hand { s.memory r.hand with referenceBit := false } with
    clockHand := SecondChance.next r.hand }, ?_, ?_, rfl, rfl, rfl⟩
  · simp [clockBody, State.setFrame, hhand, hs, nextHand_eq]
  · exact ⟨hcleared.page, hcleared.bit, hcleared.clean⟩

/-- **The two searches**: with `d` frames left until the circle closes, the
simulator's loop returns the frame the textbook's search stops on, with the
same bits cleared, and its hand on the next frame. -/
theorem run_clockBody (start : Fin n) {d : Nat} {s : State n} {r : Reference n}
    (hsame : SameFrames s r) (hhand : s.clockHand = r.hand) (hd0 : 0 < d) (hdn : d ≤ n)
    (hd : start.val = r.hand.val + d ∨ start.val + n = r.hand.val + d) :
    ∃ s', run (clockBody start) d s = .exit ((SecondChance.advance d r).hand, s') ∧
      SameFrames s' (SecondChance.advance d r) ∧
      s'.clockHand = SecondChance.next (SecondChance.advance d r).hand ∧
      s'.totalHits = s.totalHits ∧ s'.totalFaults = s.totalFaults := by
  induction d generalizing s r with
  | zero => omega
  | succ d ih =>
      cases hbit : r.bits r.hand with
      | false =>
          rw [run_exit (clockBody_stops start hsame hhand hbit), SecondChance.advance, hbit,
            if_neg (by simp)]
          refine ⟨{ s with clockHand := nextHand s.clockHand }, ?_, ?_, ?_, rfl, rfl⟩
          · rw [takeVictim, hhand]
          · exact ⟨hsame.page, hsame.bit, hsame.clean⟩
          · rw [hhand, nextHand_eq]
      | true =>
          obtain ⟨s', hbody, hsame', hhand', hhits, hfaults⟩ :=
            clockBody_moves start hsame hhand hbit
          rw [SecondChance.advance, hbit, if_pos rfl]
          have hnext := SecondChance.next_val r.hand
          have hlt := start.isLt
          have hrlt := r.hand.isLt
          cases d with
          | zero =>
              -- the circle is closed: the simulator takes the frame it is on
              have hclosed : SecondChance.next r.hand = start := by
                apply Fin.ext
                rw [hnext]
                split <;> omega
              rw [if_pos hclosed] at hbody
              rw [run_exit hbody, SecondChance.advance]
              refine ⟨{ s' with clockHand := nextHand s'.clockHand }, ?_, ?_, ?_, hhits, hfaults⟩
              · rw [takeVictim, hhand']
              · exact ⟨hsame'.page, hsame'.bit, hsame'.clean⟩
              · rw [hhand', nextHand_eq]
          | succ d =>
              have hopen : SecondChance.next r.hand ≠ start := by
                intro heq
                have hval := congrArg Fin.val heq
                rw [hnext] at hval
                split at hval <;> omega
              rw [if_neg hopen] at hbody
              rw [run_again hbody]
              obtain ⟨s'', hrun, hsame'', hhand'', hhits', hfaults'⟩ :=
                ih hsame' hhand' (by omega) (by omega) (by
                  dsimp only
                  rw [hnext]
                  split <;> omega)
              exact ⟨s'', hrun, hsame'', hhand'', hhits'.trans hhits, hfaults'.trans hfaults⟩

/-- `clock_algorithm` returns, and finds the textbook's victim. -/
theorem clockAlgorithm_advance {s : State n} {r : Reference n}
    (hsame : SameFrames s r) (hhand : s.clockHand = r.hand) :
    ∃ s', clockAlgorithm s = some ((SecondChance.advance n r).hand, s') ∧
      SameFrames s' (SecondChance.advance n r) ∧
      s'.clockHand = SecondChance.next (SecondChance.advance n r).hand ∧
      s'.totalHits = s.totalHits ∧ s'.totalFaults = s.totalFaults := by
  obtain ⟨s', hrun, hrest⟩ := run_clockBody s.clockHand hsame hhand
    (Nat.zero_lt_of_lt s.clockHand.isLt) (Nat.le_refl n) (.inr (by rw [hhand]))
  exact ⟨s', by rw [clockAlgorithm, hrun], hrest⟩

/-- On a clear and clean frame it stops at once. -/
theorem clockAlgorithm_clear {s : State n}
    (hbit : (s.memory s.clockHand).referenceBit = false)
    (hclean : (s.memory s.clockHand).dirtyBit = false) :
    clockAlgorithm s = some (takeVictim s) := by
  have hbody : clockBody s.clockHand s = .exit (takeVictim s) := by
    simp [clockBody, hbit, hclean]
  rw [clockAlgorithm, run_exit_of_pos hbody (Nat.zero_lt_of_lt s.clockHand.isLt)]

/-! ## One request -/

theorem SameFrames.find {s : State n} {r : Reference n} (h : SameFrames s r)
    (p : PageNumber) :
    (fun i => (s.memory i).pageNumber == p.1)
      = fun i => decide (r.frames i = some p) := by
  funext i
  rw [h.page, Bool.eq_iff_iff, beq_iff_eq, encode_eq_page, decide_eq_true_iff]

theorem isPageInMemory_eq {s : State n} {r : Reference n} (h : SameFrames s r)
    (p : PageNumber) :
    isPageInMemory s p.1
      = (SecondChance.lowest fun i => decide (r.frames i = some p)).isSome := by
  rw [isPageInMemory, h.find, SecondChance.lowest, Bool.eq_iff_iff]
  simp [List.any_eq_true, List.find?_isSome]

/-- A hit: the frame with the page gets its bit set. -/
theorem handlePageRequest_hit {s : State n} {r : Reference n} (h : SameFrames s r)
    {p : PageNumber} {i : Fin n}
    (hi : SecondChance.lowest (fun i => decide (r.frames i = some p)) = some i) :
    handlePageRequest s p.1 = some ({ s with totalHits := s.totalHits + 1 }.setFrame i
      { s.memory i with referenceBit := true }) := by
  have hin : isPageInMemory s p.1 = true := by rw [isPageInMemory_eq h, hi]; rfl
  rw [handlePageRequest, if_pos hin, setReferenceBit]
  dsimp only
  rw [h.find, show List.find? (fun i => decide (r.frames i = some p))
    (List.finRange n) = some i from hi]

/-- A fault with both hands on one frame: both searches find the same victim. -/
theorem handlePageRequest_miss {s : State n} {r : Reference n} (h : SameFrames s r)
    (hhand : s.clockHand = r.hand) {p : PageNumber}
    (hmiss : SecondChance.lowest (fun i => decide (r.frames i = some p)) = none) :
    ∃ s', handlePageRequest s p.1 = some s' ∧
      SameFrames s' (SecondChance.fill (SecondChance.advance n r)
        (SecondChance.advance n r).hand p) ∧
      s'.clockHand = SecondChance.next (SecondChance.advance n r).hand ∧
      s'.totalHits = s.totalHits ∧ s'.totalFaults = s.totalFaults + 1 := by
  have hin : isPageInMemory s p.1 = false := by rw [isPageInMemory_eq h, hmiss]; rfl
  obtain ⟨s', hclock, hsame, hnext, hhits, hfaults⟩ := clockAlgorithm_advance
    (s := { s with totalFaults := s.totalFaults + 1 }) ⟨h.page, h.bit, h.clean⟩ hhand
  rw [handlePageRequest, hin]
  dsimp only
  rw [if_neg (by simp), findEmptyFrame_eq_none, hclock]
  exact ⟨_, rfl, hsame.loadPage _ p, hnext, hhits, hfaults⟩

/-- A hit: the same frame gets its bit set. -/
theorem Matches.hit {s : State n} {r : Reference n} (h : Matches s r) {p : PageNumber}
    {i : Fin n} (hi : SecondChance.lowest (fun i => decide (r.frames i = some p)) = some i) :
    ∃ s', handlePageRequest s p.1 = some s' ∧ Matches s' (SecondChance.request r p) := by
  have hp : r.frames i = some p := by simpa using SecondChance.lowest_some hi
  rw [SecondChance.request_hit hi, handlePageRequest_hit h.same hi]
  refine ⟨_, rfl, ?_⟩
  have hsame := h.same.setBit i true
  refine ⟨⟨hsame.page, hsame.bit, hsame.clean⟩, ?_, congrArg (· + 1) h.hits, h.faults⟩
  cases h.hands with
  | full hfull hand => exact .full hfull hand
  | filling hand empty clear =>
      -- the page is loaded, so its frame is below the hand
      have hlt : i < s.clockHand := by
        by_contra hge
        rw [(empty i).mpr (not_lt.mp hge)] at hp
        cases hp
      refine .filling hand empty fun j hj => ?_
      have hne : j ≠ i := fun heq => absurd (heq ▸ hj) (not_le.mpr hlt)
      show Function.update r.bits i true j = false
      rw [Function.update_of_ne hne]
      exact clear j hj

/-- A fault while a frame is empty: the simulator's hand is on the lowest
empty frame, and its clear bit makes that frame the victim. -/
theorem Matches.load {s : State n} {r : Reference n} (h : Matches s r) {p : PageNumber}
    {i : Fin n}
    (hmiss : SecondChance.lowest (fun i => decide (r.frames i = some p)) = none)
    (hi : SecondChance.lowest (fun i => (r.frames i).isNone) = some i) :
    ∃ s', handlePageRequest s p.1 = some s' ∧ Matches s' (SecondChance.request r p) := by
  have hin : isPageInMemory s p.1 = false := by rw [isPageInMemory_eq h.same, hmiss]; rfl
  have hnone : r.frames i = none := by
    simpa using SecondChance.lowest_some hi
  cases h.hands with
  | full hfull _ => exact absurd hnone (hfull i)
  | filling hand empty clear =>
      have hhand : s.clockHand = i := by
        have hlow := SecondChance.lowest_eq_some (p := fun i => (r.frames i).isNone)
          (i := s.clockHand) (by simp [(empty s.clockHand).mpr le_rfl])
          (fun j hj => by
            have : r.frames j ≠ none := fun hj' =>
              absurd ((empty j).mp hj') (not_le.mpr hj)
            simpa using Option.ne_none_iff_isSome.mp this)
        exact Option.some.inj (hlow.symm.trans hi)
      rw [SecondChance.request_load hmiss hi, handlePageRequest, hin]
      dsimp only
      rw [if_neg (by simp), findEmptyFrame_eq_none,
        clockAlgorithm_clear (s := { s with totalFaults := s.totalFaults + 1 })
          (by rw [h.same.bit]; exact clear _ le_rfl) (h.same.clean _)]
      refine ⟨_, rfl, ?_⟩
      have hsame := h.same.loadPage i p
      subst hhand
      refine ⟨⟨hsame.page, hsame.bit, hsame.clean⟩, ?_, h.hits, congrArg (· + 1) h.faults⟩
      have hnv := SecondChance.next_val s.clockHand
      have hlt := s.clockHand.isLt
      by_cases hlast : s.clockHand.val + 1 = n
      · -- the last frame: from here on memory is full
        refine .full (fun j => ?_) (Fin.ext ?_)
        · by_cases hj : j = s.clockHand
          · simp [SecondChance.fill, hj]
          · simp only [SecondChance.fill, Function.update_of_ne hj]
            rw [Ne, empty j]
            intro hle
            have := j.isLt
            exact hj (Fin.ext (by rw [Fin.le_def] at hle; omega))
        · show (SecondChance.next s.clockHand).val = r.hand.val
          rw [hnv, if_pos hlast, hand]
      · rw [if_neg hlast] at hnv
        have hstep : ∀ j, (SecondChance.next s.clockHand ≤ j ↔
            s.clockHand ≤ j ∧ j ≠ s.clockHand) := by
          intro j
          rw [Fin.le_def, Fin.le_def, hnv, Ne, Fin.ext_iff]
          omega
        refine .filling hand (fun j => ?_) (fun j hj => ?_)
        · show _ ↔ SecondChance.next s.clockHand ≤ j
          rw [hstep]
          by_cases hj : j = s.clockHand
          · simp [SecondChance.fill, hj]
          · simp [SecondChance.fill, hj, empty j]
        · obtain ⟨hle, hne⟩ := (hstep j).mp hj
          simp only [SecondChance.fill, Function.update_of_ne hne]
          exact clear j hle

/-- A fault with every frame loaded: both searches find the same victim. -/
theorem Matches.replace {s : State n} {r : Reference n} (h : Matches s r) {p : PageNumber}
    (hmiss : SecondChance.lowest (fun i => decide (r.frames i = some p)) = none)
    (hfull : SecondChance.lowest (fun i => (r.frames i).isNone) = none) :
    ∃ s', handlePageRequest s p.1 = some s' ∧ Matches s' (SecondChance.request r p) := by
  have hsome : ∀ i, r.frames i ≠ none := by
    intro i hi
    have := SecondChance.lowest_none.mp hfull i
    simp [hi] at this
  have hhand : s.clockHand = r.hand := by
    cases h.hands with
    | full _ hand => exact hand
    | filling _ empty _ => exact absurd ((empty s.clockHand).mpr le_rfl) (hsome _)
  obtain ⟨s', hs', hsame', hnext, hhits, hfaults⟩ := handlePageRequest_miss
    (r := { r with faults := r.faults + 1 }) ⟨h.same.page, h.same.bit, h.same.clean⟩ hhand hmiss
  rw [SecondChance.request_replace hmiss hfull]
  refine ⟨s', hs', ?_⟩
  obtain ⟨hrh, hrf⟩ := SecondChance.advance_counters n { r with faults := r.faults + 1 }
  refine ⟨⟨hsame'.page, hsame'.bit, hsame'.clean⟩, .full (fun j => ?_) hnext, ?_, ?_⟩
  · simp only [SecondChance.fill, SecondChance.advance_frames]
    by_cases hj : j = (SecondChance.advance n { r with faults := r.faults + 1 }).hand
    · simp [hj]
    · rw [Function.update_of_ne hj]
      exact hsome j
  · show s'.totalHits = (SecondChance.advance n _).hits
    rw [hhits, hrh]
    exact h.hits
  · show s'.totalFaults = (SecondChance.advance n _).faults
    rw [hfaults, hrf, h.faults]

theorem Matches.request {s : State n} {r : Reference n} (h : Matches s r) (p : PageNumber) :
    ∃ s', handlePageRequest s p.1 = some s' ∧ Matches s' (SecondChance.request r p) := by
  cases hmiss : SecondChance.lowest fun i => decide (r.frames i = some p) with
  | some i => exact h.hit hmiss
  | none =>
      cases hempty : SecondChance.lowest fun i => (r.frames i).isNone with
      | some i => exact h.load hmiss hempty
      | none => exact h.replace hmiss hempty

/-! ## Whole runs -/

/-- What a run shows after each request: the two counters, which tell a hit
from a fault, and the page number stored in each frame. -/
abbrev Observation (n : Nat) := (Nat × Nat) × (Fin n → UInt8)

def observe (s : State n) : Observation n :=
  ((s.totalHits, s.totalFaults), fun i => (s.memory i).pageNumber)

/-- One request of the simulator; it stops only if the clock never returns. -/
def step : Step (State n) PageNumber (Option (Observation n)) := fun s p =>
  ((handlePageRequest s p.1).map observe, handlePageRequest s p.1)

/-- One request of the textbook algorithm. -/
def referenceStep : Step (Reference n) PageNumber (Option (Observation n)) := fun r p =>
  let r := SecondChance.request r p
  (some ((r.hits, r.faults), fun i => encode (r.frames i)), some r)

theorem Matches.observe_eq {s : State n} {r : Reference n} (h : Matches s r) :
    observe s = ((r.hits, r.faults), fun i => encode (r.frames i)) := by
  simp only [observe, h.hits, h.faults, h.same.page]

theorem simulates_referenceStep : Simulates Matches (step (n := n)) referenceStep := by
  intro s r p h
  obtain ⟨s', hs', h'⟩ := h.request p
  simp only [step, referenceStep, hs', Option.map_some, h'.observe_eq, Continues]
  exact ⟨trivial, h'⟩

/-- What the textbook algorithm keeps over a run of `k` requests. -/
theorem final_referenceStep (reqs : List PageNumber) (r : Reference n)
    (h : SecondChance.Distinct r) :
    ∃ r', final referenceStep r reqs = some r' ∧ SecondChance.Distinct r' ∧
      r'.hits + r'.faults = r.hits + r.faults + reqs.length := by
  induction reqs generalizing r with
  | nil => exact ⟨r, rfl, h, rfl⟩
  | cons p reqs ih =>
      obtain ⟨r', hr', hd, hcount⟩ := ih (SecondChance.request r p)
        (SecondChance.request_distinct h p)
      refine ⟨r', hr', hd, ?_⟩
      rw [hcount, SecondChance.request_count, List.length_cons]
      omega

/-- **The simulator is the second-chance algorithm**: request by request the
same hits, faults and frames; no page in two frames, and every request
counted once. -/
theorem clock_refines_secondChance (hn : 0 < n) (reqs : List PageNumber) :
    outputs step (initializeMemory (initial hn)) reqs
        = outputs referenceStep (SecondChance.empty hn) reqs ∧
      ∃ s, final step (initializeMemory (initial hn)) reqs = some s ∧
        (∀ (p : PageNumber) (i j : Fin n), (s.memory i).pageNumber = p.1 →
          (s.memory j).pageNumber = p.1 → i = j) ∧
        s.totalHits + s.totalFaults = reqs.length := by
  refine ⟨simulates_referenceStep.outputs_eq reqs _ _ (matches_initial hn), ?_⟩
  have hempty : SecondChance.Distinct (SecondChance.empty hn : Reference n) := by
    intro i j p hi
    cases hi
  obtain ⟨r, hr, hdistinct, hcount⟩ := final_referenceStep reqs _ hempty
  have hfinal := simulates_referenceStep.final reqs _ _ (matches_initial hn)
  rw [hr] at hfinal
  cases hs : final step (initializeMemory (initial hn)) reqs with
  | none => rw [hs] at hfinal; exact hfinal.elim
  | some s =>
      rw [hs] at hfinal
      refine ⟨s, rfl, fun p i j hi hj => ?_, ?_⟩
      · rw [hfinal.same.page, encode_eq_page] at hi hj
        exact hdistinct i j p hi hj
      · rw [hfinal.hits, hfinal.faults, hcount]
        simp [SecondChance.empty]

/-- The first request line of the comment at the end of the source. -/
def sampleRequests : List PageNumber :=
  [⟨0, by decide⟩, ⟨4, by decide⟩, ⟨1, by decide⟩, ⟨4, by decide⟩, ⟨2, by decide⟩,
    ⟨4, by decide⟩, ⟨3, by decide⟩, ⟨4, by decide⟩, ⟨2, by decide⟩, ⟨4, by decide⟩,
    ⟨0, by decide⟩, ⟨4, by decide⟩, ⟨1, by decide⟩, ⟨4, by decide⟩, ⟨2, by decide⟩,
    ⟨4, by decide⟩, ⟨3, by decide⟩, ⟨4, by decide⟩]

/-- Its three frames give the nine faults and nine hits the source expects. -/
theorem clock_refines_secondChance_sample :
    (final step (initializeMemory (initial (Nat.succ_pos 2))) sampleRequests).map
        (fun s => (s.totalFaults, s.totalHits)) = some (9, 9) ∧
      outputs step (initializeMemory (initial (Nat.succ_pos 2))) sampleRequests
        = outputs referenceStep (SecondChance.empty (Nat.succ_pos 2)) sampleRequests :=
  ⟨by decide +kernel, (clock_refines_secondChance (Nat.succ_pos 2) sampleRequests).1⟩

end OsInParts.Clock
