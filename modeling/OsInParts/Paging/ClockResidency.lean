import Mathlib.Data.Finset.Card
import Mathlib.Data.Fintype.Card
import OsInParts.Paging.ClockRefinement
import OsInParts.Paging.ClockVictim

/-!
# ClockResidency — what a hit says about the page

Page number 255 is also the mark of an empty frame, so a request for it hits
while a frame is still empty. `Run` keeps beside the simulator the page that
an earlier request loaded into each frame. Frames are filled in order, one for
each page, so what matters is how many pages come before the first request for
page 255.
-/

namespace OsInParts.Clock

open Lib Lib.Loop

variable {n : Nat}

/-- The mark that `initialize_memory` stores. -/
def emptyMark : UInt8 := 255

/-! ## The simulator with its loads -/

/-- `loaded i` is the page loaded into frame `i` and not replaced since. -/
structure Run (n : Nat) where
  state : State n
  loaded : Fin n → Option UInt8

def Run.start (hn : 0 < n) : Run n :=
  { state := initializeMemory (initial hn), loaded := fun _ => none }

/-- Page `pageNumber` is loaded into `frame` of `s`. -/
def Run.load (r : Run n) (s : State n) (frame : Fin n) (pageNumber : UInt8) : Run n :=
  { state := loadPage s frame pageNumber
    loaded := Function.update r.loaded frame (some pageNumber) }

/-- The frame that a fault replaces. -/
def chooseFrame (s : State n) : Option (Fin n × State n) :=
  match findEmptyFrame s with
  | some frame => some (frame, s)
  | none => clockAlgorithm s

/-- `handle_page_request`, and what it loads. -/
def Run.request (r : Run n) (pageNumber : UInt8) : Option (Run n) :=
  if isPageInMemory r.state pageNumber then
    (handlePageRequest r.state pageNumber).map fun s => { r with state := s }
  else
    (chooseFrame { r.state with totalFaults := r.state.totalFaults + 1 }).map fun (frame, s) =>
      r.load s frame pageNumber

/-- The simulator is not affected. -/
theorem Run.request_state (r : Run n) (p : UInt8) :
    (r.request p).map Run.state = handlePageRequest r.state p := by
  unfold Run.request
  split
  · rw [Option.map_map]
    exact Option.map_id_apply
  · rename_i hmiss
    rw [handlePageRequest, if_neg hmiss]
    simp only [chooseFrame, findEmptyFrame_eq_none, Option.map_map]
    rfl

/-- The requests one after the other. -/
def Run.requests (r : Run n) (reqs : List UInt8) : Option (Run n) := reqs.foldlM Run.request r

theorem Run.requests_concat (r : Run n) (reqs : List UInt8) (p : UInt8) :
    r.requests (reqs ++ [p]) = (r.requests reqs).bind fun r => r.request p := by
  simp [Run.requests, List.foldlM_append]

theorem Run.requests_state (r : Run n) (reqs : List UInt8) :
    (r.requests reqs).map Run.state = reqs.foldlM handlePageRequest r.state := by
  induction reqs generalizing r with
  | nil => rfl
  | cons p reqs ih =>
      rw [Run.requests, List.foldlM_cons, List.foldlM_cons, ← r.request_state p]
      cases r.request p with
      | none => rfl
      | some r₁ => exact ih r₁

/-! ## What the searches leave alone -/

theorem passed_pageNumber (page : Page) : page.passed.pageNumber = page.pageNumber := by
  unfold Page.passed
  split <;> rfl

/-- `clock_algorithm` returns, and changes no page number. -/
theorem clockAlgorithm_keeps (s : State n) : ∃ victim s', clockAlgorithm s = some (victim, s') ∧
    (∀ i, (s'.memory i).pageNumber = (s.memory i).pageNumber) ∧
    s'.totalFaults = s.totalFaults ∧ s'.totalHits = s.totalHits := by
  have hswept : ∀ k i, ((swept s k).memory i).pageNumber = (s.memory i).pageNumber :=
    fun k i => by
      simp only [swept]
      split
      · exact passed_pageNumber _
      · rfl
  rcases clockAlgorithm_cases s with ⟨k, -, -, -, hresult⟩ | ⟨-, hresult⟩
  · exact ⟨_, _, hresult, hswept k, rfl, rfl⟩
  · exact ⟨_, _, hresult, hswept n, rfl, rfl⟩

/-- A hit changes no page number, and only frames with its page. -/
theorem setReferenceBit_keeps (s : State n) (p : UInt8) (i : Fin n) :
    ((setReferenceBit s p).memory i).pageNumber = (s.memory i).pageNumber ∧
      ((s.memory i).pageNumber ≠ p → (setReferenceBit s p).memory i = s.memory i) := by
  unfold setReferenceBit
  cases hfind : (List.finRange n).find? fun i => (s.memory i).pageNumber == p with
  | none => exact ⟨rfl, fun _ => rfl⟩
  | some k =>
      have hk : (s.memory k).pageNumber = p := by simpa using List.find?_some hfind
      by_cases hi : i = k
      · subst hi
        simp [State.setFrame, hk]
      · simp [State.setFrame, hi]

theorem setReferenceBit_counters (s : State n) (p : UInt8) :
    (setReferenceBit s p).clockHand = s.clockHand ∧
      (setReferenceBit s p).totalFaults = s.totalFaults ∧
      (setReferenceBit s p).totalHits = s.totalHits := by
  unfold setReferenceBit
  split
  · exact ⟨rfl, rfl, rfl⟩
  · exact ⟨rfl, rfl, rfl⟩

theorem isPageInMemory_iff (s : State n) (p : UInt8) :
    isPageInMemory s p = true ↔ ∃ i, (s.memory i).pageNumber = p := by
  simp [isPageInMemory]

/-! ## The loads after a sequence of requests -/

/-- Every frame is loaded, or each of the pages so far is and the hand is on the
first frame that is not. -/
inductive Phase (r : Run n) (before : List UInt8) : Prop where
  | full (h : ∀ i, r.loaded i ≠ none)
  | filling (mark : emptyMark ∉ before) (all : ∀ p ∈ before, ∃ i, r.loaded i = some p)
      (empty : ∀ i, r.loaded i = none ↔ r.state.clockHand ≤ i)
      (clear : ∀ i, r.state.clockHand ≤ i → (r.state.memory i).Clear)

structure Loaded (r : Run n) (before : List UInt8) : Prop where
  page : ∀ i, (r.state.memory i).pageNumber = (r.loaded i).getD emptyMark
  past : ∀ i p, r.loaded i = some p → p ∈ before
  distinct : ∀ i j p, r.loaded i = some p → r.loaded j = some p → i = j
  faults : before.toFinset.card ≤ r.state.totalFaults
  phase : Phase r before

variable {r : Run n} {before : List UInt8} {p : UInt8}

theorem Loaded.start (hn : 0 < n) : Loaded (Run.start hn) [] where
  page := fun _ => rfl
  past := fun i p h => by cases h
  distinct := fun i j p h => by cases h
  faults := Nat.zero_le _
  phase := .filling (List.not_mem_nil) (fun p h => by cases h)
    (fun i => iff_of_true rfl (Fin.mk_le_of_le_val (Nat.zero_le i.val))) fun _ _ => ⟨rfl, rfl⟩

/-- As many pages as frames have been requested once every frame is loaded. -/
theorem Loaded.card_ge (h : Loaded r before) (hfull : ∀ i, r.loaded i ≠ none) :
    n ≤ before.toFinset.card := by
  have hcard := Finset.card_le_card_of_injOn (s := (Finset.univ : Finset (Fin n)))
    (t := before.toFinset) (fun i => (r.loaded i).getD emptyMark)
    (fun i _ => by
      obtain ⟨p, hp⟩ := Option.ne_none_iff_exists'.mp (hfull i)
      simpa [hp] using h.past i p hp)
    (fun i _ j _ heq => by
      obtain ⟨p, hp⟩ := Option.ne_none_iff_exists'.mp (hfull i)
      obtain ⟨q, hq⟩ := Option.ne_none_iff_exists'.mp (hfull j)
      simp only [hp, hq, Option.getD_some] at heq
      exact h.distinct i j p hp (heq ▸ hq))
  simpa using hcard

/-- Before that there are fewer. -/
theorem card_lt_of_filling {hand : Fin n} (hall : ∀ p ∈ before, ∃ i, r.loaded i = some p)
    (hhand : r.loaded hand = none) : before.toFinset.card < n := by
  have hsub : before.toFinset ⊆
      (Finset.univ.erase hand).image fun i => (r.loaded i).getD emptyMark := by
    intro p hp
    obtain ⟨i, hi⟩ := hall p (List.mem_toFinset.mp hp)
    refine Finset.mem_image.mpr ⟨i, Finset.mem_erase.mpr ⟨?_, Finset.mem_univ i⟩, by rw [hi]; rfl⟩
    rintro rfl
    rw [hhand] at hi
    cases hi
  have hcard := (Finset.card_le_card hsub).trans Finset.card_image_le
  rw [Finset.card_erase_of_mem (Finset.mem_univ hand), Finset.card_univ, Fintype.card_fin] at hcard
  have := Nat.zero_lt_of_lt hand.isLt
  omega

/-- A page other than 255 is in memory exactly if it is loaded; of page 255 this
holds once every frame is loaded. -/
theorem Loaded.inMemory_iff (h : Loaded r before)
    (hp : p ≠ emptyMark ∨ ∀ i, r.loaded i ≠ none) :
    isPageInMemory r.state p = true ↔ ∃ i, r.loaded i = some p := by
  rw [isPageInMemory_iff]
  refine exists_congr fun i => ?_
  rw [h.page i]
  cases hi : r.loaded i with
  | none =>
      refine iff_of_false (fun heq => ?_) (fun heq => by cases heq)
      rcases hp with hp | hfull
      · exact hp heq.symm
      · exact hfull i hi
  | some q => simp

/-- Page 255 is in memory while a frame is empty. -/
theorem Loaded.mark_inMemory (h : Loaded r before) {i : Fin n} (hi : r.loaded i = none) :
    isPageInMemory r.state emptyMark = true :=
  (isPageInMemory_iff r.state emptyMark).mpr ⟨i, by rw [h.page i, hi]; rfl⟩

/-! ## One request -/

theorem card_concat_le (before : List UInt8) (p : UInt8) :
    (before ++ [p]).toFinset.card ≤ before.toFinset.card + 1 := by
  rw [List.toFinset_append]
  exact (Finset.card_union_le _ _).trans (Nat.add_le_add_left (by simp) _)

/-- A hit on a loaded page. -/
theorem Loaded.hit (h : Loaded r before) {i : Fin n} (hi : r.loaded i = some p)
    (hp : p ≠ emptyMark ∨ ∀ i, r.loaded i ≠ none) :
    ∃ r', r.request p = some r' ∧ Loaded r' (before ++ [p]) := by
  have hin := (h.inMemory_iff hp).mpr ⟨i, hi⟩
  let s' := setReferenceBit { r.state with totalHits := r.state.totalHits + 1 } p
  have hrequest : r.request p = some { r with state := s' } := by
    rw [Run.request, if_pos hin, handlePageRequest, if_pos hin]
    rfl
  have hkeeps := setReferenceBit_keeps { r.state with totalHits := r.state.totalHits + 1 } p
  have hmem : p ∈ before := h.past i p hi
  obtain ⟨hhand, hfaults, -⟩ :=
    setReferenceBit_counters { r.state with totalHits := r.state.totalHits + 1 } p
  refine ⟨_, hrequest, fun j => (hkeeps j).1.trans (h.page j),
    fun j q hq => List.mem_append_left _ (h.past j q hq), h.distinct, ?_, ?_⟩
  · have hsame : (before ++ [p]).toFinset = before.toFinset := by
      ext q
      simp only [List.mem_toFinset, List.mem_append, List.mem_singleton]
      exact ⟨fun hq => hq.elim id fun hq => hq ▸ hmem, .inl⟩
    rw [hsame]
    exact h.faults.trans hfaults.ge
  · cases h.phase with
    | full hfull => exact .full hfull
    | filling mark all empty clear =>
        have hmark : p ≠ emptyMark := fun heq => mark (heq ▸ hmem)
        refine .filling ?_ ?_ (fun j => (empty j).trans (by rw [hhand])) fun j hj => ?_
        · rw [List.mem_append, List.mem_singleton, not_or]
          exact ⟨mark, Ne.symm hmark⟩
        · intro q hq
          rcases List.mem_append.mp hq with hq | hq
          · exact all q hq
          · exact ⟨i, by rw [List.mem_singleton.mp hq]; exact hi⟩
        · rw [hhand] at hj
          have hnone := (empty j).mpr hj
          have hne : (r.state.memory j).pageNumber ≠ p := by
            rw [h.page j, hnone]
            exact Ne.symm hmark
          show ((setReferenceBit _ p).memory j).Clear
          rw [(hkeeps j).2 hne]
          exact clear j hj

/-- What loading a page that is in no frame does, but for the phase. -/
theorem Loaded.load (h : Loaded r before) (hnew : ∀ i, r.loaded i ≠ some p) {s' : State n}
    {frame : Fin n} (hpages : ∀ i, (s'.memory i).pageNumber = (r.state.memory i).pageNumber)
    (hfaults : s'.totalFaults = r.state.totalFaults + 1)
    (hphase : Phase (r.load s' frame p) (before ++ [p])) :
    Loaded (r.load s' frame p) (before ++ [p]) := by
  have hother : ∀ i q, i ≠ frame → (r.load s' frame p).loaded i = some q → r.loaded i = some q :=
    fun i q hi hq => by simpa only [Run.load, Function.update_of_ne hi] using hq
  have hself : ∀ q, (r.load s' frame p).loaded frame = some q → q = p := fun q hq => by
    simp only [Run.load, Function.update_self] at hq
    exact (Option.some.inj hq).symm
  constructor
  · intro i
    by_cases hi : i = frame
    · subst hi
      simp [Run.load, loadPage, State.setFrame]
    · simp only [Run.load, loadPage, State.setFrame, Function.update_of_ne hi]
      exact (hpages i).trans (h.page i)
  · intro i q hq
    by_cases hi : i = frame
    · subst hi
      simp [hself q hq]
    · exact List.mem_append_left _ (h.past i q (hother i q hi hq))
  · intro i j q hi hj
    by_cases hif : i = frame <;> by_cases hjf : j = frame
    · rw [hif, hjf]
    · subst hif
      exact absurd (hself q hi ▸ hother j q hjf hj) (hnew j)
    · subst hjf
      exact absurd (hself q hj ▸ hother i q hif hi) (hnew i)
    · exact h.distinct i j q (hother i q hif hi) (hother j q hjf hj)
  · have hcard := (card_concat_le before p).trans (Nat.add_le_add_right h.faults 1)
    exact hcard.trans hfaults.ge
  · exact hphase

/-- Loading the first frame that is empty. -/
theorem Phase.load {s' : State n} (mark : emptyMark ∉ before)
    (all : ∀ q ∈ before, ∃ i, r.loaded i = some q)
    (empty : ∀ i, r.loaded i = none ↔ r.state.clockHand ≤ i)
    (clear : ∀ i, r.state.clockHand ≤ i → (r.state.memory i).Clear) (hmark : p ≠ emptyMark)
    (hmemory : s'.memory = r.state.memory) (hhand : s'.clockHand = nextHand r.state.clockHand) :
    Phase (r.load s' r.state.clockHand p) (before ++ [p]) := by
  have hnext := SecondChance.next_val r.state.clockHand
  have hlt := r.state.clockHand.isLt
  by_cases hlast : r.state.clockHand.val + 1 = n
  · -- the last frame that was empty
    refine .full fun i => ?_
    by_cases hi : i = r.state.clockHand
    · simp [Run.load, hi]
    · simp only [Run.load, Function.update_of_ne hi]
      rw [Ne, empty i, Fin.le_def]
      have hne : i.val ≠ r.state.clockHand.val := fun heq => hi (Fin.ext heq)
      omega
  · rw [if_neg hlast] at hnext
    have hstep : ∀ i, (r.load s' r.state.clockHand p).state.clockHand ≤ i ↔
        r.state.clockHand ≤ i ∧ i ≠ r.state.clockHand := fun i => by
      simp only [Run.load, loadPage, State.setFrame, hhand]
      rw [nextHand_eq, Fin.le_def, Fin.le_def, hnext, Ne, Fin.ext_iff]
      omega
    refine .filling ?_ (fun q hq => ?_) (fun i => ?_) fun i hi => ?_
    · rw [List.mem_append, List.mem_singleton, not_or]
      exact ⟨mark, Ne.symm hmark⟩
    · rcases List.mem_append.mp hq with hq | hq
      · obtain ⟨i, hi⟩ := all q hq
        have hne : i ≠ r.state.clockHand := by
          rintro rfl
          rw [(empty _).mpr le_rfl] at hi
          cases hi
        exact ⟨i, by simpa [Run.load, Function.update_of_ne hne] using hi⟩
      · refine ⟨r.state.clockHand, ?_⟩
        rw [List.mem_singleton.mp hq]
        exact Function.update_self ..
    · rw [hstep]
      by_cases hi : i = r.state.clockHand
      · simp [Run.load, hi]
      · simp [Run.load, hi, empty i]
    · obtain ⟨hle, hne⟩ := (hstep i).mp hi
      simp only [Run.load, loadPage, State.setFrame, Function.update_of_ne hne, hmemory]
      exact clear i hle

/-- **A fault** loads the page. -/
theorem Loaded.fault (h : Loaded r before) (hmiss : isPageInMemory r.state p = false) :
    ∃ r', r.request p = some r' ∧ Loaded r' (before ++ [p]) := by
  have hnot : ¬ isPageInMemory r.state p = true := by simp [hmiss]
  have hrequest : ∀ frame s',
      clockAlgorithm { r.state with totalFaults := r.state.totalFaults + 1 } = some (frame, s') →
      r.request p = some (r.load s' frame p) := fun frame s' hclock => by
    rw [Run.request, if_neg hnot, chooseFrame, findEmptyFrame_eq_none]
    dsimp only
    rw [hclock, Option.map_some]
  cases h.phase with
  | full hfull =>
      have hnew : ∀ i, r.loaded i ≠ some p := fun i hi =>
        hnot ((h.inMemory_iff (.inr hfull)).mpr ⟨i, hi⟩)
      obtain ⟨frame, s', hclock, hpages, hfaults, -⟩ :=
        clockAlgorithm_keeps { r.state with totalFaults := r.state.totalFaults + 1 }
      refine ⟨_, hrequest frame s' hclock, h.load hnew hpages hfaults (.full fun i => ?_)⟩
      by_cases hi : i = frame
      · subst hi
        simp [Run.load]
      · simp only [Run.load, Function.update_of_ne hi]
        exact hfull i
  | filling mark all empty clear =>
      have hmark : p ≠ emptyMark := by
        rintro rfl
        exact hnot (h.mark_inMemory ((empty r.state.clockHand).mpr le_rfl))
      have hnew : ∀ i, r.loaded i ≠ some p := fun i hi =>
        hnot ((h.inMemory_iff (.inl hmark)).mpr ⟨i, hi⟩)
      have hclear := clear r.state.clockHand le_rfl
      have hclock := clockAlgorithm_clear
        (s := { r.state with totalFaults := r.state.totalFaults + 1 }) hclear.1 hclear.2
      exact ⟨_, hrequest _ _ hclock, h.load hnew (fun _ => rfl) rfl
        (Phase.load mark all empty clear hmark rfl rfl)⟩

/-! ## Runs -/

/-- Before page 255 is requested for the first time there have been as many
pages as frames. -/
def FillsFirst (n : Nat) (reqs : List UInt8) : Prop :=
  emptyMark ∈ reqs → n ≤ (reqs.takeWhile (· ≠ emptyMark)).toFinset.card

theorem takeWhile_mark {x : List UInt8} (hx : emptyMark ∉ x) (y : List UInt8) :
    (x ++ emptyMark :: y).takeWhile (· ≠ emptyMark) = x := by
  rw [List.takeWhile_append_of_pos fun p hp => by
    simpa using fun heq : p = emptyMark => hx (heq ▸ hp)]
  simp

theorem FillsFirst.left {x y : List UInt8} (h : FillsFirst n (x ++ y)) : FillsFirst n x := by
  intro hx
  obtain ⟨u, v, rfl, hu⟩ := List.eq_append_cons_of_mem hx
  have hge := h (List.mem_append_left _ hx)
  rw [List.append_assoc, List.cons_append, takeWhile_mark hu] at hge
  rw [takeWhile_mark hu]
  exact hge

/-- **One request** of a run that fills the frames first. -/
theorem Loaded.request (h : Loaded r before) (hfills : FillsFirst n (before ++ [p])) :
    (isPageInMemory r.state p = true → ∃ i, r.loaded i = some p) ∧
      ∃ r', r.request p = some r' ∧ Loaded r' (before ++ [p]) := by
  have hp : p ≠ emptyMark ∨ ∀ i, r.loaded i ≠ none := by
    cases h.phase with
    | full hfull => exact .inr hfull
    | filling mark all empty clear =>
        refine .inl fun heq => ?_
        have hge := hfills (by rw [heq]; simp)
        rw [heq, takeWhile_mark mark] at hge
        have hlt := card_lt_of_filling all ((empty r.state.clockHand).mpr le_rfl)
        omega
  refine ⟨(h.inMemory_iff hp).mp, ?_⟩
  cases hin : isPageInMemory r.state p with
  | true =>
      obtain ⟨i, hi⟩ := (h.inMemory_iff hp).mp hin
      exact h.hit hi hp
  | false => exact h.fault hin

theorem loaded_of_fillsFirst (hn : 0 < n) {reqs : List UInt8} (h : FillsFirst n reqs) :
    ∃ r, (Run.start hn).requests reqs = some r ∧ Loaded r reqs := by
  induction reqs using List.reverseRecOn with
  | nil => exact ⟨_, rfl, Loaded.start hn⟩
  | append_singleton reqs p ih =>
      obtain ⟨r, hr, hloaded⟩ := ih h.left
      obtain ⟨-, r', hr', hloaded'⟩ := hloaded.request h
      exact ⟨r', by rw [Run.requests_concat, hr, Option.bind_some, hr'], hloaded'⟩

/-- **Hits are sound**: each is for a page that an earlier request loaded and
that has not been replaced since, so there are at least as many faults as
pages. -/
structure HitsSound (hn : 0 < n) (reqs : List UInt8) : Prop where
  hits : ∀ before p after, reqs = before ++ p :: after →
    ∃ r s, (Run.start hn).requests before = some r ∧ handlePageRequest r.state p = some s ∧
      (r.state.totalHits < s.totalHits → ∃ i, r.loaded i = some p)
  faults : ∃ s, reqs.foldlM handlePageRequest (initializeMemory (initial hn)) = some s ∧
    reqs.toFinset.card ≤ s.totalFaults

/-- A request is counted as a hit if the page is in memory. -/
theorem totalHits_lt_iff {s s' : State n} (h : handlePageRequest s p = some s') :
    s.totalHits < s'.totalHits ↔ isPageInMemory s p = true := by
  cases hin : isPageInMemory s p with
  | true =>
      rw [handlePageRequest, if_pos hin] at h
      cases h
      simp [setReferenceBit_counters]
  | false =>
      obtain ⟨frame, s₁, hclock, -, -, hhits⟩ :=
        clockAlgorithm_keeps { s with totalFaults := s.totalFaults + 1 }
      rw [handlePageRequest, if_neg (by simp [hin])] at h
      simp only [findEmptyFrame_eq_none, hclock, Option.map_some] at h
      cases h
      simp [loadPage, State.setFrame, hhits]

theorem HitsSound.fillsFirst {hn : 0 < n} {reqs : List UInt8} (h : HitsSound hn reqs) :
    FillsFirst n reqs := by
  intro hmem
  obtain ⟨before, after, rfl, hnot⟩ := List.eq_append_cons_of_mem hmem
  rw [takeWhile_mark hnot]
  have hbefore : FillsFirst n before := fun hin => absurd hin hnot
  obtain ⟨r, hr, hloaded⟩ := loaded_of_fillsFirst hn hbefore
  cases hloaded.phase with
  | full hfull => exact hloaded.card_ge hfull
  | filling mark all empty clear =>
      obtain ⟨r', s, hr', hs, hhit⟩ := h.hits before emptyMark after rfl
      rw [hr] at hr'
      cases hr'
      have hin := hloaded.mark_inMemory ((empty r.state.clockHand).mpr le_rfl)
      obtain ⟨i, hi⟩ := hhit ((totalHits_lt_iff hs).mpr hin)
      exact absurd (hloaded.past i emptyMark hi) mark

/-- **Hits are sound exactly if the frames are filled before page 255 is
requested.** -/
theorem hitsSound_iff (hn : 0 < n) (reqs : List UInt8) :
    HitsSound hn reqs ↔ FillsFirst n reqs := by
  refine ⟨HitsSound.fillsFirst, fun h => ⟨?_, ?_⟩⟩
  · rintro before p after rfl
    have hfills : FillsFirst n (before ++ [p]) := FillsFirst.left (y := after) (by simpa using h)
    obtain ⟨r, hr, hloaded⟩ := loaded_of_fillsFirst hn hfills.left
    obtain ⟨hhit, r', hr', -⟩ := hloaded.request hfills
    have hs := r.request_state p
    rw [hr', Option.map_some] at hs
    exact ⟨r, r'.state, hr, hs.symm, fun hlt => hhit ((totalHits_lt_iff hs.symm).mp hlt)⟩
  · obtain ⟨r, hr, hloaded⟩ := loaded_of_fillsFirst hn h
    have hs := (Run.start hn).requests_state reqs
    rw [hr, Option.map_some] at hs
    exact ⟨r.state, hs.symm, hloaded.faults⟩

/-- Page 255 after three frames have been filled with three pages. -/
theorem hitsSound_iff_sample : HitsSound (n := 3) (Nat.succ_pos 2) [2, 3, 2, 1, 255, 2] :=
  (hitsSound_iff (n := 3) (Nat.succ_pos 2) [2, 3, 2, 1, 255, 2]).mpr
    (by unfold FillsFirst; decide)

/-- What the simulator promises for every page number. -/
def AlwaysSound : Prop := ∀ (n : Nat) (hn : 0 < n) (reqs : List UInt8), HitsSound hn reqs

/-- The first request hits if it is for page 255. -/
theorem not_alwaysSound : ¬ AlwaysSound := by
  intro h
  have hge := (h 1 Nat.one_pos [emptyMark]).fillsFirst (List.mem_singleton_self _)
  simp at hge

end OsInParts.Clock
