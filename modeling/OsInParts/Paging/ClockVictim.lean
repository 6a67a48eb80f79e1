import OsInParts.Lib.Ring
import OsInParts.Paging.Clock

/-!
# ClockVictim — which frame the clock takes

`clock_algorithm` on frames with any bits. A frame it passes loses its
reference bit, or its dirty bit if that is the only one set. The search ends
at the first frame with neither bit, or back at the frame it started from,
which it has passed once: if both bits of that frame were set its dirty bit
still is.
-/

namespace OsInParts.Clock

open Lib Lib.Loop

variable {n : Nat}

/-- Neither bit is set. -/
def Page.Clear (page : Page) : Prop := page.referenceBit = false ∧ page.dirtyBit = false

instance : DecidablePred Page.Clear := fun page =>
  inferInstanceAs (Decidable (page.referenceBit = false ∧ page.dirtyBit = false))

/-- What passing a frame makes of it. -/
def Page.passed (page : Page) : Page :=
  if page.referenceBit = false then { page with dirtyBit := false }
  else { page with referenceBit := false }

/-- The frame `k` places after `start`. -/
def frameAt (start : Fin n) (k : Nat) : Fin n :=
  ⟨(start.val + k) % n, Nat.mod_lt _ (Nat.zero_lt_of_lt start.isLt)⟩

/-- How many places frame `i` comes after `start`. -/
def ahead (start i : Fin n) : Nat := if start ≤ i then i.val - start.val else i.val + n - start.val

theorem ahead_lt (start i : Fin n) : ahead start i < n := by
  unfold ahead
  split <;> rename_i h <;> rw [Fin.le_def] at h <;> omega

theorem frameAt_val (start : Fin n) {k : Nat} (hk : k ≤ n) :
    (frameAt start k).val
      = if start.val + k < n then start.val + k else start.val + k - n :=
  Ring.add_mod_of_le start.isLt hk

theorem frameAt_ahead (start i : Fin n) : frameAt start (ahead start i) = i := by
  have hlt := ahead_lt start i
  apply Fin.ext
  rw [frameAt_val start hlt.le]
  unfold ahead at hlt ⊢
  split <;> rename_i h <;> rw [Fin.le_def] at h <;> split <;> omega

theorem ahead_frameAt (start : Fin n) {k : Nat} (hk : k < n) :
    ahead start (frameAt start k) = k := by
  have hval := frameAt_val start hk.le
  unfold ahead
  split <;> rename_i h <;> rw [Fin.le_def] at h <;> split at hval <;> omega

theorem ahead_self (start : Fin n) : ahead start start = 0 := by
  simp [ahead]

theorem frameAt_zero (start : Fin n) : frameAt start 0 = start := by
  simpa only [ahead_self] using frameAt_ahead start start

theorem frameAt_full (start : Fin n) : frameAt start n = start := by
  apply Fin.ext
  rw [frameAt_val _ le_rfl, if_neg (by omega), Nat.add_sub_cancel]

theorem nextHand_frameAt (start : Fin n) (k : Nat) :
    nextHand (frameAt start k) = frameAt start (k + 1) := by
  apply Fin.ext
  simp only [nextHand, frameAt, Nat.mod_add_mod, Nat.add_assoc]

/-! ## The search -/

/-- The state after `k` frames have been passed. -/
def swept (s : State n) (k : Nat) : State n :=
  { s with
    memory := fun i =>
      if ahead s.clockHand i < k then (s.memory i).passed else s.memory i
    clockHand := frameAt s.clockHand k }

section Search

variable {s : State n}

theorem swept_zero (s : State n) : swept s 0 = s := by
  simp [swept, frameAt_zero]

/-- The frame under the hand has not been passed yet. -/
theorem swept_hand {k : Nat} (hk : k < n) :
    (swept s k).memory (swept s k).clockHand = s.memory (frameAt s.clockHand k) := by
  simp [swept, ahead_frameAt _ hk]

/-- Passing the frame under the hand. -/
theorem swept_succ {k : Nat} (hk : k < n) :
    { (swept s k).setFrame (frameAt s.clockHand k) (s.memory (frameAt s.clockHand k)).passed with
      clockHand := frameAt s.clockHand (k + 1) } = swept s (k + 1) := by
  have hmemory : Function.update (swept s k).memory (frameAt s.clockHand k)
      (s.memory (frameAt s.clockHand k)).passed = (swept s (k + 1)).memory := by
    funext i
    by_cases hi : i = frameAt s.clockHand k
    · subst hi
      simp [swept, ahead_frameAt _ hk]
    · have hne : ahead s.clockHand i ≠ k := fun heq =>
        hi (by rw [← frameAt_ahead s.clockHand i, heq])
      rw [Function.update_of_ne hi]
      have hiff : ahead s.clockHand i < k + 1 ↔ ahead s.clockHand i < k := by omega
      simp only [swept, hiff]
  simp only [State.setFrame, hmemory]
  rfl

/-- One turn, with the two ways of passing a frame in one. -/
theorem clockBody_eq (start : Fin n) (s : State n) : clockBody start s =
    if (s.memory s.clockHand).Clear then .exit (takeVictim s)
    else
      let s' := { s.setFrame s.clockHand (s.memory s.clockHand).passed with
        clockHand := nextHand s.clockHand }
      if s'.clockHand = start then .exit (takeVictim s') else .again s' := by
  unfold clockBody
  rcases hpage : s.memory s.clockHand with ⟨number, reference, dirty⟩
  cases reference <;> cases dirty <;> simp [Page.Clear, Page.passed, State.setFrame]

/-- A turn on a clear frame. -/
theorem clockBody_clear {k : Nat} (hk : k < n) (h : (s.memory (frameAt s.clockHand k)).Clear) :
    clockBody s.clockHand (swept s k) = .exit (takeVictim (swept s k)) := by
  rw [clockBody_eq, swept_hand hk, if_pos h]

/-- A turn on any other frame passes it. -/
theorem clockBody_passes {k : Nat} (hk : k < n)
    (h : ¬ (s.memory (frameAt s.clockHand k)).Clear) :
    clockBody s.clockHand (swept s k) =
      if k + 1 = n then .exit (takeVictim (swept s (k + 1))) else .again (swept s (k + 1)) := by
  have hback : frameAt s.clockHand (k + 1) = s.clockHand ↔ k + 1 = n := by
    constructor
    · intro heq
      by_contra hne
      have hahead := ahead_frameAt s.clockHand (k := k + 1) (by omega)
      rw [heq, ahead_self] at hahead
      omega
    · rintro rfl
      exact frameAt_full _
  have hhand : (swept s k).clockHand = frameAt s.clockHand k := rfl
  rw [clockBody_eq, swept_hand hk, if_neg h, hhand, nextHand_frameAt]
  dsimp only
  by_cases hlast : k + 1 = n
  · rw [if_pos (hback.mpr hlast), if_pos hlast, swept_succ hk]
  · rw [if_neg (mt hback.mp hlast), if_neg hlast, swept_succ hk]

/-- The first `k` turns pass the first `k` frames. -/
theorem run_swept {k : Nat} (hk : k < n)
    (h : ∀ j < k, ¬ (s.memory (frameAt s.clockHand j)).Clear) (turns : Nat) :
    run (clockBody s.clockHand) (k + turns) s = run (clockBody s.clockHand) turns (swept s k) := by
  induction k generalizing turns with
  | zero => rw [Nat.zero_add, swept_zero]
  | succ k ih =>
      have hbody : clockBody s.clockHand (swept s k) = .again (swept s (k + 1)) := by
        rw [clockBody_passes (by omega) (h k (Nat.lt_succ_self k)), if_neg (by omega)]
      rw [Nat.add_assoc, ih (by omega) fun j hj => h j (by omega), Nat.add_comm 1,
        run_again hbody]

/-- The turn on the first clear frame leaves the loop. -/
theorem run_first {k : Nat} (hk : k < n) (hclear : (s.memory (frameAt s.clockHand k)).Clear)
    (hbefore : ∀ j < k, ¬ (s.memory (frameAt s.clockHand j)).Clear) :
    run (clockBody s.clockHand) (k + 1) s = .exit (takeVictim (swept s k)) := by
  rw [run_swept hk hbefore, run_exit (clockBody_clear hk hclear)]

/-- A turn on the last frame comes back to the start. -/
theorem clockBody_last (h : ∀ i, ¬ (s.memory i).Clear) :
    clockBody s.clockHand (swept s (n - 1)) = .exit (takeVictim (swept s n)) := by
  have hn := Nat.zero_lt_of_lt s.clockHand.isLt
  rw [clockBody_passes (by omega) (h _), Nat.sub_add_cancel hn, if_pos rfl]

theorem run_circle (h : ∀ i, ¬ (s.memory i).Clear) :
    run (clockBody s.clockHand) n s = .exit (takeVictim (swept s n)) := by
  have hn := Nat.zero_lt_of_lt s.clockHand.isLt
  have hrun := run_swept (s := s) (k := n - 1) (by omega) (fun j _ => h _) 1
  rwa [Nat.sub_add_cancel hn, run_exit (clockBody_last h)] at hrun

/-- **The search ends at the first clear frame.** -/
theorem clockAlgorithm_first {k : Nat} (hk : k < n)
    (hclear : (s.memory (frameAt s.clockHand k)).Clear)
    (hbefore : ∀ j < k, ¬ (s.memory (frameAt s.clockHand j)).Clear) :
    clockAlgorithm s = some (takeVictim (swept s k)) := by
  have hrun := run_exit_mono (run_first hk hclear hbefore) (n - (k + 1))
  rw [Nat.add_sub_cancel' hk] at hrun
  rw [clockAlgorithm, hrun]

/-- **Without one it comes full circle.** -/
theorem clockAlgorithm_circle (h : ∀ i, ¬ (s.memory i).Clear) :
    clockAlgorithm s = some (takeVictim (swept s n)) := by
  rw [clockAlgorithm, run_circle h]

/-- One of the two happens. -/
theorem clockAlgorithm_cases (s : State n) :
    (∃ k < n, (s.memory (frameAt s.clockHand k)).Clear ∧
        (∀ j < k, ¬ (s.memory (frameAt s.clockHand j)).Clear) ∧
        clockAlgorithm s = some (takeVictim (swept s k))) ∨
      (∀ i, ¬ (s.memory i).Clear) ∧ clockAlgorithm s = some (takeVictim (swept s n)) := by
  by_cases hall : ∀ i, ¬ (s.memory i).Clear
  · exact .inr ⟨hall, clockAlgorithm_circle hall⟩
  · have hexists : ∃ k, (s.memory (frameAt s.clockHand k)).Clear := by
      obtain ⟨i, hi⟩ := not_forall_not.mp hall
      exact ⟨ahead s.clockHand i, by rwa [frameAt_ahead]⟩
    obtain ⟨i, hi⟩ := not_forall_not.mp hall
    have hclear := Nat.find_spec hexists
    have hbefore : ∀ j < Nat.find hexists, ¬ (s.memory (frameAt s.clockHand j)).Clear :=
      fun j hj => Nat.find_min hexists hj
    have hlt : Nat.find hexists < n :=
      lt_of_le_of_lt (Nat.find_min' hexists (by rwa [frameAt_ahead])) (ahead_lt s.clockHand i)
    exact .inl ⟨_, hlt, hclear, hbefore, clockAlgorithm_first hlt hclear hbefore⟩

/-! ## What a search does -/

/-- Frame `i` is under the hand at the head of the loop. -/
def Examined (s : State n) (i : Fin n) : Prop :=
  ∃ t, Reaches (clockBody s.clockHand) s t ∧ t.clockHand = i

/-- **What a search does**: it takes the first clear frame in the order of the
ring, or the frame it has started from if there is none; each frame that it
has examined loses its reference bit, or its dirty bit if that is the only one
set; and the hand is left on the frame after the victim. -/
structure Searched (s : State n) (victim : Fin n) (s' : State n) : Prop where
  chosen : ((s.memory victim).Clear ∧
      ∀ i, (s.memory i).Clear → ahead s.clockHand victim ≤ ahead s.clockHand i) ∨
    (∀ i, ¬ (s.memory i).Clear) ∧ victim = s.clockHand
  pageNumber : ∀ i, (s'.memory i).pageNumber = (s.memory i).pageNumber
  referenceBit : ∀ i, (s'.memory i).referenceBit = true ↔
    (s.memory i).referenceBit = true ∧ ¬ Examined s i
  dirtyBit : ∀ i, (s'.memory i).dirtyBit = true ↔
    (s.memory i).dirtyBit = true ∧ ¬ (Examined s i ∧ (s.memory i).referenceBit = false)
  clockHand : s'.clockHand.val = (victim.val + 1) % n
  counters : s'.totalFaults = s.totalFaults ∧ s'.totalHits = s.totalHits

theorem Page.Clear.passed {page : Page} (h : page.Clear) : page.passed = page := by
  rw [Page.passed, if_pos h.1, ← h.2]

/-- The frames examined are those from the hand to the one that ends the search. -/
theorem examined_iff {k : Nat} (hk : k < n)
    (hbefore : ∀ j < k, ¬ (s.memory (frameAt s.clockHand j)).Clear) {r : Fin n × State n}
    (hexit : clockBody s.clockHand (swept s k) = .exit r) (i : Fin n) :
    Examined s i ↔ ahead s.clockHand i ≤ k := by
  have hreach : ∀ j ≤ k, run (clockBody s.clockHand) j s = .again (swept s j) := by
    intro j hj
    exact run_swept (hj.trans_lt hk) (fun m hm => hbefore m (hm.trans_le hj)) 0
  constructor
  · rintro ⟨t, ⟨j, hj⟩, rfl⟩
    rcases Nat.lt_or_ge k j with hlt | hle
    · -- the loop has been left by then
      obtain ⟨m, rfl⟩ := Nat.exists_eq_add_of_lt hlt
      rw [Nat.add_assoc, run_swept hk hbefore, run_exit hexit] at hj
      cases hj
    · rw [hreach j hle] at hj
      cases hj
      show ahead s.clockHand (frameAt s.clockHand j) ≤ k
      rwa [ahead_frameAt _ (hle.trans_lt hk)]
  · intro hle
    exact ⟨_, ⟨_, hreach _ hle⟩, frameAt_ahead s.clockHand i⟩

/-- A search in which the frames up to the `k`-th are examined and passed. -/
theorem Searched.of {k : Nat} {victim : Fin n} {s' : State n}
    (hexamined : ∀ i, Examined s i ↔ ahead s.clockHand i ≤ k)
    (hmemory : ∀ i, s'.memory i
      = if ahead s.clockHand i ≤ k then (s.memory i).passed else s.memory i)
    (hchosen : ((s.memory victim).Clear ∧
        ∀ i, (s.memory i).Clear → ahead s.clockHand victim ≤ ahead s.clockHand i) ∨
      (∀ i, ¬ (s.memory i).Clear) ∧ victim = s.clockHand)
    (hhand : s'.clockHand = nextHand victim)
    (hcounters : s'.totalFaults = s.totalFaults ∧ s'.totalHits = s.totalHits) :
    Searched s victim s' where
  chosen := hchosen
  pageNumber := by
    intro i
    rw [hmemory i, Page.passed]
    split
    · split <;> rfl
    · rfl
  referenceBit := by
    intro i
    rw [hmemory i, hexamined i, Page.passed]
    split <;> cases href : (s.memory i).referenceBit <;> simp [*]
  dirtyBit := by
    intro i
    rw [hmemory i, hexamined i, Page.passed]
    split <;> cases href : (s.memory i).referenceBit <;> simp [*]
  clockHand := congrArg Fin.val hhand
  counters := hcounters

/-- **`clock_algorithm`**, for any number of frames, any bits and any place of
the hand: it leaves its loop after at most `num_frames` turns, each of which
examines one frame, and `Searched` says what it has done. -/
theorem clockAlgorithm_searched (s : State n) :
    ∃ turns victim s', turns ≤ n ∧
      run (clockBody s.clockHand) turns s = .exit (victim, s') ∧
      clockAlgorithm s = some (victim, s') ∧ Searched s victim s' := by
  rcases clockAlgorithm_cases s with ⟨k, hk, hclear, hbefore, hresult⟩ | ⟨hall, hresult⟩
  · refine ⟨k + 1, _, _, hk, run_first hk hclear hbefore, hresult, ?_⟩
    apply Searched.of (examined_iff hk hbefore (clockBody_clear hk hclear))
    · intro i
      show (if ahead s.clockHand i < k then _ else _) = _
      rcases Nat.lt_trichotomy (ahead s.clockHand i) k with hlt | rfl | hgt
      · rw [if_pos hlt, if_pos hlt.le]
      · -- the victim itself has no bit to lose
        rw [frameAt_ahead] at hclear
        rw [if_neg (lt_irrefl _), if_pos le_rfl, hclear.passed]
      · rw [if_neg hgt.not_gt, if_neg hgt.not_ge]
    · left
      refine ⟨hclear, fun i hi => ?_⟩
      show ahead s.clockHand (frameAt s.clockHand k) ≤ _
      rw [ahead_frameAt _ hk]
      by_contra hlt
      exact hbefore _ (not_le.mp hlt) (by rwa [frameAt_ahead])
    · rfl
    · exact ⟨rfl, rfl⟩
  · have hn := Nat.zero_lt_of_lt s.clockHand.isLt
    refine ⟨n, _, _, le_rfl, run_circle hall, hresult, ?_⟩
    apply Searched.of (examined_iff (by omega) (fun j _ => hall _) (clockBody_last hall))
    · intro i
      have hlt := ahead_lt s.clockHand i
      show (if ahead s.clockHand i < n then _ else _) = _
      rw [if_pos hlt, if_pos (by omega)]
    · exact .inr ⟨hall, frameAt_full _⟩
    · rfl
    · exact ⟨rfl, rfl⟩

end Search

/-! ## Whether the victim is clean -/

/-- The victim is clean when it is returned. -/
def TakesClean (s : State n) : Prop :=
  ∃ victim s', clockAlgorithm s = some (victim, s') ∧ (s'.memory victim).dirtyBit = false

/-- **The victim is clean exactly if some frame has neither bit set, or not both
bits of the frame under the hand are set.** -/
theorem takesClean_iff (s : State n) :
    TakesClean s ↔ (∃ i, (s.memory i).Clear) ∨
      ¬ ((s.memory s.clockHand).referenceBit = true ∧
        (s.memory s.clockHand).dirtyBit = true) := by
  rcases clockAlgorithm_cases s with ⟨k, hk, hclear, -, hresult⟩ | ⟨hall, hresult⟩
  · have hclean : (((swept s k).memory (swept s k).clockHand)).dirtyBit = false := by
      rw [swept_hand hk]
      exact hclear.2
    exact iff_of_true ⟨_, _, hresult, hclean⟩ (.inl ⟨_, hclear⟩)
  · -- full circle: the hand is back on the frame that was passed first
    have hpage : (swept s n).memory (swept s n).clockHand
        = (s.memory s.clockHand).passed := by
      simp only [swept, frameAt_full, ahead_self]
      rw [if_pos (Nat.zero_lt_of_lt s.clockHand.isLt)]
    have hvictim : TakesClean s ↔ (s.memory s.clockHand).passed.dirtyBit = false := by
      rw [← hpage]
      constructor
      · rintro ⟨victim, s', heq, hclean⟩
        rw [hresult] at heq
        cases heq
        exact hclean
      · intro hclean
        exact ⟨_, _, hresult, hclean⟩
    have hnone : ¬ ∃ i, (s.memory i).Clear := fun ⟨i, hi⟩ => hall i hi
    rw [hvictim, or_iff_right hnone, Page.passed]
    cases (s.memory s.clockHand).referenceBit <;> cases (s.memory s.clockHand).dirtyBit <;>
      simp

/-- What the write back is for. -/
def AlwaysTakesClean : Prop := ∀ (n : Nat) (s : State n), TakesClean s

/-- One frame with unsaved data that has just been used. -/
def unsaved (hn : 0 < n) : State n :=
  { memory := fun _ => { pageNumber := 7, referenceBit := true, dirtyBit := true },
    clockHand := ⟨0, hn⟩, totalFaults := 0, totalHits := 0 }

/-- Only its reference bit is cleared before it is replaced. -/
theorem not_alwaysTakesClean : ¬ AlwaysTakesClean := by
  intro h
  obtain ⟨victim, s', hresult, hclean⟩ := h 1 (unsaved Nat.one_pos)
  have hrun : (clockAlgorithm (unsaved Nat.one_pos)).map
      (fun r => (r.2.memory r.1).dirtyBit) = some true := by decide
  rw [hresult, Option.map_some, hclean] at hrun
  cases hrun

end OsInParts.Clock
