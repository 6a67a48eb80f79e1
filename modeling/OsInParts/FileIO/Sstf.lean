import Mathlib.Algebra.Order.Ring.Abs
import Mathlib.Algebra.Order.Ring.Rat
import Mathlib.Data.Finset.Max
import Mathlib.Data.Fintype.Basic
import Mathlib.Data.List.FinRange
import Mathlib.Data.List.Perm.Subperm
import OsInParts.Lib.Sweep

/-!
# Sstf — shortest seek time first

`Hard Disk and File IO/q2.c`: the requests, `find_nearest_request` and
`simulate_sstf`. Sectors and tracks are `int`; a difference of two tracks is
in range (`trackDistance_toInt`), so nothing overflows. Times are exact, the
seek times in whole milliseconds. The list of served requests is not in the
code: it records the order in which they are served.
-/

namespace OsInParts.Disk

open Lib

def sectorsPerTrack : Int32 := 100

/-- `SEEK_TIME_PER_TRACK`, in ms. -/
def seekTimePerTrack : Int := 2

/-- `ROTATIONAL_SPEED`, in rotations per minute. -/
def rotationalSpeed : ℚ := 72

def initialHeadPosition : Int32 := 100

def intMax : Int32 := Int32.maxValue

/-- The field `track`, which `main` fills and nothing reads, is left out. -/
structure DiskRequest where
  sector : Int32
  deriving DecidableEq

/-- `sector / SECTORS_PER_TRACK`, rounded towards zero. -/
def calculateTrack (sector : Int32) : Int32 := sector / sectorsPerTrack

def trackDistance (currentTrack targetTrack : Int32) : Int32 := (currentTrack - targetTrack).abs

def calculateSeekTime (currentTrack targetTrack : Int32) : Int :=
  (trackDistance currentTrack targetTrack).toInt * seekTimePerTrack

def calculateRotationalLatency (initialSector targetSector : Int32) : ℚ :=
  let rotationTime := 60000 / rotationalSpeed
  let sectorDiff := (initialSector - targetSector).abs
  sectorDiff.toInt / sectorsPerTrack.toInt * rotationTime

variable {n : Nat}

/-- One turn of the scan: `min_distance` and `nearest_index`, `none` for `-1`. -/
def scanStep (requests : Fin n → DiskRequest) (currentTrack : Int32) (usedRequests : Fin n → Bool)
    (acc : Int32 × Option (Fin n)) (i : Fin n) : Int32 × Option (Fin n) :=
  if usedRequests i = false then
    let targetTrack := calculateTrack (requests i).sector
    let distance := trackDistance currentTrack targetTrack
    if distance < acc.1 then (distance, some i) else acc
  else acc

def findNearestRequest (requests : Fin n → DiskRequest) (currentTrack : Int32)
    (usedRequests : Fin n → Bool) : Option (Fin n) :=
  ((List.finRange n).foldl (scanStep requests currentTrack usedRequests) (intMax, none)).2

/-- The variables of `simulate_sstf`. -/
structure Sstf (n : Nat) where
  currentTrack : Int32
  currentSector : Int32
  usedRequests : Fin n → Bool
  totalSeekTime : Int
  totalRotationalLatency : ℚ
  served : List (Fin n)

def Sstf.initial (n : Nat) : Sstf n :=
  { currentTrack := calculateTrack initialHeadPosition
    currentSector := initialHeadPosition % sectorsPerTrack
    usedRequests := fun _ => false
    totalSeekTime := 0
    totalRotationalLatency := 0
    served := [] }

/-- The body of a round for the request it has found. -/
def Sstf.serve (requests : Fin n → DiskRequest) (s : Sstf n) (i : Fin n) : Sstf n :=
  let targetTrack := calculateTrack (requests i).sector
  let targetSector := (requests i).sector % sectorsPerTrack
  { currentTrack := targetTrack
    currentSector := targetSector
    usedRequests := Function.update s.usedRequests i true
    totalSeekTime := s.totalSeekTime + calculateSeekTime s.currentTrack targetTrack
    totalRotationalLatency :=
      s.totalRotationalLatency + calculateRotationalLatency s.currentSector targetSector
    served := s.served ++ [i] }

/-- One round; `none` if it writes to `used_requests[-1]`. -/
def Sstf.round (requests : Fin n → DiskRequest) (s : Sstf n) : Option (Sstf n) :=
  (findNearestRequest requests s.currentTrack s.usedRequests).map (s.serve requests)

/-- `k` rounds. -/
def rounds (requests : Fin n → DiskRequest) : Nat → Sstf n → Option (Sstf n)
  | 0, s => some s
  | k + 1, s => (s.round requests).bind (rounds requests k)

/-- One round for each request. -/
def simulateSstf (requests : Fin n → DiskRequest) : Option (Sstf n) :=
  rounds requests n (Sstf.initial n)

/-! ## Tracks and distances -/

theorem calculateTrack_toInt (sector : Int32) :
    (calculateTrack sector).toInt = sector.toInt.tdiv 100 :=
  Int32.toInt_div_of_ne_right sector sectorsPerTrack (by decide)

theorem calculateTrack_bound (sector : Int32) :
    -21474836 ≤ (calculateTrack sector).toInt ∧ (calculateTrack sector).toInt ≤ 21474836 := by
  have hlt := sector.toInt_lt
  have hge := sector.le_toInt
  have habs : (sector.toInt.tdiv 100).natAbs = sector.toInt.natAbs / 100 :=
    Int.natAbs_tdiv sector.toInt 100
  rw [calculateTrack_toInt]
  omega

theorem abs_toInt {d : Int32} (h : d ≠ Int32.minValue) : d.abs.toInt = |d.toInt| := by
  have hne : d.toBitVec ≠ BitVec.intMin 32 := fun heq => h (Int32.toBitVec_inj.mp heq)
  rw [Int.abs_eq_natAbs]
  exact BitVec.toInt_abs_eq_natAbs_of_ne_intMin hne

/-- The distance of two tracks is in range, and below `INT_MAX`. -/
theorem trackDistance_toInt (a b : Int32) :
    (trackDistance (calculateTrack a) (calculateTrack b)).toInt
        = |(calculateTrack a).toInt - (calculateTrack b).toInt| ∧
      trackDistance (calculateTrack a) (calculateTrack b) < intMax := by
  have ha := calculateTrack_bound a
  have hb := calculateTrack_bound b
  have hsub : (calculateTrack a - calculateTrack b).toInt
      = (calculateTrack a).toInt - (calculateTrack b).toInt := by
    rw [Int32.toInt_sub]
    exact Int.bmod_eq_of_le (by omega) (by omega)
  have hne : calculateTrack a - calculateTrack b ≠ Int32.minValue := by
    intro heq
    rw [heq, Int32.toInt_minValue] at hsub
    omega
  have habs : (trackDistance (calculateTrack a) (calculateTrack b)).toInt
      = |(calculateTrack a).toInt - (calculateTrack b).toInt| := by
    rw [trackDistance, abs_toInt hne, hsub]
  refine ⟨habs, ?_⟩
  have hmax : intMax.toInt = 2147483647 := by decide
  rw [Int32.lt_iff_toInt_lt, habs, hmax, Int.abs_eq_natAbs]
  omega

/-- The tracks of the requests. -/
def trackOf (requests : Fin n → DiskRequest) (i : Fin n) : Int32 :=
  calculateTrack (requests i).sector

/-! ## The scan -/

/-- Request `k` is chosen before `i` by a head at `track`. -/
def Before (requests : Fin n → DiskRequest) (track : Int32) (k i : Fin n) : Prop :=
  |track.toInt - (trackOf requests k).toInt| < |track.toInt - (trackOf requests i).toInt| ∨
    |track.toInt - (trackOf requests k).toInt| = |track.toInt - (trackOf requests i).toInt| ∧ k ≤ i

/-- What the scan has found among the requests it has passed. -/
def Found (requests : Fin n → DiskRequest) (track : Int32) (used : Fin n → Bool)
    (passed : Fin n → Prop) : Int32 × Option (Fin n) → Prop
  | (minDistance, none) => minDistance = intMax ∧ ∀ i, passed i → used i = true
  | (minDistance, some k) => minDistance = trackDistance track (trackOf requests k) ∧
      passed k ∧ used k = false ∧ ∀ i, passed i → used i = false → Before requests track k i

section Scan

variable {requests : Fin n → DiskRequest} {track : Int32} {used : Fin n → Bool}

theorem Before.refl (i : Fin n) : Before requests track i i := .inr ⟨rfl, le_rfl⟩

/-- One turn of the scan, for a head on the track of some sector. -/
theorem Found.step {passed : Fin n → Prop} {acc : Int32 × Option (Fin n)} {i : Fin n}
    (h : Found requests track used passed acc) (htrack : ∃ sector, track = calculateTrack sector)
    (hi : ∀ k, passed k → k < i) :
    Found requests track used (fun k => passed k ∨ k = i)
      (scanStep requests track used acc i) := by
  obtain ⟨sector, rfl⟩ := htrack
  have hdist : ∀ j, (trackDistance (calculateTrack sector) (trackOf requests j)).toInt
      = |(calculateTrack sector).toInt - (trackOf requests j).toInt| :=
    fun j => (trackDistance_toInt sector (requests j).sector).1
  obtain ⟨minDistance, nearest⟩ := acc
  unfold scanStep
  by_cases hused : used i = false
  · rw [if_pos hused]
    dsimp only
    cases nearest with
    | none =>
        obtain ⟨rfl, hnone⟩ := h
        rw [if_pos (trackDistance_toInt sector (requests i).sector).2]
        refine ⟨rfl, .inr rfl, hused, fun j hj hjused => ?_⟩
        rcases hj with hj | rfl
        · rw [hnone j hj] at hjused
          cases hjused
        · exact .refl _
    | some k =>
        obtain ⟨rfl, hk, hkused, hbest⟩ := h
        split
        · rename_i hlt
          rw [Int32.lt_iff_toInt_lt, hdist k] at hlt
          have hlt := (hdist i).symm.trans_lt hlt
          refine ⟨rfl, .inr rfl, hused, fun j hj hjused => ?_⟩
          rcases hj with hj | rfl
          · rcases hbest j hj hjused with hkj | ⟨hkj, -⟩
            · exact .inl (hlt.trans hkj)
            · exact .inl (hlt.trans_eq hkj)
          · exact .refl _
        · rename_i hge
          refine ⟨rfl, .inl hk, hkused, fun j hj hjused => ?_⟩
          rcases hj with hj | rfl
          · exact hbest j hj hjused
          · rw [Int32.lt_iff_toInt_lt, not_lt, hdist k] at hge
            rcases (hge.trans_eq (hdist j)).lt_or_eq with hlt | heq
            · exact .inl hlt
            · exact .inr ⟨heq, (hi k hk).le⟩
  · rw [if_neg hused]
    cases nearest with
    | none =>
        refine ⟨h.1, fun j hj => ?_⟩
        rcases hj with hj | rfl
        · exact h.2 j hj
        · simpa using hused
    | some k =>
        refine ⟨h.1, .inl h.2.1, h.2.2.1, fun j hj hjused => ?_⟩
        rcases hj with hj | rfl
        · exact h.2.2.2 j hj hjused
        · exact absurd hjused hused

theorem Found.fold {l : List (Fin n)} (hsorted : l.Pairwise (· < ·))
    (htrack : ∃ sector, track = calculateTrack sector) {passed : Fin n → Prop}
    {acc : Int32 × Option (Fin n)} (h : Found requests track used passed acc)
    (hl : ∀ k, passed k → ∀ i ∈ l, k < i) :
    Found requests track used (fun k => passed k ∨ k ∈ l)
      (l.foldl (scanStep requests track used) acc) := by
  induction l generalizing passed acc with
  | nil => simpa using h
  | cons i l ih =>
      obtain ⟨hi, hsorted⟩ := List.pairwise_cons.mp hsorted
      have hstep := h.step htrack fun k hk => hl k hk i List.mem_cons_self
      have hfold := ih hsorted hstep fun k hk j hj => by
        rcases hk with hk | rfl
        · exact hl k hk j (List.mem_cons_of_mem _ hj)
        · exact hi j hj
      simpa only [List.foldl_cons, List.mem_cons, or_assoc] using hfold

/-- **The scan** finds the first nearest request that is not used. -/
theorem findNearestRequest_spec (htrack : ∃ sector, track = calculateTrack sector)
    (hopen : ∃ i, used i = false) :
    ∃ k, findNearestRequest requests track used = some k ∧ used k = false ∧
      ∀ i, used i = false → Before requests track k i := by
  have hstart : Found requests track used (fun _ => False) (intMax, none) :=
    ⟨rfl, fun _ h => h.elim⟩
  have hfound := hstart.fold (l := List.finRange n) (List.pairwise_lt_finRange n) htrack
    fun k hk => hk.elim
  unfold findNearestRequest
  generalize (List.finRange n).foldl (scanStep requests track used) (intMax, none) = acc at hfound
  obtain ⟨minDistance, nearest⟩ := acc
  cases nearest with
  | none =>
      obtain ⟨i, hi⟩ := hopen
      rw [hfound.2 i (.inr (List.mem_finRange i))] at hi
      cases hi
  | some k =>
      exact ⟨k, rfl, hfound.2.2.1, fun i hi => hfound.2.2.2 i (.inr (List.mem_finRange i)) hi⟩

end Scan

/-! ## The rounds -/

/-- A request that a round may choose: the first of the nearest that are not
used. -/
structure Nearest (requests : Fin n → DiskRequest) (s : Sstf n) (i : Fin n) : Prop where
  pending : s.usedRequests i = false
  first : ∀ j, s.usedRequests j = false → Before requests s.currentTrack i j

/-- Between two rounds. -/
structure Serving (s : Sstf n) : Prop where
  track : ∃ sector, s.currentTrack = calculateTrack sector
  used : ∀ i, s.usedRequests i = true ↔ i ∈ s.served
  once : s.served.Nodup

section Rounds

variable {requests : Fin n → DiskRequest} {s : Sstf n}

theorem Serving.start (n : Nat) : Serving (Sstf.initial n) where
  track := ⟨initialHeadPosition, rfl⟩
  used := fun i => by simp [Sstf.initial]
  once := List.nodup_nil

theorem Serving.pending_iff (h : Serving s) (i : Fin n) :
    s.usedRequests i = false ↔ i ∉ s.served := by
  rw [← h.used i, Bool.not_eq_true]

/-- While fewer than `n` requests have been served one is left. -/
theorem Serving.exists_pending (h : Serving s) (hlt : s.served.length < n) :
    ∃ i, s.usedRequests i = false := by
  by_contra hnone
  have hall : ∀ i, i ∈ s.served := fun i => by
    by_contra hi
    exact hnone ⟨i, (h.pending_iff i).mpr hi⟩
  have hle := (List.subperm_of_subset (List.nodup_finRange n) fun i _ => hall i).length_le
  rw [List.length_finRange] at hle
  omega

theorem Serving.serve (requests : Fin n → DiskRequest) (h : Serving s) {i : Fin n}
    (hi : s.usedRequests i = false) : Serving (s.serve requests i) where
  track := ⟨(requests i).sector, rfl⟩
  used := fun j => by
    simp only [Sstf.serve, List.mem_append, List.mem_singleton, ← h.used j]
    by_cases hj : j = i
    · simp [hj]
    · simp [hj]
  once := by
    have hnot := (h.pending_iff i).mp hi
    simp only [Sstf.serve, List.nodup_append, List.nodup_singleton, List.mem_singleton]
    refine ⟨h.once, trivial, ?_⟩
    rintro a ha b rfl rfl
    exact hnot ha

/-- **One round** serves a nearest request. -/
theorem Serving.round (requests : Fin n → DiskRequest) (h : Serving s)
    (hlt : s.served.length < n) :
    ∃ i, findNearestRequest requests s.currentTrack s.usedRequests = some i ∧
      Nearest requests s i ∧ s.round requests = some (s.serve requests i) := by
  obtain ⟨i, hfind, hused, hbest⟩ := findNearestRequest_spec h.track (h.exists_pending hlt)
  exact ⟨i, hfind, ⟨hused, hbest⟩, by rw [Sstf.round, hfind, Option.map_some]⟩

theorem rounds_add (k l : Nat) :
    rounds requests (k + l) s = (rounds requests k s).bind (rounds requests l) := by
  induction k generalizing s with
  | zero => rw [Nat.zero_add, rounds, Option.bind_some]
  | succ k ih =>
      rw [Nat.succ_add, rounds, rounds]
      cases s.round requests with
      | none => rfl
      | some s₁ => exact ih

/-- The tracks of a list of requests, in order. -/
def tracksOf (requests : Fin n → DiskRequest) (served : List (Fin n)) : List Int :=
  served.map fun i => (trackOf requests i).toInt

/-- **`k` rounds** serve `k` requests, and take a greedy tour of their tracks. -/
theorem Serving.rounds (requests : Fin n → DiskRequest) (h : Serving s) {k : Nat}
    (hk : s.served.length + k ≤ n) :
    ∃ s' tour, rounds requests k s = some s' ∧ Serving s' ∧ s'.served = s.served ++ tour ∧
      tour.length = k ∧ Sweep.Greedy s.currentTrack.toInt (tracksOf requests tour) ∧
      s'.totalSeekTime = s.totalSeekTime
        + Sweep.travel s.currentTrack.toInt (tracksOf requests tour) * seekTimePerTrack := by
  induction k generalizing s with
  | zero =>
      refine ⟨s, [], rfl, h, (List.append_nil _).symm, rfl, trivial, ?_⟩
      rw [tracksOf, List.map_nil, Sweep.travel, Int.zero_mul, Int.add_zero]
  | succ k ih =>
      obtain ⟨i, -, hi, hround⟩ := h.round requests (by omega)
      obtain ⟨s', tour, hs', hserving, hserved, hlength, hgreedy, hseek⟩ :=
        ih (h.serve requests hi.pending) (by
          simp only [Sstf.serve, List.length_append, List.length_singleton]
          omega)
      have hserved' : s'.served = s.served ++ i :: tour := by
        rw [hserved]
        simp [Sstf.serve]
      refine ⟨s', i :: tour, ?_, hserving, hserved', by rw [List.length_cons, hlength],
        ⟨fun u hu => ?_, hgreedy⟩, ?_⟩
      · rw [Disk.rounds, hround]
        exact hs'
      · -- what is served later is still pending
        obtain ⟨j, hj, rfl⟩ := List.mem_map.mp hu
        have honce := hserving.once
        rw [hserved'] at honce
        have hpending := (h.pending_iff j).mpr fun hmem =>
          (List.nodup_append.mp honce).2.2 j hmem j (List.mem_cons_of_mem _ hj) rfl
        rcases hi.first j hpending with hlt | ⟨heq, -⟩
        · exact hlt.le
        · exact heq.le
      · obtain ⟨sector, htrack⟩ := h.track
        have hmove : (trackDistance s.currentTrack (trackOf requests i)).toInt
            = |s.currentTrack.toInt - (trackOf requests i).toInt| := by
          rw [htrack]
          exact (trackDistance_toInt sector (requests i).sector).1
        have hstep : (s.serve requests i).totalSeekTime = s.totalSeekTime
            + |s.currentTrack.toInt - (trackOf requests i).toInt| * seekTimePerTrack := by
          rw [← hmove]
          rfl
        have htravel : Sweep.travel s.currentTrack.toInt (tracksOf requests (i :: tour))
            = |s.currentTrack.toInt - (trackOf requests i).toInt|
              + Sweep.travel (s.serve requests i).currentTrack.toInt (tracksOf requests tour) :=
          rfl
        rw [hseek, hstep, htravel, Int.add_mul, Int.add_assoc]

/-- **Before the last round** a nearest request is found and served. -/
theorem rounds_serve (requests : Fin n → DiskRequest) {k : Nat} (hk : k < n) :
    ∃ s i, rounds requests k (Sstf.initial n) = some s ∧
      findNearestRequest requests s.currentTrack s.usedRequests = some i ∧
      Nearest requests s i ∧
      rounds requests (k + 1) (Sstf.initial n) = some (s.serve requests i) := by
  have hstart : (Sstf.initial n).served.length + k ≤ n := by
    rw [Sstf.initial, List.length_nil, Nat.zero_add]
    exact hk.le
  obtain ⟨s, tour, hs, hserving, hserved, hlength, -, -⟩ :=
    (Serving.start n).rounds requests hstart
  have hcount : s.served.length < n := by
    rw [hserved, Sstf.initial, List.nil_append, hlength]
    exact hk
  obtain ⟨i, hfind, hi, hround⟩ := hserving.round requests hcount
  refine ⟨s, i, hs, hfind, hi, ?_⟩
  rw [rounds_add, hs, Option.bind_some, rounds, hround]
  rfl

/-- **After the last round** all requests are served, on a greedy tour. -/
theorem simulateSstf_spec (requests : Fin n → DiskRequest) :
    ∃ s, simulateSstf requests = some s ∧ Serving s ∧ s.served.length = n ∧
      Sweep.Greedy (calculateTrack initialHeadPosition).toInt (tracksOf requests s.served) ∧
      s.totalSeekTime
        = Sweep.travel (calculateTrack initialHeadPosition).toInt (tracksOf requests s.served)
          * seekTimePerTrack := by
  have hstart : (Sstf.initial n).served.length + n ≤ n := by
    rw [Sstf.initial, List.length_nil, Nat.zero_add]
  obtain ⟨s, tour, hs, hserving, hserved, hlength, hgreedy, hseek⟩ :=
    (Serving.start n).rounds requests hstart
  obtain rfl : s.served = tour := hserved
  refine ⟨s, hs, hserving, hlength, hgreedy, ?_⟩
  rw [hseek]
  exact Int.zero_add _

end Rounds

/-- **Every request is served exactly once**: each round chooses the first of
the nearest requests that are not used, and after the last round all of them
are used. -/
theorem sstf_serves_once (requests : Fin n → DiskRequest) :
    (∀ k < n, ∃ s i, rounds requests k (Sstf.initial n) = some s ∧
      findNearestRequest requests s.currentTrack s.usedRequests = some i ∧
      Nearest requests s i ∧
      rounds requests (k + 1) (Sstf.initial n) = some (s.serve requests i)) ∧
    ∃ s, simulateSstf requests = some s ∧ s.served.Perm (List.finRange n) ∧
      ∀ i, s.usedRequests i = true := by
  refine ⟨fun k hk => rounds_serve requests hk, ?_⟩
  obtain ⟨s, hs, hserving, hcount, -⟩ := simulateSstf_spec requests
  have hperm : s.served.Perm (List.finRange n) :=
    (List.subperm_of_subset hserving.once fun i _ => List.mem_finRange i).perm_of_length_le
      (by rw [hcount, List.length_finRange])
  exact ⟨s, hs, hperm, fun i => (hserving.used i).mpr (hperm.mem_iff.mpr (List.mem_finRange i))⟩

/-! ## How far the head moves -/

/-- The initial track and the tracks of all requests. -/
def allTracks (requests : Fin n → DiskRequest) : Finset Int :=
  insert (calculateTrack initialHeadPosition).toInt
    (Finset.univ.image fun i => (trackOf requests i).toInt)

theorem allTracks_nonempty (requests : Fin n → DiskRequest) : (allTracks requests).Nonempty :=
  Finset.insert_nonempty ..

def highestTrack (requests : Fin n → DiskRequest) : Int :=
  (allTracks requests).max' (allTracks_nonempty requests)

def lowestTrack (requests : Fin n → DiskRequest) : Int :=
  (allTracks requests).min' (allTracks_nonempty requests)

/-- The number of tracks the head moves while it serves the requests in this
order. -/
def tracksMoved (requests : Fin n → DiskRequest) (served : List (Fin n)) : Int :=
  Sweep.travel (calculateTrack initialHeadPosition).toInt (tracksOf requests served)

/-- **The head passes over no pending request and moves at most twice the width
of the tracks it is asked for**, and the seek time is that of these moves. -/
theorem sstf_tracksMoved (requests : Fin n → DiskRequest) :
    (∀ k < n, ∃ s s', rounds requests k (Sstf.initial n) = some s ∧
      rounds requests (k + 1) (Sstf.initial n) = some s' ∧
      ∀ j, s.usedRequests j = false →
        ¬ (s.currentTrack < trackOf requests j ∧ trackOf requests j < s'.currentTrack) ∧
        ¬ (s'.currentTrack < trackOf requests j ∧ trackOf requests j < s.currentTrack)) ∧
    ∃ s, simulateSstf requests = some s ∧
      tracksMoved requests s.served ≤ 2 * (highestTrack requests - lowestTrack requests) ∧
      s.totalSeekTime = tracksMoved requests s.served * seekTimePerTrack ∧
      s.totalSeekTime
        ≤ 2 * (highestTrack requests - lowestTrack requests) * seekTimePerTrack := by
  constructor
  · intro k hk
    obtain ⟨s, i, hs, -, hi, hs'⟩ := rounds_serve requests hk
    refine ⟨s, s.serve requests i, hs, hs', fun j hj => ?_⟩
    simp only [Int32.lt_iff_toInt_lt]
    rcases hi.first j hj with hlt | ⟨heq, -⟩
    · exact Sweep.not_between hlt.le
    · exact Sweep.not_between heq.le
  · obtain ⟨s, hs, -, -, hgreedy, hseek⟩ := simulateSstf_spec requests
    have hmoved : tracksMoved requests s.served ≤
        2 * (highestTrack requests - lowestTrack requests) := by
      refine hgreedy.travel_le fun u hu => ?_
      have hmem : u ∈ allTracks requests := by
        rcases List.mem_cons.mp hu with rfl | hu
        · exact Finset.mem_insert_self ..
        · obtain ⟨j, -, rfl⟩ := List.mem_map.mp hu
          exact Finset.mem_insert_of_mem (Finset.mem_image_of_mem _ (Finset.mem_univ j))
      exact ⟨Finset.min'_le _ _ hmem, Finset.le_max' _ _ hmem⟩
    refine ⟨s, hs, hmoved, hseek, ?_⟩
    rw [hseek]
    exact Int.mul_le_mul_of_nonneg_right hmoved (by decide)

theorem mem_allTracks {requests : Fin n → DiskRequest} {served : List (Fin n)} {u : Int}
    (hu : u ∈ (calculateTrack initialHeadPosition).toInt :: tracksOf requests served) :
    u ∈ allTracks requests := by
  rcases List.mem_cons.mp hu with rfl | hu
  · exact Finset.mem_insert_self ..
  · obtain ⟨j, -, rfl⟩ := List.mem_map.mp hu
    exact Finset.mem_insert_of_mem (Finset.mem_image_of_mem _ (Finset.mem_univ j))

/-- **At most twice the best order**: whatever the order in which the same requests are
served, the head moves at least half as far as under `simulate_sstf`. -/
theorem sstf_twice_optimal (requests : Fin n → DiskRequest) :
    ∃ s, simulateSstf requests = some s ∧ s.served.Perm (List.finRange n) ∧
      s.totalSeekTime = tracksMoved requests s.served * seekTimePerTrack ∧
      ∀ order, order.Perm (List.finRange n) →
        tracksMoved requests s.served ≤ 2 * tracksMoved requests order := by
  obtain ⟨s, hs, hserving, hcount, hgreedy, hseek⟩ := simulateSstf_spec requests
  have hperm : s.served.Perm (List.finRange n) :=
    (List.subperm_of_subset hserving.once fun i _ => List.mem_finRange i).perm_of_length_le
      (by rw [hcount, List.length_finRange])
  refine ⟨s, hs, hperm, hseek, fun order horder => ?_⟩
  have hvisited : ∀ {u}, u ∈ allTracks requests →
      u ∈ (calculateTrack initialHeadPosition).toInt :: tracksOf requests order := by
    intro u hu
    rcases Finset.mem_insert.mp hu with rfl | hu
    · exact List.mem_cons_self
    · obtain ⟨i, -, rfl⟩ := Finset.mem_image.mp hu
      exact List.mem_cons_of_mem _ (List.mem_map_of_mem (horder.mem_iff.mpr (List.mem_finRange i)))
  have hlow : lowestTrack requests ∈ allTracks requests := Finset.min'_mem _ _
  have hhigh : highestTrack requests ∈ allTracks requests := Finset.max'_mem _ _
  have hwidth := (le_abs_self _).trans (Sweep.dist_le_travel (hvisited hhigh) (hvisited hlow))
  refine (hgreedy.travel_le fun u hu => ?_).trans (Int.mul_le_mul_of_nonneg_left hwidth (by decide))
  have hmem := mem_allTracks hu
  exact ⟨Finset.min'_le _ _ hmem, Finset.le_max' _ _ hmem⟩

end OsInParts.Disk
