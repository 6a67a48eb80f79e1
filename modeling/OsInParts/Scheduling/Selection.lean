import OsInParts.Scheduling.EntryOrder
import OsInParts.Scheduling.SrtfOptimal

/-!
# Selection — what the scans of `sjf` and `srtf` choose

The minimum starts at `INT_MAX` and the index at `-1`. The first process that
a scan may choose takes both if its key is below `INT_MAX`, and from then on
the index is in the array. If the key is `INT_MAX` itself, the strict
comparison fails, the test for a tie succeeds, and `p[-1]` is read.
-/

namespace OsInParts.Scheduling

variable {n : Nat}

/-- The scan of `sjf`. -/
def sjfCandidates (p : Fin n → Process) (isCompleted : Fin n → Bool) (currentTime : Int) :
    Candidates n :=
  { p := p, key := fun i => (p i).burstTime, isCompleted := isCompleted,
    currentTime := currentTime }

/-- The scan of `srtf`. -/
def srtfCandidates (p : Fin n → Process) (burstRemaining : Fin n → Int)
    (isCompleted : Fin n → Bool) (currentTime : Int) : Candidates n :=
  { p := p, key := burstRemaining, isCompleted := isCompleted, currentTime := currentTime }

/-- A turn of `sjf` does what its scan says. -/
theorem sjfBody_scan (s : Cpu n) :
    sjfBody s = (sjfCandidates s.p s.isCompleted s.currentTime).scan.bind
      fun idx => idx.elim s.tick s.runBurst := by
  unfold sjfBody sjfCandidates
  split <;> rename_i hscan <;> simp [hscan]

/-- A turn of `srtf` does what its scan says. -/
theorem srtfBody_scan (s : Srtf n) :
    srtfBody s = (srtfCandidates s.p s.burstRemaining s.isCompleted s.currentTime).scan.bind
      fun idx => idx.elim (s.tick.map fun cpu => { s with toCpu := cpu }) s.runUnit := by
  unfold srtfBody srtfCandidates
  split <;> rename_i hscan <;> simp [hscan]

/-- What a scan is for: it stays in the array, ends with `-1` exactly if
nothing may be chosen, and otherwise with the least process by key, arrival
time and index. -/
def Candidates.Selects (c : Candidates n) : Prop :=
  ∃ idx, c.scan = some idx ∧ (idx = none ↔ ∀ i, ¬ c.Eligible i) ∧
    ∀ k, idx = some k → c.Eligible k ∧ ∀ i, c.Eligible i → c.Before k i

theorem Candidates.FirstBelow.selects {c : Candidates n} (h : c.FirstBelow) : c.Selects := by
  rcases Candidates.scan_spec h with ⟨hscan, hnone⟩ | ⟨k, hscan, hk, hbest⟩
  · exact ⟨none, hscan, iff_of_true rfl hnone, fun k hk => by cases hk⟩
  · refine ⟨some k, hscan, iff_of_false (Option.some_ne_none k) fun hnone => hnone k hk, ?_⟩
    intro j hj
    cases hj
    exact ⟨hk, hbest⟩

theorem Candidates.selects_iff {c : Candidates n} (hkey : ∀ i, InRange (c.key i)) :
    c.Selects ↔ c.FirstBelow := by
  refine ⟨fun ⟨idx, hscan, _⟩ i he hfirst => ?_, Candidates.FirstBelow.selects⟩
  rcases (hkey i).2.lt_or_eq with hlt | heq
  · exact hlt
  · -- the key is that of the minimum at the start, and the tie is looked up at -1
    rw [Candidates.scan_undefined he hfirst heq] at hscan
    cases hscan

/-- **When the scans select**: exactly if the process of lowest index that has
arrived and is not completed, if there is one, has a burst time in `sjf`, or a
remaining time in `srtf`, below `INT_MAX`. -/
theorem selection_iff (p : Fin n → Process) (burstRemaining : Fin n → Int)
    (isCompleted : Fin n → Bool) (currentTime : Int)
    (hburst : ∀ i, InRange (p i).burstTime) (hremaining : ∀ i, InRange (burstRemaining i)) :
    ((sjfCandidates p isCompleted currentTime).Selects ↔
      ∀ i, (p i).arrivalTime ≤ currentTime → isCompleted i = false →
        (∀ j < i, ¬ ((p j).arrivalTime ≤ currentTime ∧ isCompleted j = false)) →
        (p i).burstTime < intMax) ∧
    ((srtfCandidates p burstRemaining isCompleted currentTime).Selects ↔
      ∀ i, (p i).arrivalTime ≤ currentTime → isCompleted i = false →
        (∀ j < i, ¬ ((p j).arrivalTime ≤ currentTime ∧ isCompleted j = false)) →
        burstRemaining i < intMax) := by
  constructor
  · rw [Candidates.selects_iff (c := sjfCandidates p isCompleted currentTime) hburst]
    exact ⟨fun h i harr hopen hfirst => h i ⟨harr, hopen⟩ hfirst,
      fun h i he hfirst => h i he.1 he.2 hfirst⟩
  · rw [Candidates.selects_iff (c := srtfCandidates p burstRemaining isCompleted currentTime)
      hremaining]
    exact ⟨fun h i harr hopen hfirst => h i ⟨harr, hopen⟩ hfirst,
      fun h i he hfirst => h i he.1 he.2 hfirst⟩

/-- At time 1 both processes of `longShort` have arrived, and one unit of the long
one may have been executed. -/
theorem selection_iff_longShort :
    (sjfCandidates longShort (fun _ => false) 1).Selects ∧
      (srtfCandidates longShort ![4, 2] (fun _ => false) 1).Selects := by
  obtain ⟨hsjf, hsrtf⟩ := selection_iff longShort ![4, 2] (fun _ => false) 1
    (by unfold InRange; decide) (by unfold InRange; decide)
  exact ⟨hsjf.mpr (by decide), hsrtf.mpr (by decide)⟩

/-- What the two loops rely on: their scans select, whatever the times are. -/
def AlwaysSelects : Prop :=
  ∀ (n : Nat) (p : Fin n → Process) (burstRemaining : Fin n → Int) (isCompleted : Fin n → Bool)
    (currentTime : Int), (∀ i, InRange (p i).burstTime) → (∀ i, InRange (burstRemaining i)) →
      (sjfCandidates p isCompleted currentTime).Selects ∧
        (srtfCandidates p burstRemaining isCompleted currentTime).Selects

/-- A burst of `INT_MAX` is compared with `p[-1]`. -/
theorem not_alwaysSelects : ¬ AlwaysSelects := by
  intro h
  obtain ⟨⟨idx, hscan, -⟩, -⟩ := h 1 untilIntMax (fun _ => intMax) (fun _ => false) 0
    (by unfold InRange; decide) (by unfold InRange; decide)
  have hundefined : (sjfCandidates untilIntMax (fun _ => false) 0).scan = none := by decide
  rw [hundefined] at hscan
  cases hscan

end OsInParts.Scheduling
