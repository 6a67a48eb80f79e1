import Mathlib.Data.List.FinRange
import Mathlib.Order.Fin.Basic
import Mathlib.Algebra.BigOperators.Fin

/-!
# Process — processes, the clock, and the selection scan

`Fork, Wait, Exec, Process Scheduling/q4.c`: `struct process_t`,
`input_processes`, and the scan that `sjf` and `srtf` have in common. An
array of `n` processes is a function on `Fin n`.

Adding to the clock is checked, since leaving the range of `int` is undefined.
Turnaround and response times are differences of clock values and arrival
times that are not negative. A total is a sum of such times that may leave the
range of `int` although all of them are in it; it has no value from then on
(`addTotal`). No loop reads its totals.
-/

namespace OsInParts.Scheduling

def intMin : Int := -2147483648

/-- `INT_MAX`. -/
def intMax : Int := 2147483647

theorem intMax_nonneg : 0 ≤ intMax := by decide

/-- An integer as a value of `int`, `none` out of range. -/
def intValue (a : Int) : Option Int := if intMin ≤ a ∧ a ≤ intMax then some a else none

/-- `a + b` for `int`, `none` on overflow. -/
def addInt (a b : Int) : Option Int := intValue (a + b)

theorem addInt_eq_some {a b c : Int} :
    addInt a b = some c ↔ a + b = c ∧ intMin ≤ c ∧ c ≤ intMax := by
  unfold addInt intValue
  split
  · rename_i h
    exact ⟨fun hc => (by cases hc; exact ⟨rfl, h⟩), fun hc => (by rw [hc.1])⟩
  · rename_i h
    exact ⟨fun hc => (by cases hc), fun hc => absurd (hc.1 ▸ hc.2) h⟩

/-- `total += a`, where an overflow leaves no total. -/
def addTotal (total : Option Int) (a : Int) : Option Int := total.bind fun b => addInt b a

@[simp] theorem intValue_zero : intValue 0 = some 0 := rfl

theorem intValue_of_nonneg {a : Int} (h : 0 ≤ a) :
    intValue a = if a ≤ intMax then some a else none := by
  have hmin : intMin ≤ a := le_trans (by decide) h
  simp only [intValue, hmin, true_and]

/-- **Adding up** what is not negative ends with the exact sum, if that is in range. -/
theorem addTotal_intValue {a b : Int} (ha : 0 ≤ a) (hb : 0 ≤ b) :
    addTotal (intValue a) b = intValue (a + b) := by
  rw [intValue_of_nonneg ha]
  split
  · rfl
  · rw [intValue_of_nonneg (Int.add_nonneg ha hb), if_neg (by omega)]
    rfl

structure Process where
  pid : Int
  arrivalTime : Int
  burstTime : Int
  startTime : Int
  completionTime : Int
  turnaroundTime : Int
  responseTime : Int
  remainingTime : Int
  started : Bool
  deriving DecidableEq

/-- What an entry of the array may hold before it is written. -/
def Process.zero : Process :=
  { pid := 0, arrivalTime := 0, burstTime := 0, startTime := 0, completionTime := 0,
    turnaroundTime := 0, responseTime := 0, remainingTime := 0, started := false }

variable {n : Nat}

/-- `input_processes` on an array that is not initialised: the `i`-th line
holds an arrival and a burst time. -/
def inputProcesses (processes : Fin n → Process) (line : Fin n → Int × Int) : Fin n → Process :=
  fun i => { processes i with
    pid := i.val + 1
    arrivalTime := (line i).1
    burstTime := (line i).2
    remainingTime := (line i).2
    started := false }

/-- An array as `input_processes` leaves it. -/
structure Built (p : Fin n → Process) : Prop where
  pid : ∀ i, (p i).pid = i.val + 1
  remainingTime : ∀ i, (p i).remainingTime = (p i).burstTime
  started : ∀ i, (p i).started = false

theorem built_inputProcesses (processes : Fin n → Process) (line : Fin n → Int × Int) :
    Built (inputProcesses processes line) :=
  ⟨fun _ => rfl, fun _ => rfl, fun _ => rfl⟩

/-- All times of a schedule without needless idling are in the range of `int`:
from any arrival there is room for the bursts that have yet to come. -/
def TimesFit (p : Fin n → Process) : Prop :=
  ∀ i, (p i).arrivalTime +
    (∑ j, if (p i).arrivalTime ≤ (p j).arrivalTime then (p j).burstTime else 0) ≤ intMax

/-- The process executed from `start` to `stop`, in the order of execution. -/
structure Slice (n : Nat) where
  process : Fin n
  start : Int
  stop : Int
  deriving DecidableEq

/-- The time units in which some process is executed. -/
def busyUnits (slices : List (Slice n)) : Set Int :=
  { u | ∃ slice ∈ slices, slice.start ≤ u ∧ u < slice.stop }

/-- The largest `completionTime` in the array. -/
def largestCompletion (p : Fin n → Process) : Option Int :=
  ((List.finRange n).map fun i => (p i).completionTime).max?

/-! ## The selection scan -/

/-- What a scan chooses from: `key` is `burstTime` in `sjf` and
`burst_remaining` in `srtf`. -/
structure Candidates (n : Nat) where
  p : Fin n → Process
  key : Fin n → Int
  isCompleted : Fin n → Bool
  currentTime : Int

/-- Arrived and not completed. -/
def Candidates.Eligible (c : Candidates n) (i : Fin n) : Prop :=
  (c.p i).arrivalTime ≤ c.currentTime ∧ c.isCompleted i = false

instance (c : Candidates n) : DecidablePred c.Eligible := fun i =>
  inferInstanceAs (Decidable ((c.p i).arrivalTime ≤ c.currentTime ∧ c.isCompleted i = false))

/-- One turn of the scan: `min` is `min_burst_time`, and `idx` is `none` for
`-1`. The tie test reads `p[idx]`, which is `p[-1]` if nothing has been
chosen. -/
def Candidates.scanStep (c : Candidates n) (acc : Int × Option (Fin n)) (i : Fin n) :
    Option (Int × Option (Fin n)) :=
  if c.Eligible i then
    let (min, idx) := if c.key i < acc.1 then (c.key i, some i) else acc
    if c.key i = min then
      match idx with
      | none => none
      | some k =>
          if (c.p i).arrivalTime < (c.p k).arrivalTime then some (min, some i)
          else some (min, some k)
    else some (min, idx)
  else some acc

/-- The scan: `none` if it reads `p[-1]`, `some none` if it ends with `-1`. -/
def Candidates.scan (c : Candidates n) : Option (Option (Fin n)) :=
  ((List.finRange n).foldlM c.scanStep (intMax, none)).map (·.2)

/-- Process `k` comes before `i`: a smaller key, then an earlier arrival, then
a smaller index. -/
def Candidates.Before (c : Candidates n) (k i : Fin n) : Prop :=
  c.key k < c.key i ∨ c.key k = c.key i ∧
    ((c.p k).arrivalTime < (c.p i).arrivalTime ∨
      (c.p k).arrivalTime = (c.p i).arrivalTime ∧ k ≤ i)

/-- What the scan has found among the processes it has passed. -/
def Candidates.Found (c : Candidates n) (passed : Fin n → Prop) :
    Int × Option (Fin n) → Prop
  | (min, none) => min = intMax ∧ ∀ i, passed i → ¬ c.Eligible i
  | (min, some k) => min = c.key k ∧ passed k ∧ c.Eligible k ∧
      ∀ i, passed i → c.Eligible i → c.Before k i

variable {c : Candidates n}

/-- A turn of the scan keeps its choice, or chooses the process it is at. -/
theorem Candidates.scanStep_choice {acc acc' : Int × Option (Fin n)}
    {i : Fin n} (h : c.scanStep acc i = some acc') :
    acc'.2 = acc.2 ∨ acc'.2 = some i ∧ c.Eligible i := by
  obtain ⟨min, idx⟩ := acc
  unfold Candidates.scanStep at h
  split at h
  · rename_i he
    by_cases hlt : c.key i < min
    · simp only [if_pos hlt, if_true, lt_irrefl, if_false] at h
      cases h
      exact .inr ⟨rfl, he⟩
    · simp only [if_neg hlt] at h
      split at h
      · cases idx with
        | none => cases h
        | some k =>
            dsimp only at h
            split at h
            · cases h
              exact .inr ⟨rfl, he⟩
            · cases h
              exact .inl rfl
      · cases h
        exact .inl rfl
  · cases h
    exact .inl rfl

theorem Candidates.Before.refl (c : Candidates n) (i : Fin n) : c.Before i i :=
  .inr ⟨rfl, .inr ⟨rfl, le_rfl⟩⟩

theorem Candidates.Before.trans {i j k : Fin n} (h : c.Before i j) (h' : c.Before j k) :
    c.Before i k := by
  rcases h with h | ⟨hkey, h⟩
  · rcases h' with h' | ⟨hkey', -⟩
    · exact .inl (h.trans h')
    · exact .inl (h.trans_eq hkey')
  · rcases h' with h' | ⟨hkey', h'⟩
    · exact .inl (hkey.trans_lt h')
    · refine .inr ⟨hkey.trans hkey', ?_⟩
      rcases h with h | ⟨harr, h⟩
      · rcases h' with h' | ⟨harr', -⟩
        · exact .inl (h.trans h')
        · exact .inl (h.trans_eq harr')
      · rcases h' with h' | ⟨harr', h'⟩
        · exact .inl (harr.trans_lt h')
        · exact .inr ⟨harr.trans harr', h.trans h'⟩

variable {passed : Fin n → Prop} {min : Int} {i k : Fin n}

/-- Another process is passed. -/
theorem Candidates.Found.keep (h : c.Found passed (min, some k))
    (hi : c.Eligible i → c.Before k i) : c.Found (fun j => passed j ∨ j = i) (min, some k) := by
  obtain ⟨hmin, hk, hek, hbest⟩ := h
  refine ⟨hmin, .inl hk, hek, fun j hj hej => ?_⟩
  rcases hj with hj | rfl
  · exact hbest j hj hej
  · exact hi hej

/-- A better one is chosen. -/
theorem Candidates.Found.choose (h : c.Found passed (min, some k)) (he : c.Eligible i)
    (hi : c.Before i k) : c.Found (fun j => passed j ∨ j = i) (c.key i, some i) := by
  obtain ⟨-, -, -, hbest⟩ := h
  refine ⟨rfl, .inr rfl, he, fun j hj hej => ?_⟩
  rcases hj with hj | rfl
  · exact hi.trans (hbest j hj hej)
  · exact .refl c j

/-- The first one is chosen. -/
theorem Candidates.Found.first (h : c.Found passed (min, none)) (he : c.Eligible i) :
    c.Found (fun j => passed j ∨ j = i) (c.key i, some i) := by
  obtain ⟨-, hnone⟩ := h
  refine ⟨rfl, .inr rfl, he, fun j hj hej => ?_⟩
  rcases hj with hj | rfl
  · exact absurd hej (hnone j hj)
  · exact .refl c j

/-- One turn keeps what was found. -/
theorem Candidates.Found.step {acc : Int × Option (Fin n)} (h : c.Found passed acc)
    (hkey : acc.2 = none → c.Eligible i → c.key i < intMax) (hi : ∀ k, passed k → k < i) :
    ∃ acc', c.scanStep acc i = some acc' ∧ c.Found (fun k => passed k ∨ k = i) acc' := by
  obtain ⟨min, idx⟩ := acc
  unfold Candidates.scanStep
  by_cases he : c.Eligible i
  · rw [if_pos he]
    cases idx with
    | none =>
        obtain rfl : min = intMax := h.1
        simp only [if_pos (hkey rfl he), lt_irrefl, if_true, if_false]
        exact ⟨_, rfl, h.first he⟩
    | some k =>
        obtain rfl : min = c.key k := h.1
        by_cases hlt : c.key i < c.key k
        · simp only [if_pos hlt, lt_irrefl, if_true, if_false]
          exact ⟨_, rfl, h.choose he (.inl hlt)⟩
        · simp only [if_neg hlt]
          by_cases heq : c.key i = c.key k
          · simp only [if_pos heq]
            by_cases harr : (c.p i).arrivalTime < (c.p k).arrivalTime
            · rw [if_pos harr]
              refine ⟨_, rfl, ?_⟩
              rw [← heq]
              exact h.choose he (.inr ⟨heq, .inl harr⟩)
            · rw [if_neg harr]
              refine ⟨_, rfl, h.keep fun _ => .inr ⟨heq.symm, ?_⟩⟩
              rcases (not_lt.mp harr).lt_or_eq with ha | ha
              · exact .inl ha
              · exact .inr ⟨ha, (hi k h.2.1).le⟩
          · simp only [if_neg heq]
            exact ⟨_, rfl, h.keep fun _ => .inl (lt_of_le_of_ne (not_lt.mp hlt) (Ne.symm heq))⟩
  · rw [if_neg he]
    refine ⟨_, rfl, ?_⟩
    cases idx with
    | none =>
        refine ⟨h.1, fun j hj => ?_⟩
        rcases hj with hj | rfl
        · exact h.2 j hj
        · exact he
    | some k => exact h.keep fun hei => absurd hei he

/-- The fold of the scan. Only the first choice is compared with `INT_MAX`. -/
theorem Candidates.Found.fold {l : List (Fin n)} (hsorted : l.Pairwise (· < ·))
    {passed : Fin n → Prop} {acc : Int × Option (Fin n)} (h : c.Found passed acc)
    (hfirst : acc.2 = none → ∀ i ∈ l, c.Eligible i → (∀ j ∈ l, j < i → ¬ c.Eligible j) →
      c.key i < intMax)
    (hl : ∀ k, passed k → ∀ i ∈ l, k < i) :
    ∃ acc', l.foldlM c.scanStep acc = some acc' ∧ c.Found (fun k => passed k ∨ k ∈ l) acc' := by
  induction l generalizing passed acc with
  | nil => exact ⟨acc, rfl, by simpa using h⟩
  | cons i l ih =>
      obtain ⟨hi, hl'⟩ := List.pairwise_cons.mp hsorted
      obtain ⟨⟨min, idx⟩, h1, hfound⟩ := h.step (i := i)
        (fun hnone he => hfirst hnone i List.mem_cons_self he fun j hj hlt => by
          rcases List.mem_cons.mp hj with rfl | hj
          · exact absurd hlt (lt_irrefl j)
          · exact absurd hlt (hi j hj).not_gt)
        fun k hk => hl k hk i List.mem_cons_self
      obtain ⟨acc₂, h2, hfound'⟩ := ih hl' hfound
        (fun hnone j hj he hmin => by
          -- nothing chosen yet, so `i` is not eligible either
          cases hnone
          have hskip : ¬ c.Eligible i := hfound.2 i (.inr rfl)
          have hnone : acc.2 = none := by
            rcases Candidates.scanStep_choice h1 with hsame | ⟨hnew, -⟩
            · exact hsame.symm
            · cases hnew
          refine hfirst hnone j (List.mem_cons_of_mem _ hj) he fun m hm hlt => ?_
          rcases List.mem_cons.mp hm with rfl | hm
          · exact hskip
          · exact hmin m hm hlt)
        fun k hk j hj => by
          rcases hk with hk | rfl
          · exact hl k hk j (List.mem_cons_of_mem _ hj)
          · exact hi j hj
      refine ⟨acc₂, by rw [List.foldlM_cons, h1]; exact h2, ?_⟩
      simpa only [List.mem_cons, or_assoc] using hfound'

/-- Of the processes that the scan may choose, the one it meets first has a key
below `INT_MAX`. -/
def Candidates.FirstBelow (c : Candidates n) : Prop :=
  ∀ i, c.Eligible i → (∀ j < i, ¬ c.Eligible j) → c.key i < intMax

theorem Candidates.FirstBelow.of_lt (hkey : ∀ i, c.Eligible i → c.key i < intMax) :
    c.FirstBelow := fun i he _ => hkey i he

/-- **The scan** chooses the first eligible process by key, arrival and index,
provided the one it meets first has a key below `INT_MAX`. -/
theorem Candidates.scan_spec (hfirst : c.FirstBelow) :
    (c.scan = some none ∧ ∀ i, ¬ c.Eligible i) ∨
      ∃ k, c.scan = some (some k) ∧ c.Eligible k ∧ ∀ i, c.Eligible i → c.Before k i := by
  have hstart : c.Found (fun _ => False) (intMax, none) := ⟨rfl, fun _ h => h.elim⟩
  obtain ⟨⟨min, idx⟩, hfold, hfound⟩ := hstart.fold (l := List.finRange n)
    (List.pairwise_lt_finRange n)
    (fun _ i _ he hmin => hfirst i he fun j hj => hmin j (List.mem_finRange j) hj)
    fun k hk => hk.elim
  have hscan : c.scan = some idx := by rw [Candidates.scan, hfold]; rfl
  cases idx with
  | none => exact .inl ⟨hscan, fun i => hfound.2 i (.inr (List.mem_finRange i))⟩
  | some k =>
      exact .inr ⟨k, hscan, hfound.2.2.1,
        fun i hi => hfound.2.2.2 i (.inr (List.mem_finRange i)) hi⟩

/-- Before anything is chosen, a key of `INT_MAX` has the scan read `p[-1]`. -/
theorem Candidates.foldlM_undefined {l : List (Fin n)} (hsorted : l.Pairwise (· < ·)) {i : Fin n}
    (hi : i ∈ l) (he : c.Eligible i) (hfirst : ∀ j < i, ¬ c.Eligible j)
    (hkey : c.key i = intMax) : l.foldlM c.scanStep (intMax, none) = none := by
  induction l with
  | nil => cases hi
  | cons j l ih =>
      obtain ⟨hj, hsorted⟩ := List.pairwise_cons.mp hsorted
      rw [List.foldlM_cons]
      rcases List.mem_cons.mp hi with rfl | hi
      · have hstep : c.scanStep (intMax, none) i = none := by
          simp [Candidates.scanStep, he, hkey]
        rw [hstep]
        rfl
      · have hstep : c.scanStep (intMax, none) j = some (intMax, none) := by
          simp [Candidates.scanStep, hfirst j (hj i hi)]
        rw [hstep]
        exact ih hsorted hi

theorem Candidates.scan_undefined {i : Fin n} (he : c.Eligible i)
    (hfirst : ∀ j < i, ¬ c.Eligible j) (hkey : c.key i = intMax) : c.scan = none := by
  rw [Candidates.scan, Candidates.foldlM_undefined (List.pairwise_lt_finRange n)
    (List.mem_finRange i) he hfirst hkey]
  rfl

end OsInParts.Scheduling
