import Mathlib.Algebra.BigOperators.Group.Finset.Basic
import Mathlib.Algebra.Order.BigOperators.Group.Finset
import Mathlib.Data.Finset.Max
import Mathlib.Data.Fintype.Basic
import Mathlib.Tactic.Ring

/-!
# Threads — interleavings of threads and tallies over them

A system is a partial step function on events: an event names the thread
that moves and whatever is left open (a random number, the waiter a signal
picks); it is `none` where that thread is blocked. `Run` is a run all of
whose steps meet a side condition on the state they are taken in, and
`Reachable` a run without one; `Ends` says that every run is finite and
where it stops.

`tally` sums a weight over the threads' local states. A semaphore's value,
the tokens in flight and the number of holders are all tallies, and moving
one thread changes a tally by the difference of two weights
(`tally_update`).

`Locking` is what one step does to a mutex; `Locking.owner` keeps the mutex
and the thread inside the critical section in step.
-/

namespace Lib.Threads

variable {σ ε : Type*}

/-- The states reached from `init` by steps that meet `ok`. -/
inductive Run (step : ε → σ → Option σ) (ok : ε → σ → Prop) (init : σ) : σ → Prop where
  | start : Run step ok init init
  | next {s s' : σ} {e : ε} :
      Run step ok init s → ok e s → step e s = some s' → Run step ok init s'

/-- The states reached in any interleaving. -/
abbrev Reachable (step : ε → σ → Option σ) (init : σ) : σ → Prop :=
  Run step (fun _ _ => True) init

/-- The state after a given sequence of events. -/
def exec (step : ε → σ → Option σ) : σ → List ε → Option σ
  | s, [] => some s
  | s, e :: es => (step e s).bind fun s' => exec step s' es

variable {step : ε → σ → Option σ} {ok : ε → σ → Prop} {init : σ}

/-- **The invariant rule**: what holds at the start and survives every step
that meets the side condition holds wherever a run gets. -/
theorem Run.invariant {I : σ → Prop} (h0 : I init)
    (hstep : ∀ e s s', I s → ok e s → step e s = some s' → I s') {s : σ}
    (h : Run step ok init s) : I s := by
  induction h with
  | start => exact h0
  | next _ hok hs ih => exact hstep _ _ _ ih hok hs

/-- A run under a side condition is one under a weaker condition. -/
theorem Run.mono {ok' : ε → σ → Prop} (hok : ∀ e s, ok e s → ok' e s) {s : σ}
    (h : Run step ok init s) : Run step ok' init s := by
  induction h with
  | start => exact .start
  | next _ he hs ih => exact .next ih (hok _ _ he) hs

/-- Where every step lowers a measure, every run goes on to a state in which
no step is possible. -/
theorem Run.stops (μ : σ → ℕ)
    (hstep : ∀ e s s', ok e s → step e s = some s' → μ s' < μ s) {s : σ}
    (h : Run step ok init s) : ∃ s', Run step ok init s' ∧ ∀ e, ok e s' → step e s' = none := by
  generalize hm : μ s = m
  induction m using Nat.strongRecOn generalizing s with
  | _ m ih =>
      subst hm
      by_cases hmove : ∃ e s', ok e s ∧ step e s = some s'
      · obtain ⟨e, s', hok, hs⟩ := hmove
        exact ih _ (hstep e s s' hok hs) (.next h hok hs) rfl
      · refine ⟨s, h, fun e hok => ?_⟩
        cases hs : step e s with
        | none => rfl
        | some s' => exact absurd ⟨e, s', hok, hs⟩ hmove

/-- The steps that meet a decidable side condition. -/
def guarded (step : ε → σ → Option σ) (ok : ε → σ → Prop) [∀ e s, Decidable (ok e s)]
    (e : ε) (s : σ) : Option σ :=
  if ok e s then step e s else none

/-- A given sequence of events that meet the condition is a run. -/
theorem Run.exec [∀ e s, Decidable (ok e s)] {s s' : σ} (h : Run step ok init s)
    (es : List ε) (hes : exec (guarded step ok) s es = some s') : Run step ok init s' := by
  induction es generalizing s with
  | nil => cases hes; exact h
  | cons e es ih =>
      obtain ⟨s₁, h1, h2⟩ := Option.bind_eq_some_iff.mp hes
      rw [guarded] at h1
      split at h1
      · exact ih (.next h ‹_› h1) h2
      · cases h1

/-- A sequence of events meets the condition throughout if every step against it
leads to something that no step undoes, and that has not come about at the end. -/
theorem exec_guarded [∀ e s, Decidable (ok e s)] (bad : σ → Prop)
    (hkeep : ∀ e s s', bad s → step e s = some s' → bad s')
    (hbad : ∀ e s s', ¬ ok e s → step e s = some s' → bad s') {s s' : σ} {es : List ε}
    (hes : exec step s es = some s') (hend : ¬ bad s') :
    exec (guarded step ok) s es = some s' := by
  have hstays : ∀ (es : List ε) (s : σ), bad s → exec step s es = some s' → bad s' := by
    intro es
    induction es with
    | nil =>
        intro s hs hes
        cases hes
        exact hs
    | cons e es ih =>
        intro s hs hes
        obtain ⟨s₁, h1, h2⟩ := Option.bind_eq_some_iff.mp hes
        exact ih s₁ (hkeep e s s₁ hs h1) h2
  induction es generalizing s with
  | nil => exact hes
  | cons e es ih =>
      obtain ⟨s₁, h1, h2⟩ := Option.bind_eq_some_iff.mp hes
      have hok : ok e s := by
        by_contra hno
        exact hend (hstays es s₁ (hbad e s s₁ hno h1) h2)
      rw [exec, guarded, if_pos hok, h1]
      exact ih h2

/-- A given sequence of events reaches its last state. -/
theorem Reachable.exec {s s' : σ} (h : Reachable step init s) (es : List ε)
    (hes : exec step s es = some s') : Reachable step init s' := by
  induction es generalizing s with
  | nil => cases hes; exact h
  | cons e es ih =>
      obtain ⟨s₁, h1, h2⟩ := Option.bind_eq_some_iff.mp hes
      exact ih (.next h trivial h1) h2

/-- **Every run ends**, whatever the order of the events: it is finite, and
where it cannot go on `Q` holds. -/
inductive Ends (step : ε → σ → Option σ) (ok : ε → σ → Prop) (Q : σ → Prop) : σ → Prop where
  | done {s : σ} : Q s → (∀ e, ok e s → step e s = none) → Ends step ok Q s
  | step {s : σ} : (∀ e s', ok e s → step e s = some s' → Ends step ok Q s') →
      (∃ e, ok e s ∧ (step e s).isSome) → Ends step ok Q s

/-- **The termination rule**: an invariant, a measure that every step lowers,
and a step wherever `Q` does not hold. -/
theorem Ends.rule {Q : σ → Prop} (I : σ → Prop) (μ : σ → ℕ)
    (hstep : ∀ e s s', I s → ok e s → step e s = some s' → I s' ∧ μ s' < μ s)
    (hprogress : ∀ s, I s → Q s ∨ ∃ e, ok e s ∧ (step e s).isSome) {s : σ} (hI : I s) :
    Ends step ok Q s := by
  generalize hm : μ s = m
  induction m using Nat.strongRecOn generalizing s with
  | _ m ih =>
      subst hm
      by_cases hmove : ∃ e, ok e s ∧ (step e s).isSome
      · refine .step (fun e s' hok hs => ?_) hmove
        obtain ⟨hI', hlt⟩ := hstep e s s' hI hok hs
        exact ih _ hlt hI' rfl
      · refine .done ((hprogress s hI).resolve_right hmove) fun e hok => ?_
        by_contra hsome
        exact hmove ⟨e, hok, Option.isSome_iff_ne_none.mpr hsome⟩

/-- Wherever a run that has to end is stuck, `Q` holds. -/
theorem Ends.stuck {Q : σ → Prop} {s s' : σ} (h : Ends step ok Q s) (hrun : Run step ok s s')
    (hstuck : ∀ e, ok e s' → step e s' = none) : Q s' := by
  have hends : Ends step ok Q s' := by
    clear hstuck
    induction hrun with
    | start => exact h
    | next _ hok hs ih =>
        cases ih with
        | done _ hnone =>
            rw [hnone _ hok] at hs
            cases hs
        | step hall _ => exact hall _ _ hok hs
  cases hends with
  | done hQ _ => exact hQ
  | step _ hsome =>
      obtain ⟨e, hok, hsome⟩ := hsome
      rw [hstuck e hok] at hsome
      cases hsome

/-- Two things that hold wherever a run stops hold together somewhere. -/
theorem Ends.both {Q Q' : σ → Prop} {s : σ} (h : Ends step ok Q s) (h' : Ends step ok Q' s) :
    ∃ s', Q s' ∧ Q' s' := by
  induction h with
  | @done s hQ hnone =>
      cases h' with
      | done hQ' _ => exact ⟨s, hQ, hQ'⟩
      | step _ hsome =>
          obtain ⟨e, hok, hsome⟩ := hsome
          rw [hnone e hok] at hsome
          cases hsome
  | step _ hsome ih =>
      obtain ⟨e, hok, hsome⟩ := hsome
      obtain ⟨s', hs⟩ := Option.isSome_iff_exists.mp hsome
      cases h' with
      | done _ hnone =>
          rw [hnone e hok] at hs
          cases hs
      | step hall' _ => exact ih e s' hok hs (hall' e s' hok hs)

/-- **Resources in order**: where every blocked thread waits for one that is
at work and, if it is blocked itself, wants something higher, some thread at work
is not blocked. -/
theorem exists_unblocked {ι κ : Type*} [Fintype ι] [LinearOrder κ] {busy blocked : ι → Prop}
    (wants : ι → κ)
    (hwaits : ∀ i, busy i → blocked i → ∃ j, busy j ∧ (blocked j → wants i < wants j))
    (hbusy : ∃ i, busy i) : ∃ i, busy i ∧ ¬ blocked i := by
  classical
  by_contra hall
  simp only [not_exists, not_and, not_not] at hall
  -- the one that wants the highest resource
  obtain ⟨i, hi, hmax⟩ := Finset.exists_max_image (Finset.univ.filter busy) wants
    (by obtain ⟨i, hi⟩ := hbusy; exact ⟨i, by simpa using hi⟩)
  have hi : busy i := by simpa using hi
  obtain ⟨j, hj, hlt⟩ := hwaits i hi (hall i hi)
  exact absurd (hmax j (by simpa using hj)) (not_le.mpr (hlt (hall j hj)))

/-! ## Tallies -/

section Tally

variable {ι α : Type*} [Fintype ι]

/-- The sum of a weight over the local states of the threads. -/
def tally (w : ι → α → ℕ) (f : ι → α) : ℕ := ∑ i, w i (f i)

/-- **One thread moves**: the tally changes by its two weights. -/
theorem tally_update [DecidableEq ι] (w : ι → α → ℕ) (f : ι → α) (i : ι) (a : α) :
    tally w (Function.update f i a) + w i (f i) = tally w f + w i a := by
  unfold tally
  rw [← Finset.add_sum_erase Finset.univ (fun j => w j (Function.update f i a j))
      (Finset.mem_univ i),
    ← Finset.add_sum_erase Finset.univ (fun j => w j (f j)) (Finset.mem_univ i)]
  have hrest : ∑ j ∈ Finset.univ.erase i, w j (Function.update f i a j)
      = ∑ j ∈ Finset.univ.erase i, w j (f j) :=
    Finset.sum_congr rfl fun j hj => by
      rw [Function.update_of_ne (Finset.ne_of_mem_erase hj)]
  rw [hrest, Function.update_self]
  ring

theorem le_tally (w : ι → α → ℕ) (f : ι → α) (i : ι) : w i (f i) ≤ tally w f :=
  Finset.single_le_sum (f := fun j => w j (f j)) (fun _ _ => Nat.zero_le _)
    (Finset.mem_univ i)

/-- A positive tally has a thread with a positive weight. -/
theorem exists_of_tally_pos {w : ι → α → ℕ} {f : ι → α} (h : 0 < tally w f) :
    ∃ i, 0 < w i (f i) := by
  obtain ⟨i, _, hi⟩ := Finset.exists_ne_zero_of_sum_ne_zero (Nat.pos_iff_ne_zero.mp h)
  exact ⟨i, Nat.pos_iff_ne_zero.mpr hi⟩

theorem tally_eq_zero {w : ι → α → ℕ} {f : ι → α} (h : ∀ i, w i (f i) = 0) :
    tally w f = 0 :=
  Finset.sum_eq_zero fun i _ => h i

/-- A weight that is smaller somewhere has the smaller tally. -/
theorem tally_lt {v w : ι → α → ℕ} (h : ∀ i a, v i a ≤ w i a) {f : ι → α} {i : ι}
    (hi : v i (f i) < w i (f i)) : tally v f < tally w f :=
  Finset.sum_lt_sum (fun j _ => h j (f j)) ⟨i, Finset.mem_univ i, hi⟩

/-- One thread of a list moves. -/
theorem sum_map_set (w : α → ℕ) {l : List α} {t : ℕ} {a : α} (h : l[t]? = some a) (b : α) :
    ((l.set t b).map w).sum + w a = (l.map w).sum + w b := by
  induction l generalizing t with
  | nil => cases h
  | cons x l ih =>
      cases t with
      | zero =>
          rw [List.getElem?_cons_zero, Option.some.injEq] at h
          subst h
          simp only [List.set_cons_zero, List.map_cons, List.sum_cons]
          ring
      | succ t =>
          rw [List.getElem?_cons_succ] at h
          have hrest := ih h
          simp only [List.set_cons_succ, List.map_cons, List.sum_cons]
          rw [Nat.add_assoc, hrest, Nat.add_assoc]

end Tally

/-! ## A mutex -/

section Mutex

variable {Ω : Type*}

/-- What a step of `o` does to a mutex, given whether `o` is between lock and
unlock before and after: it stays outside, takes the mutex, keeps it, or
frees it. -/
inductive Locking (o : Ω) : Bool → Option Ω → Bool → Option Ω → Prop where
  | outside (m) : Locking o false m false m
  | lock : Locking o false none true (some o)
  | keep (m) : Locking o true m true m
  | unlock (m) : Locking o true m false none

variable {o : Ω} {m m' : Option Ω}

theorem Locking.lock_eq (h : Locking o false m true m') : m = none := by
  cases h
  rfl

theorem Locking.unlock_eq (h : Locking o true m false m') : m' = none := by
  cases h
  rfl

theorem Locking.outside_eq (h : Locking o false m false m') : m' = m := by
  cases h
  rfl

/-- **Mutual exclusion** is kept: the owner is the thread inside, and no other
is. -/
theorem Locking.owner {f g : Ω → Bool} (h : Locking o (f o) m (g o) m')
    (hrest : ∀ o' ≠ o, g o' = f o') (hm : ∀ o', f o' = true ↔ m = some o') :
    ∀ o', g o' = true ↔ m' = some o' := by
  have hmo := hm o
  generalize f o = b at h hmo
  generalize hb' : g o = b' at h
  intro o'
  by_cases ho : o' = o
  · subst ho
    rw [hb']
    cases h with
    | outside => exact hmo
    | lock => simp
    | keep => exact hmo
    | unlock => simp
  · rw [hrest o' ho, hm o']
    cases h with
    | outside => rfl
    | lock => simp [Ne.symm ho]
    | keep => rfl
    | unlock => simp [hmo.mp rfl, Ne.symm ho]

theorem free_of_outside {f : Ω → Bool} (hm : ∀ o, f o = true ↔ m = some o)
    (hout : ∀ o, f o = false) : m = none := by
  cases hmo : m with
  | none => rfl
  | some o =>
      have ho := (hm o).mpr hmo
      rw [hout o] at ho
      cases ho

end Mutex

end Lib.Threads
