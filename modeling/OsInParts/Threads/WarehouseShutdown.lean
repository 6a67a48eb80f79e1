import OsInParts.Threads.WarehouseTokens

/-!
# WarehouseShutdown — main joins the trucks, then cancels and joins the managers

The end of `main` in `Multithreading/q3.c`, around the threads of
`Warehouse`. A cancelled manager stops where it next calls `sem_wait`,
`sleep` or `printf`, or was already in such a call; `pthread_mutex_lock` is
no such place.

One of its `printf` calls stands inside the critical section, so a manager
that stops there takes the mutex with it. What becomes of the managers after
it depends on where they are: those that never come to `pthread_mutex_lock`
again are cancelled and joined as if nothing had happened. `StopsClear` is
that condition, on the moment in which a manager stops.
-/

namespace OsInParts.Warehouse

open Lib.Threads

variable {T M : Nat}

/-- Where `main` is, with the threads created. -/
inductive Main (M : Nat) where
  /-- at the test of the loop over the trucks -/
  | joinTruck (i : Nat)
  /-- at the test of the loop over the managers -/
  | cancel (j : Nat)
  /-- at `pthread_join`, with the manager cancelled -/
  | join (j : Fin M)
  /-- at `pthread_mutex_destroy` -/
  | done
  deriving DecidableEq

/-- The warehouse with `main`. A terminated manager keeps the place at which it
has stopped. -/
structure Program (T M : Nat) extends State T M where
  main : Main M
  cancelled : Fin M → Bool
  terminated : Fin M → Bool

def Program.initial (T M : Nat) (past : Int32) : Program T M :=
  { Warehouse.initial T M past with
    main := .joinTruck 0, cancelled := fun _ => false, terminated := fun _ => false }

/-- At a call in which a cancelled thread stops. -/
def Manager.atCancellationPoint : Manager → Bool
  | .waitFull _ | .print | .sleep => true
  | _ => false

def Manager.atLock : Manager → Bool
  | .lock _ => true
  | _ => false

/-- The next step of `main`, `none` while it waits in `pthread_join`. -/
def Program.mainStep (s : Program T M) : Option (Program T M) :=
  match s.main with
  | .joinTruck i =>
      if h : i < T then
        if s.trucks ⟨i, h⟩ = .exited then some { s with main := .joinTruck (i + 1) } else none
      else some { s with main := .cancel 0 }
  | .cancel j =>
      if h : j < M then
        some { s with
          cancelled := Function.update s.cancelled ⟨j, h⟩ true
          main := .join ⟨j, h⟩ }
      else some { s with main := .done }
  | .join j => if s.terminated j then some { s with main := .cancel (j + 1) } else none
  | .done => none

/-- Who moves: `main`, a truck, a manager, or a manager that stops. -/
inductive Action (T M : Nat) where
  | main
  | truck (i : Fin T) (rand : Nat)
  | manager (j : Fin M) (rand : Nat)
  | stop (j : Fin M)

def Program.step : Action T M → Program T M → Option (Program T M)
  | .main, s => s.mainStep
  | .truck i rand, s => (deliveryTruck i rand s.toState).map fun s' => { s with toState := s' }
  | .manager j rand, s =>
      if s.terminated j then none
      else (storageManager j rand s.toState).map fun s' => { s with toState := s' }
  | .stop j, s =>
      if s.cancelled j && !s.terminated j && (s.managers j).atCancellationPoint then
        some { s with terminated := Function.update s.terminated j true }
      else none

/-- `main` waits for manager `j`, which waits for a mutex of a terminated
manager, and that is never over. -/
def Program.Hangs (s : Program T M) (j : Fin M) : Prop :=
  (∃ k, s.mutex = some (.manager k) ∧ s.terminated k = true) ∧
    ∀ s', Reachable Program.step s s' → s'.main = .join j ∧ (s'.managers j).atLock = true

/-- A manager that stops in its critical section leaves no manager behind that
is at the lock or can still come to it. -/
def StopsClear : Action T M → Program T M → Prop
  | .stop j, s => s.managers j = .print →
      ∀ k, j < k → s.full = 0 ∧ (s.managers k).atLock = false
  | _, _ => True

instance : (a : Action T M) → (s : Program T M) → Decidable (StopsClear a s)
  | .main, _ => isTrue trivial
  | .truck _ _, _ => isTrue trivial
  | .manager _ _, _ => isTrue trivial
  | .stop j, s => inferInstanceAs (Decidable (s.managers j = .print →
      ∀ k, j < k → s.full = 0 ∧ (s.managers k).atLock = false))

/-! ## What a step does -/

/-- A step of the program is a step of the warehouse or leaves it alone. -/
theorem Program.step_inv {a : Action T M} {s s' : Program T M} (h : Inv s.toState)
    (hs : Program.step a s = some s') : Inv s'.toState := by
  cases a with
  | main =>
      simp only [Program.step, Program.mainStep] at hs
      repeat' split at hs
      all_goals first | (cases hs; exact h) | cases hs
  | truck i rand =>
      obtain ⟨t, ht, rfl⟩ := Option.map_eq_some_iff.mp hs
      exact h.step (deliveryTruck_effect ht)
  | manager j rand =>
      simp only [Program.step] at hs
      split at hs
      · cases hs
      · obtain ⟨t, ht, rfl⟩ := Option.map_eq_some_iff.mp hs
        exact h.step (storageManager_effect (h.positive (.manager j)) ht)
  | stop j =>
      simp only [Program.step] at hs
      split at hs <;> cases hs
      exact h

/-- Only the owner frees the mutex. -/
theorem Effect.mutex_of_ne {o o' : Owner T M} {s s' : State T M} (h : Inv s) (he : Effect o s s')
    (hm : s.mutex = some o') (hne : o ≠ o') : s'.mutex = some o' := by
  have hout : (s.locals o).inside = false := by
    by_contra hin
    have hown := (h.owner o).mp (Bool.not_eq_false _ ▸ hin)
    rw [hm] at hown
    exact hne (Option.some.inj hown).symm
  have hl := he.locking
  rw [hout, hm] at hl
  generalize (s'.locals o).inside = b at hl
  generalize hm' : s'.mutex = m at hl
  cases hl
  rfl

/-- A thread that moves takes the mutex for itself only. -/
theorem Effect.mutex_eq {o o' : Owner T M} {s s' : State T M} (he : Effect o s s')
    (hm : s'.mutex = some o') (hne : o ≠ o') : s.mutex = some o' := by
  have hl := he.locking
  rw [hm] at hl
  generalize (s.locals o).inside = b at hl
  generalize (s'.locals o).inside = b' at hl
  generalize s.mutex = m at hl
  cases hl with
  | outside => rfl
  | lock => exact absurd rfl hne
  | keep => rfl

theorem Effect.truck_eq {o : Owner T M} {s s' : State T M} (he : Effect o s s') {i : Fin T}
    (hne : o ≠ .truck i) : s'.trucks i = s.trucks i := by
  have hsame := congrFun he.locals (.truck i)
  rw [Function.update_of_ne hne.symm] at hsame
  exact Local.truck.inj hsame

theorem Effect.manager_eq {o : Owner T M} {s s' : State T M} (he : Effect o s s') {j : Fin M}
    (hne : o ≠ .manager j) : s'.managers j = s.managers j := by
  have hsame := congrFun he.locals (.manager j)
  rw [Function.update_of_ne hne.symm] at hsame
  exact Local.manager.inj hsame

/-- A manager comes to the lock by a `full` token, and adds none. -/
theorem storageManager_atLock {j : Fin M} {rand : Nat} {s s' : State T M}
    (hs : storageManager j rand s = some s') :
    s'.full ≤ s.full ∧ ((s'.managers j).atLock = true → 0 < s.full) := by
  unfold storageManager at hs
  split at hs
  case h_2 =>
    split at hs <;> cases hs
    exact ⟨Nat.sub_le _ _, fun _ => ‹_›⟩
  all_goals
    repeat' split at hs
    all_goals
      first
      | (cases hs; done)
      | (cases hs; exact ⟨le_rfl, fun h => by simp [State.setManager, Manager.atLock] at h⟩)

/-! ## The invariant -/

/-- How far `main` is: the managers it has cancelled and those it has joined. -/
def Main.Placed (s : Program T M) : Main M → Prop
  | .joinTruck i => (∀ k : Fin T, k.val < i → s.trucks k = .exited) ∧
      ∀ k, s.cancelled k = false
  | .cancel j => (∀ k, s.trucks k = .exited) ∧
      ∀ k : Fin M, (s.cancelled k = true → k.val < j) ∧ (k.val < j → s.terminated k = true)
  | .join j => (∀ k, s.trucks k = .exited) ∧
      ∀ k, (s.cancelled k = true → k ≤ j) ∧ (k < j → s.terminated k = true)
  | .done => (∀ k, s.trucks k = .exited) ∧ ∀ k, s.terminated k = true

/-- A terminated manager owns the mutex. -/
def Program.Orphaned (s : Program T M) : Prop :=
  ∃ k, s.mutex = some (.manager k) ∧ s.terminated k = true

/-- **What holds in every reachable state.** -/
structure Program.Inv (s : Program T M) : Prop where
  base : Warehouse.Inv s.toState
  placed : s.main.Placed s
  joining : ∀ j, s.main = .join j → s.cancelled j = true
  cancelled : ∀ k, s.terminated k = true → s.cancelled k = true
  stopped : ∀ k, s.terminated k = true → (s.managers k).atCancellationPoint = true

theorem Program.inv_initial (past : Int32) : (Program.initial T M past).Inv where
  base := Warehouse.inv_initial past
  placed := ⟨fun k hk => absurd hk (Nat.not_lt_zero _), fun _ => rfl⟩
  joining := fun j hj => by cases hj
  cancelled := fun k hk => by cases hk
  stopped := fun k hk => by cases hk

/-- The manager that has not stopped although it is cancelled is the one `main`
is joining. -/
theorem Program.Inv.main_eq {s : Program T M} (h : s.Inv) {j : Fin M}
    (hc : s.cancelled j = true) (ht : s.terminated j = false) : s.main = .join j := by
  have hplaced := h.placed
  cases hm : s.main with
  | joinTruck i =>
      rw [hm] at hplaced
      rw [hplaced.2 j] at hc
      cases hc
  | cancel i =>
      rw [hm] at hplaced
      have hj := hplaced.2 j
      rw [hj.2 (hj.1 hc)] at ht
      cases ht
  | join i =>
      rw [hm] at hplaced
      have hj := hplaced.2 j
      rcases (hj.1 hc).lt_or_eq with hlt | rfl
      · rw [hj.2 hlt] at ht
        cases ht
      · rfl
  | done =>
      rw [hm] at hplaced
      rw [hplaced.2 j] at ht
      cases ht

/-- Once a manager is cancelled all trucks have exited. -/
theorem Program.Inv.exited {s : Program T M} (h : s.Inv) {j : Fin M}
    (hc : s.cancelled j = true) (i : Fin T) : s.trucks i = .exited := by
  have hplaced := h.placed
  cases hm : s.main with
  | joinTruck k =>
      rw [hm] at hplaced
      rw [hplaced.2 j] at hc
      cases hc
  | cancel k => rw [hm] at hplaced; exact hplaced.1 i
  | join k => rw [hm] at hplaced; exact hplaced.1 i
  | done => rw [hm] at hplaced; exact hplaced.1 i

/-- A manager does not stop at the lock. -/
theorem Program.Inv.alive_of_atLock {s : Program T M} (h : s.Inv) {j : Fin M}
    (hlock : (s.managers j).atLock = true) : s.terminated j = false := by
  by_contra hstopped
  have hpoint := h.stopped j (Bool.not_eq_false _ ▸ hstopped)
  cases hpc : s.managers j <;> rw [hpc] at hlock hpoint <;>
    first | (cases hlock; done) | cases hpoint

theorem Main.Placed.mainStep {s s' : Program T M} (h : s.main.Placed s)
    (hs : s.mainStep = some s') : s'.main.Placed s' := by
  unfold Program.mainStep at hs
  split at hs
  case h_1 i hm =>
    rw [hm] at h
    split at hs
    · split at hs <;> cases hs
      refine ⟨fun k hk => ?_, h.2⟩
      rcases Nat.lt_succ_iff_lt_or_eq.mp hk with hlt | rfl
      · exact h.1 k hlt
      · assumption
    · cases hs
      refine ⟨fun k => h.1 k (by have := k.isLt; omega), fun k => ⟨fun hc => ?_, fun hk => ?_⟩⟩
      · rw [show s.cancelled k = false from h.2 k] at hc
        cases hc
      · exact absurd hk (Nat.not_lt_zero _)
  case h_2 j hm =>
    rw [hm] at h
    split at hs <;> cases hs
    · refine ⟨h.1, fun k => ⟨fun hc => ?_, fun hk => (h.2 k).2 hk⟩⟩
      by_cases hk : k = ⟨j, ‹_›⟩
      · exact hk.le
      · simp only [Function.update_of_ne hk] at hc
        exact ((h.2 k).1 hc).le
    · exact ⟨h.1, fun k => (h.2 k).2 (by have := k.isLt; omega)⟩
  case h_3 j hm =>
    rw [hm] at h
    split at hs <;> cases hs
    refine ⟨h.1, fun k => ⟨fun hc => Nat.lt_succ_of_le ((h.2 k).1 hc), fun hk => ?_⟩⟩
    rcases Nat.lt_succ_iff_lt_or_eq.mp hk with hlt | heq
    · exact (h.2 k).2 hlt
    · rw [show k = j from Fin.ext heq]
      assumption
  case h_4 => cases hs

/-- What `main` has done is not undone by the other threads. -/
theorem Main.Placed.of_le {s s' : Program T M} {m : Main M} (h : m.Placed s)
    (htrucks : ∀ i, s.trucks i = .exited → s'.trucks i = .exited)
    (hc : s'.cancelled = s.cancelled)
    (ht : ∀ k, s.terminated k = true → s'.terminated k = true) : m.Placed s' := by
  cases m with
  | joinTruck i => exact ⟨fun k hk => htrucks k (h.1 k hk), fun k => hc ▸ h.2 k⟩
  | cancel j =>
      exact ⟨fun k => htrucks k (h.1 k), fun k => ⟨fun hk => (h.2 k).1 (hc ▸ hk),
        fun hk => ht k ((h.2 k).2 hk)⟩⟩
  | join j =>
      exact ⟨fun k => htrucks k (h.1 k), fun k => ⟨fun hk => (h.2 k).1 (hc ▸ hk),
        fun hk => ht k ((h.2 k).2 hk)⟩⟩
  | done => exact ⟨fun k => htrucks k (h.1 k), fun k => ht k (h.2 k)⟩

theorem Program.inv_step {a : Action T M} {s s' : Program T M} (h : s.Inv)
    (hs : Program.step a s = some s') : s'.Inv := by
  have hbase := Program.step_inv h.base hs
  cases a with
  | main =>
      have hplaced := h.placed.mainStep hs
      simp only [Program.step, Program.mainStep] at hs
      split at hs
      case h_2 =>
        split at hs <;> cases hs
        · refine ⟨hbase, hplaced, fun k hk => ?_, fun k hk => ?_, h.stopped⟩
          · rw [← Main.join.inj hk]
            exact Function.update_self ..
          · by_cases hkj : k = ⟨_, ‹_›⟩
            · rw [hkj]
              exact Function.update_self ..
            · simp only [Function.update_of_ne hkj]
              exact h.cancelled k hk
        · exact ⟨hbase, hplaced, fun _ hk => (by cases hk), h.cancelled, h.stopped⟩
      all_goals
        repeat' split at hs
        all_goals
          first
          | (cases hs; done)
          | (cases hs
             exact ⟨hbase, hplaced, fun _ hk => (by cases hk), h.cancelled, h.stopped⟩)
  | truck i rand =>
      obtain ⟨t, ht, rfl⟩ := Option.map_eq_some_iff.mp hs
      have he := deliveryTruck_effect ht
      refine ⟨hbase, h.placed.of_le (fun k hk => ?_) rfl fun _ hk => hk, h.joining,
        h.cancelled, fun k hk => ?_⟩
      · by_cases hki : i = k
        · subst hki
          rw [deliveryTruck, hk] at ht
          cases ht
        · exact (he.truck_eq fun heq => hki (Owner.truck.inj heq)).trans hk
      · exact (he.manager_eq (by simp)) ▸ h.stopped k hk
  | manager j rand =>
      simp only [Program.step] at hs
      split at hs
      · cases hs
      · rename_i halive
        obtain ⟨t, ht, rfl⟩ := Option.map_eq_some_iff.mp hs
        have he := storageManager_effect (h.base.positive (.manager j)) ht
        refine ⟨hbase, h.placed.of_le (fun k hk => ?_) rfl fun _ hk => hk, h.joining,
          h.cancelled, fun k hk => ?_⟩
        · exact (he.truck_eq (by simp)).trans hk
        · have hkj : j ≠ k := by
            rintro rfl
            exact halive hk
          exact (he.manager_eq fun heq => hkj (Owner.manager.inj heq)) ▸ h.stopped k hk
  | stop j =>
      simp only [Program.step] at hs
      split at hs <;> cases hs
      rename_i hstop
      simp only [Bool.and_eq_true] at hstop
      have hmore : ∀ k, Function.update s.terminated j true k = true ↔
          k = j ∨ s.terminated k = true := fun k => by
        by_cases hk : k = j
        · simp [hk]
        · simp [hk]
      refine ⟨hbase, h.placed.of_le (fun _ hk => hk) rfl fun k hk => (hmore k).mpr (.inr hk),
        h.joining, fun k hk => ?_, fun k hk => ?_⟩
      · rcases (hmore k).mp hk with rfl | hk
        · exact hstop.1.1
        · exact h.cancelled k hk
      · rcases (hmore k).mp hk with rfl | hk
        · exact hstop.2
        · exact h.stopped k hk

/-! ## Clean shutdown -/

/-- Where a terminated manager owns the mutex, the managers that are left
neither are at the lock nor can come to it. -/
def Program.Clear (s : Program T M) : Prop :=
  s.Orphaned → ∀ k, s.terminated k = false → s.full = 0 ∧ (s.managers k).atLock = false

/-- What a step of a manager leaves of this. -/
theorem Program.clear_step {a : Action T M} {s s' : Program T M} (h : s.Inv) (hclear : s.Clear)
    (hok : StopsClear a s) (hs : Program.step a s = some s') : s'.Clear := by
  rintro ⟨o, hm, ho⟩ k hk
  cases a with
  | main =>
      simp only [Program.step, Program.mainStep] at hs
      repeat' split at hs
      all_goals first | (cases hs; done) | (cases hs; exact hclear ⟨o, hm, ho⟩ k hk)
  | truck i rand =>
      obtain ⟨t, ht, rfl⟩ := Option.map_eq_some_iff.mp hs
      -- the trucks have exited before the first manager is cancelled
      rw [deliveryTruck, h.exited (h.cancelled o ho) i] at ht
      cases ht
  | manager j rand =>
      simp only [Program.step] at hs
      split at hs
      · cases hs
      · rename_i halive
        obtain ⟨t, ht, rfl⟩ := Option.map_eq_some_iff.mp hs
        have he := storageManager_effect (h.base.positive (.manager j)) ht
        have hjo : j ≠ o := by
          rintro rfl
          exact halive ho
        have horphan : s.Orphaned :=
          ⟨o, he.mutex_eq hm fun heq => hjo (Owner.manager.inj heq), ho⟩
        obtain ⟨hfull, hlock⟩ := storageManager_atLock ht
        have hk' := hclear horphan k hk
        refine ⟨Nat.le_zero.mp (hk'.1 ▸ hfull), ?_⟩
        by_cases hkj : j = k
        · subst hkj
          by_contra hin
          have := hlock (Bool.not_eq_false _ ▸ hin)
          omega
        · rw [he.manager_eq fun heq => hkj (Owner.manager.inj heq)]
          exact hk'.2
  | stop j =>
      simp only [Program.step] at hs
      split at hs <;> cases hs
      rename_i hstop
      simp only [Bool.and_eq_true, Bool.not_eq_true'] at hstop
      obtain ⟨⟨hc, halive⟩, hpoint⟩ := hstop
      have hkj : k ≠ j := by
        rintro rfl
        simp at hk
      simp only [Function.update_of_ne hkj] at hk
      by_cases hoj : o = j
      · subst hoj
        have hprint : s.managers o = .print := by
          have hin := (h.base.owner (.manager o)).mpr hm
          simp only [State.locals, Local.inside] at hin
          cases hpc : s.managers o <;> rw [hpc] at hin hpoint <;>
            first | rfl | (cases hin; done) | cases hpoint
        -- the managers before the one that stops are terminated
        have hplaced := h.placed
        rw [h.main_eq hc halive] at hplaced
        have hlt : o < k := by
          rcases lt_trichotomy k o with hlt | heq | hgt
          · rw [(hplaced.2 k).2 hlt] at hk
            cases hk
          · exact absurd heq hkj
          · exact hgt
        exact hok hprint k hlt
      · simp only [Function.update_of_ne hoj] at ho
        exact hclear ⟨o, hm, ho⟩ k hk

/-- The manager `main` waits for is not blocked at a lock that is lost. -/
theorem Program.Inv.not_hangs {s : Program T M} (h : s.Inv) (hclear : s.Clear) (j : Fin M) :
    ¬ s.Hangs j := by
  rintro ⟨horphan, hforever⟩
  obtain ⟨-, hlock⟩ := hforever s .start
  rw [(hclear horphan j (h.alive_of_atLock hlock)).2] at hlock
  cases hlock

/-- **Clean shutdown**, for any number of trucks and managers and any
interleaving in which no manager stops in its critical section while a later
one is at the lock or can still come to it: `main` never waits for ever for
a manager that waits for a mutex of a terminated one. -/
theorem clean_shutdown {past : Int32} {s : Program T M}
    (h : Run Program.step StopsClear (Program.initial T M past) s) (j : Fin M) : ¬ s.Hangs j := by
  have hinv : s.Inv ∧ s.Clear := by
    refine h.invariant (I := fun s => s.Inv ∧ s.Clear) ⟨Program.inv_initial past, ?_⟩
      fun _ _ _ hI hok hs => ⟨Program.inv_step hI.1 hs, Program.clear_step hI.1 hI.2 hok hs⟩
    rintro ⟨k, -, hk⟩
    cases hk
  exact hinv.1.not_hangs hinv.2 j

/-- Truck `i` delivers one product twice, and exits. -/
def twoDeliveries (i : Fin T) : List (Action T M) := List.replicate 23 (.truck i 0)

/-- `main` joins a single truck, and manager `j` stops where it is cancelled. -/
def cancelFirst (j : Fin M) : List (Action T M) := [.main, .main, .main, .stop j, .main, .main]

/-- The first manager takes both products and stops in its critical section,
with the second one still at the start. -/
theorem clean_shutdown_sample :
    ∃ s : Program 1 2, Run Program.step StopsClear (Program.initial 1 2 0) s ∧
      s.main = .join 1 ∧ s.mutex = some (.manager 0) ∧ ¬ s.Hangs 1 := by
  have hexec := Option.eq_some_of_isSome
    (o := exec (guarded Program.step StopsClear) (Program.initial 1 2 0)
      (twoDeliveries 0 ++ List.replicate 22 (.manager 0 0) ++ cancelFirst 0)) rfl
  have hrun := Run.exec .start _ hexec
  exact ⟨_, hrun, rfl, rfl, clean_shutdown hrun 1⟩

/-! ## A manager that stops with the mutex -/

/-- A manager at the lock of a mutex that is lost stays there, and so does
`main`. -/
structure Program.Blocked (j : Fin M) (s : Program T M) : Prop where
  inv : s.Inv
  orphaned : s.Orphaned
  main : s.main = .join j
  atLock : (s.managers j).atLock = true

theorem Program.Blocked.step {j : Fin M} {a : Action T M} {s s' : Program T M}
    (h : s.Blocked j) (hs : Program.step a s = some s') : s'.Blocked j := by
  have hinv' := Program.inv_step h.inv hs
  obtain ⟨o, hm, ho⟩ := h.orphaned
  have halive := h.inv.alive_of_atLock h.atLock
  cases a with
  | main =>
      simp [Program.step, Program.mainStep, h.main, halive] at hs
  | truck i rand =>
      obtain ⟨t, ht, rfl⟩ := Option.map_eq_some_iff.mp hs
      rw [deliveryTruck, h.inv.exited (h.inv.cancelled o ho) i] at ht
      cases ht
  | manager k rand =>
      simp only [Program.step] at hs
      split at hs
      · cases hs
      · rename_i hk
        obtain ⟨t, ht, rfl⟩ := Option.map_eq_some_iff.mp hs
        have he := storageManager_effect (h.inv.base.positive (.manager k)) ht
        have hko : k ≠ o := by
          rintro rfl
          exact hk ho
        have hkj : k ≠ j := by
          rintro rfl
          have hlock := h.atLock
          cases hpc : s.managers k <;> rw [hpc] at hlock <;> try cases hlock
          simp [storageManager, hpc, hm] at ht
        refine ⟨hinv', ⟨o, he.mutex_of_ne h.inv.base hm
          fun heq => hko (Owner.manager.inj heq), ho⟩, h.main, ?_⟩
        exact (he.manager_eq fun heq => hkj (Owner.manager.inj heq)) ▸ h.atLock
  | stop k =>
      simp only [Program.step] at hs
      split at hs <;> cases hs
      refine ⟨hinv', ⟨o, hm, ?_⟩, h.main, h.atLock⟩
      by_cases hok : o = k
      · rw [hok]
        exact Function.update_self ..
      · simp only [Function.update_of_ne hok]
        exact ho

theorem Program.Blocked.hangs {j : Fin M} {s : Program T M} (h : s.Blocked j) : s.Hangs j := by
  refine ⟨h.orphaned, fun s' hs' => ?_⟩
  have h' : s'.Blocked j := hs'.invariant h fun _ _ _ hI _ hs => hI.step hs
  exact ⟨h'.main, h'.atLock⟩

/-- Each manager takes a token; the first stops at its `printf`, the second is
at the lock. -/
theorem shutdown_hangs :
    ¬ ∀ (T M : Nat) (past : Int32) (s : Program T M),
      Reachable Program.step (Program.initial T M past) s → ∀ j, ¬ s.Hangs j := by
  intro hclaim
  have hexec := Option.eq_some_of_isSome (o := exec Program.step (Program.initial 1 2 0)
    (twoDeliveries 0 ++ List.replicate 9 (.manager 0 0) ++ List.replicate 2 (.manager 1 0) ++
      cancelFirst 0)) rfl
  have hreach := Reachable.exec .start _ hexec
  have hinv := hreach.invariant (I := Program.Inv) (Program.inv_initial 0)
    fun _ _ _ hI _ hs => Program.inv_step hI hs
  exact hclaim 1 2 0 _ hreach 1
    (Program.Blocked.hangs ⟨hinv, ⟨0, rfl, rfl⟩, rfl, rfl⟩)

/-! ## The condition is needed -/

/-- Manager `l` has moved, and nothing that matters to the others has changed. -/
structure Program.Apart (l : Fin M) (s s' : Program T M) : Prop where
  main : s'.main = s.main
  cancelled : s'.cancelled = s.cancelled
  terminated : ∀ k ≠ l, s'.terminated k = s.terminated k
  mutex : s'.mutex = s.mutex
  managers : ∀ k ≠ l, s'.managers k = s.managers k

theorem Program.Apart.trans {l : Fin M} {s s' s'' : Program T M} (h : s.Apart l s')
    (h' : s'.Apart l s'') : s.Apart l s'' :=
  ⟨h'.main.trans h.main, h'.cancelled.trans h.cancelled,
    fun k hk => (h'.terminated k hk).trans (h.terminated k hk), h'.mutex.trans h.mutex,
    fun k hk => (h'.managers k hk).trans (h.managers k hk)⟩

theorem Program.apart_setManager (s : Program T M) (l : Fin M) (m : Manager) (empty : Nat) :
    s.Apart l { s with toState := { s.toState with empty := empty }.setManager l m } :=
  ⟨rfl, rfl, fun _ _ => rfl, rfl, fun _ hk => Function.update_of_ne hk ..⟩

/-- While a terminated manager owns the mutex, no other is inside. -/
theorem Program.Inv.outside {s : Program T M} (h : s.Inv) (horphan : s.Orphaned) {l : Fin M}
    (halive : s.terminated l = false) : (s.managers l).inside = false := by
  obtain ⟨o, hm, ho⟩ := horphan
  by_contra hin
  have hown := (h.base.owner (.manager l)).mp (Bool.not_eq_false _ ▸ hin)
  rw [hm] at hown
  rw [Owner.manager.inj (Option.some.inj hown), halive] at ho
  cases ho

theorem Program.Orphaned.apart {s s' : Program T M} (h : s.Orphaned) {l : Fin M}
    (halive : s.terminated l = false) (hapart : s.Apart l s') : s'.Orphaned := by
  obtain ⟨o, hm, ho⟩ := h
  have hne : o ≠ l := by
    rintro rfl
    rw [halive] at ho
    cases ho
  exact ⟨o, hapart.mutex.trans hm, (hapart.terminated o hne).trans ho⟩

/-- A manager that has not stopped takes its next step. -/
theorem Program.reaches_manager {s₀ s : Program T M} (hs : Reachable Program.step s₀ s)
    {l : Fin M} (halive : s.terminated l = false) {t : State T M}
    (ht : storageManager l 0 s.toState = some t) :
    Reachable Program.step s₀ { s with toState := t } :=
  .next (e := .manager l 0) hs trivial (by simp [Program.step, halive, ht])

/-- A manager that is neither inside nor at the lock comes back to `sem_wait`. -/
theorem Program.reaches_waitFull {s₀ s : Program T M} (hs : Reachable Program.step s₀ s)
    {l : Fin M} (halive : s.terminated l = false) (hout : (s.managers l).inside = false)
    (hlock : (s.managers l).atLock = false) :
    ∃ s', Reachable Program.step s₀ s' ∧ s.Apart l s' ∧ s'.terminated l = false ∧
      s'.full = s.full ∧ ∃ products, s'.managers l = .waitFull products := by
  have hstart : ∀ s : Program T M, Reachable Program.step s₀ s → s.terminated l = false →
      s.managers l = .start → ∃ s', Reachable Program.step s₀ s' ∧ s.Apart l s' ∧
        s'.terminated l = false ∧ s'.full = s.full ∧
        ∃ products, s'.managers l = .waitFull products := by
    intro s hs halive hpc
    exact ⟨_, Program.reaches_manager hs halive (by rw [storageManager, hpc]),
      s.apart_setManager l _ s.empty, halive, rfl, _, Function.update_self ..⟩
  have hsleep : ∀ s : Program T M, Reachable Program.step s₀ s → s.terminated l = false →
      s.managers l = .sleep → ∃ s', Reachable Program.step s₀ s' ∧ s.Apart l s' ∧
        s'.terminated l = false ∧ s'.full = s.full ∧
        ∃ products, s'.managers l = .waitFull products := by
    intro s hs halive hpc
    have hnext : storageManager l 0 s.toState = some (s.toState.setManager l .start) := by
      rw [storageManager, hpc]
    obtain ⟨s', hs', hapart, hrest⟩ := hstart _ (Program.reaches_manager hs halive hnext) halive
      (Function.update_self ..)
    exact ⟨s', hs', (s.apart_setManager l _ s.empty).trans hapart, hrest⟩
  cases hpc : s.managers l with
  | waitFull products =>
      exact ⟨s, hs, ⟨rfl, rfl, fun _ _ => rfl, rfl, fun _ _ => rfl⟩, halive, rfl, products, hpc⟩
  | start => exact hstart s hs halive hpc
  | sleep => exact hsleep s hs halive hpc
  | postEmpty =>
      have hnext : storageManager l 0 s.toState
          = some ({ s.toState with empty := s.empty + 1 }.setManager l .sleep) := by
        rw [storageManager, hpc]
      obtain ⟨s', hs', hapart, hrest⟩ := hsleep _ (Program.reaches_manager hs halive hnext)
        halive (Function.update_self ..)
      exact ⟨s', hs', (s.apart_setManager l _ (s.empty + 1)).trans hapart, hrest⟩
  | lock products => rw [hpc] at hlock; cases hlock
  | _ => rw [hpc] at hout; cases hout

/-- The manager `main` joins comes to a cancellation point, and stops. -/
theorem Program.reaches_stop {s₀ s : Program T M} (hs : Reachable Program.step s₀ s)
    (hinv : s.Inv) (horphan : s.Orphaned) {l : Fin M} (hmain : s.main = .join l)
    (hlock : (s.managers l).atLock = false) :
    ∃ s', Reachable Program.step s₀ s' ∧ s.Apart l s' ∧ s'.Orphaned ∧
      s'.terminated l = true := by
  cases halive : s.terminated l with
  | true =>
      exact ⟨s, hs, ⟨rfl, rfl, fun _ _ => rfl, rfl, fun _ _ => rfl⟩, horphan, halive⟩
  | false =>
      obtain ⟨s₁, hs₁, hapart, halive₁, -, products, hpc⟩ :=
        Program.reaches_waitFull hs halive (hinv.outside horphan halive) hlock
      have hc : s₁.cancelled l = true := by
        rw [hapart.cancelled]
        exact hinv.joining l hmain
      have hstop : Program.step (.stop l) s₁
          = some { s₁ with terminated := Function.update s₁.terminated l true } := by
        simp [Program.step, hc, halive₁, hpc, Manager.atCancellationPoint]
      have hapart₂ : s.Apart l
          { s₁ with terminated := Function.update s₁.terminated l true } :=
        hapart.trans ⟨rfl, rfl, fun _ hk => Function.update_of_ne hk .., rfl, fun _ _ => rfl⟩
      exact ⟨_, .next hs₁ trivial hstop, hapart₂, horphan.apart halive hapart₂,
        Function.update_self ..⟩

/-- `main` goes on from a manager that has stopped to the next one. -/
theorem Program.reaches_join {s₀ s : Program T M} (hs : Reachable Program.step s₀ s) {l k : Fin M}
    (hmain : s.main = .join l) (hstopped : s.terminated l = true) (hk : k.val = l.val + 1) :
    ∃ s', Reachable Program.step s₀ s' ∧ s'.main = .join k ∧ s'.toState = s.toState ∧
      s'.terminated = s.terminated := by
  have hjoin : Program.step .main s = some { s with main := .cancel (l + 1) } := by
    simp [Program.step, Program.mainStep, hmain, hstopped]
  have hlt : l.val + 1 < M := hk ▸ k.isLt
  have hcancel : Program.step .main { s with main := .cancel (l + 1) }
      = some { s with
          cancelled := Function.update s.cancelled ⟨l + 1, hlt⟩ true
          main := .join ⟨l + 1, hlt⟩ } := by
    simp [Program.step, Program.mainStep, hlt]
  exact ⟨_, .next (.next hs trivial hjoin) trivial hcancel,
    congrArg Main.join (Fin.ext hk.symm), rfl, rfl⟩

/-- From a manager `main` joins on, the first one that is at the lock hangs. -/
theorem Program.reaches_hang {s₀ s : Program T M} (h₀ : s₀.Inv)
    (hs : Reachable Program.step s₀ s) (horphan : s.Orphaned) {l k : Fin M}
    (hmain : s.main = .join l) (hle : l ≤ k) (hlock : (s.managers k).atLock = true) :
    ∃ s' j, Reachable Program.step s₀ s' ∧ s'.Hangs j := by
  have hreach : ∀ {s}, Reachable Program.step s₀ s → s.Inv := fun hs =>
    hs.invariant (I := Program.Inv) h₀ fun _ _ _ hI _ hs => Program.inv_step hI hs
  obtain ⟨d, hd⟩ : ∃ d, d = k.val - l.val := ⟨_, rfl⟩
  have hle' : l.val ≤ k.val := hle
  induction d generalizing s l with
  | zero =>
      obtain rfl : l = k := Fin.ext (by omega)
      exact ⟨s, l, hs, Program.Blocked.hangs ⟨hreach hs, horphan, hmain, hlock⟩⟩
  | succ d ih =>
      by_cases hself : (s.managers l).atLock = true
      · exact ⟨s, l, hs, Program.Blocked.hangs ⟨hreach hs, horphan, hmain, hself⟩⟩
      · have hkl : k ≠ l := by
          rintro rfl
          exact hself hlock
        obtain ⟨s₁, hs₁, hapart, horphan₁, hstopped⟩ := Program.reaches_stop hs (hreach hs)
          horphan hmain (Bool.eq_false_iff.mpr hself)
        have hnext : l.val + 1 < M := by
          have := k.isLt
          omega
        obtain ⟨s₂, hs₂, hmain₂, hstate, hterminated⟩ := Program.reaches_join hs₁
          (k := ⟨l + 1, hnext⟩) (hapart.main.trans hmain) hstopped rfl
        refine ih hs₂ ?_ hmain₂ ?_ ?_ ?_ ?_
        · obtain ⟨o, hm, ho⟩ := horphan₁
          exact ⟨o, by rw [hstate]; exact hm, by rw [hterminated]; exact ho⟩
        · exact Nat.succ_le_of_lt (lt_of_le_of_ne hle' fun h => hkl (Fin.ext h.symm))
        · rw [hstate, hapart.managers k hkl]
          exact hlock
        · show d = k.val - (l.val + 1)
          omega
        · exact Nat.succ_le_of_lt (lt_of_le_of_ne hle' fun h => hkl (Fin.ext h.symm))

/-- **The condition is exact**: once a manager has stopped against it, `main`
can come to wait for ever. -/
theorem stop_hangs {past : Int32} {s s' : Program T M} {j : Fin M}
    (h : Reachable Program.step (Program.initial T M past) s)
    (hs : Program.step (.stop j) s = some s') (hnot : ¬ StopsClear (.stop j) s) :
    ∃ s'' k, Reachable Program.step s' s'' ∧ s''.Hangs k := by
  have hinv := h.invariant (I := Program.Inv) (Program.inv_initial past)
    fun _ _ _ hI _ hs => Program.inv_step hI hs
  have hinv' := Program.inv_step hinv hs
  simp only [Program.step] at hs
  split at hs <;> cases hs
  rename_i hstop
  simp only [Bool.and_eq_true, Bool.not_eq_true'] at hstop
  simp only [StopsClear, not_forall] at hnot
  obtain ⟨hprint, k, hjk, hcome⟩ := hnot
  have hmain := hinv.main_eq hstop.1.1 hstop.1.2
  have hmutex : s.mutex = some (.manager j) :=
    (hinv.base.owner (.manager j)).mp (by simp [State.locals, Local.inside, hprint, Manager.inside])
  have horphan : Program.Orphaned { s with terminated := Function.update s.terminated j true } :=
    ⟨j, hmutex, Function.update_self ..⟩
  by_cases hlock : (s.managers k).atLock = true
  · exact Program.reaches_hang hinv' .start horphan hmain hjk.le hlock
  · -- the later manager takes a token and comes to the lock
    have halive : Function.update s.terminated j true k = false := by
      rw [Function.update_of_ne hjk.ne']
      by_contra hstopped
      have hplaced := hinv.placed
      rw [hmain] at hplaced
      have hle := (hplaced.2 k).1 (hinv.cancelled k (Bool.not_eq_false _ ▸ hstopped))
      exact absurd hjk (not_lt.mpr hle)
    obtain ⟨s₁, hs₁, hapart, halive₁, hfull, products, hpc⟩ :=
      Program.reaches_waitFull .start halive (hinv'.outside horphan halive)
        (Bool.eq_false_iff.mpr hlock)
    have hpos : 0 < s₁.full := by
      rw [hfull]
      refine Nat.pos_of_ne_zero fun hzero => hcome ⟨hzero, Bool.eq_false_iff.mpr hlock⟩
    have hnext : storageManager k 0 s₁.toState
        = some ({ s₁.toState with full := s₁.full - 1 }.setManager k (.lock products)) := by
      simp [storageManager, hpc, hpos]
    obtain ⟨o, hm, ho⟩ := horphan.apart halive hapart
    exact Program.reaches_hang hinv' (Program.reaches_manager hs₁ halive₁ hnext) ⟨o, hm, ho⟩
      (hapart.main.trans hmain) hjk.le (by simp [State.setManager, Manager.atLock])

end OsInParts.Warehouse
