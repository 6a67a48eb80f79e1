import OsInParts.Lib.Threads

/-!
# TryLock — two try-locks, one inside the other

`Multithreading/q1.c`: a thread tries lock A, and only with A in its hands
tries lock B. Whoever holds B therefore holds A, so B is always free when it
is tried (`Inv.free`) and the branch that waits for it is dead.

A mutex is the thread that has it, as `pthread_mutex_trylock` records it; an
unlock frees it whoever calls. Which thread believes it holds a lock is read
off its program counter, and `Inv` says that both agree.
-/

namespace OsInParts.TryLock

open Lib.Threads

/-- Where a thread is in `thread_function`. -/
inductive Pc where
  /-- at the loop test -/
  | loop
  | tryA
  /-- at the `printf` after A was taken, and so on -/
  | acquiredA
  | tryB
  | acquiredB
  | unlockB
  | waitingB
  | unlockA
  | waitingA
  /-- in `usleep`, before `count--` -/
  | sleep
  /-- returned -/
  | done
  deriving DecidableEq

/-- The four messages. -/
inductive Message where
  | acquiredA
  | acquiredB
  | waitingB
  | waitingA
  deriving DecidableEq

structure Thread where
  count : Int
  pc : Pc
  deriving DecidableEq

/-- The two mutexes with the thread that locked them, the threads, and the
lines printed so far. -/
structure State (Ω : Type*) where
  lockA : Option Ω
  lockB : Option Ω
  threads : Ω → Thread
  printed : List (Ω × Message)

variable {Ω : Type*}

/-- Every thread has just been created, with `count` still to go. -/
def initial (count : Ω → Int) : State Ω :=
  { lockA := none, lockB := none, threads := fun t => { count := count t, pc := .loop },
    printed := [] }

/-- `pthread_mutex_trylock` by `t`: the locked mutex, `none` for the non-zero
result. -/
def pthreadMutexTrylock (t : Ω) : Option Ω → Option (Option Ω)
  | none => some (some t)
  | some _ => none

/-- `pthread_mutex_unlock`: nothing checks who calls it. -/
def pthreadMutexUnlock (_ : Option Ω) : Option Ω := none

variable [DecidableEq Ω]

def State.setThread (s : State Ω) (t : Ω) (thread : Thread) : State Ω :=
  { s with threads := Function.update s.threads t thread }

def State.setPc (s : State Ω) (t : Ω) (pc : Pc) : State Ω :=
  s.setThread t { s.threads t with pc := pc }

def State.print (s : State Ω) (t : Ω) (message : Message) : State Ω :=
  { s with printed := s.printed ++ [(t, message)] }

/-- The next step of thread `t` in `thread_function`. -/
def threadFunction (t : Ω) (s : State Ω) : Option (State Ω) :=
  match (s.threads t).pc with
  | .loop => if 0 < (s.threads t).count then some (s.setPc t .tryA) else some (s.setPc t .done)
  | .tryA =>
      match pthreadMutexTrylock t s.lockA with
      | some lockA => some ({ s with lockA := lockA }.setPc t .acquiredA)
      | none => some (s.setPc t .waitingA)
  | .acquiredA => some ((s.print t .acquiredA).setPc t .tryB)
  | .tryB =>
      match pthreadMutexTrylock t s.lockB with
      | some lockB => some ({ s with lockB := lockB }.setPc t .acquiredB)
      | none => some (s.setPc t .waitingB)
  | .acquiredB => some ((s.print t .acquiredB).setPc t .unlockB)
  | .unlockB => some ({ s with lockB := pthreadMutexUnlock s.lockB }.setPc t .unlockA)
  | .waitingB => some ((s.print t .waitingB).setPc t .unlockA)
  | .unlockA => some ({ s with lockA := pthreadMutexUnlock s.lockA }.setPc t .sleep)
  | .waitingA => some ((s.print t .waitingA).setPc t .sleep)
  | .sleep => some (s.setThread t { count := (s.threads t).count - 1, pc := .loop })
  | .done => none

/-- Between the successful try of A and its unlock. -/
def Pc.insideA : Pc → Bool
  | .acquiredA | .tryB | .acquiredB | .unlockB | .waitingB | .unlockA => true
  | _ => false

/-- Between the successful try of B and its unlock. -/
def Pc.insideB : Pc → Bool
  | .acquiredB | .unlockB => true
  | _ => false

def HoldsA (s : State Ω) (t : Ω) : Prop := (s.threads t).pc.insideA = true

def HoldsB (s : State Ω) (t : Ω) : Prop := (s.threads t).pc.insideB = true

/-- The thread has returned from `thread_function`. -/
def Finished (s : State Ω) (t : Ω) : Prop := (s.threads t).pc = .done

omit [DecidableEq Ω] in
/-- B is only tried inside A. -/
theorem HoldsB.holdsA {s : State Ω} {t : Ω} (h : HoldsB s t) : HoldsA s t := by
  unfold HoldsB at h
  unfold HoldsA
  cases hpc : (s.threads t).pc <;> simp_all [Pc.insideA, Pc.insideB]

/-! ## One step -/

/-- What a step of `t` does: only `t` moves, and each mutex is taken, kept or
freed by `t` as its program counter says. Where B is found locked, `t` goes
to the waiting branch. -/
structure Moves (t : Ω) (s s' : State Ω) : Prop where
  rest : ∀ t' ≠ t, s'.threads t' = s.threads t'
  lockA : Locking t (s.threads t).pc.insideA s.lockA (s'.threads t).pc.insideA s'.lockA
  lockB : Locking t (s.threads t).pc.insideB s.lockB (s'.threads t).pc.insideB s'.lockB
  waits : (s'.threads t).pc = .waitingB → (s.threads t).pc = .tryB ∧ s.lockB ≠ none
  prints : s'.printed = s.printed ∨
    ∃ message, s'.printed = s.printed ++ [(t, message)] ∧
      (message = .waitingB → (s.threads t).pc = .waitingB)

omit [DecidableEq Ω] in
@[simp] theorem print_threads (s : State Ω) (t : Ω) (message : Message) :
    (s.print t message).threads = s.threads := rfl

theorem Moves.of {t : Ω} {s : State Ω} {lockA lockB : Option Ω} {thread : Thread}
    {printed : List (Ω × Message)}
    (hA : Locking t (s.threads t).pc.insideA s.lockA thread.pc.insideA lockA)
    (hB : Locking t (s.threads t).pc.insideB s.lockB thread.pc.insideB lockB)
    (hwaits : thread.pc = .waitingB → (s.threads t).pc = .tryB ∧ s.lockB ≠ none)
    (hprints : printed = s.printed ∨ ∃ message, printed = s.printed ++ [(t, message)] ∧
      (message = .waitingB → (s.threads t).pc = .waitingB)) :
    Moves t s { lockA, lockB, threads := Function.update s.threads t thread, printed } where
  rest := fun _ hne => Function.update_of_ne hne _ _
  lockA := by simpa using hA
  lockB := by simpa using hB
  waits := by simpa using hwaits
  prints := hprints

theorem threadFunction_moves {t : Ω} {s s' : State Ω} (h : threadFunction t s = some s') :
    Moves t s s' := by
  unfold threadFunction at h
  cases hpc : (s.threads t).pc <;> rw [hpc] at h <;> dsimp only at h
  case loop =>
    split at h
    · cases h
      exact .of (hpc ▸ .outside _) (hpc ▸ .outside _) (by simp) (.inl rfl)
    · cases h
      exact .of (hpc ▸ .outside _) (hpc ▸ .outside _) (by simp) (.inl rfl)
  case tryA =>
    cases hlock : s.lockA with
    | none =>
        rw [hlock] at h
        cases h
        exact .of (hpc ▸ hlock ▸ .lock) (hpc ▸ .outside _) (by simp) (.inl rfl)
    | some owner =>
        rw [hlock] at h
        cases h
        exact .of (hpc ▸ .outside _) (hpc ▸ .outside _) (by simp) (.inl rfl)
  case acquiredA =>
    cases h
    exact .of (hpc ▸ .keep _) (hpc ▸ .outside _) (by simp) (.inr ⟨_, rfl, by simp⟩)
  case tryB =>
    cases hlock : s.lockB with
    | none =>
        rw [hlock] at h
        cases h
        exact .of (hpc ▸ .keep _) (hpc ▸ hlock ▸ .lock) (by simp) (.inl rfl)
    | some owner =>
        rw [hlock] at h
        cases h
        exact .of (hpc ▸ .keep _) (hpc ▸ .outside _) (by simp [hpc, hlock]) (.inl rfl)
  case acquiredB =>
    cases h
    exact .of (hpc ▸ .keep _) (hpc ▸ .keep _) (by simp) (.inr ⟨_, rfl, by simp⟩)
  case unlockB =>
    cases h
    exact .of (hpc ▸ .keep _) (hpc ▸ .unlock _) (by simp) (.inl rfl)
  case waitingB =>
    cases h
    exact .of (hpc ▸ .keep _) (hpc ▸ .outside _) (by simp) (.inr ⟨_, rfl, fun _ => hpc⟩)
  case unlockA =>
    cases h
    exact .of (hpc ▸ .unlock _) (hpc ▸ .outside _) (by simp) (.inl rfl)
  case waitingA =>
    cases h
    exact .of (hpc ▸ .outside _) (hpc ▸ .outside _) (by simp) (.inr ⟨_, rfl, by simp⟩)
  case sleep =>
    cases h
    exact .of (hpc ▸ .outside _) (hpc ▸ .outside _) (by simp) (.inl rfl)
  case done => cases h

/-- Nothing blocks: a failed try goes on in its other branch. -/
theorem threadFunction_isSome {t : Ω} {s : State Ω} (h : ¬ Finished s t) :
    (threadFunction t s).isSome := by
  unfold Finished at h
  unfold threadFunction
  cases hpc : (s.threads t).pc with
  | done => exact absurd hpc h
  | loop => dsimp only; split <;> rfl
  | tryA => cases s.lockA <;> rfl
  | tryB => cases s.lockB <;> rfl
  | _ => rfl

/-! ## The invariant -/

/-- **The lock invariant**: the mutexes and the program counters agree, and
nobody waits for B. -/
structure Inv (s : State Ω) : Prop where
  ownerA : ∀ t, (s.threads t).pc.insideA = true ↔ s.lockA = some t
  ownerB : ∀ t, (s.threads t).pc.insideB = true ↔ s.lockB = some t
  waits : ∀ t, (s.threads t).pc ≠ .waitingB
  prints : ∀ line ∈ s.printed, line.2 ≠ .waitingB

omit [DecidableEq Ω] in
theorem inv_initial (count : Ω → Int) : Inv (initial count) where
  ownerA := by simp [initial, Pc.insideA]
  ownerB := by simp [initial, Pc.insideB]
  waits := by simp [initial]
  prints := by simp [initial]

omit [DecidableEq Ω] in
/-- **B is free when it is tried**: its holder would hold A as well, and A is
held by the thread that tries. -/
theorem Inv.free {s : State Ω} (h : Inv s) {t : Ω} (ht : (s.threads t).pc = .tryB) :
    s.lockB = none := by
  cases hlock : s.lockB with
  | none => rfl
  | some owner =>
      have hB : HoldsB s owner := (h.ownerB owner).mpr hlock
      have hA : s.lockA = some owner := (h.ownerA owner).mp hB.holdsA
      have htA : s.lockA = some t := (h.ownerA t).mp (by rw [ht]; rfl)
      have heq : owner = t := Option.some.inj (hA.symm.trans htA)
      rw [HoldsB, heq, ht] at hB
      cases hB

theorem Inv.step {s s' : State Ω} {t : Ω} (h : Inv s) (hs : threadFunction t s = some s') :
    Inv s' := by
  have hmoves := threadFunction_moves hs
  refine ⟨?_, ?_, fun t' hwait => ?_, fun line hline => ?_⟩
  · exact hmoves.lockA.owner (f := fun t => (s.threads t).pc.insideA)
      (g := fun t => (s'.threads t).pc.insideA) (fun t' hne => by rw [hmoves.rest t' hne]) h.ownerA
  · exact hmoves.lockB.owner (f := fun t => (s.threads t).pc.insideB)
      (g := fun t => (s'.threads t).pc.insideB) (fun t' hne => by rw [hmoves.rest t' hne]) h.ownerB
  · by_cases heq : t' = t
    · subst heq
      obtain ⟨htry, hheld⟩ := hmoves.waits hwait
      -- `t` has found B locked, but B is free whenever it is tried
      exact hheld (h.free htry)
    · rw [hmoves.rest t' heq] at hwait
      exact h.waits t' hwait
  · rcases hmoves.prints with hsame | ⟨message, hnew, himp⟩
    · exact h.prints line (hsame ▸ hline)
    · rw [hnew, List.mem_append, List.mem_singleton] at hline
      rcases hline with hold | rfl
      · exact h.prints line hold
      · exact fun hwait => h.waits t (himp hwait)

theorem inv_reachable {count : Ω → Int} {s : State Ω}
    (h : Reachable threadFunction (initial count) s) : Inv s :=
  h.invariant (inv_initial count) fun _ _ _ hI _ hs => hI.step hs

omit [DecidableEq Ω] in
theorem Inv.unlocked {s : State Ω} (h : Inv s) (hdone : ∀ t, Finished s t) :
    s.lockA = none ∧ s.lockB = none := by
  have hpc : ∀ t, (s.threads t).pc = .done := hdone
  constructor
  · exact free_of_outside h.ownerA fun t => by rw [hpc t]; rfl
  · exact free_of_outside h.ownerB fun t => by rw [hpc t]; rfl

/-! ## The protocol -/

/-- What the two try-locks promise in a state. -/
structure Protocol (s : State Ω) : Prop where
  oneHolderA : ∀ t t', HoldsA s t → HoldsA s t' → t = t'
  oneHolderB : ∀ t t', HoldsB s t → HoldsB s t' → t = t'
  nested : ∀ t, HoldsB s t → HoldsA s t
  /-- the mutexes record their holders -/
  ownerA : ∀ t, HoldsA s t ↔ s.lockA = some t
  ownerB : ∀ t, HoldsB s t ↔ s.lockB = some t
  /-- at each unlock -/
  unlockA : ∀ t, (s.threads t).pc = .unlockA → s.lockA = some t
  unlockB : ∀ t, (s.threads t).pc = .unlockB → s.lockB = some t
  /-- the branch that waits for B -/
  dead : ∀ t, (s.threads t).pc ≠ .waitingB ∧ (t, .waitingB) ∉ s.printed
  enabled : ∀ t, ¬ Finished s t → (threadFunction t s).isSome
  free : (∀ t, Finished s t) → s.lockA = none ∧ s.lockB = none

/-- **The try-lock protocol**, for any threads, any number of attempts of each
and any interleaving. -/
theorem trylock_protocol {count : Ω → Int} {s : State Ω}
    (h : Reachable threadFunction (initial count) s) : Protocol s := by
  have hinv := inv_reachable h
  refine ⟨fun t t' ht ht' => ?_, fun t t' ht ht' => ?_, fun t => HoldsB.holdsA, hinv.ownerA,
    hinv.ownerB, fun t ht => ?_, fun t ht => ?_, fun t => ⟨hinv.waits t, fun hmem => ?_⟩,
    fun t => threadFunction_isSome, hinv.unlocked⟩
  · exact Option.some.inj (((hinv.ownerA t).mp ht).symm.trans ((hinv.ownerA t').mp ht'))
  · exact Option.some.inj (((hinv.ownerB t).mp ht).symm.trans ((hinv.ownerB t').mp ht'))
  · exact (hinv.ownerA t).mp (by rw [ht]; rfl)
  · exact (hinv.ownerB t).mp (by rw [ht]; rfl)
  · exact hinv.prints _ hmem rfl

/-- Two threads: the first takes both locks, the second is sent away from A. -/
theorem trylock_protocol_two :
    ∃ s : State (Fin 2), Reachable threadFunction (initial fun _ => 3) s ∧
      HoldsB s 0 ∧ (1, .waitingA) ∈ s.printed ∧ s.lockA = some 0 := by
  have hexec := Option.eq_some_of_isSome
    (o := exec threadFunction (initial fun _ : Fin 2 => 3) [0, 0, 0, 0, 1, 1, 1]) rfl
  have hreach := Reachable.exec .start _ hexec
  exact ⟨_, hreach, rfl, by decide, ((trylock_protocol hreach).ownerA 0).mp rfl⟩

/-! ## Every run ends -/

/-- The pcs of the loop body. -/
def Pc.inBody : Pc → Bool
  | .loop | .done => false
  | _ => true

/-- The steps to the end of this turn of the loop. -/
def Pc.rank : Pc → Nat
  | .loop => 8
  | .tryA => 7
  | .acquiredA => 6
  | .tryB => 5
  | .acquiredB => 4
  | .unlockB | .waitingB => 3
  | .unlockA | .waitingA => 2
  | .sleep => 1
  | .done => 0

def Thread.weight (thread : Thread) : Nat := 9 * thread.count.toNat + thread.pc.rank

/-- The body is entered with attempts to go. -/
def Counting (s : State Ω) : Prop :=
  ∀ t, (s.threads t).pc.inBody = true → 0 < (s.threads t).count

theorem threadFunction_lowers {t : Ω} {s s' : State Ω} (h : threadFunction t s = some s')
    (hcount : Counting s) : ∃ thread, s'.threads = Function.update s.threads t thread ∧
      thread.weight < (s.threads t).weight ∧ (thread.pc.inBody = true → 0 < thread.count) := by
  have hbody := hcount t
  unfold threadFunction at h
  cases hpc : (s.threads t).pc <;> rw [hpc] at h hbody <;> dsimp only at h
  case loop =>
    split at h
    · rename_i hpos
      cases h
      exact ⟨_, rfl, by simp [Thread.weight, hpc, Pc.rank], fun _ => hpos⟩
    · cases h
      exact ⟨_, rfl, by simp [Thread.weight, hpc, Pc.rank], by simp [Pc.inBody]⟩
  case tryA =>
    split at h <;> cases h <;>
      exact ⟨_, rfl, by simp [Thread.weight, hpc, Pc.rank], fun _ => hbody rfl⟩
  case tryB =>
    split at h <;> cases h <;>
      exact ⟨_, rfl, by simp [Thread.weight, hpc, Pc.rank], fun _ => hbody rfl⟩
  case sleep =>
    have hpos := hbody rfl
    cases h
    -- the counter goes down here, and with it the weight by a whole turn
    refine ⟨_, rfl, ?_, by simp [Pc.inBody]⟩
    simp only [Thread.weight, hpc, Pc.rank]
    omega
  case done => cases h
  all_goals
    cases h
    exact ⟨_, rfl, by simp [Thread.weight, hpc, Pc.rank], fun _ => hbody rfl⟩

/-- **Every run ends**, with every thread finished and both locks free. -/
theorem trylock_ends [Fintype Ω] (count : Ω → Int) :
    Ends threadFunction (fun _ _ => True)
      (fun s : State Ω => (∀ t, Finished s t) ∧ s.lockA = none ∧ s.lockB = none)
      (initial count) := by
  apply Ends.rule (fun s => Inv s ∧ Counting s)
    (fun s => tally (fun _ thread => thread.weight) s.threads)
  · intro t s s' ⟨hinv, hcount⟩ _ hs
    obtain ⟨thread, hthreads, hlt, hpos⟩ := threadFunction_lowers hs hcount
    refine ⟨⟨hinv.step hs, fun t' hbody => ?_⟩, ?_⟩
    · rw [hthreads] at hbody ⊢
      by_cases heq : t' = t
      · subst heq
        rw [Function.update_self] at hbody ⊢
        exact hpos hbody
      · rw [Function.update_of_ne heq] at hbody ⊢
        exact hcount t' hbody
    · have htally := tally_update (fun _ thread => thread.weight) s.threads t thread
      rw [hthreads]
      omega
  · intro s ⟨hinv, _⟩
    by_cases hdone : ∀ t, Finished s t
    · exact .inl ⟨hdone, hinv.unlocked hdone⟩
    · obtain ⟨t, ht⟩ := not_forall.mp hdone
      exact .inr ⟨t, trivial, threadFunction_isSome ht⟩
  · exact ⟨inv_initial count, by simp [Counting, initial, Pc.inBody]⟩

end OsInParts.TryLock
