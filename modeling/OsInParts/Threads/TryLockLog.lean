import OsInParts.Threads.TryLock

/-!
# TryLockLog — what the threads print

`main` of `Multithreading/q1.c` creates the threads, joins them and destroys both
mutexes; `n` stands for its 3. `pthread_create` and `malloc` succeed, and a line
appears at once.

Each attempt of a thread prints either that it waits for A or that it has acquired A
and then B (`Rounds`). The lines between taking A and giving it back belong to one
thread, so the lines of those that got in are those of whole sections, one after the
other (`Sections`). A is free at first: somebody gets in.
-/

namespace OsInParts.TryLock

open Lib.Threads

/-! ## The program -/

/-- Where `main` is. -/
inductive Main where
  /-- at the test of the loop that creates the threads -/
  | create (i : ℕ)
  /-- at the test of the loop that joins them -/
  | join (i : ℕ)
  | destroyA
  | destroyB
  | done

structure Program (n : ℕ) where
  main : Main
  locks : State (Fin n)

variable {n : ℕ}

/-- The next step of `main`, `none` while it waits for a thread and where it is about to
destroy a mutex that is locked. -/
def mainFunction (s : Program n) : Option (Program n) :=
  match s.main with
  | .create i =>
      if i < n then some { s with main := .create (i + 1) } else some { s with main := .join 0 }
  | .join i =>
      if hi : i < n then
        match (s.locks.threads ⟨i, hi⟩).pc with
        | .done => some { s with main := .join (i + 1) }
        | _ => none
      else some { s with main := .destroyA }
  | .destroyA => if s.locks.lockA = none then some { s with main := .destroyB } else none
  | .destroyB => if s.locks.lockB = none then some { s with main := .done } else none
  | .done => none

/-- The threads that have been created. -/
def Main.created : Main → ℕ → Bool
  | .create i, t => t < i
  | _, _ => true

inductive Event (n : ℕ) where
  | main
  | thread (t : Fin n)

def programStep : Event n → Program n → Option (Program n)
  | .main, s => mainFunction s
  | .thread t, s =>
      if s.main.created t then (threadFunction t s.locks).map fun locks => { s with locks }
      else none

/-- `int count = 3`. -/
def attempts : Int := 3

def start (n : ℕ) : Program n := { main := .create 0, locks := initial fun _ => attempts }

/-! ## Steps and lines -/

/-- A step of one thread: what it was, the lines it prints, what it is then. The branch
that waits for B is dead. -/
inductive Turn : Thread → List Message → Thread → Prop where
  | attempt {count : Int} : 0 < count → Turn ⟨count, .loop⟩ [] ⟨count, .tryA⟩
  | stop {count : Int} : count ≤ 0 → Turn ⟨count, .loop⟩ [] ⟨count, .done⟩
  | takeA {count : Int} : Turn ⟨count, .tryA⟩ [] ⟨count, .acquiredA⟩
  | missA {count : Int} : Turn ⟨count, .tryA⟩ [] ⟨count, .waitingA⟩
  | acquiredA {count : Int} : Turn ⟨count, .acquiredA⟩ [.acquiredA] ⟨count, .tryB⟩
  | takeB {count : Int} : Turn ⟨count, .tryB⟩ [] ⟨count, .acquiredB⟩
  | acquiredB {count : Int} : Turn ⟨count, .acquiredB⟩ [.acquiredB] ⟨count, .unlockB⟩
  | unlockB {count : Int} : Turn ⟨count, .unlockB⟩ [] ⟨count, .unlockA⟩
  | unlockA {count : Int} : Turn ⟨count, .unlockA⟩ [] ⟨count, .sleep⟩
  | waitingA {count : Int} : Turn ⟨count, .waitingA⟩ [.waitingA] ⟨count, .sleep⟩
  | sleep {count : Int} : Turn ⟨count, .sleep⟩ [] ⟨count - 1, .loop⟩

section Lines

variable {Ω : Type*} [DecidableEq Ω]

/-- A step that moves the program counter of `t`. -/
theorem stepped {s s₁ : State Ω} {t : Ω} {messages : List Message} {pc : Pc}
    (hprinted : s₁.printed = s.printed ++ messages.map (Prod.mk t))
    (hthreads : s₁.threads = s.threads)
    (hturn : Turn (s.threads t) messages ⟨(s.threads t).count, pc⟩)
    (hmiss : pc = .waitingA → s.lockA ≠ none) : ∃ messages,
      (s₁.setPc t pc).printed = s.printed ++ messages.map (Prod.mk t) ∧
      Turn (s.threads t) messages ((s₁.setPc t pc).threads t) ∧
      (((s₁.setPc t pc).threads t).pc = .waitingA → s.lockA ≠ none) := by
  have hself : (s₁.setPc t pc).threads t = ⟨(s.threads t).count, pc⟩ := by
    simp only [State.setPc, State.setThread, Function.update_self, hthreads]
  rw [hself]
  exact ⟨messages, hprinted, hturn, hmiss⟩

/-- What a step of `t` does to the threads and the lines, with A held where it misses. -/
theorem threadFunction_turn {t : Ω} {s s' : State Ω} (hinv : Inv s)
    (h : threadFunction t s = some s') : ∃ messages,
      s'.printed = s.printed ++ messages.map (Prod.mk t) ∧
      Turn (s.threads t) messages (s'.threads t) ∧
      ((s'.threads t).pc = .waitingA → s.lockA ≠ none) := by
  have hdead := hinv.waits t
  have hfree := hinv.free (t := t)
  have hsame : s.printed = s.printed ++ ([] : List Message).map (Prod.mk t) :=
    (List.append_nil _).symm
  have hturn : ∀ {pc messages thread}, (s.threads t).pc = pc →
      Turn ⟨(s.threads t).count, pc⟩ messages thread → Turn (s.threads t) messages thread := by
    rintro _ messages thread rfl hturn
    exact hturn
  unfold threadFunction at h
  cases hpc : (s.threads t).pc <;> rw [hpc] at h hdead <;> dsimp only at h
  case loop =>
    split at h
    · rename_i hpos
      cases h
      exact stepped hsame rfl (hturn hpc (.attempt hpos)) nofun
    · rename_i hpos
      cases h
      exact stepped hsame rfl (hturn hpc (.stop (not_lt.mp hpos))) nofun
  case tryA =>
    by_cases hlock : s.lockA = none
    · rw [hlock] at h
      cases h
      apply stepped hsame rfl (hturn hpc .takeA) nofun
    · obtain ⟨owner, howner⟩ := Option.ne_none_iff_exists'.mp hlock
      rw [howner] at h
      cases h
      exact stepped hsame rfl (hturn hpc .missA) fun _ => hlock
  case tryB =>
    rw [hfree hpc] at h
    cases h
    apply stepped hsame rfl (hturn hpc .takeB) nofun
  case acquiredA =>
    cases h
    exact stepped rfl rfl (hturn hpc .acquiredA) nofun
  case acquiredB =>
    cases h
    exact stepped rfl rfl (hturn hpc .acquiredB) nofun
  case unlockB =>
    cases h
    apply stepped hsame rfl (hturn hpc .unlockB) nofun
  case waitingB => exact absurd rfl hdead
  case unlockA =>
    cases h
    apply stepped hsame rfl (hturn hpc .unlockA) nofun
  case waitingA =>
    cases h
    exact stepped rfl rfl (hturn hpc .waitingA) nofun
  case sleep =>
    cases h
    have hself : (s.setThread t { count := (s.threads t).count - 1, pc := .loop }).threads t
        = ⟨(s.threads t).count - 1, .loop⟩ := Function.update_self _ _ _
    rw [hself]
    exact ⟨[], hsame, hturn hpc .sleep, nofun⟩
  case done => cases h

/-! ## The lines of one thread -/

/-- The lines of one attempt. -/
def roundLines (entered : Bool) : List Message :=
  if entered then [.acquiredA, .acquiredB] else [.waitingA]

/-- The lines so far of the attempt that holds A. -/
def Pc.sectionLines : Pc → List Message
  | .tryB | .acquiredB => [.acquiredA]
  | .unlockB | .unlockA => [.acquiredA, .acquiredB]
  | _ => []

/-- What `t` has printed. -/
def linesOf (t : Ω) (printed : List (Ω × Message)) : List Message :=
  (printed.filter fun line => line.1 = t).map Prod.snd

/-- The lines of a thread that has been given `total` attempts. -/
def Rounds (total : Int) (thread : Thread) (lines : List Message) : Prop :=
  ∃ rounds : List Bool, lines = rounds.flatMap roundLines ++ thread.pc.sectionLines ∧
    rounds.length + thread.count = total + (if thread.pc = .sleep then 1 else 0) ∧
    0 ≤ thread.count ∧ (thread.pc.inBody = true → 0 < thread.count) ∧
    (thread.pc = .done → thread.count = 0)

theorem linesOf_append (t t' : Ω) (printed : List (Ω × Message)) (messages : List Message) :
    linesOf t (printed ++ messages.map (Prod.mk t'))
      = linesOf t printed ++ if t' = t then messages else [] := by
  unfold linesOf
  rw [List.filter_append, List.map_append]
  congr 1
  split
  · rename_i heq
    rw [List.filter_eq_self.mpr, List.map_map]
    · exact List.map_id messages
    · intro line hline
      obtain ⟨message, -, rfl⟩ := List.mem_map.mp hline
      exact decide_eq_true heq
  · rename_i hne
    rw [List.filter_eq_nil_iff.mpr, List.map_nil]
    intro line hline
    obtain ⟨message, -, rfl⟩ := List.mem_map.mp hline
    simpa using hne

omit [DecidableEq Ω] in
theorem Turn.rounds {total : Int} {thread thread' : Thread} {messages lines : List Message}
    (h : Turn thread messages thread') (hrounds : Rounds total thread lines) :
    Rounds total thread' (lines ++ messages) := by
  obtain ⟨rounds, rfl, hlength, hcount, hbody, -⟩ := hrounds
  cases h with
  | attempt hpos => exact ⟨rounds, by simp [Pc.sectionLines], by simpa using hlength, hcount,
      fun _ => hpos, nofun⟩
  | stop hle => exact ⟨rounds, by simp [Pc.sectionLines], by simpa using hlength, hcount,
      nofun, fun _ => le_antisymm hle hcount⟩
  | takeA | missA | acquiredA | takeB | acquiredB | unlockB =>
      exact ⟨rounds, by simp [Pc.sectionLines], by simpa using hlength, hcount,
        fun _ => hbody rfl, nofun⟩
  | unlockA =>
      refine ⟨rounds ++ [true], by simp [Pc.sectionLines, roundLines], ?_, hcount,
        fun _ => hbody rfl, nofun⟩
      simp only [reduceCtorEq, if_false, List.length_append, List.length_singleton] at hlength ⊢
      push_cast
      omega
  | waitingA =>
      refine ⟨rounds ++ [false], by simp [Pc.sectionLines, roundLines], ?_, hcount,
        fun _ => hbody rfl, nofun⟩
      simp only [reduceCtorEq, if_false, List.length_append, List.length_singleton] at hlength ⊢
      push_cast
      omega
  | sleep =>
      have hpos := hbody rfl
      refine ⟨rounds, by simp [Pc.sectionLines], ?_, Int.sub_nonneg_of_le hpos, nofun, nofun⟩
      simp only [reduceCtorEq, if_true, if_false] at hlength ⊢
      omega

/-! ## The lines of the sections -/

/-- The lines that are printed with A in hand. -/
def entered (printed : List (Ω × Message)) : List (Ω × Message) :=
  printed.filter fun line => line.2 ≠ .waitingA

/-- The lines of a whole section of `t`. -/
def sectionOf (t : Ω) : List (Ω × Message) := (roundLines true).map (Prod.mk t)

/-- The lines of the section under way. -/
def State.openSection (s : State Ω) : List (Ω × Message) :=
  match s.lockA with
  | none => []
  | some t => (s.threads t).pc.sectionLines.map (Prod.mk t)

/-- The thread has tried A. -/
def Thread.Tried (total : Int) (thread : Thread) : Prop :=
  thread.count < total ∨ (thread.pc.inBody = true ∧ thread.pc ≠ .tryA)

/-- The sections, one after the other, and one that is under way or over once a thread
has tried. -/
def Sections (total : Int) (s : State Ω) : Prop :=
  ∃ ts : List Ω, entered s.printed = ts.flatMap sectionOf ++ s.openSection ∧
    ∀ t, (s.threads t).Tried total → ts ≠ [] ∨ s.lockA ≠ none

omit [DecidableEq Ω] in
theorem entered_append (t : Ω) (printed : List (Ω × Message)) (messages : List Message) :
    entered (printed ++ messages.map (Prod.mk t)) = entered printed ++
      (messages.filter fun message => message ≠ .waitingA).map (Prod.mk t) := by
  unfold entered
  rw [List.filter_append, List.filter_map]
  rfl

omit [DecidableEq Ω] in
theorem openSection_inside {s : State Ω} (hinv : Inv s) {t : Ω}
    (h : (s.threads t).pc.insideA = true) :
    s.openSection = (s.threads t).pc.sectionLines.map (Prod.mk t) := by
  rw [State.openSection, (hinv.ownerA t).mp h]

omit [DecidableEq Ω] in
theorem openSection_outside {s s' : State Ω} (hinv : Inv s) {t : Ω} (hmoves : Moves t s s')
    (h : (s.threads t).pc.insideA = false) (hlock : s'.lockA = s.lockA) :
    s'.openSection = s.openSection := by
  unfold State.openSection
  rw [hlock]
  split
  · rfl
  · rename_i owner howner
    -- the owner is inside, so it is not the one that moves
    have hne : owner ≠ t := by
      rintro rfl
      rw [(hinv.ownerA owner).mpr howner] at h
      cases h
    rw [hmoves.rest owner hne]

section Turns

variable {thread thread' : Thread} {messages : List Message}

theorem Turn.quiet (h : Turn thread messages thread') (hout : thread.pc.insideA = false)
    (hout' : thread'.pc.insideA = false) :
    messages.filter (fun message => message ≠ .waitingA) = [] := by
  cases h with
  | acquiredA | takeB | acquiredB | unlockB | unlockA => cases hout
  | takeA => cases hout'
  | attempt _ | stop _ | missA | waitingA | sleep => rfl

theorem Turn.enter (h : Turn thread messages thread') (hout : thread.pc.insideA = false)
    (hin : thread'.pc.insideA = true) : messages = [] ∧ thread'.pc.sectionLines = [] := by
  cases h with
  | takeA => exact ⟨rfl, rfl⟩
  | acquiredA | takeB | acquiredB | unlockB | unlockA => cases hout
  | attempt _ | stop _ | missA | waitingA | sleep => cases hin

theorem Turn.within (h : Turn thread messages thread') (hin : thread.pc.insideA = true)
    (hin' : thread'.pc.insideA = true) :
    thread'.pc.sectionLines
      = thread.pc.sectionLines ++ messages.filter fun message => message ≠ .waitingA := by
  cases h with
  | acquiredA | takeB | acquiredB | unlockB => rfl
  | unlockA => cases hin'
  | attempt _ | stop _ | takeA | missA | waitingA | sleep => cases hin

theorem Turn.leave (h : Turn thread messages thread') (hin : thread.pc.insideA = true)
    (hout : thread'.pc.insideA = false) :
    messages = [] ∧ thread.pc.sectionLines = roundLines true := by
  cases h with
  | unlockA => exact ⟨rfl, rfl⟩
  | acquiredA | takeB | acquiredB | unlockB => cases hout
  | attempt _ | stop _ | takeA | missA | waitingA | sleep => cases hin

/-- A thread that has now tried A had done so before, or missed it, or has it. -/
theorem Turn.tried {total : Int} (h : Turn thread messages thread')
    (htried : thread'.Tried total) :
    thread.Tried total ∨ thread'.pc = .waitingA ∨ thread'.pc.insideA = true := by
  cases h with
  | attempt hpos => exact .inl (.inl (htried.resolve_right fun h => h.2 rfl))
  | stop hle => exact .inl (.inl (htried.resolve_right fun h => by cases h.1))
  | takeA => exact .inr (.inr rfl)
  | missA => exact .inr (.inl rfl)
  | acquiredA | takeB | acquiredB | unlockB | unlockA | waitingA | sleep =>
      exact .inl (.inr ⟨rfl, nofun⟩)

end Turns

theorem Sections.step {total : Int} {s s' : State Ω} {t : Ω} (h : Sections total s) (hinv : Inv s)
    (hs : threadFunction t s = some s') : Sections total s' := by
  obtain ⟨ts, hlines, htried⟩ := h
  obtain ⟨messages, hprinted, hturn, hmiss⟩ := threadFunction_turn hinv hs
  have hmoves := threadFunction_moves hs
  have hinv' := hinv.step hs
  have hnew : entered s'.printed = ts.flatMap sectionOf ++ (s.openSection ++
      (messages.filter fun message => message ≠ .waitingA).map (Prod.mk t)) := by
    rw [hprinted, entered_append, hlines, List.append_assoc]
  cases hin : (s.threads t).pc.insideA with
  | false =>
      cases hin' : (s'.threads t).pc.insideA with
      | false =>
          have hlock : s'.lockA = s.lockA := by
            have hA := hmoves.lockA
            rw [hin, hin'] at hA
            exact hA.outside_eq
          refine ⟨ts, ?_, fun t' ht' => ?_⟩
          · rw [hnew, hturn.quiet hin hin', openSection_outside hinv hmoves hin hlock,
              List.map_nil, List.append_nil]
          · rw [hlock]
            by_cases heq : t' = t
            · subst heq
              rcases hturn.tried ht' with hold | hwait | hinside
              · exact htried t' hold
              · exact .inr (hmiss hwait)
              · rw [hin'] at hinside
                cases hinside
            · rw [hmoves.rest t' heq] at ht'
              exact htried t' ht'
      | true =>
          have hlock : s.lockA = none := by
            have hA := hmoves.lockA
            rw [hin, hin'] at hA
            exact hA.lock_eq
          obtain ⟨rfl, hnone⟩ := hturn.enter hin hin'
          refine ⟨ts, ?_, fun _ _ => .inr (by rw [(hinv'.ownerA t).mp hin']; nofun)⟩
          rw [hnew, openSection_inside hinv' hin', hnone, State.openSection, hlock]
          rfl
  | true =>
      cases hin' : (s'.threads t).pc.insideA with
      | true =>
          refine ⟨ts, ?_, fun _ _ => .inr (by rw [(hinv'.ownerA t).mp hin']; nofun)⟩
          rw [hnew, openSection_inside hinv hin, openSection_inside hinv' hin',
            hturn.within hin hin', List.map_append]
      | false =>
          have hlock : s'.lockA = none := by
            have hA := hmoves.lockA
            rw [hin, hin'] at hA
            exact hA.unlock_eq
          obtain ⟨rfl, hwhole⟩ := hturn.leave hin hin'
          refine ⟨ts ++ [t], ?_, fun _ _ => .inl (by simp)⟩
          rw [hnew, openSection_inside hinv hin, hwhole, State.openSection, hlock,
            List.flatMap_append, List.flatMap_singleton, List.append_nil]
          exact congrArg _ (List.append_nil _)

end Lines

/-! ## The program ends -/

/-- The threads that have been joined. -/
def Main.joined : Main → ℕ → Bool
  | .create _, _ => false
  | .join i, t => t < i
  | _, _ => true

/-- What holds in every interleaving. -/
structure ProgramInv (s : Program n) : Prop where
  inv : Inv s.locks
  rounds : ∀ t, Rounds attempts (s.locks.threads t) (linesOf t s.locks.printed)
  sections : Sections attempts s.locks
  joined : ∀ t : Fin n, s.main.joined t = true → Finished s.locks t

theorem ProgramInv.initial : ProgramInv (start n) where
  inv := inv_initial _
  rounds := fun _ => ⟨[], rfl, rfl, show 0 ≤ attempts by decide, nofun, nofun⟩
  sections := ⟨[], rfl, fun _ h => by
    rcases h with hlt | ⟨hbody, -⟩
    · exact absurd hlt (lt_irrefl _)
    · cases hbody⟩
  joined := nofun

theorem ProgramInv.thread {s : Program n} {t : Fin n} {locks : State (Fin n)}
    (h : ProgramInv s) (hs : threadFunction t s.locks = some locks) :
    ProgramInv { s with locks } where
  inv := h.inv.step hs
  rounds := by
    intro t'
    obtain ⟨messages, hprinted, hturn, -⟩ := threadFunction_turn h.inv hs
    show Rounds attempts (locks.threads t') (linesOf t' locks.printed)
    rw [hprinted, linesOf_append]
    by_cases heq : t = t'
    · subst heq
      rw [if_pos rfl]
      exact hturn.rounds (h.rounds t)
    · rw [if_neg heq, List.append_nil, (threadFunction_moves hs).rest t' (Ne.symm heq)]
      exact h.rounds t'
  sections := h.sections.step h.inv hs
  joined := by
    intro t' hjoined
    have hdone := h.joined t' hjoined
    by_cases heq : t' = t
    · subst heq
      -- a thread that has returned takes no step
      rw [threadFunction, show (s.locks.threads t').pc = .done from hdone] at hs
      cases hs
    · show (locks.threads t').pc = .done
      rw [(threadFunction_moves hs).rest t' heq]
      exact hdone

theorem ProgramInv.main {s s' : Program n} (h : ProgramInv s) (hs : mainFunction s = some s') :
    ProgramInv s' := by
  have hnext : ∀ main : Main, (∀ t : Fin n, main.joined t = true → Finished s.locks t) →
      ProgramInv { s with main := main } := fun main hjoined =>
    { inv := h.inv, rounds := h.rounds, sections := h.sections, joined := hjoined }
  have hold := h.joined
  unfold mainFunction at hs
  cases hmain : s.main with
  | create i =>
      rw [hmain] at hs
      dsimp only at hs
      split at hs <;> cases hs
      · exact hnext _ nofun
      · exact hnext (.join 0) fun t ht => by simp [Main.joined] at ht
  | join i =>
      rw [hmain] at hs hold
      dsimp only at hs
      split at hs
      · rename_i hi
        split at hs
        · rename_i hdone
          cases hs
          refine hnext _ fun t ht => ?_
          rcases Nat.lt_succ_iff_lt_or_eq.mp (of_decide_eq_true ht) with hlt | heq
          · exact hold t (decide_eq_true hlt)
          · rw [Finished, show t = ⟨i, hi⟩ from Fin.ext heq]
            exact hdone
        · cases hs
      · rename_i hi
        cases hs
        exact hnext _ fun t _ => hold t (decide_eq_true (lt_of_lt_of_le t.isLt (not_lt.mp hi)))
  | destroyA =>
      rw [hmain] at hs hold
      dsimp only at hs
      split at hs <;> cases hs
      exact hnext _ fun t _ => hold t rfl
  | destroyB =>
      rw [hmain] at hs hold
      dsimp only at hs
      split at hs <;> cases hs
      exact hnext _ fun t _ => hold t rfl
  | done =>
      rw [hmain] at hs
      cases hs

/-- The steps that are left to `main`. -/
def Main.rank (n : ℕ) : Main → ℕ
  | .create i => n - i + (n + 5)
  | .join i => n - i + 4
  | .destroyA => 2
  | .destroyB => 1
  | .done => 0

theorem mainFunction_lowers {s s' : Program n} (hs : mainFunction s = some s') :
    s'.locks = s.locks ∧ s'.main.rank n < s.main.rank n := by
  unfold mainFunction at hs
  cases hmain : s.main <;> rw [hmain] at hs <;> dsimp only at hs
  case create i =>
    split at hs <;> cases hs <;> exact ⟨rfl, by simp only [Main.rank]; omega⟩
  case join i =>
    split at hs
    · split at hs <;> cases hs
      exact ⟨rfl, by simp only [Main.rank]; omega⟩
    · cases hs
      exact ⟨rfl, by simp only [Main.rank]; omega⟩
  case destroyA =>
    split at hs <;> cases hs
    exact ⟨rfl, Nat.one_lt_two⟩
  case destroyB =>
    split at hs <;> cases hs
    exact ⟨rfl, Nat.one_pos⟩
  case done => cases hs

def Program.rank (s : Program n) : ℕ :=
  s.main.rank n + tally (fun _ thread => thread.weight) s.locks.threads

theorem ProgramInv.step {e : Event n} {s s' : Program n} (h : ProgramInv s)
    (hs : programStep e s = some s') : ProgramInv s' ∧ s'.rank < s.rank := by
  cases e with
  | main =>
      obtain ⟨hlocks, hlt⟩ := mainFunction_lowers hs
      refine ⟨h.main hs, ?_⟩
      rw [Program.rank, Program.rank, hlocks]
      omega
  | thread t =>
      simp only [programStep] at hs
      split at hs
      · obtain ⟨locks, hlocks, rfl⟩ := Option.map_eq_some_iff.mp hs
        refine ⟨h.thread hlocks, ?_⟩
        obtain ⟨thread, hthreads, hlt, -⟩ := threadFunction_lowers hlocks fun t' => by
          obtain ⟨_, _, _, _, hbody, _⟩ := h.rounds t'
          exact hbody
        have htally := tally_update (fun _ thread => thread.weight) s.locks.threads t thread
        simp only [Program.rank]
        rw [hthreads]
        omega
      · cases hs

/-- `main` waits only for a thread that can move, and destroys only what is free. -/
theorem ProgramInv.progress {s : Program n} (h : ProgramInv s) :
    s.main = .done ∨ ∃ e, (programStep e s).isSome := by
  have hold := h.joined
  cases hmain : s.main with
  | create i =>
      refine .inr ⟨.main, ?_⟩
      simp only [programStep, mainFunction, hmain]
      split <;> rfl
  | join i =>
      right
      by_cases hi : i < n
      · by_cases hdone : Finished s.locks ⟨i, hi⟩
        · refine ⟨.main, ?_⟩
          rw [programStep, mainFunction, hmain]
          simp only [dif_pos hi, show (s.locks.threads ⟨i, hi⟩).pc = .done from hdone]
          rfl
        · refine ⟨.thread ⟨i, hi⟩, ?_⟩
          rw [programStep, hmain, if_pos (show Main.created (.join i) i = true from rfl),
            Option.isSome_map]
          exact threadFunction_isSome hdone
      · refine ⟨.main, ?_⟩
        rw [programStep, mainFunction, hmain]
        simp only [dif_neg hi]
        rfl
  | destroyA =>
      rw [hmain] at hold
      refine .inr ⟨.main, ?_⟩
      rw [programStep, mainFunction, hmain]
      simp only [if_pos (h.inv.unlocked fun t => hold t rfl).1]
      rfl
  | destroyB =>
      rw [hmain] at hold
      refine .inr ⟨.main, ?_⟩
      rw [programStep, mainFunction, hmain]
      simp only [if_pos (h.inv.unlocked fun t => hold t rfl).2]
      rfl
  | done => exact .inl rfl

/-- What the program has printed: three attempts of each thread, and the sections of
those that got in one after the other. -/
structure Log (n : ℕ) (printed : List (Fin n × Message)) : Prop where
  threads : ∀ t, ∃ rounds : List Bool,
    rounds.length = 3 ∧ linesOf t printed = rounds.flatMap roundLines
  sections : ∃ ts : List (Fin n), entered printed = ts.flatMap sectionOf ∧ (0 < n → ts ≠ [])

theorem ProgramInv.log {s : Program n} (h : ProgramInv s) (hmain : s.main = .done) :
    Log n s.locks.printed := by
  have hdone : ∀ t, Finished s.locks t := fun t => h.joined t (by rw [hmain]; rfl)
  have hcount : ∀ t, (s.locks.threads t).count = 0 := fun t => by
    obtain ⟨_, _, _, _, _, hzero⟩ := h.rounds t
    exact hzero (hdone t)
  refine ⟨fun t => ?_, ?_⟩
  · obtain ⟨rounds, hlines, hlength, -⟩ := h.rounds t
    have hpc : (s.locks.threads t).pc = .done := hdone t
    rw [hpc] at hlines hlength
    rw [hcount t] at hlength
    refine ⟨rounds, ?_, by rw [hlines]; exact List.append_nil _⟩
    simp only [reduceCtorEq, if_false, attempts] at hlength
    omega
  · obtain ⟨ts, hlines, htried⟩ := h.sections
    have hfree := (h.inv.unlocked hdone).1
    refine ⟨ts, ?_, fun hn => ?_⟩
    · rw [hlines, State.openSection, hfree]
      exact List.append_nil _
    · refine (htried ⟨0, hn⟩ (.inl ?_)).resolve_right fun hne => hne hfree
      rw [hcount]
      decide

/-- **Every run of the program ends**, with both mutexes destroyed while they are free,
and with such a log. -/
theorem trylock_log (n : ℕ) :
    Ends programStep (fun _ _ => True)
      (fun s : Program n => s.main = .done ∧ Log n s.locks.printed) (start n) := by
  apply Ends.rule ProgramInv Program.rank
  · intro e s s' h _ hs
    exact h.step hs
  · intro s h
    rcases h.progress with hdone | ⟨e, he⟩
    · exact .inl ⟨hdone, h.log hdone⟩
    · exact .inr ⟨e, trivial, he⟩
  · exact .initial

end OsInParts.TryLock
