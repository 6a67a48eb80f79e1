import OsInParts.Lib.Stdio
import OsInParts.Lib.Threads

/-!
# RunProgram — four programs one after the other

`Hard Disk and File IO/q5/main.c`: `main` prints a header, forks a child that
becomes the program with `execvp`, waits for it and goes on with the next. The
header is in the parent's buffer, and in the child's copy of it, which is lost
when the program takes over and written when it cannot: the child then exits
through `exit(1)`.

Which forks and which `execvp` succeed, how `stdout` is buffered and what the
programs write is up to the system (`Env`). The text of the headers is marked.
What comes out at the end is `transcript` (`main_ends`); the headers stand in
front of what they announce exactly if `stdout` is line-buffered or there is
nothing to stand in front of (`headers_in_place_iff`).
-/

namespace OsInParts.RunProgram

open Lib.Stdio Lib.Threads

structure Env where
  mode : Buffering
  forkOk : ℕ → Bool
  /-- what the program of call `k` writes, piece by piece; `none` where `execvp` fails -/
  program : ℕ → Option (List String)

/-- Where the parent is in `main`, in call `k` of `run_program`. -/
inductive Parent where
  /-- at the `printf` before the call -/
  | print (k : ℕ)
  | fork (k : ℕ)
  | wait (k : ℕ)
  /-- at the `return` of `main` -/
  | exit
  | exited
  deriving DecidableEq

/-- Where a child is. -/
inductive Child where
  /-- at `execvp` -/
  | exec
  /-- the program, with what it has still to write -/
  | running (pieces : List String)
  /-- at `exit(1)` -/
  | exit
  | exited
  deriving DecidableEq

/-- The parent is process 0 of `stdout`, the child of call `k` is process `k + 1`. -/
structure State where
  parent : Parent
  child : Option (ℕ × Child)
  stdout : Streams ℕ Marked

def initial : State :=
  { parent := .print 0, child := none, stdout := { buffer := fun _ => [], output := [] } }

def header (name : String) : List Marked :=
  marked true ("\nRunning " ++ name ++ "...") ++ [{ char := '\n', mark := true }]

/-- What `main` runs. -/
def programs : List String := ["list", "countw", "copy", "move"]

/-- The next step of the parent, `none` while it waits. -/
def parentStep (env : Env) (names : List String) (s : State) : Option State :=
  match s.parent with
  | .print k =>
      match names[k]? with
      | some name =>
          some { s with
            parent := .fork k
            stdout := s.stdout.print env.mode Marked.newline 0 (header name) }
      | none => some { s with parent := .exit }
  | .fork k =>
      if env.forkOk k then
        some { parent := .wait k, child := some (k, .exec), stdout := s.stdout.fork 0 (k + 1) }
      else some { s with parent := .print (k + 1) }
  | .wait k =>
      if s.child = some (k, .exited) then some { s with parent := .print (k + 1), child := none }
      else none
  | .exit => some { s with parent := .exited, stdout := s.stdout.flush 0 }
  | .exited => none

/-- The next step of the child. -/
def childStep (env : Env) (s : State) : Option State :=
  match s.child with
  | some (k, .exec) =>
      match env.program k with
      | some pieces =>
          -- the program starts with an empty buffer of its own
          some { s with child := some (k, .running pieces), stdout := s.stdout.put (k + 1) [] [] }
      | none => some { s with child := some (k, .exit) }
  | some (k, .running (piece :: pieces)) =>
      some { s with
        child := some (k, .running pieces)
        stdout := s.stdout.put (k + 1) (marked false piece) [] }
  | some (k, .running []) => some { s with child := some (k, .exited) }
  | some (k, .exit) =>
      some { s with child := some (k, .exited), stdout := s.stdout.flush (k + 1) }
  | some (_, .exited) => none
  | none => none

inductive Event where
  | parent
  | child
  deriving DecidableEq

def step (env : Env) (names : List String) : Event → State → Option State
  | .parent, s => parentStep env names s
  | .child, s => childStep env s

/-! ## What is written -/

/-- What is pending in the parent once the headers of `names` have been printed. -/
def pending (mode : Buffering) (names : List String) : List Marked :=
  match mode with
  | .line => []
  | .full => names.flatMap header

/-- What a header writes at once. -/
def announced (mode : Buffering) (name : String) : List Marked :=
  match mode with
  | .line => header name
  | .full => []

/-- What the child of call `k` writes, where `names` have been announced so far. -/
def childText (env : Env) (names : List String) (k : ℕ) : List Marked :=
  if env.forkOk k then
    match env.program k with
    | some pieces => pieces.flatMap (marked false)
    | none => pending env.mode names
  else []

/-- What has been written after the first `k` calls. -/
def written (env : Env) (names : List String) : ℕ → List Marked
  | 0 => []
  | k + 1 =>
      written env names k ++ names[k]?.elim [] fun name =>
        announced env.mode name ++ childText env (names.take (k + 1)) k

/-- The output at the end. -/
def transcript (env : Env) (names : List String) : List Marked :=
  written env names names.length ++ pending env.mode names

variable {env : Env} {names : List String} {s s' : State} {k : ℕ} {name : String}

theorem written_succ (h : names[k]? = some name) : written env names (k + 1)
    = written env names k ++ announced env.mode name ++ childText env (names.take (k + 1)) k := by
  rw [written, h, List.append_assoc]
  rfl

theorem take_succ (h : names[k]? = some name) : names.take (k + 1) = names.take k ++ [name] := by
  rw [List.take_add_one, h]
  rfl

/-- The `printf` of a header, with the earlier ones pending. -/
theorem print_header {t : Streams ℕ Marked} (h : names[k]? = some name)
    (hbuffer : t.buffer 0 = pending env.mode (names.take k)) :
    (t.print env.mode Marked.newline 0 (header name)).buffer 0
        = pending env.mode (names.take (k + 1)) ∧
      (t.print env.mode Marked.newline 0 (header name)).output
        = t.output ++ announced env.mode name := by
  rw [take_succ h]
  cases hmode : env.mode with
  | line =>
      rw [hmode] at hbuffer
      have hline : t.print .line Marked.newline 0 (header name) = _ :=
        Streams.print_line (c := { char := '\n', mark := true }) rfl hbuffer _
      rw [hline]
      dsimp only
      exact ⟨by rw [Streams.put_buffer, Function.update_self]; rfl, rfl⟩
  | full =>
      rw [hmode] at hbuffer
      simp [Streams.print, hbuffer, pending, announced]

/-! ## The stages of a run -/

/-- Where the child of call `k` is, with `text` written before it. -/
inductive ChildStage (env : Env) (names : List String) (k : ℕ) (text : List Marked)
    (t : Streams ℕ Marked) : Child → Prop where
  | exec : t.buffer (k + 1) = pending env.mode (names.take (k + 1)) → t.output = text →
      ChildStage env names k text t .exec
  | running (pieces : List String) :
      t.output ++ pieces.flatMap (marked false) = text ++ childText env (names.take (k + 1)) k →
      ChildStage env names k text t (.running pieces)
  | exit : env.program k = none → t.buffer (k + 1) = pending env.mode (names.take (k + 1)) →
      t.output = text → ChildStage env names k text t .exit
  | exited : t.output = text ++ childText env (names.take (k + 1)) k →
      ChildStage env names k text t .exited

/-- **Every state of a run.** -/
inductive Stage (env : Env) (names : List String) (s : State) : Prop where
  | print (k : ℕ) : s.parent = .print k → s.child = none → k ≤ names.length →
      s.stdout.buffer 0 = pending env.mode (names.take k) →
      s.stdout.output = written env names k → Stage env names s
  | fork (k : ℕ) (name : String) : s.parent = .fork k → s.child = none → names[k]? = some name →
      s.stdout.buffer 0 = pending env.mode (names.take (k + 1)) →
      s.stdout.output = written env names k ++ announced env.mode name → Stage env names s
  | wait (k : ℕ) (name : String) (c : Child) : s.parent = .wait k → s.child = some (k, c) →
      names[k]? = some name → env.forkOk k = true →
      s.stdout.buffer 0 = pending env.mode (names.take (k + 1)) →
      ChildStage env names k (written env names k ++ announced env.mode name) s.stdout c →
      Stage env names s
  | exit : s.parent = .exit → s.child = none →
      s.stdout.buffer 0 = pending env.mode names →
      s.stdout.output = written env names names.length → Stage env names s
  | exited : s.parent = .exited → s.child = none →
      s.stdout.output = transcript env names → Stage env names s

theorem stage_initial : Stage env names initial :=
  .print 0 rfl rfl (Nat.zero_le _) (by cases env.mode <;> rfl) rfl

/-- **The parent.** -/
theorem Stage.parent (h : Stage env names s) (hs : parentStep env names s = some s') :
    Stage env names s' := by
  unfold parentStep at hs
  cases h with
  | print k hparent hchild hk hbuffer houtput =>
      rw [hparent] at hs
      dsimp only at hs
      split at hs
      · rename_i name hname
        cases hs
        obtain ⟨hbuffer', houtput'⟩ := print_header hname hbuffer
        exact .fork k name rfl hchild hname hbuffer' (houtput'.trans (by rw [houtput]))
      · rename_i hnone
        cases hs
        have hlength : k = names.length := hk.antisymm (List.getElem?_eq_none_iff.mp hnone)
        rw [hlength, List.take_length] at hbuffer
        exact .exit rfl hchild hbuffer (hlength ▸ houtput)
  | fork k name hparent hchild hname hbuffer houtput =>
      rw [hparent] at hs
      dsimp only at hs
      split at hs
      · rename_i hfork
        cases hs
        refine .wait k name .exec rfl rfl hname hfork ?_ (.exec ?_ houtput)
        · rw [Streams.fork_buffer, Function.update_of_ne (Nat.succ_ne_zero k).symm, hbuffer]
        · rw [Streams.fork_buffer, Function.update_self, hbuffer]
      · rename_i hfork
        cases hs
        refine .print (k + 1) rfl hchild (List.getElem?_eq_some_iff.mp hname).1 hbuffer ?_
        rw [written_succ hname, childText, if_neg hfork, List.append_nil]
        exact houtput
  | wait k name c hparent hchild hname hfork hbuffer hstage =>
      rw [hparent] at hs
      dsimp only at hs
      split at hs
      · rename_i hexited
        cases hs
        rw [hchild] at hexited
        cases hexited
        cases hstage with
        | exited houtput =>
            refine .print (k + 1) rfl rfl (List.getElem?_eq_some_iff.mp hname).1 hbuffer ?_
            rw [written_succ hname]
            exact houtput
      · cases hs
  | exit hparent hchild hbuffer houtput =>
      rw [hparent] at hs
      cases hs
      exact .exited rfl hchild (by rw [Streams.flush_output, houtput, hbuffer, transcript])
  | exited hparent hchild houtput =>
      rw [hparent] at hs
      cases hs

/-- The buffer of the parent is its own. -/
theorem put_buffer_zero {t : Streams ℕ Marked} (k : ℕ) (text rest : List Marked) :
    (t.put (k + 1) text rest).buffer 0 = t.buffer 0 := by
  rw [Streams.put_buffer, Function.update_of_ne (Nat.succ_ne_zero k).symm]

/-- **The child.** -/
theorem Stage.child (h : Stage env names s) (hs : childStep env s = some s') :
    Stage env names s' := by
  unfold childStep at hs
  cases h with
  | print k hparent hchild hk hbuffer houtput =>
      rw [hchild] at hs
      cases hs
  | fork k name hparent hchild hname hbuffer houtput =>
      rw [hchild] at hs
      cases hs
  | wait k name c hparent hchild hname hfork hbuffer hstage =>
      rw [hchild] at hs
      cases hstage with
      | exec hchildBuffer houtput =>
          dsimp only at hs
          split at hs
          · rename_i pieces hprogram
            cases hs
            refine .wait k name _ hparent rfl hname hfork ((put_buffer_zero k _ _).trans hbuffer)
              (.running pieces ?_)
            rw [childText, if_pos hfork, hprogram, Streams.put_output, List.append_nil, houtput]
          · rename_i hprogram
            cases hs
            exact .wait k name _ hparent rfl hname hfork hbuffer
              (.exit hprogram hchildBuffer houtput)
      | running pieces houtput =>
          cases pieces with
          | nil =>
              cases hs
              rw [List.flatMap_nil, List.append_nil] at houtput
              exact .wait k name _ hparent rfl hname hfork hbuffer (.exited houtput)
          | cons piece pieces =>
              cases hs
              refine .wait k name _ hparent rfl hname hfork ((put_buffer_zero k _ _).trans hbuffer)
                (.running pieces ?_)
              rw [Streams.put_output, ← houtput, List.flatMap_cons, List.append_assoc]
      | exit hprogram hchildBuffer houtput =>
          cases hs
          refine .wait k name _ hparent rfl hname hfork ((put_buffer_zero k _ _).trans hbuffer)
            (.exited ?_)
          rw [Streams.flush_output, houtput, hchildBuffer, childText, if_pos hfork, hprogram]
      | exited houtput => cases hs
  | exit hparent hchild hbuffer houtput =>
      rw [hchild] at hs
      cases hs
  | exited hparent hchild houtput =>
      rw [hchild] at hs
      cases hs

theorem Stage.step {e : Event} (h : Stage env names s) (hs : step env names e s = some s') :
    Stage env names s' := by
  cases e with
  | parent => exact h.parent hs
  | child => exact h.child hs

/-! ## Every run ends -/

/-- An upper bound on the steps of a child. -/
def Child.rank (env : Env) (k : ℕ) : Child → ℕ
  | .exec => (env.program k).elim 0 List.length + 3
  | .running pieces => pieces.length + 1
  | .exit => 1
  | .exited => 0

/-- An upper bound on the steps of `m` calls from call `k` on. -/
def callRank (env : Env) : ℕ → ℕ → ℕ
  | 0, _ => 0
  | m + 1, k => (env.program k).elim 0 List.length + 6 + callRank env m (k + 1)

def Parent.rank (env : Env) (n : ℕ) : Parent → ℕ
  | .print k => callRank env (n - k) k + 2
  | .fork k => callRank env (n - (k + 1)) (k + 1) + (env.program k).elim 0 List.length + 7
  | .wait k => callRank env (n - (k + 1)) (k + 1) + 3
  | .exit => 1
  | .exited => 0

def State.rank (env : Env) (n : ℕ) (s : State) : ℕ :=
  s.parent.rank env n + s.child.elim 0 fun (k, c) => c.rank env k

theorem parent_rank (h : Stage env names s) (hs : parentStep env names s = some s') :
    s'.rank env names.length < s.rank env names.length := by
  unfold parentStep at hs
  cases h with
  | print k hparent hchild hk hbuffer houtput =>
      rw [hparent] at hs
      dsimp only at hs
      split at hs
      · rename_i name hname
        cases hs
        have hlt := (List.getElem?_eq_some_iff.mp hname).1
        have hleft : names.length - k = names.length - (k + 1) + 1 := by omega
        simp only [State.rank, hparent, hchild, Parent.rank, hleft, callRank, Option.elim]
        omega
      · cases hs
        simp only [State.rank, hparent, hchild, Parent.rank, Option.elim]
        omega
  | fork k name hparent hchild hname hbuffer houtput =>
      rw [hparent] at hs
      dsimp only at hs
      split at hs
      · cases hs
        simp only [State.rank, hparent, hchild, Parent.rank, Child.rank, Option.elim]
        omega
      · cases hs
        simp only [State.rank, hparent, hchild, Parent.rank, Option.elim]
        omega
  | wait k name c hparent hchild hname hfork hbuffer hstage =>
      rw [hparent] at hs
      dsimp only at hs
      split at hs
      · cases hs
        simp only [State.rank, hparent, hchild, Parent.rank, Option.elim]
        omega
      · cases hs
  | exit hparent hchild hbuffer houtput =>
      rw [hparent] at hs
      cases hs
      simp [State.rank, hparent, hchild, Parent.rank]
  | exited hparent hchild houtput =>
      rw [hparent] at hs
      cases hs

theorem child_rank (n : ℕ) (hs : childStep env s = some s') : s'.rank env n < s.rank env n := by
  unfold childStep at hs
  split at hs
  case h_1 k hchild =>
    split at hs
    · rename_i pieces hprogram
      cases hs
      simp only [State.rank, hchild, Option.elim, Child.rank, hprogram]
      omega
    · cases hs
      simp only [State.rank, hchild, Option.elim, Child.rank]
      omega
  case h_5 => cases hs
  case h_6 => cases hs
  all_goals
    rename_i hchild
    cases hs
    simp only [State.rank, hchild, Option.elim, Child.rank, List.length_cons, List.length_nil]
    omega

theorem Stage.progress (h : Stage env names s) :
    (s.parent = .exited ∧ s.stdout.output = transcript env names) ∨
      ∃ e, (RunProgram.step env names e s).isSome := by
  cases h with
  | print k hparent hchild hk hbuffer houtput =>
      refine .inr ⟨.parent, ?_⟩
      simp only [RunProgram.step, parentStep, hparent]
      split <;> rfl
  | fork k name hparent hchild hname hbuffer houtput =>
      refine .inr ⟨.parent, ?_⟩
      simp only [RunProgram.step, parentStep, hparent]
      split <;> rfl
  | wait k name c hparent hchild hname hfork hbuffer hstage =>
      cases hstage with
      | exec hchildBuffer houtput =>
          refine .inr ⟨.child, ?_⟩
          simp only [RunProgram.step, childStep, hchild]
          split <;> rfl
      | running pieces houtput =>
          refine .inr ⟨.child, ?_⟩
          cases pieces <;> simp [RunProgram.step, childStep, hchild]
      | exit hprogram hchildBuffer houtput =>
          exact .inr ⟨.child, by simp [RunProgram.step, childStep, hchild]⟩
      | exited houtput =>
          exact .inr ⟨.parent, by simp [RunProgram.step, parentStep, hparent, hchild]⟩
  | exit hparent hchild hbuffer houtput =>
      exact .inr ⟨.parent, by simp [RunProgram.step, parentStep, hparent]⟩
  | exited hparent hchild houtput => exact .inl ⟨hparent, houtput⟩

/-- **Every run ends**, with the same text on standard output in every order of
steps. -/
theorem main_ends (env : Env) (names : List String) :
    Ends (step env names) (fun _ _ => True)
      (fun s => s.parent = .exited ∧ s.stdout.output = transcript env names) initial := by
  refine Ends.rule (Stage env names) (State.rank env names.length) (fun e s s' h _ hs => ?_)
    (fun s h => ?_) stage_initial
  · refine ⟨h.step hs, ?_⟩
    cases e with
    | parent => exact parent_rank h hs
    | child => exact child_rank _ hs
  · exact h.progress.imp_right fun ⟨e, he⟩ => ⟨e, trivial, he⟩

/-- Into a file or a pipe, the headers of `main` come after what all programs have written. -/
example : transcript ⟨.full, fun _ => true, fun _ => some ["done"]⟩ programs
    = (List.replicate 4 (marked false "done")).flatten ++ programs.flatMap header := by
  decide

/-! ## Headers in place -/

/-- What the program of call `k` writes, where it is run. -/
def programText (env : Env) (k : ℕ) : List Marked :=
  if env.forkOk k then (env.program k).elim [] fun pieces => pieces.flatMap (marked false) else []

/-- Each header in front of what its program writes. -/
def intended (env : Env) (names : List String) : ℕ → List Marked
  | 0 => []
  | k + 1 =>
      intended env names k ++ names[k]?.elim [] fun name => header name ++ programText env k

/-- Nothing comes from call `k`. -/
def Quiet (env : Env) (k : ℕ) : Prop :=
  env.forkOk k = true → ∃ pieces, env.program k = some pieces ∧ pieces.flatMap (marked false) = []

theorem intended_succ (h : names[k]? = some name) :
    intended env names (k + 1) = intended env names k ++ header name ++ programText env k := by
  rw [intended, h, List.append_assoc]
  rfl

/-- With line buffering the headers are in place. -/
theorem transcript_line (hmode : env.mode = .line) (names : List String) :
    transcript env names = intended env names names.length := by
  have hwritten : ∀ k, k ≤ names.length → written env names k = intended env names k := by
    intro k
    induction k with
    | zero => exact fun _ => rfl
    | succ k ih =>
        intro hk
        have hname : names[k]? = some names[k] := List.getElem?_eq_getElem hk
        rw [written_succ hname, intended_succ hname, ih (by omega)]
        simp only [announced, childText, programText, pending, hmode]
        split
        · cases env.program k <;> rfl
        · rfl
  simp only [transcript, hwritten _ le_rfl, pending, hmode, List.append_nil]

/-- With full buffering nothing is written before the end but by the children. -/
theorem written_full (hmode : env.mode = .full) (h : names[k]? = some name) :
    written env names (k + 1) = written env names k ++ childText env (names.take (k + 1)) k := by
  rw [written_succ h]
  simp only [announced, hmode, List.append_nil]

/-- A child that writes nothing, with a header pending, has been quiet. -/
theorem quiet_of_childText (hmode : env.mode = .full) (hk : k < names.length)
    (h : childText env (names.take (k + 1)) k = []) : Quiet env k := by
  intro hfork
  rw [childText, if_pos hfork] at h
  cases hprogram : env.program k with
  | some pieces =>
      rw [hprogram] at h
      exact ⟨pieces, rfl, h⟩
  | none =>
      rw [hprogram, take_succ (List.getElem?_eq_getElem hk)] at h
      simp only [pending, hmode, List.flatMap_append, List.flatMap_singleton,
        List.append_eq_nil_iff] at h
      exact absurd h.2 (by simp [header])

theorem Quiet.childText (h : Quiet env k) (names : List String) :
    RunProgram.childText env names k = [] ∧ programText env k = [] := by
  by_cases hfork : env.forkOk k = true
  · obtain ⟨pieces, hprogram, hnothing⟩ := h hfork
    simp [RunProgram.childText, programText, hprogram, hnothing]
  · simp [RunProgram.childText, programText, hfork]

theorem programText_unmarked (env : Env) (k : ℕ) : (programText env k).filter Marked.mark = [] := by
  unfold programText
  split
  · cases env.program k with
    | none => rfl
    | some pieces =>
        simp only [Option.elim, List.filter_flatMap, filter_unmarked]
        simp
  · rfl

theorem header_marked (name : String) : ∀ c ∈ header name, c.mark = true := by
  intro c hc
  rcases List.mem_append.mp hc with hc | hc
  · obtain ⟨char, -, rfl⟩ := List.mem_map.mp hc
    rfl
  · rw [List.mem_singleton.mp hc]

/-- The marked characters of what is intended are those of the headers. -/
theorem intended_marked {k : ℕ} (hk : k ≤ names.length) :
    (intended env names k).filter Marked.mark
      = ((names.take k).flatMap header).filter Marked.mark := by
  induction k with
  | zero => rfl
  | succ k ih =>
      have hname : names[k]? = some names[k] := List.getElem?_eq_getElem hk
      rw [intended_succ hname, take_succ hname]
      simp only [List.filter_append, ih (by omega), programText_unmarked, List.flatMap_append,
        List.flatMap_singleton, List.append_nil]

/-- What is intended begins with a header. -/
theorem intended_head {c : Marked} {text : List Marked} (hk : k ≤ names.length)
    (h : intended env names k = c :: text) : c.mark = true := by
  induction k generalizing text with
  | zero => cases h
  | succ k ih =>
      have hname : names[k]? = some names[k] := List.getElem?_eq_getElem hk
      rw [intended_succ hname] at h
      cases hbefore : intended env names k with
      | cons d before =>
          rw [hbefore] at h
          cases h
          exact ih (by omega) hbefore
      | nil =>
          rw [hbefore, List.nil_append] at h
          cases hheader : header names[k] with
          | nil => simp [header] at hheader
          | cons d rest =>
              rw [hheader] at h
              cases h
              exact header_marked names[k] c (by rw [hheader]; exact List.mem_cons_self)

/-- **With full buffering** the headers are in place only if no call has anything to
write. -/
theorem transcript_full (hmode : env.mode = .full) (names : List String) :
    transcript env names = intended env names names.length ↔ ∀ k < names.length, Quiet env k := by
  have htranscript : transcript env names = written env names names.length
      ++ names.flatMap header := by simp only [transcript, pending, hmode]
  rw [htranscript]
  constructor
  · intro h
    have hmarks := congrArg (List.filter Marked.mark) h
    rw [List.filter_append, intended_marked le_rfl, List.take_length, List.append_left_eq_self]
      at hmarks
    have hnothing : written env names names.length = [] := by
      cases hwritten : written env names names.length with
      | nil => rfl
      | cons c text =>
          rw [hwritten, List.cons_append] at h
          rw [hwritten] at hmarks
          have hmarked := intended_head le_rfl h.symm
          simp [hmarked] at hmarks
    have hall : ∀ k ≤ names.length, written env names k = [] → ∀ j < k, Quiet env j := by
      intro k
      induction k with
      | zero => exact fun _ _ j hj => absurd hj (Nat.not_lt_zero j)
      | succ k ih =>
          intro hk hwritten j hj
          rw [written_full hmode (List.getElem?_eq_getElem hk), List.append_eq_nil_iff] at hwritten
          rcases Nat.lt_succ_iff_lt_or_eq.mp hj with hlt | rfl
          · exact ih (by omega) hwritten.1 j hlt
          · exact quiet_of_childText hmode hk hwritten.2
    exact hall _ le_rfl hnothing
  · intro h
    have hall : ∀ k ≤ names.length, written env names k = [] ∧
        intended env names k = (names.take k).flatMap header := by
      intro k
      induction k with
      | zero => exact fun _ => ⟨rfl, rfl⟩
      | succ k ih =>
          intro hk
          have hname : names[k]? = some names[k] := List.getElem?_eq_getElem hk
          obtain ⟨hwritten, hintended⟩ := ih (by omega)
          obtain ⟨hchild, hprogram⟩ := (h k hk).childText (names.take (k + 1))
          refine ⟨by rw [written_full hmode hname, hwritten, hchild]; rfl, ?_⟩
          rw [intended_succ hname, hintended, hprogram, take_succ hname]
          simp only [List.flatMap_append, List.flatMap_singleton, List.append_nil]
    obtain ⟨hwritten, hintended⟩ := hall _ le_rfl
    rw [hwritten, hintended, List.take_length]
    rfl

/-- **The headers are in place in every run** exactly if standard output is
line-buffered or no call has anything to write. -/
theorem headers_in_place_iff (env : Env) (names : List String) :
    Ends (step env names) (fun _ _ => True)
        (fun s => s.parent = .exited ∧ s.stdout.output = intended env names names.length) initial ↔
      env.mode = .line ∨ ∀ k < names.length, Quiet env k := by
  have hends := main_ends env names
  have hiff : transcript env names = intended env names names.length ↔
      env.mode = .line ∨ ∀ k < names.length, Quiet env k := by
    cases hmode : env.mode with
    | line => simp [transcript_line hmode]
    | full => simp [transcript_full hmode]
  rw [← hiff]
  constructor
  · intro h
    obtain ⟨s, ⟨-, htranscript⟩, -, hintended⟩ := hends.both h
    exact htranscript.symm.trans hintended
  · intro heq
    rwa [heq] at hends

end OsInParts.RunProgram
