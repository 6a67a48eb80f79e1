import OsInParts.Forking.SearchOutput
import OsInParts.MergeSort.Sorting

/-!
# Output — what `mergesort` leaves on standard output

The processes of the tree print nothing on `stdout`, but each one that exits
writes out the buffer it got at its fork, with what `main` has printed so far.
A process is named by the way to it from `main`: `false` to the first child
of a call, `true` to the second.

A line-buffered `stdout` has nothing pending after the newline that ends the
unsorted array. A fully buffered one has all of it, and the first child
repeats it (`sort_once_iff`).
-/

namespace OsInParts.MergeSort

open Lib.Stdio Lib.Threads

/-- What an event means for the buffers: nothing, a fork of the first
(`false`) or of the second child, or a call of `exit`. -/
inductive Action where
  | silent
  | fork (child : Bool)
  | exit
  deriving DecidableEq

def Proc.child1 : Proc → Option Proc
  | .fork2 _ _ _ c₁ _ | .wait _ _ _ _ _ c₁ _ _ _ | .read1 _ _ _ c₁ _ _ _
  | .read2 _ _ _ c₁ _ _ | .orphaning c₁ _ => some c₁
  | _ => none

def Proc.child2 : Proc → Option Proc
  | .wait _ _ _ _ _ _ _ c₂ _ | .read1 _ _ _ _ _ c₂ _ | .read2 _ _ _ _ c₂ _
  | .orphaning _ c₂ => some c₂
  | _ => none

/-- The process an event happens in, and its action. -/
def action : Event → Proc → List Bool × Action
  | .self, .fork1 _ _ _ => ([], .fork false)
  | .self, .fork2 _ _ _ _ _ => ([], .fork true)
  -- `exit(0)` after the `write`; a process that `write` kills flushes nothing
  | .self, .writing [] _ => ([], .exit)
  -- `exit(EXIT_FAILURE)`
  | .fail, _ => ([], .exit)
  | .left e, p =>
      match p.child1 with
      | some c => (false :: (action e c).1, (action e c).2)
      | none => ([], .silent)
  | .right e, p =>
      match p.child2 with
      | some c => (true :: (action e c).1, (action e c).2)
      | none => ([], .silent)
  | _, _ => ([], .silent)

def Action.run (pid : List Bool) (s : Streams (List Bool) Marked) :
    Action → Streams (List Bool) Marked
  | .silent => s
  | .fork child => s.fork pid (pid ++ [child])
  | .exit => s.flush pid

/-- Where `main` is: in `mergesort`, at its `return`, or gone. -/
inductive Main where
  | sorting
  | printed
  | exited
  deriving DecidableEq

/-- The whole program: the process tree of `main`'s call, `stdout` and `main`. -/
structure Program where
  proc : Proc
  stdout : Streams (List Bool) Marked
  main : Main

/-- An event in the process tree, the lines `main` prints after `mergesort`,
and its `return 0`. -/
inductive MainEvent where
  | sort (e : Event)
  | print
  | exit

def arrayText (arr : List Int32) : List String := arr.map (fun x => toString x.toInt ++ " ")

/-- The lines before `mergesort`. -/
def unsorted (arr : List Int32) : List String := "Unsorted array: " :: arrayText arr ++ ["\n"]

/-- The lines after it. -/
def sortedLines (arr : List Int32) : List String := "Sorted array:   " :: arrayText arr ++ ["\n"]

def printLines (mode : Buffering) (mark : Bool) (lines : List String)
    (s : Streams (List Bool) Marked) : Streams (List Bool) Marked :=
  Streams.printAll mode Marked.newline [] (lines.map (marked mark)) s

def mainStep (mode : Buffering) (cap : Nat → Nat → Nat) : MainEvent → Program → Option Program
  | .sort e, s =>
      match s.main with
      | .sorting =>
          (step cap e s.proc).map fun p =>
            { s with
              proc := p
              stdout := (action e s.proc).2.run (action e s.proc).1 s.stdout }
      | _ => none
  | .print, s =>
      match s.main, s.proc with
      | .sorting, .returned arr =>
          some { s with
            stdout := printLines mode false (sortedLines arr) s.stdout
            main := .printed }
      | _, _ => none
  | .exit, s =>
      match s.main with
      | .printed => some { s with stdout := s.stdout.flush [], main := .exited }
      | _ => none

/-- `main` at `mergesort(arr, left, right)`. -/
def start (mode : Buffering) (arr : List Int32) (left right : Nat) : Program :=
  { proc := .call arr left right
    stdout := printLines mode true (unsorted arr) { buffer := fun _ => [], output := [] }
    main := .sorting }

/-- No system call fails. -/
def MainEvent.faultFree : MainEvent → Bool
  | .sort e => e.faultFree
  | _ => true

/-- The text `main` prints before `mergesort`. -/
def unsortedText (arr : List Int32) : List Marked := ((unsorted arr).map (marked true)).flatten

variable {mode : Buffering} {cap : Nat → Nat → Nat} {arr : List Int32} {left right : Nat}

/-- What one event does. -/
inductive Moves (mode : Buffering) (cap : Nat → Nat → Nat) (s : Program) :
    MainEvent → Program → Prop where
  | sort {e : Event} {p : Proc} : s.main = .sorting → step cap e s.proc = some p →
      Moves mode cap s (.sort e)
        { s with
          proc := p
          stdout := (action e s.proc).2.run (action e s.proc).1 s.stdout }
  | print {arr : List Int32} : s.main = .sorting → s.proc = .returned arr →
      Moves mode cap s .print
        { s with
          stdout := printLines mode false (sortedLines arr) s.stdout
          main := .printed }
  | exit : s.main = .printed →
      Moves mode cap s .exit { s with stdout := s.stdout.flush [], main := .exited }

theorem mainStep_moves {e : MainEvent} {s s' : Program} (h : mainStep mode cap e s = some s') :
    Moves mode cap s e s' := by
  cases e with
  | sort e =>
      dsimp only [mainStep] at h
      split at h
      · obtain ⟨p, hp, rfl⟩ := Option.map_eq_some_iff.mp h
        exact .sort ‹_› hp
      · cases h
  | print =>
      dsimp only [mainStep] at h
      split at h
      · cases h
        exact .print ‹_› ‹_›
      · cases h
  | exit =>
      dsimp only [mainStep] at h
      split at h
      · cases h
        exact .exit ‹_›
      · cases h

/-! ## At the first fork -/

theorem unsortedText_marked (arr : List Int32) :
    (unsortedText arr).filter Marked.mark = unsortedText arr :=
  filter_flatten_marked (unsorted arr)

theorem start_stdout (mode : Buffering) (arr : List Int32) (left right : Nat) :
    (start mode arr left right).stdout
      = Streams.print mode Marked.newline [] (unsortedText arr)
          { buffer := fun _ => [], output := [] } := by
  obtain ⟨text, texts, heq⟩ : ∃ text texts, (unsorted arr).map (marked true) = text :: texts :=
    ⟨_, _, rfl⟩
  rw [start, printLines, unsortedText, heq, Streams.printAll_cons, List.flatten_cons]

theorem start_held (mode : Buffering) (arr : List Int32) (left right : Nat) :
    (start mode arr left right).stdout.held Marked.mark [] = unsortedText arr := by
  rw [start_stdout, Streams.held_print, unsortedText_marked]
  rfl

/-- The text ends in a newline. -/
theorem start_line (arr : List Int32) (left right : Nat) :
    (start .line arr left right).stdout.Clean Marked.mark := by
  have hnewline : marked true "\n" = [{ char := '\n', mark := true }] := by simp [marked]
  have hsplit : unsortedText arr
      = ((("Unsorted array: " :: arrayText arr).map (marked true)).flatten
          ++ [{ char := '\n', mark := true }]) := by
    rw [unsortedText, unsorted, List.map_append, List.flatten_append]
    simp [hnewline]
  intro pid
  rw [start_stdout]
  by_cases hpid : pid = []
  · simp only [Streams.print, Streams.put_buffer, hpid, Function.update_self, List.nil_append]
    rw [hsplit, List.rtakeWhile_concat_neg _ _ _ (by decide), List.filter_nil]
  · rw [Streams.print_buffer_of_ne hpid]
    rfl

/-- A fully buffered `stdout` still has all of it. -/
theorem start_full (arr : List Int32) (left right : Nat) :
    (start .full arr left right).stdout.buffer [] = unsortedText arr := by
  rw [start_stdout]
  simp [Streams.print]

/-! ## Nothing pending -/

theorem Action.run_clean {s : Streams (List Bool) Marked} (h : s.Clean Marked.mark)
    (pid : List Bool) (a : Action) :
    (a.run pid s).Clean Marked.mark ∧
      (a.run pid s).output.filter Marked.mark = s.output.filter Marked.mark := by
  cases a with
  | silent => exact ⟨h, rfl⟩
  | fork child => exact ⟨h.fork, rfl⟩
  | exit => exact h.flush

/-- The lines after `mergesort` are one `printf` of text that is not marked. -/
theorem printLines_sorted (mode : Buffering) (arr : List Int32) :
    ∃ text, text.filter Marked.mark = [] ∧ ∀ s : Streams (List Bool) Marked,
      printLines mode false (sortedLines arr) s = s.print mode Marked.newline [] text := by
  refine ⟨((sortedLines arr).map (marked false)).flatten, ?_, fun s => Streams.printAll_cons _⟩
  rw [List.filter_flatten, List.map_map, List.flatten_eq_nil_iff]
  intro text htext
  obtain ⟨line, -, rfl⟩ := List.mem_map.mp htext
  exact filter_unmarked line

/-- A line-buffered `stdout` shows the text once, whatever else happens. -/
theorem once_of_line {s : Program}
    (h : Reachable (mainStep .line cap) (start .line arr left right) s) :
    Once (unsortedText arr) s.stdout := by
  have hstart := start_line arr left right
  refine (h.invariant (I := fun s => s.stdout.Clean Marked.mark ∧ Once (unsortedText arr) s.stdout)
    ⟨hstart, ?_⟩ fun e s s' ⟨hclean, honce⟩ _ hs => ?_).2
  · rw [Once, ← hstart.held_eq, start_held]
  · cases mainStep_moves hs with
    | sort hmain hp =>
        obtain ⟨hclean', heq⟩ := Action.run_clean hclean _ _
        exact ⟨hclean', heq.trans honce⟩
    | print hmain hproc =>
        obtain ⟨text, htext, hprint⟩ := printLines_sorted .line _
        obtain ⟨hclean', heq⟩ := hclean.print htext
        dsimp only
        rw [hprint]
        exact ⟨hclean', heq.trans honce⟩
    | exit hmain =>
        obtain ⟨hclean', heq⟩ := hclean.flush
        exact ⟨hclean', heq.trans honce⟩

/-! ## No process but `main` -/

/-- A range of one element or none: `main` returns from `mergesort` at once. -/
structure Unsplit (arr : List Int32) (left right : Nat) (s : Program) : Prop where
  proc : s.proc = .call arr left right ∨ ∃ arr', s.proc = .returned arr'
  held : s.stdout.held Marked.mark [] = unsortedText arr
  flushed : s.main = .exited → s.stdout.buffer [] = []

theorem unsplit_reachable (hlr : right ≤ left) {s : Program}
    (h : Reachable (mainStep mode cap) (start mode arr left right) s) :
    Unsplit arr left right s := by
  refine h.invariant ⟨.inl rfl, start_held mode arr left right, nofun⟩ fun e s s' hI _ hs => ?_
  cases mainStep_moves hs with
  | sort hmain hp =>
      rename_i e p
      obtain ⟨hcall | ⟨arr', hreturned⟩, hheld, -⟩ := hI
      · rw [hcall] at hp
        cases e with
        | self =>
            rw [step, if_neg (by omega)] at hp
            cases hp
            refine ⟨.inr ⟨arr, rfl⟩, ?_, fun hexited => ?_⟩
            · dsimp only
              rw [hcall]
              exact hheld
            · rw [hmain] at hexited
              cases hexited
        | _ => cases hp
      · rw [hreturned] at hp
        cases e <;> cases hp
  | print hmain hproc =>
      obtain ⟨text, htext, hprint⟩ := printLines_sorted mode _
      refine ⟨.inr ⟨_, hproc⟩, ?_, nofun⟩
      dsimp only
      rw [hprint, Streams.held_print, htext, List.append_nil, hI.held]
  | exit hmain =>
      refine ⟨hI.proc, ?_, fun _ => ?_⟩
      · exact Streams.held_flush.trans hI.held
      · simp

theorem once_of_unsplit (hlr : right ≤ left) {s : Program}
    (h : Reachable (mainStep mode cap) (start mode arr left right) s)
    (hdone : s.main = .exited ∨ s.proc.ended = true) : Once (unsortedText arr) s.stdout := by
  obtain ⟨hproc, hheld, hflushed⟩ := unsplit_reachable hlr h
  have hexited : s.main = .exited := by
    rcases hdone with hmain | hended
    · exact hmain
    · rcases hproc with hcall | ⟨arr', hreturned⟩
      · rw [hcall] at hended
        cases hended
      · rw [hreturned] at hended
        cases hended
  rw [Streams.held, hflushed hexited, List.filter_nil, List.append_nil] at hheld
  exact hheld

/-! ## A first child -/

/-- `main` has not forked. -/
def Proc.unforked : Proc → Prop
  | .call _ _ _ | .pipe1 _ _ _ | .pipe2 _ _ _ | .fork1 _ _ _ => True
  | _ => False

/-- `main`'s first child has exited. -/
def Proc.firstExited : Proc → Prop
  | .fork2 _ _ _ c₁ _ | .wait _ _ _ _ _ c₁ _ _ _ => c₁ = .exited
  | .read1 _ _ _ _ _ _ _ | .read2 _ _ _ _ _ _ | .merge _ _ _ | .returned _ => True
  | _ => False

theorem step_ne_exited (cap : Nat → Nat → Nat) (e : Event) (p : Proc) :
    step cap e p ≠ some .exited := by
  intro h
  unfold step at h
  split at h
  case h_1 => split at h <;> cases h
  all_goals simp at h

/-- A child exits after its `write`. -/
theorem child_to_exited {capacity n : Nat} {e : Event} {c : Proc} {q q' : List UInt8}
    (hs : child capacity left n (step cap e) e c q = some (.exited, q')) :
    action e c = ([], .exit) := by
  unfold child at hs
  split at hs
  · cases hs
  · split at hs <;> cases hs
  · rfl
  · cases hs
  · obtain ⟨p, hp, heq⟩ := Option.map_eq_some_iff.mp hs
    cases heq
    exact absurd hp (step_ne_exited cap e c)

/-- What an event after the first fork does to the buffers of `main` and of
its first child: it is no fork of the two and no exit of `main`, and when it
ends the first child, it is that one's exit. -/
structure Spares (e : Event) (p p' : Proc) : Prop where
  forked : ¬ p'.unforked
  fork : ∀ b, (action e p).2 = .fork b →
    (action e p).1 ++ [b] ≠ [] ∧ (action e p).1 ++ [b] ≠ [false]
  exit : (action e p).2 = .exit → (action e p).1 ≠ []
  first : p'.firstExited → p.firstExited ∨ action e p = ([false], .exit)

/-- An event that has no action. -/
theorem Spares.silent {e : Event} {p p' : Proc} (haction : action e p = ([], .silent))
    (hforked : ¬ p'.unforked) (hfirst : p'.firstExited → p.firstExited) : Spares e p p' where
  forked := hforked
  fork := by simp [haction]
  exit := by simp [haction]
  first := fun h => .inl (hfirst h)

/-- An event under a child. -/
theorem Spares.below {e e' : Event} {p p' c : Proc} (b : Bool)
    (haction : action e p = (b :: (action e' c).1, (action e' c).2)) (hforked : ¬ p'.unforked)
    (hfirst : p'.firstExited → p.firstExited ∨ action e p = ([false], .exit)) :
    Spares e p p' where
  forked := hforked
  fork := by simp [haction]
  exit := by simp [haction]
  first := hfirst

/-- An event under the first child, with that child after it. -/
theorem Spares.child1 {e : Event} {p p' c c' : Proc} {capacity start n : Nat} {q q' : List UInt8}
    (haction : action (.left e) p = (false :: (action e c).1, (action e c).2))
    (hc : child capacity start n (step cap e) e c q = some (c', q')) (hforked : ¬ p'.unforked)
    (hfirst : p'.firstExited → c' = .exited) : Spares (.left e) p p' := by
  refine .below false haction hforked fun hexited => ?_
  obtain rfl := hfirst hexited
  right
  rw [haction, child_to_exited hc]

theorem Sorting.spares {e : Event} {p p' : Proc} (h : Sorting arr left right p)
    (hok : e.faultFree = true) (hforked : ¬ p.unforked) (hs : step cap e p = some p') :
    Spares e p p' := by
  cases h with
  | call | pipe1 | pipe2 | fork1 => exact absurd trivial hforked
  | fork2 hlr h₁ =>
      cases e with
      | self =>
          cases hs
          exact ⟨nofun, by simp [action], by simp [action], .inl⟩
      | left e =>
          obtain ⟨⟨c₁, q₁⟩, hc, heq⟩ := Option.map_eq_some_iff.mp hs
          cases heq
          exact .child1 rfl hc nofun id
      | fail => cases hok
      | _ => cases hs
  | wait hlr h₁ h₂ hw₁ hw₂ =>
      rename_i w₁ w₂ c₁ q₁ c₂ q₂
      cases e with
      | self =>
          cases w₁ <;> cases w₂ <;> try cases hs
          exact .silent rfl nofun fun _ => hw₁ rfl
      | left e =>
          obtain ⟨⟨c₁', q₁'⟩, hc, heq⟩ := Option.map_eq_some_iff.mp hs
          cases heq
          exact .child1 rfl hc nofun id
      | right e =>
          obtain ⟨⟨c₂', q₂'⟩, hc, heq⟩ := Option.map_eq_some_iff.mp hs
          cases heq
          exact .below true rfl nofun .inl
      | reap1 =>
          cases w₁
          · rw [step] at hs
            split at hs
            · cases hs
              exact .silent rfl nofun id
            · cases hs
          · cases hs
      | reap2 =>
          cases w₂
          · rw [step] at hs
            split at hs
            · cases hs
              exact .silent rfl nofun id
            · cases hs
          · cases w₁ <;> cases hs
      | fail => cases hok
      | write k => cases hs
  | read1 hlr | read2 hlr =>
      cases e with
      | self =>
          rw [step] at hs
          split at hs
          · cases hs
            exact .silent rfl nofun id
          · cases hs
      | left e => simp [step] at hs
      | right e => simp [step] at hs
      | fail => cases hok
      | _ => cases hs
  | merge hlr =>
      cases e with
      | self =>
          obtain ⟨arr', -, rfl⟩ := Option.map_eq_some_iff.mp hs
          exact .silent rfl nofun id
      | _ => cases hs
  | returned => cases e <;> cases hs

/-- `main` and its first child hold the text twice, and what either leaves
behind when it exits is written. -/
structure Doubled (arr : List Int32) (s : Program) : Prop where
  weight : 2 * (unsortedText arr).length ≤ s.stdout.weight Marked.mark {[], [false]}
  forked : ¬ s.proc.unforked
  first : s.proc.firstExited → s.stdout.buffer [false] = []
  last : s.main ≠ .sorting → s.proc.firstExited
  main : s.main = .exited → s.stdout.buffer [] = []

theorem Spares.run {e : Event} {p p' : Proc} (h : Spares e p p') {w : Nat}
    {s : Streams (List Bool) Marked} (hweight : w ≤ s.weight Marked.mark {[], [false]})
    (hfirst : p.firstExited → s.buffer [false] = []) :
    w ≤ ((action e p).2.run (action e p).1 s).weight Marked.mark {[], [false]} ∧
      (p'.firstExited → ((action e p).2.run (action e p).1 s).buffer [false] = []) := by
  cases ha : (action e p).2 with
  | silent =>
      refine ⟨hweight, fun hexited => ?_⟩
      rcases h.first hexited with hold | hnew
      · exact hfirst hold
      · rw [hnew] at ha
        cases ha
  | fork b =>
      obtain ⟨hmain, hchild⟩ := h.fork b ha
      refine ⟨?_, fun hexited => ?_⟩
      · rw [Action.run, Streams.weight_fork_of_notMem (by simp [hmain, hchild])]
        exact hweight
      · rcases h.first hexited with hold | hnew
        · rw [Action.run, Streams.fork_buffer, Function.update_of_ne (Ne.symm hchild)]
          exact hfirst hold
        · rw [hnew] at ha
          cases ha
  | exit =>
      refine ⟨hweight.trans (Streams.weight_le_flush _), fun hexited => ?_⟩
      rw [Action.run, Streams.flush_buffer]
      by_cases hpid : (action e p).1 = [false]
      · rw [hpid, Function.update_self]
      · rw [Function.update_of_ne (Ne.symm hpid)]
        rcases h.first hexited with hold | hnew
        · exact hfirst hold
        · rw [hnew] at hpid
          exact absurd rfl hpid

/-- `main` has the text in its buffer and has not forked, or two processes have
it. -/
def Pending (arr : List Int32) (left right : Nat) (s : Program) : Prop :=
  Sorting arr left right s.proc ∧
    (s.proc.unforked ∧ s.main = .sorting ∧ s.stdout = (start .full arr left right).stdout ∨
      Doubled arr s)

/-- Up to the first fork, which doubles the text. -/
theorem pending_before (hlr : left < right) {e : Event} {p : Proc} {s : Program}
    (hsorting : Sorting arr left right s.proc) (hunforked : s.proc.unforked)
    (hmain : s.main = .sorting) (hstdout : s.stdout = (start .full arr left right).stdout)
    (hok : e.faultFree = true) (hp : step cap e s.proc = some p) :
    (action e s.proc = ([], .silent) ∧ p.unforked) ∨
      Doubled arr { s with
        proc := p
        stdout := (action e s.proc).2.run (action e s.proc).1 s.stdout } := by
  cases e with
  | fail => cases hok
  | self =>
      cases hproc : s.proc <;> rw [hproc] at hp hunforked <;> try exact hunforked.elim
      case call =>
        rw [hproc] at hsorting
        cases hsorting
        rw [step, if_pos hlr] at hp
        cases hp
        exact .inl ⟨rfl, trivial⟩
      case pipe1 =>
        cases hp
        exact .inl ⟨rfl, trivial⟩
      case pipe2 =>
        cases hp
        exact .inl ⟨rfl, trivial⟩
      case fork1 =>
        cases hp
        refine .inr ⟨?_, nofun, nofun, fun hnot => absurd hmain hnot, fun hexited => ?_⟩
        · -- the buffer of `main` is all of the text, and the child has it too
          show _ ≤ (s.stdout.fork [] [false]).weight Marked.mark {[], [false]}
          rw [hstdout, Streams.weight_fork (by decide), start_held, start_full,
            List.countP_eq_length_filter, unsortedText_marked, Nat.two_mul]
        · rw [hmain] at hexited
          cases hexited
  | _ =>
      cases hproc : s.proc <;> rw [hproc] at hp hunforked <;>
        first | exact hunforked.elim | cases hp

theorem pending_step (hlr : left < right) (hr : right < arr.length) {e : MainEvent}
    {s s' : Program} (h : Pending arr left right s) (hok : e.faultFree = true)
    (hs : mainStep .full cap e s = some s') : Pending arr left right s' := by
  obtain ⟨hsorting, hphase⟩ := h
  cases mainStep_moves hs with
  | sort hmain hp =>
      refine ⟨hsorting.step_preserves _ hr hok hp, ?_⟩
      rcases hphase with ⟨hunforked, -, hstdout⟩ | hdoubled
      · -- until the first fork nothing happens to `stdout`
        rcases pending_before hlr hsorting hunforked hmain hstdout hok hp with
          ⟨haction, hunforked'⟩ | hdoubled
        · left
          rw [haction]
          exact ⟨hunforked', hmain, hstdout⟩
        · exact .inr hdoubled
      · right
        -- after it, `main` and its first child lose nothing of what they hold
        have hspares := hsorting.spares hok hdoubled.forked hp
        obtain ⟨hweight, hfirst⟩ := hspares.run hdoubled.weight hdoubled.first
        refine ⟨hweight, hspares.forked, hfirst, fun hnot => absurd hmain hnot, fun hexited => ?_⟩
        dsimp only at hexited
        rw [hmain] at hexited
        cases hexited
  | print hmain hproc =>
      refine ⟨hsorting, ?_⟩
      rcases hphase with ⟨hunforked, -, -⟩ | hdoubled
      · rw [hproc] at hunforked
        exact hunforked.elim
      · right
        have hfirst : s.proc.firstExited := by
          rw [hproc]
          trivial
        obtain ⟨text, -, hprint⟩ := printLines_sorted .full _
        refine ⟨?_, hdoubled.forked, fun _ => ?_, fun _ => hfirst, nofun⟩
        · dsimp only
          rw [hprint]
          exact hdoubled.weight.trans (Streams.weight_le_print _)
        · dsimp only
          rw [hprint, Streams.print_buffer_of_ne (by decide)]
          exact hdoubled.first hfirst
  | exit hmain =>
      refine ⟨hsorting, ?_⟩
      rcases hphase with ⟨-, hsort, -⟩ | hdoubled
      · rw [hmain] at hsort
        cases hsort
      · right
        have hfirst : s.proc.firstExited := hdoubled.last (by simp [hmain])
        refine ⟨hdoubled.weight.trans (Streams.weight_le_flush _), hdoubled.forked, fun _ => ?_,
          fun _ => hfirst, fun _ => ?_⟩
        · dsimp only
          rw [Streams.flush_buffer, Function.update_of_ne (by decide)]
          exact hdoubled.first hfirst
        · dsimp only
          rw [Streams.flush_buffer, Function.update_self]

/-- A fully buffered `stdout` shows the text at least twice. -/
theorem not_once_of_full (hlr : left < right) (hr : right < arr.length) {s : Program}
    (h : Run (mainStep .full cap) (fun e _ => e.faultFree = true) (start .full arr left right) s)
    (hdone : s.main = .exited) : ¬ Once (unsortedText arr) s.stdout := by
  have hpending : Pending arr left right s :=
    h.invariant ⟨.call _ _ _, .inl ⟨trivial, rfl, rfl⟩⟩ fun e s s' hI hok hs =>
      pending_step hlr hr hI hok hs
  obtain ⟨-, ⟨-, hmain, -⟩ | hdoubled⟩ := hpending
  · rw [hmain] at hdone
    cases hdone
  · intro honce
    have hfirst := hdoubled.first (hdoubled.last (by simp [hdone]))
    have hweight := hdoubled.weight
    have hcount : s.stdout.output.countP Marked.mark = (unsortedText arr).length :=
      List.countP_eq_length_filter.trans (congrArg List.length honce)
    -- both have ended and hold nothing, so all of it is written
    have hpos : 0 < (unsortedText arr).length := by simp [unsortedText, unsorted, marked]
    rw [Streams.weight, Finset.sum_pair (by decide), hdoubled.main hdone, hfirst, List.countP_nil,
      hcount] at hweight
    omega

/-- **The text of the merge sort**: where no system call fails, it is on
standard output once exactly if `stdout` is line-buffered or `main` does not
fork. -/
theorem sort_once_iff (hr : right < arr.length) {s : Program}
    (h : Run (mainStep mode cap) (fun e _ => e.faultFree = true) (start mode arr left right) s)
    (hdone : s.main = .exited) :
    Once (unsortedText arr) s.stdout ↔ mode = .line ∨ right ≤ left := by
  have hreach : Reachable (mainStep mode cap) (start mode arr left right) s :=
    h.mono fun _ _ _ => trivial
  constructor
  · intro honce
    by_contra hnot
    rw [not_or, Nat.not_le] at hnot
    cases mode with
    | line => exact hnot.1 rfl
    | full => exact not_once_of_full hnot.2 hr h hdone honce
  · rintro (rfl | hlr)
    · exact once_of_line hreach
    · exact once_of_unsplit hlr hreach (.inl hdone)

/-! ## Both programs -/

/-- **What `main` prints before the first fork** is on standard output once:
in the search, for any array, target and forks, exactly if nothing of it is
pending at the first fork or `main` does not fork; in the merge sort, for any
range of any array, exactly if `stdout` is line-buffered or `main` does not
fork, where no system call fails, and if so also where some do. -/
theorem main_text_once (arr : List Int32) :
    (∀ (env : BinarySearch.Env) (target : Int32) (s : BinarySearch.State),
      Reachable (BinarySearch.binarySearch env arr target) (BinarySearch.initial env arr) s →
      BinarySearch.Finished s →
      (Once (BinarySearch.preludeText arr) s.stdout ↔
        BinarySearch.NothingPending env ∨ BinarySearch.NoFork env arr target)) ∧
    (∀ (mode : Buffering) (cap : Nat → Nat → Nat) (left right : Nat) (s : Program),
      right < arr.length →
      Run (mainStep mode cap) (fun e _ => e.faultFree = true) (start mode arr left right) s →
      s.main = .exited → (Once (unsortedText arr) s.stdout ↔ mode = .line ∨ right ≤ left)) ∧
    (∀ (mode : Buffering) (cap : Nat → Nat → Nat) (left right : Nat) (s : Program),
      Reachable (mainStep mode cap) (start mode arr left right) s →
      s.main = .exited ∨ s.proc.ended = true →
      mode = .line ∨ right ≤ left → Once (unsortedText arr) s.stdout) := by
  refine ⟨fun env target s h hdone => BinarySearch.search_once_iff h hdone,
    fun mode cap left right s hr h hdone => sort_once_iff hr h hdone,
    fun mode cap left right s h hdone hcond => ?_⟩
  rcases hcond with rfl | hlr
  · exact once_of_line h
  · exact once_of_unsplit hlr h hdone

/-- The run of a merge sort of two integers, with `stdout` fully buffered. -/
theorem main_text_once_sort : ∃ s : Program,
    Run (mainStep .full fun _ _ => 65536) (fun e _ => e.faultFree = true)
      (start .full [2, 1] 0 1) s ∧ s.main = .exited ∧ ¬ Once (unsortedText [2, 1]) s.stdout := by
  have hexec := Option.eq_some_of_isSome
    (o := exec (guarded (mainStep .full fun _ _ => 65536) fun e _ => e.faultFree = true)
      (start .full [2, 1] 0 1)
      [.sort .self, .sort .self, .sort .self, .sort .self,
        .sort (.left .self), .sort (.left .self), .sort (.left (.write 4)), .sort (.left .self),
        .sort .self,
        .sort (.right .self), .sort (.right .self), .sort (.right (.write 4)),
        .sort (.right .self),
        .sort .reap1, .sort .reap2, .sort .self, .sort .self, .sort .self, .sort .self,
        .print, .exit]) rfl
  have hrun := Run.exec .start _ hexec
  refine ⟨_, hrun, rfl, fun honce => ?_⟩
  have hcond := ((main_text_once [2, 1]).2.1 .full (fun _ _ => 65536) 0 1 _ (by decide) hrun
    rfl).mp honce
  revert hcond
  decide

/-- A search in a fully buffered program that forks once. -/
theorem main_text_repeated :
    ¬ ((∀ (env : BinarySearch.Env) (arr : List Int32) (target : Int32) (s : BinarySearch.State),
        Reachable (BinarySearch.binarySearch env arr target) (BinarySearch.initial env arr) s →
        BinarySearch.Finished s → Once (BinarySearch.preludeText arr) s.stdout) ∧
      (∀ (mode : Buffering) (cap : Nat → Nat → Nat) (arr : List Int32) (left right : Nat)
        (s : Program), right < arr.length →
        Run (mainStep mode cap) (fun e _ => e.faultFree = true) (start mode arr left right) s →
        s.main = .exited → Once (unsortedText arr) s.stdout)) := by
  rintro ⟨hclaim, -⟩
  have hexec := Option.eq_some_of_isSome
    (o := exec (BinarySearch.binarySearch
        { mode := .full, inputFlushes := true, forkOk := fun _ => true } [1] 2)
      (BinarySearch.initial
        { mode := .full, inputFlushes := true, forkOk := fun _ => true } [1])
      [0, 0, 0, 1, 1, 1, 0, 0]) rfl
  have hreach := Reachable.exec .start _ hexec
  have hdone : ∀ p ∈ [BinarySearch.Proc.exited 0, .exited 0],
      ∃ status, p = BinarySearch.Proc.exited status := by simp
  have honce := hclaim _ _ _ _ hreach hdone
  rcases (BinarySearch.search_once_iff hreach hdone).mp honce with hnothing | hnone
  · cases hnothing.1
  · rcases hnone with hnil | hread | hfail
    · cases hnil
    · revert hread
      decide
    · cases hfail

end OsInParts.MergeSort
