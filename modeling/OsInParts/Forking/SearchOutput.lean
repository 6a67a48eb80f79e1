import OsInParts.Forking.BinarySearch

/-!
# SearchOutput — what the search leaves on standard output

`main` prints the array and asks for the target before the first fork, and
does not flush. What is still pending at the fork is in both buffers from
then on, and every process writes its buffer out when it exits. So the text
is on standard output once exactly if nothing is pending at the first fork,
or if there is no fork (`search_once_iff`).
-/

namespace OsInParts.BinarySearch

open Lib.Stdio Lib.Threads

variable {env : Env} {arr : List Int32} {target : Int32}

/-- The text `main` prints before the search. -/
def preludeText (arr : List Int32) : List Marked := ((prelude arr).map (marked true)).flatten

/-- The request for input writes `stdout` out. -/
def NothingPending (env : Env) : Prop := env.mode = .line ∧ env.inputFlushes = true

/-- `main` answers by itself, or its fork fails. -/
def NoFork (env : Env) (arr : List Int32) (target : Int32) : Prop :=
  arr = [] ∨ readAt arr (mid 0 (arr.length - 1)) = some target ∨ env.forkOk 0 = false

/-- Every process has ended. -/
def Finished (s : State) : Prop := ∀ p ∈ s.procs, ∃ status, p = .exited status

/-! ## At the first fork -/

theorem preludeText_marked (arr : List Int32) :
    (preludeText arr).filter Marked.mark = preludeText arr :=
  filter_flatten_marked (prelude arr)

/-- All of it is one `printf`. -/
theorem mainStdout_eq (env : Env) (arr : List Int32) :
    mainStdout env arr
      = (Streams.print env.mode Marked.newline 0 (preludeText arr)
          { buffer := fun _ => [], output := [] }).input env.mode env.inputFlushes 0 := by
  obtain ⟨text, texts, heq⟩ : ∃ text texts, (prelude arr).map (marked true) = text :: texts :=
    ⟨_, _, rfl⟩
  rw [mainStdout, preludeText, heq, Streams.printAll_cons, List.flatten_cons]

/-- The prompt ends in no newline. -/
theorem rtakeWhile_preludeText (arr : List Int32) :
    (preludeText arr).rtakeWhile (fun c => !c.newline) = marked true "Enter a target value: " := by
  have hprompt : marked true "\nEnter a target value: "
      = { char := '\n', mark := true } :: marked true "Enter a target value: " := by
    simp [marked]
  have hsplit : preludeText arr
      = (((("Array: " :: arr.map fun x => toString x.toInt ++ " ").map (marked true)).flatten
          ++ [{ char := '\n', mark := true }]) ++ marked true "Enter a target value: ") := by
    rw [preludeText, prelude, List.map_append, List.flatten_append]
    simp [hprompt]
  rw [hsplit, ← Streams.rtakeWhile_append_append, List.rtakeWhile_concat_neg _ _ _ (by decide),
    List.nil_append, List.rtakeWhile_eq_self_iff]
  decide

/-- Before the first fork `main` has printed its text, and nobody else has a
buffer. -/
theorem mainStdout_held (env : Env) (arr : List Int32) :
    (mainStdout env arr).held Marked.mark 0 = preludeText arr ∧
      ∀ k ≠ 0, (mainStdout env arr).buffer k = [] := by
  rw [mainStdout_eq]
  unfold Streams.input
  split
  · refine ⟨?_, fun k hk => ?_⟩
    · rw [Streams.held_flush, Streams.held_print, preludeText_marked]
      rfl
    · rw [Streams.flush_buffer, Function.update_of_ne hk, Streams.print_buffer_of_ne hk]
  · refine ⟨?_, fun k hk => ?_⟩
    · rw [Streams.held_print, preludeText_marked]
      rfl
    · rw [Streams.print_buffer_of_ne hk]

/-- What is pending is marked, and it is nothing only after a flush. -/
theorem mainStdout_pending (env : Env) (arr : List Int32) :
    ((mainStdout env arr).buffer 0).countP Marked.mark = 0 ↔ NothingPending env := by
  rw [mainStdout_eq, NothingPending]
  cases hmode : env.mode with
  | line =>
      cases hinput : env.inputFlushes with
      | true => simp [Streams.input]
      | false =>
          simp only [Streams.input, Streams.print, Streams.put_buffer, Function.update_self,
            List.nil_append, rtakeWhile_preludeText]
          decide
  | full =>
      have hlen : 0 < (preludeText arr).length := by
        simp [preludeText, prelude, marked]
      have hcount : (preludeText arr).countP Marked.mark = (preludeText arr).length := by
        rw [List.countP_eq_length_filter, preludeText_marked]
      simp only [Streams.input, Streams.print, Streams.put_buffer, Function.update_self,
        List.nil_append, hcount]
      constructor
      · intro h
        omega
      · rintro ⟨h, -⟩
        cases h

/-! ## What a step does to the streams -/

/-- A step that neither ends a process nor forks leaves the streams alone or
prints; a fork copies a buffer; an exit writes one out. -/
inductive Writes (env : Env) (k : Nat) (s s' : State) : Prop where
  | quiet {q : Proc} : (∀ status, q ≠ .exited status) → s'.procs = s.procs.set k q →
      s'.stdout = s.stdout → Writes env k s s'
  | print {q : Proc} (message : Message) : (∀ status, q ≠ .exited status) →
      s'.procs = s.procs.set k q →
      s'.stdout = s.stdout.print env.mode Marked.newline k (marked false message.text) →
      Writes env k s s'
  | fork {q r : Proc} : (∀ status, q ≠ .exited status) → s'.procs = s.procs.set k q ++ [r] →
      s'.stdout = s.stdout.fork k s.procs.length → Writes env k s s'
  | exit {q : Proc} : s'.procs = s.procs.set k q → s'.stdout = s.stdout.flush k →
      Writes env k s s'

theorem Moves.writes {k : Nat} {s s' : State} {p : Proc} (h : Moves env arr target k s p s') :
    Writes env k s s' := by
  cases h with
  | missing => exact .print .notFound (by simp) rfl rfl
  | found => exact .print (.index _) (by simp) rfl rfl
  | forked => exact .fork (by simp) rfl rfl
  | exit => exact .exit rfl rfl
  | _ => exact .quiet (by simp) rfl rfl

/-- A clean start stays clean: the text that is written is all there is. -/
theorem Writes.clean {k : Nat} {s s' : State} (h : Writes env k s s')
    (hclean : s.stdout.Clean Marked.mark) :
    s'.stdout.Clean Marked.mark ∧
      s'.stdout.output.filter Marked.mark = s.stdout.output.filter Marked.mark := by
  cases h with
  | quiet _ _ hstdout =>
      rw [hstdout]
      exact ⟨hclean, rfl⟩
  | print message _ _ hstdout =>
      rw [hstdout]
      exact hclean.print (filter_unmarked _)
  | fork _ _ hstdout =>
      rw [hstdout]
      exact ⟨hclean.fork, rfl⟩
  | exit _ hstdout =>
      rw [hstdout]
      exact hclean.flush

/-- The first `n` processes hold `w` marked characters, and those that have
ended hold none in their buffers. -/
structure Holding (n w : Nat) (s : State) : Prop where
  many : n ≤ s.procs.length
  weight : w ≤ s.stdout.weight Marked.mark (Finset.range n)
  ended : ∀ i status, i < n → s.procs[i]? = some (.exited status) → s.stdout.buffer i = []

theorem Writes.holding {n w k : Nat} {s s' : State} (h : Writes env k s s')
    (hk : k < s.procs.length) (hs : Holding n w s) : Holding n w s' := by
  have hother : ∀ {q : Proc} {i status : Nat}, (∀ status, q ≠ .exited status) →
      (s.procs.set k q)[i]? = some (.exited status) →
      i ≠ k ∧ s.procs[i]? = some (.exited status) := by
    intro q i status hq hi
    have hne : i ≠ k := by
      rintro rfl
      rw [List.getElem?_set_self hk, Option.some.injEq] at hi
      exact hq status hi
    rw [List.getElem?_set_ne (Ne.symm hne)] at hi
    exact ⟨hne, hi⟩
  cases h with
  | quiet hq hprocs hstdout =>
      refine ⟨?_, hstdout ▸ hs.weight, fun i status hi hexited => ?_⟩
      · rw [hprocs, List.length_set]
        exact hs.many
      · rw [hprocs] at hexited
        rw [hstdout]
        exact hs.ended i status hi (hother hq hexited).2
  | print message hq hprocs hstdout =>
      refine ⟨?_, hstdout ▸ hs.weight.trans (Streams.weight_le_print _),
        fun i status hi hexited => ?_⟩
      · rw [hprocs, List.length_set]
        exact hs.many
      · rw [hprocs] at hexited
        obtain ⟨hne, hold⟩ := hother hq hexited
        rw [hstdout, Streams.print_buffer_of_ne hne]
        exact hs.ended i status hi hold
  | fork hq hprocs hstdout =>
      have hmany := hs.many
      refine ⟨?_, ?_, fun i status hi hexited => ?_⟩
      · rw [hprocs, List.length_append, List.length_set]
        omega
      · -- the child is not one of the first `n`
        rw [hstdout, Streams.weight_fork_of_notMem (by simpa using hmany)]
        exact hs.weight
      · rw [hprocs, List.getElem?_append_left (by rw [List.length_set]; omega)] at hexited
        rw [hstdout, Streams.fork_buffer, Function.update_of_ne (by omega)]
        exact hs.ended i status hi (hother hq hexited).2
  | exit hprocs hstdout =>
      refine ⟨?_, hstdout ▸ hs.weight.trans (Streams.weight_le_flush _),
        fun i status hi hexited => ?_⟩
      · rw [hprocs, List.length_set]
        exact hs.many
      · rw [hstdout, Streams.flush_buffer]
        by_cases hik : i = k
        · rw [hik, Function.update_self]
        · rw [hprocs, List.getElem?_set_ne (Ne.symm hik)] at hexited
          rw [Function.update_of_ne hik]
          exact hs.ended i status hi hexited

/-- When they have all ended, that many are written. -/
theorem Holding.written {n w : Nat} {s : State} (h : Holding n w s) (hdone : Finished s) :
    w ≤ s.stdout.output.countP Marked.mark := by
  have hempty : ∀ i ∈ Finset.range n, (s.stdout.buffer i).countP Marked.mark = 0 := by
    intro i hi
    have hlt : i < s.procs.length := Nat.lt_of_lt_of_le (Finset.mem_range.mp hi) h.many
    obtain ⟨status, hstatus⟩ := hdone _ (List.getElem_mem hlt)
    have hexited : s.procs[i]? = some (.exited status) :=
      List.getElem?_eq_some_iff.mpr ⟨hlt, hstatus⟩
    rw [h.ended i status (Finset.mem_range.mp hi) hexited, List.countP_nil]
  have hweight := h.weight
  rw [Streams.weight, Finset.sum_eq_zero hempty] at hweight
  exact hweight

/-! ## Runs -/

/-- `main` has not come to its fork. -/
def Before (env : Env) (arr : List Int32) (target : Int32) (s : State) : Prop :=
  s.stdout = mainStdout env arr ∧
    (s.procs = [.call 0 (arr.length - 1)] ∨
      arr ≠ [] ∧ s.procs = [.probe 0 (arr.length - 1)] ∨
      arr ≠ [] ∧ readAt arr (mid 0 (arr.length - 1)) ≠ some target ∧
        s.procs = [.fork 0 (arr.length - 1)])

/-- `main` has answered by itself. -/
def Alone (arr : List Int32) (s : State) : Prop :=
  s.stdout.held Marked.mark 0 = preludeText arr ∧
    ((∃ status, s.procs = [.exit status]) ∨
      (∃ status, s.procs = [.exited status]) ∧ s.stdout.buffer 0 = [])

/-- `main` has forked with its text pending, or never will. -/
inductive Phase (env : Env) (arr : List Int32) (target : Int32) (s : State) : Prop where
  | before : Before env arr target s → Phase env arr target s
  | alone : NoFork env arr target → Alone arr s → Phase env arr target s
  | forked : ¬ NoFork env arr target →
      Holding 2 ((preludeText arr).length
        + ((mainStdout env arr).buffer 0).countP Marked.mark) s → Phase env arr target s

theorem procs_singleton {s : State} {k : Nat} {p q : Proc} (h : s.procs = [q])
    (hp : s.procs[k]? = some p) : k = 0 ∧ p = q := by
  rw [h] at hp
  cases k with
  | zero => exact ⟨rfl, (Option.some.inj hp).symm⟩
  | succ k => cases hp

theorem not_finished {s : State} {p : Proc} (h : s.procs = [p])
    (hlive : ∀ status, p ≠ .exited status) : ¬ Finished s := by
  intro hdone
  obtain ⟨status, hstatus⟩ := hdone p (by rw [h]; exact List.mem_singleton_self p)
  exact hlive status hstatus

theorem Before.not_finished {s : State} (h : Before env arr target s) : ¬ Finished s := by
  obtain ⟨-, hprocs | ⟨-, hprocs⟩ | ⟨-, -, hprocs⟩⟩ := h <;>
    exact BinarySearch.not_finished hprocs (by simp)

theorem held_print_unmarked {s : State} (message : Message) :
    (s.print env 0 message).stdout.held Marked.mark 0 = s.stdout.held Marked.mark 0 := by
  rw [print_stdout, Streams.held_print, filter_unmarked, List.append_nil]

theorem Before.step {k : Nat} {p : Proc} {s s' : State} (h : Before env arr target s)
    (hp : s.procs[k]? = some p) (hmoves : Moves env arr target k s p s') :
    Phase env arr target s' := by
  obtain ⟨hstdout, hcall | ⟨hne, hprobe⟩ | ⟨hne, hmiss, hfork⟩⟩ := h
  · obtain ⟨rfl, rfl⟩ := procs_singleton hcall hp
    have hheld := (mainStdout_held env arr).1
    cases hmoves with
    | missing hempty =>
        have hnil : arr = [] := List.eq_nil_of_length_eq_zero (by omega)
        refine .alone (.inl hnil) ⟨?_, .inl ⟨0, by simp [hcall]⟩⟩
        rw [setProc_stdout, held_print_unmarked, hstdout, hheld]
    | enter hle =>
        have hne : arr ≠ [] := by
          rintro rfl
          simp at hle
        exact .before ⟨hstdout, .inr (.inl ⟨hne, by simp [hcall]⟩)⟩
  · obtain ⟨rfl, rfl⟩ := procs_singleton hprobe hp
    have hheld := (mainStdout_held env arr).1
    cases hmoves with
    | found hread =>
        refine .alone (.inr (.inl hread)) ⟨?_, .inl ⟨0, by simp [hprobe]⟩⟩
        rw [setProc_stdout, held_print_unmarked, hstdout, hheld]
    | miss hread hvalue =>
        refine .before ⟨hstdout, .inr (.inr ⟨hne, ?_, by simp [hprobe]⟩)⟩
        rw [hread]
        simpa using hvalue
  · obtain ⟨rfl, rfl⟩ := procs_singleton hfork hp
    obtain ⟨hheld, -⟩ := mainStdout_held env arr
    cases hmoves with
    | forked hok =>
        refine .forked ?_ ⟨by simp [hfork], ?_, fun i status hi hexited => ?_⟩
        · rintro (hnil | hread | hfail)
          · exact hne hnil
          · exact hmiss hread
          · rw [hok] at hfail
            cases hfail
        · -- the child has a copy of what is pending
          have hpair : Finset.range 2 = {0, 1} := by decide
          simp only [hfork, hstdout, List.length_singleton, hpair]
          rw [Streams.weight_fork (by decide), hheld]
        · have htwo : i = 0 ∨ i = 1 := by omega
          rcases htwo with rfl | rfl <;> simp [hfork] at hexited
    | unforked hfail =>
        refine .alone (.inr (.inr hfail)) ⟨?_, .inl ⟨1, by simp [hfork]⟩⟩
        rw [setProc_stdout, hstdout, hheld]

theorem Alone.step {k : Nat} {p : Proc} {s s' : State} (h : Alone arr s)
    (hp : s.procs[k]? = some p) (hmoves : Moves env arr target k s p s') : Alone arr s' := by
  obtain ⟨hheld, ⟨status, hexit⟩ | ⟨⟨status, hexited⟩, -⟩⟩ := h
  · obtain ⟨rfl, rfl⟩ := procs_singleton hexit hp
    cases hmoves with
    | exit =>
        refine ⟨?_, .inr ⟨⟨status, by simp [hexit]⟩, by simp⟩⟩
        exact Streams.held_flush.trans hheld
  · obtain ⟨rfl, rfl⟩ := procs_singleton hexited hp
    cases hmoves

theorem phase_reachable {s : State}
    (h : Reachable (binarySearch env arr target) (initial env arr) s) :
    Phase env arr target s := by
  refine h.invariant (.before ⟨rfl, .inl rfl⟩) fun k s s' hphase _ hs => ?_
  obtain ⟨p, hp, hmoves⟩ := binarySearch_moves hs
  cases hphase with
  | before hbefore => exact hbefore.step hp hmoves
  | alone hnone halone => exact .alone hnone (halone.step hp hmoves)
  | forked hfork hholding =>
      exact .forked hfork (hmoves.writes.holding (List.getElem?_eq_some_iff.mp hp).1 hholding)

/-- Nothing pending at the fork, nothing repeated. -/
theorem once_of_nothingPending (hnothing : NothingPending env) {s : State}
    (h : Reachable (binarySearch env arr target) (initial env arr) s) :
    Once (preludeText arr) s.stdout := by
  obtain ⟨hheld, hrest⟩ := mainStdout_held env arr
  have hclean : (mainStdout env arr).Clean Marked.mark := by
    intro k
    by_cases hk : k = 0
    · -- before the first fork only `main` has a buffer
      rw [hk, ← List.length_eq_zero_iff, ← List.countP_eq_length_filter]
      exact (mainStdout_pending env arr).mpr hnothing
    · rw [hrest k hk, List.filter_nil]
  refine (h.invariant (I := fun s => s.stdout.Clean Marked.mark ∧ Once (preludeText arr) s.stdout)
    ⟨hclean, ?_⟩ fun k s s' ⟨hI, honce⟩ _ hs => ?_).2
  · rw [Once, ← hheld, hclean.held_eq]
    rfl
  · obtain ⟨p, hp, hmoves⟩ := binarySearch_moves hs
    obtain ⟨hclean', heq⟩ := hmoves.writes.clean hI
    exact ⟨hclean', heq.trans honce⟩

/-- **The text of the search**: for every array, target, buffering and
interleaving, it is on standard output once exactly if nothing of it is
pending at the first fork, or `main` does not fork. -/
theorem search_once_iff {s : State}
    (h : Reachable (binarySearch env arr target) (initial env arr) s) (hdone : Finished s) :
    Once (preludeText arr) s.stdout ↔ NothingPending env ∨ NoFork env arr target := by
  constructor
  · intro honce
    cases phase_reachable h with
    | before hbefore => exact absurd hdone hbefore.not_finished
    | alone hnone => exact .inr hnone
    | forked _ hholding =>
        -- what was pending at the fork is written twice, so it was nothing
        have hwritten := hholding.written hdone
        have hcount : s.stdout.output.countP Marked.mark = (preludeText arr).length :=
          List.countP_eq_length_filter.trans (congrArg List.length honce)
        exact .inl ((mainStdout_pending env arr).mp (by omega))
  · rintro (hnothing | hnone)
    · exact once_of_nothingPending hnothing h
    · cases phase_reachable h with
      | before hbefore => exact absurd hdone hbefore.not_finished
      | alone _ halone =>
          obtain ⟨hheld, ⟨status, hexit⟩ | ⟨-, hbuffer⟩⟩ := halone
          · exact absurd hdone (not_finished hexit (by simp))
          · rw [Streams.held, hbuffer, List.filter_nil, List.append_nil] at hheld
            exact hheld
      | forked hfork => exact absurd hnone hfork

end OsInParts.BinarySearch
