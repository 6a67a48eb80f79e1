import OsInParts.Forking.Averages

/-!
# AveragesOutput — every line once, every child waited for

At the fork nothing is pending, so a child starts with an empty buffer and
writes its own line only, when it prints it or when it exits. `Lines` says
which children have written so far and that their lines are all there is on
standard output behind the parent's; `Stage` where the parent is and how many
children it has waited for. Every run ends, and where it ends is what the
source has in mind, or what is left of it when a fork fails.
-/

namespace OsInParts.Averages

open Lib.Stdio Lib.Threads

variable {env : Env} {N : Nat} {s s' : State} {order : List Nat}

/-! ## The lines -/

/-- The line of the child is on standard output. -/
def Child.Wrote (mode : Buffering) : Child → Prop
  | .generate _ _ => False
  | .exit => mode = .line
  | .exited | .reaped => True

/-- The buffer of child `c`. -/
def Child.pending (env : Env) (c : Nat) : Child → List Char
  | .exit => match env.mode with
    | .line => []
    | .full => childLine env c
  | _ => []

/-- Behind the line of the parent, standard output is the lines of the children
in `order`, the ones that have written. -/
structure Lines (env : Env) (s : State) (order : List Nat) : Prop where
  parent : s.stdout.buffer 0 = []
  child : ∀ c q, s.children[c]? = some q → s.stdout.buffer (c + 1) = q.pending env c
  output : s.stdout.output = parentLine env ++ (order.map (childLine env)).flatten
  nodup : order.Nodup
  mem : ∀ c, c ∈ order ↔ ∃ q, s.children[c]? = some q ∧ q.Wrote env.mode
  sums : ∀ c i sum, s.children[c]? = some (.generate i sum) → i ≤ 4 ∧ sum = childSum env c i

/-- The steps of the parent that write nothing. -/
theorem Lines.parentMove (h : Lines env s order) (p : Parent) :
    Lines env { s with parent := p } order :=
  ⟨h.parent, h.child, h.output, h.nodup, h.mem, h.sums⟩

/-- A child starts with nothing in its buffer. -/
theorem Lines.fork (h : Lines env s order) (p : Parent) :
    Lines env
      { parent := p
        children := s.children ++ [.generate 0 0]
        stdout := s.stdout.fork 0 (s.children.length + 1) } order where
  parent := by rw [Streams.fork_buffer, Function.update_of_ne (by omega), h.parent]
  child c q hq := by
    rw [Streams.fork_buffer]
    by_cases hc : c = s.children.length
    · subst hc
      rw [List.getElem?_concat_length, Option.some.injEq] at hq
      rw [Function.update_self, h.parent, ← hq]
      rfl
    · rw [Function.update_of_ne (by omega)]
      refine h.child c q ?_
      have hlt := (List.getElem?_eq_some_iff.mp hq).1
      rw [List.length_append, List.length_singleton] at hlt
      rwa [List.getElem?_append_left (by omega)] at hq
  output := h.output
  nodup := h.nodup
  mem c := by
    rw [h.mem c]
    by_cases hc : c < s.children.length
    · rw [List.getElem?_append_left hc]
    · constructor
      · rintro ⟨q, hq, -⟩
        exact absurd (List.getElem?_eq_some_iff.mp hq).1 hc
      · rintro ⟨q, hq, hwrote⟩
        have hmem := List.mem_of_getElem? hq
        rw [List.getElem?_append_right (by omega)] at hq
        rw [List.mem_singleton.mp (List.mem_of_getElem? hq)] at hwrote
        cases hwrote
  sums c i sum hq := by
    by_cases hc : c < s.children.length
    · rw [List.getElem?_append_left hc] at hq
      exact h.sums c i sum hq
    · rw [List.getElem?_append_right (by omega)] at hq
      cases List.mem_singleton.mp (List.mem_of_getElem? hq)
      exact ⟨Nat.zero_le _, rfl⟩

/-- Child `c` goes on to `q'` and writes its line, or does not. -/
theorem Lines.childMove (h : Lines env s order) {c : Nat} {q : Child}
    (hq : s.children[c]? = some q) (q' : Child) (writes : Prop) [Decidable writes]
    (hwrites : writes → ¬ q.Wrote env.mode ∧ q'.Wrote env.mode)
    (hquiet : ¬ writes → (q'.Wrote env.mode ↔ q.Wrote env.mode))
    (hsums : ∀ i sum, q' = .generate i sum → i ≤ 4 ∧ sum = childSum env c i) :
    Lines env
      { s with
        children := s.children.set c q'
        stdout := s.stdout.put (c + 1) (if writes then childLine env c else [])
          (q'.pending env c) }
      (if writes then order ++ [c] else order) := by
  have hlt := (List.getElem?_eq_some_iff.mp hq).1
  have hmem : ∀ d ≠ c, (s.children.set c q')[d]? = s.children[d]? :=
    fun d hd => List.getElem?_set_ne (Ne.symm hd)
  have hself : (s.children.set c q')[c]? = some q' := List.getElem?_set_self hlt
  refine ⟨?_, fun d r hr => ?_, ?_, ?_, fun d => ?_, fun d i sum hd => ?_⟩
  · rw [Streams.put_buffer, Function.update_of_ne (by omega), h.parent]
  · rw [Streams.put_buffer]
    by_cases hd : d = c
    · subst hd
      rw [hself, Option.some.injEq] at hr
      rw [Function.update_self, hr]
    · rw [Function.update_of_ne (by omega)]
      exact h.child d r (by rwa [hmem d hd] at hr)
  · rw [Streams.put_output, h.output]
    split
    · simp
    · simp
  · split
    · rename_i hw
      -- it has not written before
      have hfresh : c ∉ order := by
        intro hc
        obtain ⟨r, hr, hwrote⟩ := (h.mem c).mp hc
        cases hq.symm.trans hr
        exact (hwrites hw).1 hwrote
      exact List.nodup_append.mpr ⟨h.nodup, List.nodup_singleton c, by
        rintro a ha b hb rfl
        rw [List.mem_singleton.mp hb] at ha
        exact hfresh ha⟩
    · exact h.nodup
  · by_cases hd : d = c
    · subst hd
      have hold : d ∈ order ↔ q.Wrote env.mode := by
        rw [h.mem d, hq]
        simp
      rw [hself]
      split
      · rename_i hw
        simpa using (hwrites hw).2
      · rename_i hw
        rw [hold, ← hquiet hw]
        simp
    · rw [hmem d hd, ← h.mem d]
      split
      · simp [hd]
      · rfl
  · by_cases hdc : d = c
    · subst hdc
      rw [hself, Option.some.injEq] at hd
      exact hsums i sum hd
    · rw [hmem d hdc] at hd
      exact h.sums d i sum hd

/-- What a child does. -/
theorem Lines.step (h : Lines env s order) {c : Nat} {q : Child} (hq : s.children[c]? = some q)
    (q' : Child) (stdout : Streams Nat Char)
    (hcase : (∃ i sum, q = .generate i sum ∧ i < 4 ∧
          q' = .generate (i + 1) (sum + (env.rand c i % 100 + 1)) ∧ stdout = s.stdout) ∨
        (∃ i sum, q = .generate i sum ∧ 4 ≤ i ∧ q' = .exit ∧
          stdout = s.stdout.print env.mode newline (c + 1) (childText env c sum)) ∨
        (q = .exit ∧ q' = .exited ∧ stdout = s.stdout.flush (c + 1)) ∨
        (q = .exited ∧ q' = .reaped ∧ stdout = s.stdout)) :
    ∃ order', Lines env { s with children := s.children.set c q', stdout := stdout } order' := by
  have hbuffer := h.child c q hq
  have hmode : env.mode = .line ∨ env.mode = .full := by cases env.mode <;> simp
  have hquiet : stdout = s.stdout.put (c + 1) [] (q'.pending env c) →
      (q'.Wrote env.mode ↔ q.Wrote env.mode) →
      (∀ i sum, q' = .generate i sum → i ≤ 4 ∧ sum = childSum env c i) →
      ∃ order', Lines env { s with children := s.children.set c q', stdout := stdout } order' := by
    intro hstdout hwrote hsums
    have hmove := h.childMove hq q' False (fun hf => hf.elim) (fun _ => hwrote) hsums
    rw [if_neg not_false] at hmove
    exact ⟨order, hstdout ▸ hmove⟩
  have hwrite : stdout = s.stdout.put (c + 1) (childLine env c) (q'.pending env c) →
      ¬ q.Wrote env.mode → q'.Wrote env.mode →
      (∀ i sum, q' = .generate i sum → i ≤ 4 ∧ sum = childSum env c i) →
      ∃ order', Lines env { s with children := s.children.set c q', stdout := stdout } order' := by
    intro hstdout hbefore hafter hsums
    have hmove := h.childMove hq q' True (fun _ => ⟨hbefore, hafter⟩) (fun hf => absurd trivial hf)
      hsums
    rw [if_pos trivial, if_pos trivial] at hmove
    exact ⟨_, hstdout ▸ hmove⟩
  rcases hcase with ⟨i, sum, rfl, hi, rfl, rfl⟩ | ⟨i, sum, rfl, hi, rfl, rfl⟩ |
    ⟨rfl, rfl, rfl⟩ | ⟨rfl, rfl, rfl⟩
  · have hpending : Child.pending env c (.generate (i + 1) (sum + (env.rand c i % 100 + 1)))
        = s.stdout.buffer (c + 1) := hbuffer.symm
    refine hquiet ?_ Iff.rfl fun i' sum' heq => ?_
    · rw [hpending, Streams.put_nil]
    · cases heq
      exact ⟨hi, by rw [(h.sums c i sum hq).2]; rfl⟩
  · -- four numbers are added up when the line is printed
    obtain ⟨hle, hsum⟩ := h.sums c i sum hq
    obtain rfl : i = 4 := by omega
    have htext : childText env c sum = childLine env c := by rw [hsum]; rfl
    have hline : s.stdout.print env.mode newline (c + 1) (childLine env c) = _ :=
      Streams.print_line (c := '\n') rfl hbuffer _
    rcases hmode with hmode | hmode
    · refine hwrite ?_ not_false hmode fun _ _ heq => by cases heq
      rw [htext, hline, Child.pending, hmode]
      rfl
    · refine hquiet ?_ ?_ fun _ _ heq => by cases heq
      · rw [htext, hline, Child.pending, hmode]
        rfl
      · simp [Child.Wrote, hmode]
  · rcases hmode with hmode | hmode
    · refine hquiet ?_ ?_ fun _ _ heq => by cases heq
      · rw [Streams.flush, hbuffer, Child.pending, hmode]
        rfl
      · simp [Child.Wrote, hmode]
    · refine hwrite ?_ (by simp [Child.Wrote, hmode]) trivial fun _ _ heq => by cases heq
      rw [Streams.flush, hbuffer, Child.pending, hmode]
      rfl
  · have hpending : Child.pending env c .reaped = s.stdout.buffer (c + 1) := hbuffer.symm
    refine hquiet ?_ Iff.rfl fun _ _ heq => by cases heq
    rw [hpending, Streams.put_nil]

/-! ## The parent -/

/-- The status the parent exits with: 0 when it has waited for its `N`
children, 1 when a fork has failed, and then it has waited for none. -/
inductive Outcome (env : Env) (N : Nat) (s : State) : Nat → Prop where
  | waited : s.children.length = N → (∀ k < N, env.forkOk k = true) →
      s.children.count .reaped = N → Outcome env N s 0
  | failed : s.children.length < N → (∀ k < s.children.length, env.forkOk k = true) →
      env.forkOk s.children.length = false → s.children.count .reaped = 0 → Outcome env N s 1

/-- What there is by the time the parent is where it is. -/
def Stage (env : Env) (N : Nat) (s : State) : Prop :=
  match s.parent with
  | .start => s.children = [] ∧ s.stdout = initial.stdout
  | .flush => s.children = [] ∧
      s.stdout = initial.stdout.print env.mode newline 0 (parentLine env)
  | .fork i => (∃ order, Lines env s order) ∧ i ≤ N ∧ s.children.length = i ∧
      (∀ k < i, env.forkOk k = true) ∧ s.children.count .reaped = 0
  | .wait j => (∃ order, Lines env s order) ∧ j ≤ N ∧ s.children.length = N ∧
      (∀ k < N, env.forkOk k = true) ∧ s.children.count .reaped = j
  | .exit status | .exited status => (∃ order, Lines env s order) ∧ Outcome env N s status

/-- Where all that are forked are waited for, they are all gone. -/
theorem all_reaped (h : s.children.count .reaped = s.children.length) :
    ∀ q ∈ s.children, q = .reaped :=
  fun q hq => ((List.count_eq_length.mp h) q hq).symm

theorem outcome_congr {status : Nat} (h : Outcome env N s status)
    (hlen : s'.children.length = s.children.length)
    (hcount : s'.children.count .reaped = s.children.count .reaped) :
    Outcome env N s' status := by
  cases h with
  | waited hmany hok hall => exact .waited (hlen.trans hmany) hok (hcount.trans hall)
  | failed hfew hok hfail hnone =>
      exact .failed (hlen ▸ hfew) (hlen ▸ hok) (hlen ▸ hfail) (hcount.trans hnone)

/-- A child moves, and neither is nor becomes `reaped`. -/
theorem Stage.child (h : Stage env N s) {c : Nat} {q : Child} (hq : s.children[c]? = some q)
    (q' : Child) (stdout : Streams Nat Char) (hbefore : q ≠ .reaped) (hafter : q' ≠ .reaped)
    (hlines : ∀ order, Lines env s order → ∃ order',
      Lines env { s with children := s.children.set c q', stdout := stdout } order') :
    Stage env N { s with children := s.children.set c q', stdout := stdout } := by
  have hlen : (s.children.set c q').length = s.children.length := List.length_set
  have hcount : (s.children.set c q').count .reaped = s.children.count .reaped := by
    obtain ⟨hlt, heq⟩ := List.getElem?_eq_some_iff.mp hq
    rw [List.count_set hlt, heq]
    simp [hbefore, hafter]
  unfold Stage at h ⊢
  dsimp only
  cases hp : s.parent with
  | start =>
      rw [hp] at h
      rw [h.1] at hq
      cases hq
  | flush =>
      rw [hp] at h
      rw [h.1] at hq
      cases hq
  | fork i =>
      rw [hp] at h
      obtain ⟨⟨order, hl⟩, hi, hmany, hok, hnone⟩ := h
      exact ⟨hp ▸ hlines order hl, hi, hlen.trans hmany, hok, hcount.trans hnone⟩
  | wait j =>
      rw [hp] at h
      obtain ⟨⟨order, hl⟩, hj, hmany, hok, hdone⟩ := h
      exact ⟨hp ▸ hlines order hl, hj, hlen.trans hmany, hok, hcount.trans hdone⟩
  | exit status =>
      rw [hp] at h
      obtain ⟨⟨order, hl⟩, hout⟩ := h
      exact ⟨hp ▸ hlines order hl, outcome_congr hout hlen hcount⟩
  | exited status =>
      rw [hp] at h
      obtain ⟨⟨order, hl⟩, hout⟩ := h
      exact ⟨hp ▸ hlines order hl, outcome_congr hout hlen hcount⟩

/-- The parent's line is flushed before the first fork. -/
theorem lines_flushed {s : State} (hnil : s.children = [])
    (hstdout : s.stdout = initial.stdout.print env.mode newline 0 (parentLine env)) (p : Parent) :
    Lines env { s with parent := p, stdout := s.stdout.flush 0 } [] := by
  have hline : initial.stdout.print env.mode newline 0 (parentLine env) = _ :=
    Streams.print_line (c := '\n') rfl rfl _
  have hheld : s.stdout.output ++ s.stdout.buffer 0 = parentLine env := by
    rw [hstdout, hline]
    cases env.mode <;> simp [initial, parentLine]
  refine ⟨?_, fun c q hq => ?_, ?_, List.nodup_nil, fun c => ?_, fun c i sum hc => ?_⟩
  · simp
  · rw [hnil] at hq
    cases hq
  · simp [hheld]
  · simp [hnil]
  · rw [hnil] at hc
    cases hc

theorem Stage.step (h : Stage env N s) (hmoves : Moves env N s s') : Stage env N s' := by
  cases hmoves with
  | start hp =>
      simp only [Stage, hp] at h
      exact ⟨h.1, by rw [h.2]⟩
  | flush hp =>
      simp only [Stage, hp] at h
      exact ⟨⟨[], lines_flushed h.1 h.2 _⟩, Nat.zero_le _, by rw [h.1]; rfl, fun k hk => by omega,
        by rw [h.1]; rfl⟩
  | forked i hp hi hok =>
      simp only [Stage, hp] at h
      obtain ⟨⟨order, hl⟩, -, hmany, hoks, hnone⟩ := h
      refine ⟨⟨order, hl.fork _⟩, hi, ?_, fun k hk => ?_, ?_⟩
      · rw [List.length_append, hmany, List.length_singleton]
      · obtain hlt | rfl : k < i ∨ k = i := by omega
        · exact hoks k hlt
        · exact hok
      · rw [List.count_append, hnone]
        rfl
  | unforked i hp hi hfail =>
      simp only [Stage, hp] at h
      obtain ⟨⟨order, hl⟩, -, hmany, hoks, hnone⟩ := h
      exact ⟨⟨order, hl.parentMove _⟩, .failed (hmany ▸ hi) (hmany ▸ hoks) (hmany ▸ hfail) hnone⟩
  | forksDone i hp hi =>
      simp only [Stage, hp] at h
      obtain ⟨⟨order, hl⟩, hle, hmany, hoks, hnone⟩ := h
      obtain rfl : i = N := by omega
      exact ⟨⟨order, hl.parentMove _⟩, Nat.zero_le _, hmany, hoks, hnone⟩
  | noChild j hp hj hall =>
      -- `N` children cannot all be reaped after `j` calls
      simp only [Stage, hp] at h
      obtain ⟨-, -, hmany, -, hcount⟩ := h
      have hlength := List.count_eq_length.mpr fun q hq => (hall q hq).symm
      omega
  | waitsDone j hp hj =>
      simp only [Stage, hp] at h
      obtain ⟨⟨order, hl⟩, hle, hmany, hoks, hcount⟩ := h
      exact ⟨⟨order, hl.parentMove _⟩, .waited hmany hoks (hcount.trans (by omega))⟩
  | parentExit status hp =>
      simp only [Stage, hp] at h
      obtain ⟨⟨order, hl⟩, hout⟩ := h
      have hflush : s.stdout.flush 0 = s.stdout := by
        have hput := Streams.put_nil (s := s.stdout) (i := 0)
        rw [hl.parent] at hput
        rw [Streams.flush, hl.parent, hput]
      exact ⟨⟨order, by rw [hflush]; exact hl.parentMove _⟩, outcome_congr hout rfl rfl⟩
  | reap c j hp hj hc =>
      simp only [Stage, hp] at h
      obtain ⟨⟨order, hl⟩, -, hmany, hoks, hcount⟩ := h
      obtain ⟨order', hl'⟩ := hl.step hc .reaped s.stdout (.inr (.inr (.inr ⟨rfl, rfl, rfl⟩)))
      obtain ⟨hlt, heq⟩ := List.getElem?_eq_some_iff.mp hc
      refine ⟨⟨order', hl'.parentMove _⟩, hj, List.length_set.trans hmany, hoks, ?_⟩
      rw [List.count_set hlt, heq, hcount]
      rfl
  | sum c i sum hc hi =>
      exact h.child hc _ _ (by simp) (by simp) fun order hl =>
        hl.step hc _ _ (.inl ⟨i, sum, rfl, hi, rfl, rfl⟩)
  | print c i sum hc hi =>
      exact h.child hc _ _ (by simp) (by simp) fun order hl =>
        hl.step hc _ _ (.inr (.inl ⟨i, sum, rfl, hi, rfl, rfl⟩))
  | childExit c hc =>
      exact h.child hc _ _ (by simp) (by simp) fun order hl =>
        hl.step hc _ _ (.inr (.inr (.inl ⟨rfl, rfl, rfl⟩)))

theorem stage_reachable (h : Reachable (step env N) initial s) : Stage env N s :=
  h.invariant ⟨rfl, rfl⟩ fun _ _ _ hstage _ hs => hstage.step (step_moves hs)

/-! ## Runs -/

/-- The steps a child still takes, and its parent for it. -/
def Child.rank : Child → Nat
  | .generate i _ => 7 - i
  | .exit => 2
  | .exited => 1
  | .reaped => 0

/-- The steps the parent still takes, with those of the children it forks. -/
def Parent.rank (N : Nat) : Parent → Nat
  | .start => 9 * N + 6
  | .flush => 9 * N + 5
  | .fork i => 8 * (N - i) + N + 4
  | .wait j => (N - j) + 3
  | .exit _ => 1
  | .exited _ => 0

def State.rank (N : Nat) (s : State) : Nat := s.parent.rank N + (s.children.map Child.rank).sum

/-- A child adds up at most four numbers. -/
theorem Stage.generate_le (h : Stage env N s) {c i sum : Nat}
    (hc : s.children[c]? = some (Child.generate i sum)) : i ≤ 4 := by
  have hlines : ∀ order, Lines env s order → i ≤ 4 := fun _ hl => (hl.sums c i sum hc).1
  unfold Stage at h
  split at h
  · rw [h.1] at hc
    cases hc
  · rw [h.1] at hc
    cases hc
  · exact h.1.elim hlines
  · exact h.1.elim hlines
  · exact h.1.elim hlines
  · exact h.1.elim hlines

theorem Moves.rank_lt (hstage : Stage env N s) (h : Moves env N s s') :
    s'.rank N < s.rank N := by
  cases h with
  | start hp => simp only [State.rank, hp, Parent.rank]; omega
  | flush hp => simp only [State.rank, hp, Parent.rank]; omega
  | forked i hp hi =>
      simp only [State.rank, hp, Parent.rank, List.map_append, List.map_cons, List.map_nil,
        List.sum_append, List.sum_cons, List.sum_nil, Child.rank]
      omega
  | unforked i hp hi => simp only [State.rank, hp, Parent.rank]; omega
  | forksDone i hp hi => simp only [State.rank, hp, Parent.rank]; omega
  | noChild j hp hj => simp only [State.rank, hp, Parent.rank]; omega
  | waitsDone j hp hj => simp only [State.rank, hp, Parent.rank]; omega
  | parentExit status hp => simp only [State.rank, hp, Parent.rank]; omega
  | reap c j hp hj hc =>
      have hsum := sum_map_set Child.rank hc Child.reaped
      simp only [State.rank, hp, Parent.rank]
      simp only [Child.rank] at hsum
      omega
  | sum c i total hc hi =>
      have hsum := sum_map_set Child.rank hc
        (Child.generate (i + 1) (total + (env.rand c i % 100 + 1)))
      simp only [State.rank]
      simp only [Child.rank] at hsum
      omega
  | print c i total hc hi =>
      have hle := hstage.generate_le hc
      have hsum := sum_map_set Child.rank hc Child.exit
      simp only [State.rank]
      simp only [Child.rank] at hsum
      omega
  | childExit c hc =>
      have hsum := sum_map_set Child.rank hc Child.exited
      simp only [State.rank]
      simp only [Child.rank] at hsum
      omega

/-- Every child has ended. -/
def AllEnded (s : State) : Prop := ∀ q ∈ s.children, q = .exited ∨ q = .reaped

instance (s : State) : Decidable (AllEnded s) :=
  inferInstanceAs (Decidable (∀ q ∈ s.children, q = .exited ∨ q = .reaped))

/-- A child that has not ended can move. -/
theorem child_moves (h : ¬ AllEnded s) : ∃ e, (step env N e s).isSome := by
  simp only [AllEnded, not_forall, not_or] at h
  obtain ⟨q, hq, hexited, hreaped⟩ := h
  obtain ⟨c, hc⟩ := List.getElem?_of_mem hq
  refine ⟨.child c, ?_⟩
  simp only [step, childStep, hc]
  cases q with
  | generate i sum => rfl
  | exit => rfl
  | exited => exact absurd rfl hexited
  | reaped => exact absurd rfl hreaped

/-- The parent is blocked only while a child it waits for is running. -/
theorem progress (h : Stage env N s) :
    (AllEnded s ∧ ∃ status, s.parent = .exited status) ∨ ∃ e, (step env N e s).isSome := by
  by_cases hended : AllEnded s
  · cases hp : s.parent with
    | exited status => exact .inl ⟨hended, status, rfl⟩
    | wait j =>
        refine .inr ?_
        simp only [Stage, hp] at h
        obtain ⟨-, -, hmany, -, hcount⟩ := h
        by_cases hj : j < N
        · -- not all of them are reaped, so one has ended and is not
          obtain ⟨q, hq, hne⟩ : ∃ q ∈ s.children, q ≠ .reaped := by
            by_contra hall
            have hlength := List.count_eq_length.mpr fun q hq =>
              (not_not.mp fun hne => hall ⟨q, hq, hne⟩ : q = Child.reaped).symm
            omega
          obtain ⟨c, hc⟩ := List.getElem?_of_mem hq
          rw [(hended q hq).resolve_right hne] at hc
          exact ⟨.reap c, by simp [step, reap, hp, hc, hj]⟩
        · exact ⟨.parent, by simp [step, parentStep, hp, hj]⟩
    | start => exact .inr ⟨.parent, by simp [step, parentStep, hp]⟩
    | flush => exact .inr ⟨.parent, by simp [step, parentStep, hp]⟩
    | fork i =>
        refine .inr ⟨.parent, ?_⟩
        simp only [step, parentStep, hp]
        split
        · split <;> rfl
        · rfl
    | exit status => exact .inr ⟨.parent, by simp [step, parentStep, hp]⟩
  · exact .inr (child_moves hended)

/-- Children that have ended have written. -/
theorem Lines.perm (h : Lines env s order) (hended : AllEnded s) :
    order.Perm (List.range s.children.length) := by
  refine (List.perm_ext_iff_of_nodup h.nodup List.nodup_range).mpr fun c => ?_
  rw [h.mem c, List.mem_range]
  constructor
  · rintro ⟨q, hq, -⟩
    exact (List.getElem?_eq_some_iff.mp hq).1
  · intro hc
    refine ⟨s.children[c], List.getElem?_eq_getElem hc, ?_⟩
    rcases hended _ (List.getElem_mem hc) with heq | heq <;> rw [heq] <;> trivial

/-- What the program leaves behind: the line of the parent and then the line of
every child once; with all forks made, no child is left; with the `k`-th fork
failing, `k` children that nobody has waited for. -/
structure Complete (env : Env) (N : Nat) (s : State) : Prop where
  lines : ∃ order : List Nat, order.Perm (List.range s.children.length) ∧
    s.stdout.output = parentLine env ++ (order.map (childLine env)).flatten
  waited : (∀ k < N, env.forkOk k = true) →
    s.parent = .exited 0 ∧ s.children = List.replicate N .reaped
  failed : ∀ k < N, env.forkOk k = false → (∀ i < k, env.forkOk i = true) →
    s.parent = .exited 1 ∧ s.children = List.replicate k .exited

theorem complete (hstage : Stage env N s) (hended : AllEnded s) {status : Nat}
    (hp : s.parent = .exited status) : Complete env N s := by
  simp only [Stage, hp] at hstage
  obtain ⟨⟨order, hl⟩, hout⟩ := hstage
  refine ⟨⟨order, hl.perm hended, hl.output⟩, fun hall => ?_, fun k hk hfail hbefore => ?_⟩
  · cases hout with
    | waited hmany hok hcount =>
        exact ⟨hp, List.eq_replicate_iff.mpr ⟨hmany, all_reaped (hcount.trans hmany.symm)⟩⟩
    | failed hfew hok hfail hnone =>
        rw [hall _ hfew] at hfail
        cases hfail
  · cases hout with
    | waited hmany hok hcount =>
        rw [hok k hk] at hfail
        cases hfail
    | failed hfew hok hfail' hnone =>
        -- the first fork to fail is the one that did
        obtain hlt | heq | hgt := Nat.lt_trichotomy k s.children.length
        · rw [hok k hlt] at hfail
          cases hfail
        · refine ⟨hp, List.eq_replicate_iff.mpr ⟨heq.symm, fun q hq => ?_⟩⟩
          exact (hended q hq).resolve_right fun hq' =>
            List.count_eq_zero.mp hnone (hq' ▸ hq)
        · rw [hbefore _ hgt] at hfail'
          cases hfail'

/-- **Every run ends**, for any number of children, any results of `rand`, any
buffering, any forks that fail and any order of the steps: with the parent's
line and then every child's line once, whole and in some order, and with all
children waited for unless a fork has failed. -/
theorem averages_end (env : Env) (N : Nat) :
    Ends (step env N) (fun _ _ => True) (Complete env N) initial := by
  refine Ends.rule (Stage env N) (State.rank N) (fun e s s' hstage _ hs => ?_)
    (fun s hstage => ?_) ⟨rfl, rfl⟩
  · exact ⟨hstage.step (step_moves hs), (step_moves hs).rank_lt hstage⟩
  · rcases progress hstage with ⟨hended, status, hp⟩ | ⟨e, he⟩
    · exact .inl (complete hstage hended hp)
    · exact .inr ⟨e, trivial, he⟩

/-- **No line is ever torn**: in every state of every run standard output is
empty, or the line of the parent followed by whole lines of different children
that have been forked; and a parent that has exited with status 0 has left
nothing running and nothing unwritten. -/
theorem averages_lines (h : Reachable (step env N) initial s) :
    (s.stdout.output = [] ∨ ∃ order : List Nat, order.Nodup ∧
        (∀ c ∈ order, c < s.children.length) ∧
        s.stdout.output = parentLine env ++ (order.map (childLine env)).flatten) ∧
      (s.parent = .exited 0 → s.children = List.replicate N .reaped ∧
        ∃ order : List Nat, order.Perm (List.range N) ∧
          s.stdout.output = parentLine env ++ (order.map (childLine env)).flatten) := by
  have hstage := stage_reachable h
  have hwhole : (∃ order, Lines env s order) → ∃ order : List Nat, order.Nodup ∧
      (∀ c ∈ order, c < s.children.length) ∧
      s.stdout.output = parentLine env ++ (order.map (childLine env)).flatten := by
    rintro ⟨order, hl⟩
    refine ⟨order, hl.nodup, fun c hc => ?_, hl.output⟩
    obtain ⟨q, hq, -⟩ := (hl.mem c).mp hc
    exact (List.getElem?_eq_some_iff.mp hq).1
  constructor
  · unfold Stage at hstage
    split at hstage
    · exact .inl (by rw [hstage.2]; rfl)
    · have hline : initial.stdout.print env.mode newline 0 (parentLine env) = _ :=
        Streams.print_line (c := '\n') rfl rfl _
      rw [hstage.2, hline]
      cases env.mode with
      | line =>
          refine .inr ⟨[], List.nodup_nil, by simp, ?_⟩
          simp [initial, parentLine]
      | full => exact .inl (by simp [initial])
    · exact .inr (hwhole hstage.1)
    · exact .inr (hwhole hstage.1)
    · exact .inr (hwhole hstage.1)
    · exact .inr (hwhole hstage.1)
  · intro hp
    simp only [Stage, hp] at hstage
    obtain ⟨⟨order, hl⟩, hout⟩ := hstage
    cases hout with
    | waited hmany hok hcount =>
        have hall := all_reaped (hcount.trans hmany.symm)
        have hended : AllEnded s := fun q hq => .inr (hall q hq)
        exact ⟨List.eq_replicate_iff.mpr ⟨hmany, hall⟩, order, hmany ▸ hl.perm hended, hl.output⟩

def fullEnv : Env :=
  { mode := .full, forkOk := fun _ => true, pid := id, rand := fun _ _ => 41 }

/-- One child, forked, run and waited for. -/
theorem averages_lines_one : ∃ s, Reachable (step fullEnv 1) initial s ∧ s.parent = .exited 0 ∧
    ∃ order : List Nat, order.Perm (List.range 1) ∧
      s.stdout.output = parentLine fullEnv ++ (order.map (childLine fullEnv)).flatten := by
  have hexec := Option.eq_some_of_isSome (o := exec (step fullEnv 1) initial
    [.parent, .parent, .parent, .child 0, .child 0, .child 0, .child 0, .child 0, .parent,
      .child 0, .reap 0, .parent, .parent]) rfl
  have hreach := Reachable.exec .start _ hexec
  exact ⟨_, hreach, rfl, ((averages_lines hreach).2 rfl).2⟩

end OsInParts.Averages
