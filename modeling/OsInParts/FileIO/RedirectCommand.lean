import OsInParts.FileIO.Redirect

/-!
# RedirectCommand — a command with both streams redirected

`part2` saves standard output and standard error and puts both back. As with
`part1` the table of descriptors comes out as it was exactly if both were open
at the start.

Between the redirection and its end everything goes to the file, and that
includes the message of a restoration that fails: standard error is still
redirected when `perror` writes it (`part2_output`).
-/

namespace OsInParts.Redirect

open Lib Lib.Descriptors

variable {ι : Type*} [DecidableEq ι] {env : Env ι} {s s' : State ι}
  {command filename : List UInt8}

/-! ## The command -/

/-- All a command writes. -/
def Env.output (env : Env ι) (command : List UInt8) : List UInt8 :=
  ((env.system command).map Prod.snd).flatten

/-- A command that writes to its standard output and standard error only. -/
def Env.Plain (env : Env ι) (command : List UInt8) : Prop :=
  ∀ out ∈ env.system command, out.1 = stdoutFileno ∨ out.1 = stderrFileno

@[simp] theorem system_fds (env : Env ι) (command : List UInt8) (s : State ι) :
    (s.system env command).process.fds = s.process.fds := by
  unfold State.system
  induction env.system command generalizing s with
  | nil => rfl
  | cons out outs ih => rw [List.foldl_cons, ih, write_fds]

/-- What is written to descriptors of one description. -/
theorem foldl_write {d : ℕ} (outs : List (ℕ × List UInt8)) (s : State ι)
    (houts : ∀ out ∈ outs, s.process.fds out.1 = some d) :
    (outs.foldl (fun s out => s.write out.1 out.2) s).process.kernel
        = s.process.kernel.write d (outs.map Prod.snd).flatten ∧
      (outs.foldl (fun s out => s.write out.1 out.2) s).stdout = s.stdout := by
  induction outs generalizing s with
  | nil => exact ⟨rfl, rfl⟩
  | cons out outs ih =>
      obtain ⟨hkernel, hstdout⟩ := ih (s.write out.1 out.2) fun o ho => by
        rw [write_fds]
        exact houts o (List.mem_cons_of_mem _ ho)
      rw [List.foldl_cons]
      refine ⟨hkernel.trans ?_, hstdout⟩
      rw [List.map_cons, List.flatten_cons, ← Kernel.write_write]
      exact congrArg (Kernel.write d _) (Process.write_kernel (houts out List.mem_cons_self) _)

theorem system_calls (env : Env ι) (command : List UInt8) (s : State ι) :
    (s.system env command).calls = s.calls := by
  unfold State.system
  induction env.system command generalizing s with
  | nil => rfl
  | cons out outs ih => exact ih (s.write out.1 out.2)

/-- The state before the streams are restored. -/
def ran (env : Env ι) (command : List UInt8) (fd : ℕ) (s : State ι) : State ι :=
  ((s.system env command).fflush).close (some fd)

theorem ran_fds (env : Env ι) (command : List UInt8) (fd : ℕ) (s : State ι) :
    (ran env command fd s).process.fds = Function.update s.process.fds fd none := by
  rw [ran, close_fds, fflush_fds, system_fds]

theorem ran_calls (env : Env ι) (command : List UInt8) (fd : ℕ) (s : State ι) :
    (ran env command fd s).calls = s.calls := system_calls env command s

/-! ## The two streams -/

omit [DecidableEq ι] in
/-- A failed `dup` leaves the table alone, another takes a free descriptor. -/
theorem dup_keeps {n k : ℕ} {x : Option ℕ} (h : s.dup env n = (s', x))
    (hk : (s.process.fds k).isSome) :
    s'.process.fds k = s.process.fds k ∧ s'.process.kernel = s.process.kernel ∧
      s'.stdout = s.stdout := by
  cases x with
  | none =>
      rw [call_eq_none h]
      exact ⟨rfl, rfl, rfl⟩
  | some m =>
      obtain ⟨-, hm, hfds, hkernel, hstdout⟩ := dup_eq_some h
      refine ⟨?_, hkernel, hstdout⟩
      rw [hfds, Function.update_of_ne]
      rintro rfl
      rw [hm] at hk
      cases hk

omit [DecidableEq ι] in
theorem dup2Both_eq_some {x y : Option ℕ} {n : ℕ} (h : s.dup2Both env x y = (s', some n)) :
    ∃ s₁ m, s.dup2 env x stdoutFileno = (s₁, some m) ∧
      s₁.dup2 env y stderrFileno = (s', some n) := by
  unfold State.dup2Both at h
  rcases hx : s.dup2 env x stdoutFileno with ⟨s₁, _ | m⟩
  · rw [hx] at h
    cases h
  · rw [hx] at h
    exact ⟨s₁, m, rfl, h⟩

/-- **Both descriptors redirected** to the file. -/
structure BothRedirected (s s₄ : State ι) (j : ι) : Prop where
  kernel : s₄.process.kernel = s.process.kernel.create j
  stdout : s₄.stdout = s.stdout
  out : s₄.process.fds stdoutFileno = some s.process.kernel.opened
  err : s₄.process.fds stderrFileno = some s.process.kernel.opened
  calls : s₄.calls = s.calls + 5

theorem both_redirected {s₁ s₂ s₃ s₄ : State ι} {fd n : ℕ} {x y : Option ℕ}
    (hopen : s.open env filename = (s₁, some fd)) (hdup : s₁.dup env stdoutFileno = (s₂, x))
    (hdup' : s₂.dup env stderrFileno = (s₃, y))
    (hredirect : s₃.dup2Both env (some fd) (some fd) = (s₄, some n)) :
    ∃ j, env.inode filename = some j ∧ s.process.fds fd = none ∧ BothRedirected s s₄ j := by
  obtain ⟨j, hj, hfd, hfds₁, hk₁, hout₁⟩ := open_eq_some hopen
  obtain ⟨t, m, hfirst, hsecond⟩ := dup2Both_eq_some hredirect
  obtain ⟨_, heq, -, hfds₃, hk₃, hout₃⟩ := dup2_eq_some hfirst
  cases heq
  obtain ⟨_, heq, -, hfds₄, hk₄, hout₄⟩ := dup2_eq_some hsecond
  cases heq
  have hnew : s₁.process.fds fd = some s.process.kernel.opened := by
    rw [hfds₁, Function.update_self]
  obtain ⟨hkeep, hk₂, hout₂⟩ := dup_keeps (k := fd) hdup (by rw [hnew]; rfl)
  obtain ⟨hkeep', hk₂', hout₂'⟩ := dup_keeps (k := fd) hdup' (by rw [hkeep, hnew]; rfl)
  have hfile : s₃.process.fds fd = some s.process.kernel.opened := by rw [hkeep', hkeep, hnew]
  have hboth : t.process.fds fd = some s.process.kernel.opened := by
    rw [hfds₃, hfile]
    by_cases h : fd = stdoutFileno
    · rw [h, Function.update_self]
    · rw [Function.update_of_ne h, hfile]
  refine ⟨j, hj, hfd, ?_, ?_, ?_, ?_, ?_⟩
  · rw [hk₄, hk₃, hk₂', hk₂, hk₁]
  · rw [hout₄, hout₃, hout₂', hout₂, hout₁]
  · rw [hfds₄, Function.update_of_ne (by decide), hfds₃, Function.update_self, hfile]
  · rw [hfds₄, Function.update_self, hboth]
  · rw [call_calls hsecond, call_calls hfirst, call_calls hdup', call_calls hdup,
      call_calls hopen]

/-- All that the command and the process have written is in the file. -/
theorem BothRedirected.ran_kernel {s₄ : State ι} {j : ι} (h : BothRedirected s s₄ j)
    (hplain : env.Plain command) (fd : ℕ) :
    (ran env command fd s₄).process.kernel = (s.process.kernel.create j).write
      s.process.kernel.opened (env.output command ++ s.stdout) := by
  obtain ⟨hkernel, hstdout⟩ :=
    foldl_write (env.system command) s₄ (d := s.process.kernel.opened) fun out hout => by
      rcases hplain out hout with heq | heq
      · rw [heq, h.out]
      · rw [heq, h.err]
  have hout : (s₄.system env command).process.fds stdoutFileno
      = some s.process.kernel.opened := by
    rw [system_fds, h.out]
  refine (Process.write_kernel hout _).trans ?_
  rw [State.system, hkernel, hstdout, Kernel.write_write, h.kernel, h.stdout]
  rfl

/-! ## Runs of `part2` -/

/-- A run past the redirection. -/
structure Past (env : Env ι) (filename : List UInt8) (s s₄ : State ι) (fd : ℕ)
    (x y : Option ℕ) : Prop where
  steps : ∃ s₁ s₂ s₃ n, s.open env filename = (s₁, some fd) ∧
    s₁.dup env stdoutFileno = (s₂, x) ∧ s₂.dup env stderrFileno = (s₃, y) ∧
    s₃.dup2Both env (some fd) (some fd) = (s₄, some n)

theorem Past.part2_eq {s₄ : State ι} {fd : ℕ} {x y : Option ℕ} (h : Past env filename s s₄ fd x y) :
    part2 env command filename s =
      match (ran env command fd s₄).dup2Both env x y with
      | (s, none) => exit (perror env "Failed to restore stdout/stderr" s)
      | (s, some _) => .ok ((s.close x).close y) := by
  obtain ⟨s₁, s₂, s₃, n, hopen, hdup, hdup', hredirect⟩ := h.steps
  simp only [part2, hopen, hdup, hdup', hredirect]
  rfl

theorem part2_eq_ok (h : part2 env command filename s = .ok s') :
    ∃ s₄ fd a b s₅ n, Past env filename s s₄ fd (some a) (some b) ∧
      (ran env command fd s₄).dup2Both env (some a) (some b) = (s₅, some n) ∧
      s' = (s₅.close (some a)).close (some b) := by
  rcases hopen : s.open env filename with ⟨s₁, _ | fd⟩
  · simp [part2, hopen, exit] at h
  rcases hdup : s₁.dup env stdoutFileno with ⟨s₂, x⟩
  rcases hdup' : s₂.dup env stderrFileno with ⟨s₃, y⟩
  rcases hredirect : s₃.dup2Both env (some fd) (some fd) with ⟨s₄, _ | n⟩
  · simp [part2, hopen, hdup, hdup', hredirect, exit] at h
  have hpast : Past env filename s s₄ fd x y := ⟨s₁, s₂, s₃, n, hopen, hdup, hdup', hredirect⟩
  rw [hpast.part2_eq] at h
  rcases hrestore : (ran env command fd s₄).dup2Both env x y with ⟨s₅, _ | m⟩
  · rw [hrestore] at h
    cases h
  · rw [hrestore] at h
    cases h
    obtain ⟨t, k, hfirst, hsecond⟩ := dup2Both_eq_some hrestore
    obtain ⟨a, rfl, -⟩ := dup2_eq_some hfirst
    obtain ⟨b, rfl, -⟩ := dup2_eq_some hsecond
    exact ⟨s₄, fd, a, b, s₅, m, hpast, hrestore, rfl⟩

/-- The descriptors of a process up to the end of the redirection, change by
change: the file, the two copies, and the two streams. -/
structure Copies (s : State ι) (fd a b : ℕ) (t₁ t₂ t₅ : Table ℕ) : Prop where
  opened : t₁ = Function.update s.process.fds fd (some s.process.kernel.opened)
  duplicated : t₂ = Function.update t₁ a (t₁ stdoutFileno)
  redirected : t₅ = Function.update (Function.update (Function.update (Function.update t₂ b
    (t₂ stderrFileno)) stdoutFileno (some s.process.kernel.opened)) stderrFileno
    (some s.process.kernel.opened)) fd none
  fd_free : s.process.fds fd = none
  a_free : t₁ a = none
  b_free : t₂ b = none
  out_used : (t₁ stdoutFileno).isSome
  err_used : (t₂ stderrFileno).isSome

/-- And after the streams have been put back. -/
structure Restored (s s' : State ι) (fd a b : ℕ) (t₁ t₂ t₅ : Table ℕ) : Prop
    extends Copies s fd a b t₁ t₂ t₅ where
  restored : s'.process.fds = Function.update (Function.update (Function.update (Function.update
    t₅ stdoutFileno (t₅ a)) stderrFileno (Function.update t₅ stdoutFileno (t₅ a) b)) a none) b none
  a_used : (t₅ a).isSome
  b_used : (Function.update t₅ stdoutFileno (t₅ a) b).isSome

theorem Past.copies {s₄ : State ι} {fd a b : ℕ}
    (h : Past env filename s s₄ fd (some a) (some b)) :
    ∃ t₁ t₂, Copies s fd a b t₁ t₂ (Function.update s₄.process.fds fd none) := by
  obtain ⟨s₁, s₂, s₃, m, hopen, hdup, hdup', hredirect⟩ := h.steps
  obtain ⟨j, hj, hfd, hred⟩ := both_redirected hopen hdup hdup' hredirect
  obtain ⟨_, -, -, hfds₁, -⟩ := open_eq_some hopen
  obtain ⟨hout, ha, hfds₂, -⟩ := dup_eq_some hdup
  obtain ⟨herr, hb, hfds₃, -⟩ := dup_eq_some hdup'
  obtain ⟨t, k, hfirst, hsecond⟩ := dup2Both_eq_some hredirect
  obtain ⟨_, heq, -, hfds, -⟩ := dup2_eq_some hfirst
  cases heq
  obtain ⟨_, heq, -, hfds₄, -⟩ := dup2_eq_some hsecond
  cases heq
  have htarget : s₃.process.fds fd = some s.process.kernel.opened := by
    rw [← hred.out, hfds₄, Function.update_of_ne (by decide), hfds, Function.update_self]
  have htarget' : t.process.fds fd = some s.process.kernel.opened := by
    rw [← hred.err, hfds₄, Function.update_self]
  refine ⟨s₁.process.fds, s₂.process.fds, hfds₁, hfds₂, ?_, hfd, ha, hb, hout, herr⟩
  rw [hfds₄, htarget', hfds, htarget, hfds₃]

theorem part2_restored (h : part2 env command filename s = .ok s') :
    (∃ fd a b t₁ t₂ t₅, Restored s s' fd a b t₁ t₂ t₅) ∧ s'.stdout = [] ∧
      ∃ j, env.inode filename = some j ∧ (env.Plain command →
        s'.process.kernel = (s.process.kernel.create j).write s.process.kernel.opened
          (env.output command ++ s.stdout)) := by
  obtain ⟨s₄, fd, a, b, s₅, n, hpast, hrestore, rfl⟩ := part2_eq_ok h
  obtain ⟨t₁, t₂, hcopies⟩ := hpast.copies
  obtain ⟨s₁, s₂, s₃, m, hopen, hdup, hdup', hredirect⟩ := hpast.steps
  obtain ⟨j, hj, -, hred⟩ := both_redirected hopen hdup hdup' hredirect
  obtain ⟨t, k, hfirst, hsecond⟩ := dup2Both_eq_some hrestore
  obtain ⟨_, heq, haused, hfdsa, hka, houta⟩ := dup2_eq_some hfirst
  cases heq
  obtain ⟨_, heq, hbused, hfdsb, hkb, houtb⟩ := dup2_eq_some hsecond
  cases heq
  have hran := ran_fds env command fd s₄
  rw [hran] at haused
  rw [hfdsa, hran] at hbused
  refine ⟨⟨fd, a, b, t₁, t₂, _, hcopies, ?_, haused, hbused⟩, ?_, j, hj, fun hplain => ?_⟩
  · rw [close_fds, close_fds, hfdsb, hfdsa, hran]
  · exact (houtb.trans houta).trans rfl
  · exact (hkb.trans hka).trans (hred.ran_kernel hplain fd)

section Restored

variable {fd a b : ℕ} {t₁ t₂ t₅ : Table ℕ}

theorem ne_of_used {t : Table ℕ} {k m : ℕ} (hk : (t k).isSome) (hm : t m = none) : k ≠ m := by
  rintro rfl
  rw [hm] at hk
  cases hk

omit [DecidableEq ι] in
/-- Where both streams are open, the copies are good. -/
theorem Copies.saved (h : Copies s fd a b t₁ t₂ t₅)
    (hout : (s.process.fds stdoutFileno).isSome) (herr : (s.process.fds stderrFileno).isSome) :
    (t₅ a = s.process.fds stdoutFileno ∧ t₅ b = s.process.fds stderrFileno) ∧
      (s.process.fds a = none ∧ s.process.fds b = none) ∧ b ≠ stdoutFileno := by
  have hout_fd := ne_of_used hout h.fd_free
  have herr_fd := ne_of_used herr h.fd_free
  have hout₁ : t₁ stdoutFileno = s.process.fds stdoutFileno := by
    rw [h.opened, Function.update_of_ne hout_fd]
  have herr₁ : t₁ stderrFileno = s.process.fds stderrFileno := by
    rw [h.opened, Function.update_of_ne herr_fd]
  have hfd₁ : (t₁ fd).isSome := by
    rw [h.opened, Function.update_self]
    rfl
  -- the first copy is a descriptor of its own
  have hout_a := ne_of_used h.out_used h.a_free
  have herr_a : stderrFileno ≠ a := ne_of_used (by rwa [herr₁]) h.a_free
  have hfd_a := ne_of_used hfd₁ h.a_free
  have ha₂ : t₂ a = s.process.fds stdoutFileno := by
    rw [h.duplicated, Function.update_self, hout₁]
  have hkeep : ∀ k ≠ a, t₂ k = t₁ k := fun k hk => by
    rw [h.duplicated, Function.update_of_ne hk]
  -- and so is the second
  have hout_b : stdoutFileno ≠ b := ne_of_used (by rw [hkeep _ hout_a]; exact h.out_used) h.b_free
  have herr_b := ne_of_used h.err_used h.b_free
  have hfd_b : fd ≠ b := ne_of_used (by rwa [hkeep _ hfd_a]) h.b_free
  have hab : a ≠ b := ne_of_used (by rwa [ha₂]) h.b_free
  refine ⟨⟨?_, ?_⟩, ⟨?_, ?_⟩, hout_b.symm⟩
  · rw [h.redirected, Function.update_of_ne hfd_a.symm, Function.update_of_ne herr_a.symm,
      Function.update_of_ne hout_a.symm, Function.update_of_ne hab, ha₂]
  · rw [h.redirected, Function.update_of_ne hfd_b.symm, Function.update_of_ne herr_b.symm,
      Function.update_of_ne hout_b.symm, Function.update_self, hkeep _ herr_a, herr₁]
  · rw [← h.a_free, h.opened, Function.update_of_ne hfd_a.symm]
  · rw [← h.b_free, hkeep _ hab.symm, h.opened, Function.update_of_ne hfd_b.symm]

omit [DecidableEq ι] in
/-- Two open streams are what they were. -/
theorem Restored.same (h : Restored s s' fd a b t₁ t₂ t₅)
    (hout : (s.process.fds stdoutFileno).isSome) (herr : (s.process.fds stderrFileno).isSome) :
    s'.process.fds = s.process.fds := by
  obtain ⟨⟨ha, hb⟩, ⟨hafree, hbfree⟩, hout_b⟩ := h.toCopies.saved hout herr
  have hagrees : Agrees [stderrFileno, stdoutFileno, b, a] s.process.fds t₅ := by
    rw [h.redirected, h.duplicated, h.opened]
    refine Agrees.restore (S := [stderrFileno, stdoutFileno, b, a, fd]) ?_ h.fd_free.symm
      (by simp +contextual)
    exact (((((Agrees.refl _).update fd _).update a _).update b _).update stdoutFileno _).update
      stderrFileno _
  have hfinal := h.restored
  rw [Function.update_of_ne hout_b, ha, hb] at hfinal
  rw [hfinal]
  refine Agrees.eq ((((hagrees.restore (R := [stderrFileno, b, a]) rfl ?_).restore
    (R := [b, a]) rfl ?_).restore (R := [b]) hafree.symm ?_).restore hbfree.symm ?_)
  all_goals simp +contextual

omit [DecidableEq ι] in
/-- Both streams were open if the descriptors are what they were. -/
theorem Restored.opened_both (h : Restored s s' fd a b t₁ t₂ t₅)
    (hsame : s'.process.fds = s.process.fds) :
    (s.process.fds stdoutFileno).isSome ∧ (s.process.fds stderrFileno).isSome := by
  have hout_a := ne_of_used h.out_used h.a_free
  have hout_b : stdoutFileno ≠ b :=
    ne_of_used (by rw [h.duplicated, Function.update_of_ne hout_a]; exact h.out_used) h.b_free
  have herr_b := ne_of_used h.err_used h.b_free
  have hlast : s.process.fds stdoutFileno = t₅ a := by
    rw [← hsame, h.restored, Function.update_of_ne hout_b, Function.update_of_ne hout_a,
      Function.update_of_ne (by decide), Function.update_self]
  have hout : (s.process.fds stdoutFileno).isSome := by
    rw [hlast]
    exact h.a_used
  refine ⟨hout, ?_⟩
  by_cases herr_a : stderrFileno = a
  · -- the copy of standard output was overwritten with the file
    have hfile : t₅ a = some s.process.kernel.opened := by
      have hne : a ≠ fd := by
        rintro rfl
        have hused := h.a_used
        rw [h.redirected, Function.update_self] at hused
        cases hused
      rw [h.redirected, Function.update_of_ne hne, ← herr_a, Function.update_self]
    exact absurd (s.process.valid _ _ (hlast.trans hfile)) (Nat.lt_irrefl _)
  · have hlast' : s.process.fds stderrFileno = Function.update t₅ stdoutFileno (t₅ a) b := by
      rw [← hsame, h.restored, Function.update_of_ne herr_b, Function.update_of_ne herr_a,
        Function.update_self]
    rw [hlast']
    exact h.b_used

end Restored

/-! ## Results -/

omit [DecidableEq ι] in
theorem dup2Both_calls {x y : Option ℕ} {n : ℕ} (h : s.dup2Both env x y = (s', some n)) :
    s'.calls = s.calls + 2 ∧ env.fails s.calls = false ∧ env.fails (s.calls + 1) = false := by
  obtain ⟨t, m, hfirst, hsecond⟩ := dup2Both_eq_some h
  have hcalls := call_calls hfirst
  obtain ⟨hf, -⟩ := dup2_isSome.mp (congrArg (·.2.isSome) hfirst)
  obtain ⟨hf', -⟩ := dup2_isSome.mp (congrArg (·.2.isSome) hsecond)
  rw [hcalls] at hf'
  exact ⟨by rw [call_calls hsecond, hcalls], hf, hf'⟩

omit [DecidableEq ι] in
/-- Both calls of a pair succeed on descriptors that are in use. -/
theorem dup2Both_isSome {a b : ℕ} (hlimit : 2 < env.limit)
    (hf : env.fails s.calls = false) (hf' : env.fails (s.calls + 1) = false)
    (ha : (s.process.fds a).isSome) (hb : (s.process.fds b).isSome) :
    ∃ s' n, s.dup2Both env (some a) (some b) = (s', some n) := by
  obtain ⟨t, m, hfirst⟩ := exists_of_isSome (dup2_isSome (n := stdoutFileno).mpr
    ⟨hf, ⟨a, rfl, ha⟩, by rw [stdoutFileno]; omega⟩)
  obtain ⟨_, heq, -, hfds, -⟩ := dup2_eq_some hfirst
  cases heq
  have hb' : (t.process.fds b).isSome := by
    rw [hfds]
    by_cases h : b = stdoutFileno
    · rw [h, Function.update_self]
      exact ha
    · rwa [Function.update_of_ne h]
  obtain ⟨s', n, hsecond⟩ := exists_of_isSome (dup2_isSome (n := stderrFileno).mpr
    ⟨by rwa [call_calls hfirst], ⟨b, rfl, hb'⟩, by rwa [stderrFileno]⟩)
  exact ⟨s', n, by rw [State.dup2Both, hfirst]; exact hsecond⟩

theorem Past.room {s₄ : State ι} {fd a b : ℕ}
    (h : Past env filename s s₄ fd (some a) (some b)) :
    (env.inode filename).isSome ∧ 3 ≤ (free env.limit s.process.fds).card ∧
      s₄.calls = s.calls + 5 ∧ ∀ k < 5, env.fails (s.calls + k) = false := by
  obtain ⟨s₁, s₂, s₃, n, hopen, hdup, hdup', hredirect⟩ := h.steps
  obtain ⟨hf₀, hinode, -⟩ := open_isSome.mp (congrArg (·.2.isSome) hopen)
  obtain ⟨hf₁, -⟩ := dup_isSome.mp (congrArg (·.2.isSome) hdup)
  obtain ⟨hf₂, -, hroom⟩ := dup_isSome.mp (congrArg (·.2.isSome) hdup')
  obtain ⟨hcalls, hf₃, hf₄⟩ := dup2Both_calls hredirect
  have hc₁ := call_calls hopen
  have hc₂ := call_calls hdup
  have hc₃ := call_calls hdup'
  have hfree := open_free hopen
  have hfree' := dup_free hdup
  rw [hc₁] at hf₁
  rw [hc₂, hc₁] at hf₂
  rw [hc₃, hc₂, hc₁] at hf₃ hf₄
  refine ⟨hinode, by omega, by omega, fun k hk => ?_⟩
  obtain rfl | rfl | rfl | rfl | rfl : k = 0 ∨ k = 1 ∨ k = 2 ∨ k = 3 ∨ k = 4 := by omega
  · exact hf₀
  · exact hf₁
  · exact hf₂
  · exact hf₃
  · exact hf₄

/-- The redirection succeeds with a free descriptor for the file, whatever
becomes of the two copies. -/
theorem past_of_room (hinode : (env.inode filename).isSome)
    (hroom : 0 < (free env.limit s.process.fds).card) (hlimit : 2 < env.limit)
    (hf₀ : env.fails s.calls = false) (hf₃ : env.fails (s.calls + 3) = false)
    (hf₄ : env.fails (s.calls + 4) = false) :
    ∃ s₄ fd x y, Past env filename s s₄ fd x y := by
  obtain ⟨s₁, fd, hopen⟩ := exists_of_isSome (open_isSome.mpr ⟨hf₀, hinode, hroom⟩)
  obtain ⟨j, -, hfd, hfds₁, -⟩ := open_eq_some hopen
  rcases hdup : s₁.dup env stdoutFileno with ⟨s₂, x⟩
  rcases hdup' : s₂.dup env stderrFileno with ⟨s₃, y⟩
  have hnew : s₁.process.fds fd = some s.process.kernel.opened := by
    rw [hfds₁, Function.update_self]
  have hkeep := (dup_keeps (k := fd) hdup (by rw [hnew]; rfl)).1
  have hkeep' := (dup_keeps (k := fd) hdup' (by rw [hkeep, hnew]; rfl)).1
  have hused : (s₃.process.fds fd).isSome := by
    rw [hkeep', hkeep, hnew]
    rfl
  have hcalls : s₃.calls = s.calls + 3 := by
    rw [call_calls hdup', call_calls hdup, call_calls hopen]
  obtain ⟨s₄, n, hredirect⟩ := dup2Both_isSome (s := s₃) hlimit (by rwa [hcalls])
    (by rwa [hcalls]) hused hused
  exact ⟨s₄, fd, x, y, s₁, s₂, s₃, n, hopen, hdup, hdup', hredirect⟩

/-- `part2` comes back with the table of descriptors it started with exactly
if both streams were open, and a plain command has written to the file only. -/
theorem part2_holds (h : part2 env command filename s = .ok s') :
    (env.Plain command → Holds env filename (env.output command ++ s.stdout) s s') ∧
      (s'.process.fds = s.process.fds ↔
        (s.process.fds stdoutFileno).isSome ∧ (s.process.fds stderrFileno).isSome) := by
  obtain ⟨⟨fd, a, b, t₁, t₂, t₅, hrestored⟩, hstdout, j, hj, hkernel⟩ := part2_restored h
  exact ⟨fun hplain => .of_kernel hj (hkernel hplain) hstdout,
    hrestored.opened_both, fun ⟨hout, herr⟩ => hrestored.same hout herr⟩

/-- When `part2` comes back. -/
theorem part2_returns (hout : (s.process.fds stdoutFileno).isSome)
    (herr : (s.process.fds stderrFileno).isSome) :
    (∃ s', part2 env command filename s = .ok s') ↔ (env.inode filename).isSome ∧
      3 ≤ (free env.limit s.process.fds).card ∧ ∀ k < 7, env.fails (s.calls + k) = false := by
  constructor
  · rintro ⟨s', h⟩
    obtain ⟨s₄, fd, a, b, s₅, n, hpast, hrestore, -⟩ := part2_eq_ok h
    obtain ⟨hinode, hroom, hcalls, hfails⟩ := hpast.room
    obtain ⟨-, hf₅, hf₆⟩ := dup2Both_calls hrestore
    rw [ran_calls, hcalls] at hf₅ hf₆
    refine ⟨hinode, hroom, fun k hk => ?_⟩
    obtain hlt | rfl | rfl : k < 5 ∨ k = 5 ∨ k = 6 := by omega
    · exact hfails k hlt
    · exact hf₅
    · exact hf₆
  · rintro ⟨hinode, hroom, hfails⟩
    have hlimit := free_le_limit env.limit s.process.fds
    obtain ⟨s₄, fd, x, y, s₁, s₂, s₃, n, hopen, hdup, hdup', hredirect⟩ :=
      past_of_room hinode (by omega) (by omega) (hfails 0 (by omega)) (hfails 3 (by omega))
        (hfails 4 (by omega))
    obtain ⟨j, -, hfd, hfds₁, -⟩ := open_eq_some hopen
    have hfree := open_free hopen
    have hc₁ := call_calls hopen
    have hc₂ := call_calls hdup
    have hout₁ : (s₁.process.fds stdoutFileno).isSome := by
      rwa [hfds₁, Function.update_of_ne (ne_of_used hout hfd)]
    have herr₁ : (s₁.process.fds stderrFileno).isSome := by
      rwa [hfds₁, Function.update_of_ne (ne_of_used herr hfd)]
    -- with room for them the two copies are made
    have hx := dup_isSome.mpr ⟨by rw [hc₁]; exact hfails 1 (by omega), hout₁, by omega⟩
    rw [hdup] at hx
    obtain ⟨a, rfl⟩ := Option.isSome_iff_exists.mp hx
    have hfree' := dup_free hdup
    have herr₂ : (s₂.process.fds stderrFileno).isSome := by
      rwa [(dup_keeps hdup herr₁).1]
    have hy := dup_isSome.mpr ⟨by rw [hc₂, hc₁]; exact hfails 2 (by omega), herr₂, by omega⟩
    rw [hdup'] at hy
    obtain ⟨b, rfl⟩ := Option.isSome_iff_exists.mp hy
    have hpast : Past env filename s s₄ fd (some a) (some b) :=
      ⟨s₁, s₂, s₃, n, hopen, hdup, hdup', hredirect⟩
    obtain ⟨-, -, hcalls, -⟩ := hpast.room
    obtain ⟨t₁, t₂, hcopies⟩ := hpast.copies
    obtain ⟨⟨hsaved, hsaved'⟩, -, -⟩ := hcopies.saved hout herr
    have hlimit' : 2 < env.limit := by omega
    obtain ⟨s₅, m, hrestore⟩ := dup2Both_isSome (s := ran env command fd s₄) (a := a) (b := b)
      hlimit' (by rw [ran_calls, hcalls]; exact hfails 5 (by omega))
      (by rw [ran_calls, hcalls]; exact hfails 6 (by omega)) (by rwa [ran_fds, hsaved])
      (by rwa [ran_fds, hsaved'])
    exact ⟨_, by rw [hpast.part2_eq, hrestore]⟩

/-- **A command with both streams redirected**, for every table of descriptors,
every command and whatever fails: when `part2` comes back the table is what it
was exactly if both streams were open, and if the command writes to its two
streams only, the file holds just what it wrote and what was pending. With both
streams open it comes back exactly if the file can be opened, there is room for
three more descriptors, and none of the seven calls fails. -/
theorem part2_restores (env : Env ι) (command filename : List UInt8) (s : State ι) :
    (∀ s', part2 env command filename s = .ok s' →
      (env.Plain command → Holds env filename (env.output command ++ s.stdout) s s') ∧
        (s'.process.fds = s.process.fds ↔
          (s.process.fds stdoutFileno).isSome ∧ (s.process.fds stderrFileno).isSome)) ∧
    ((s.process.fds stdoutFileno).isSome → (s.process.fds stderrFileno).isSome →
      ((∃ s', part2 env command filename s = .ok s') ↔ (env.inode filename).isSome ∧
        3 ≤ (free env.limit s.process.fds).card ∧ ∀ k < 7, env.fails (s.calls + k) = false)) :=
  ⟨fun _ h => part2_holds h, fun hout herr => part2_returns hout herr⟩

omit [DecidableEq ι] in
/-- A pair of calls that fails has not touched standard error, and has
written nothing. -/
theorem dup2Both_eq_none {x y : Option ℕ} (h : s.dup2Both env x y = (s', none)) :
    s'.process.fds stderrFileno = s.process.fds stderrFileno ∧
      s'.process.kernel = s.process.kernel ∧ s'.stdout = s.stdout := by
  unfold State.dup2Both at h
  rcases hx : s.dup2 env x stdoutFileno with ⟨t, _ | m⟩
  · rw [hx] at h
    cases h
    rw [call_eq_none hx]
    exact ⟨rfl, rfl, rfl⟩
  · rw [hx] at h
    obtain ⟨a, -, -, hfds, hkernel, hstdout⟩ := dup2_eq_some hx
    rw [call_eq_none h]
    exact ⟨by rw [hfds, Function.update_of_ne (by decide)], hkernel, hstdout⟩

/-- **The file gets everything**, also the message about a restoration that
failed: of a run that gets past the redirection nothing reaches what the
standard streams were before, whether it comes back or exits. -/
theorem part2_output (env : Env ι) (command filename : List UInt8) (s : State ι)
    (hout : (s.process.fds stdoutFileno).isSome) (herr : (s.process.fds stderrFileno).isSome)
    (hplain : env.Plain command)
    (hinode : (env.inode filename).isSome) (hroom : 0 < (free env.limit s.process.fds).card)
    (hlimit : 2 < env.limit)
    (hf : env.fails s.calls = false ∧ env.fails (s.calls + 3) = false ∧
      env.fails (s.calls + 4) = false) :
    match part2 env command filename s with
    | .ok s' => Holds env filename (env.output command ++ s.stdout) s s' ∧
        s'.process.fds = s.process.fds
    | .error s' => ∃ k, Holds env filename (env.output command ++ s.stdout ++
        message env "Failed to restore stdout/stderr" k) s s' := by
  obtain ⟨s₄, fd, x, y, hpast⟩ := past_of_room hinode hroom hlimit hf.1 hf.2.1 hf.2.2
  obtain ⟨s₁, s₂, s₃, n, hopen, hdup, hdup', hredirect⟩ := hpast.steps
  obtain ⟨j, hj, hfd, hred⟩ := both_redirected hopen hdup hdup' hredirect
  have hkernel := hred.ran_kernel hplain fd
  cases hrun : part2 env command filename s with
  | ok s' =>
      obtain ⟨hholds, hsame⟩ := part2_holds hrun
      exact ⟨hholds hplain, hsame.mpr ⟨hout, herr⟩⟩
  | error s' =>
      rw [hpast.part2_eq] at hrun
      rcases hrestore : (ran env command fd s₄).dup2Both env x y with ⟨s₅, _ | m⟩
      · rw [hrestore] at hrun
        cases hrun
        obtain ⟨herr₅, hkernel₅, hstdout₅⟩ := dup2Both_eq_none hrestore
        have htarget : s₅.process.fds stderrFileno = some s.process.kernel.opened := by
          rw [herr₅, ran_fds, Function.update_of_ne (ne_of_used herr hfd), hred.err]
        refine ⟨s₅.calls, .of_kernel hj ?_ rfl⟩
        -- nothing is pending when the process exits
        have hnothing : (perror env "Failed to restore stdout/stderr" s₅).stdout = [] :=
          hstdout₅.trans rfl
        rw [fflush_of_nil hnothing]
        refine (Process.write_kernel htarget _).trans ?_
        rw [hkernel₅, hkernel, Kernel.write_write]
      · rw [hrestore] at hrun
        cases hrun

/-! ## The program -/

theorem finish_zero {r : Except (State ι) (State ι)} (h : finish r = (0, s')) :
    ∃ t, r = .ok t ∧ s' = t.fflush := by
  cases r with
  | ok t =>
      cases h
      exact ⟨t, rfl, rfl⟩
  | error t => cases h

/-- A program that exits with status 0 has done one of its two jobs, and its
standard streams are what they were. -/
theorem main_zero {argv : List (List UInt8)} (hout : (s.process.fds stdoutFileno).isSome)
    (herr : (s.process.fds stderrFileno).isSome) (hstdout : s.stdout = [])
    (h : main env argv s = (0, s')) : s'.process.fds = s.process.fds ∧
      ((∃ a filename rest, argv = a :: bytes "-p1" :: filename :: rest ∧
          Holds env filename randomText s s') ∨
        ∃ a command filename, argv = [a, bytes "-p2", command, filename] ∧
          (env.Plain command → Holds env filename (env.output command) s s')) := by
  unfold main at h
  split at h
  · rename_i name option a rest
    split at h
    · rename_i hoption
      obtain ⟨t, ht, rfl⟩ := finish_zero h
      obtain ⟨hholds, hsame⟩ := part1_holds ht
      rw [fflush_of_nil hholds.stdout]
      rw [hstdout, List.nil_append] at hholds
      exact ⟨hsame.mpr hout, .inl ⟨name, a, rest, by rw [hoption], hholds⟩⟩
    · split at h
      · rename_i b
        split at h
        · rename_i hoption
          obtain ⟨t, ht, rfl⟩ := finish_zero h
          obtain ⟨-, hnothing, -⟩ := part2_restored ht
          obtain ⟨hholds, hsame⟩ := part2_holds ht
          rw [fflush_of_nil hnothing]
          refine ⟨hsame.mpr ⟨hout, herr⟩, .inr ⟨name, a, b, by rw [hoption], fun hplain => ?_⟩⟩
          rw [← List.append_nil (env.output a), ← hstdout]
          exact hholds hplain
        · cases h
      · cases h
  · cases h

/-- A terminal and a file, and room for one descriptor more. -/
def oneFree : State Bool where
  process :=
    { fds := fun n => if n < 3 then some 0 else none
      kernel :=
        { content := fun _ => []
          descriptions := fun _ => { inode := false, offset := 0, append := true }
          opened := 1 }
      valid := fun n d h => by
        split at h
        · cases h
          exact Nat.one_pos
        · cases h }
  stdout := []
  calls := 0

def oneFreeEnv : Env Bool where
  mode := .full
  limit := 4
  inode := fun _ => some true
  fails := fun _ => false
  strerror := fun _ => []
  system := fun command => [(1, command)]

/-- The terminal is not told that the streams could not be restored. -/
theorem part2_output_oneFree : ∃ s' k, part2 oneFreeEnv [104, 105] [102] oneFree = .error s' ∧
    s'.process.kernel.content true
      = [104, 105] ++ message oneFreeEnv "Failed to restore stdout/stderr" k ∧
    s'.process.kernel.content false = [] := by
  have hplain : oneFreeEnv.Plain [104, 105] := fun out hout => by
    rw [List.mem_singleton.mp hout]
    exact .inl rfl
  have houtput := part2_output oneFreeEnv [104, 105] [102] oneFree rfl rfl hplain rfl
    (by decide) (by decide) ⟨rfl, rfl, rfl⟩
  cases hrun : part2 oneFreeEnv [104, 105] [102] oneFree with
  | ok s' =>
      -- there is no room for the copies
      obtain ⟨-, hroom, -⟩ := (part2_returns rfl rfl).mp ⟨s', hrun⟩
      exact absurd hroom (by decide)
  | error s' =>
      rw [hrun] at houtput
      obtain ⟨k, hholds⟩ := houtput
      obtain ⟨j, hj, hcontent⟩ := hholds.content
      cases hj
      exact ⟨s', k, rfl, by rw [hcontent]; rfl, by rw [hcontent]; rfl⟩

end OsInParts.Redirect
