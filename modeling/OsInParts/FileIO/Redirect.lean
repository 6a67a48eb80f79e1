import Mathlib.Data.List.DropRight
import Mathlib.Data.UInt
import OsInParts.Lib.Descriptors
import OsInParts.Lib.Stdio

/-!
# Redirect — standard output into a file and back

`Hard Disk and File IO/q4.c`: `part1` prints a line with standard output
redirected to a file, `part2` runs a command with standard output and
standard error redirected. Both save a descriptor with `dup`, overwrite it
with `dup2` and put it back with another `dup2`.

`open`, `dup` and `dup2` fail as POSIX has it (no such descriptor, no free
one), and may fail for a reason outside the model (`fails`, by the number of
the call). Writes succeed in full. The result of a `dup` is not looked at; a
failed one is noticed when the descriptor is to be restored.
-/

namespace OsInParts.Redirect

open Lib Lib.Descriptors

/-- The bytes of an ASCII text. -/
def bytes (text : String) : List UInt8 := text.toList.map fun c => UInt8.ofNat c.toNat

def newline : UInt8 := 10

/-- `STDOUT_FILENO`. -/
def stdoutFileno : ℕ := 1

/-- `STDERR_FILENO`. -/
def stderrFileno : ℕ := 2

/-- What a run depends on. -/
structure Env (ι : Type*) where
  mode : Stdio.Buffering
  /-- how many descriptors there can be -/
  limit : ℕ
  /-- the file that can be written under a path, which may be new -/
  inode : List UInt8 → Option ι
  /-- the calls that fail for another reason -/
  fails : ℕ → Bool
  /-- the error that `perror` names after so many calls -/
  strerror : ℕ → List UInt8
  /-- what a command writes, and to which of the descriptors it inherits -/
  system : List UInt8 → List (ℕ × List UInt8)

/-- The process, the text pending in `stdout`, and the number of calls so far. -/
@[ext]
structure State (ι : Type*) where
  process : Process ι UInt8
  stdout : List UInt8
  calls : ℕ

variable {ι : Type*} [DecidableEq ι] (env : Env ι)

/-! ## Calls -/

def State.write (n : ℕ) (xs : List UInt8) (s : State ι) : State ι :=
  { s with process := s.process.write n xs }

/-- A call that makes a descriptor, `none` for -1. -/
def State.call (s : State ι) (result : Option (ℕ × Process ι UInt8)) : State ι × Option ℕ :=
  match (if env.fails s.calls then none else result) with
  | none => ({ s with calls := s.calls + 1 }, none)
  | some (n, p) => ({ s with process := p, calls := s.calls + 1 }, some n)

/-- `open(filename, O_WRONLY | O_CREAT | O_TRUNC, 0644)`. -/
def State.open (filename : List UInt8) (s : State ι) : State ι × Option ℕ :=
  s.call env ((env.inode filename).bind (s.process.create env.limit ·))

def State.dup (n : ℕ) (s : State ι) : State ι × Option ℕ :=
  s.call env (s.process.dup env.limit n)

/-- `dup2(old, n)`, whose result is compared with 0; `old` is `none` for -1. -/
def State.dup2 (old : Option ℕ) (n : ℕ) (s : State ι) : State ι × Option ℕ :=
  s.call env (old.bind fun m => (s.process.dup2 env.limit m n).map (n, ·))

def State.close (n : Option ℕ) (s : State ι) : State ι :=
  match n with
  | none => s
  | some n => { s with process := s.process.close n }

/-- `fflush(stdout)`. -/
def State.fflush (s : State ι) : State ι :=
  { s.write stdoutFileno s.stdout with stdout := [] }

/-- `printf` of a text. -/
def State.printf (text : List UInt8) (s : State ι) : State ι :=
  let pending := s.stdout ++ text
  match env.mode with
  | .full => { s with stdout := pending }
  | .line =>
      { s.write stdoutFileno (pending.rdropWhile (· ≠ newline)) with
        stdout := pending.rtakeWhile (· ≠ newline) }

/-- The line that `perror` writes; `stderr` is not buffered. -/
def message (prefixed : String) (calls : ℕ) : List UInt8 :=
  bytes prefixed ++ bytes ": " ++ env.strerror calls ++ [newline]

def perror (prefixed : String) (s : State ι) : State ι :=
  s.write stderrFileno (message env prefixed s.calls)

/-- `exit(1)`, which writes out what is pending. -/
def exit (s : State ι) : Except (State ι) (State ι) := .error s.fflush

/-- `system(command)`: a child that inherits the descriptors has ended. -/
def State.system (command : List UInt8) (s : State ι) : State ι :=
  (env.system command).foldl (fun s out => s.write out.1 out.2) s

/-! ## The program -/

def part1 (filename : List UInt8) (s : State ι) : Except (State ι) (State ι) :=
  match s.open env filename with
  | (s, none) => exit (perror env "Failed to open file" s)
  | (s, some fd) =>
      let (s, savedStdout) := s.dup env stdoutFileno
      match s.dup2 env (some fd) stdoutFileno with
      | (s, none) => exit ((perror env "Failed to redirect stdout" s).close (some fd))
      | (s, some _) =>
          let s := s.printf env (bytes "This is some random text.\n")
          let s := s.fflush.close (some fd)
          match s.dup2 env savedStdout stdoutFileno with
          | (s, none) => exit (perror env "Failed to restore stdout" s)
          | (s, some _) => .ok (s.close savedStdout)

/-- `dup2(a, STDOUT_FILENO) < 0 || dup2(b, STDERR_FILENO) < 0`, with `none` if so. -/
def State.dup2Both (a b : Option ℕ) (s : State ι) : State ι × Option ℕ :=
  match s.dup2 env a stdoutFileno with
  | (s, none) => (s, none)
  | (s, some _) => s.dup2 env b stderrFileno

def part2 (command filename : List UInt8) (s : State ι) : Except (State ι) (State ι) :=
  match s.open env filename with
  | (s, none) => exit (perror env "Failed to open file" s)
  | (s, some fd) =>
      let (s, savedStdout) := s.dup env stdoutFileno
      let (s, savedStderr) := s.dup env stderrFileno
      match s.dup2Both env (some fd) (some fd) with
      | (s, none) => exit ((perror env "Failed to redirect stdout/stderr" s).close (some fd))
      | (s, some _) =>
          -- `stderr` is not buffered, so there is nothing to flush in it
          let s := ((s.system env command).fflush).close (some fd)
          match s.dup2Both env savedStdout savedStderr with
          | (s, none) => exit (perror env "Failed to restore stdout/stderr" s)
          | (s, some _) => .ok ((s.close savedStdout).close savedStderr)

/-- The exit status of the program, and the state it leaves. -/
def finish : Except (State ι) (State ι) → ℕ × State ι
  | .ok s => (0, s.fflush)
  | .error s => (1, s)

/-- A message on standard error and exit status 1. -/
def complain (text : List UInt8) (s : State ι) : ℕ × State ι :=
  (1, (s.write stderrFileno text).fflush)

def main (argv : List (List UInt8)) (s : State ι) : ℕ × State ι :=
  match argv with
  | _ :: option :: a :: rest =>
      if option = bytes "-p1" then finish (part1 env a s)
      else
        match rest with
        | [b] =>
            if option = bytes "-p2" then finish (part2 env a b s)
            else complain (bytes "Invalid arguments\n") s
        | _ => complain (bytes "Invalid arguments\n") s
  | _ =>
      complain (bytes "Usage: " ++ argv.headD (bytes "(null)") ++
        bytes " -p1 <output_file> | -p2 <command> <output_file>\n") s

/-! ## What the calls do -/

section Calls

variable {env} {s s' : State ι} {result : Option (ℕ × Process ι UInt8)} {n m : ℕ}

omit [DecidableEq ι]

theorem call_eq_some (h : s.call env result = (s', some n)) :
    env.fails s.calls = false ∧ ∃ p, result = some (n, p) ∧
      s' = { s with process := p, calls := s.calls + 1 } := by
  unfold State.call at h
  cases hf : env.fails s.calls with
  | true => simp [hf] at h
  | false =>
      rw [hf, if_neg Bool.false_ne_true] at h
      cases result with
      | none => cases h
      | some x =>
          cases h
          exact ⟨rfl, x.2, rfl, rfl⟩

theorem call_eq_none (h : s.call env result = (s', none)) :
    s' = { s with calls := s.calls + 1 } := by
  unfold State.call at h
  split at h <;> cases h
  rfl

theorem call_isSome :
    (s.call env result).2.isSome ↔ env.fails s.calls = false ∧ result.isSome := by
  unfold State.call
  cases env.fails s.calls <;> cases result <;> simp

theorem call_calls {x : Option ℕ} (h : s.call env result = (s', x)) :
    s'.calls = s.calls + 1 := by
  unfold State.call at h
  split at h <;> cases h <;> rfl

theorem dup_eq_some (h : s.dup env n = (s', some m)) :
    (s.process.fds n).isSome ∧ s.process.fds m = none ∧
      s'.process.fds = Function.update s.process.fds m (s.process.fds n) ∧
      s'.process.kernel = s.process.kernel ∧ s'.stdout = s.stdout := by
  obtain ⟨-, p, hp, rfl⟩ := call_eq_some h
  obtain ⟨hused, -, hfree, hfds, hkernel⟩ := Process.dup_eq_some hp
  exact ⟨hused, hfree, hfds, hkernel, rfl⟩

theorem dup2_eq_some {old : Option ℕ} (h : s.dup2 env old n = (s', some m)) :
    ∃ a, old = some a ∧ (s.process.fds a).isSome ∧
      s'.process.fds = Function.update s.process.fds n (s.process.fds a) ∧
      s'.process.kernel = s.process.kernel ∧ s'.stdout = s.stdout := by
  obtain ⟨-, p, hp, rfl⟩ := call_eq_some h
  obtain ⟨a, rfl, hmap⟩ := Option.bind_eq_some_iff.mp hp
  obtain ⟨p', hdup2, heq⟩ := Option.map_eq_some_iff.mp hmap
  cases heq
  obtain ⟨hused, hfds, hkernel⟩ := Process.dup2_eq_some hdup2
  exact ⟨a, rfl, hused, hfds, hkernel, rfl⟩

theorem dup_isSome :
    (s.dup env n).2.isSome ↔ env.fails s.calls = false ∧ (s.process.fds n).isSome ∧
      0 < (free env.limit s.process.fds).card := by
  rw [State.dup, call_isSome, Process.dup_isSome]

theorem dup2_isSome {old : Option ℕ} :
    (s.dup2 env old n).2.isSome ↔ env.fails s.calls = false ∧
      (∃ a, old = some a ∧ (s.process.fds a).isSome) ∧ n < env.limit := by
  rw [State.dup2, call_isSome]
  refine and_congr_right fun _ => ?_
  cases old with
  | none => simp
  | some a => simpa using Process.dup2_isSome

/-- A call that makes a descriptor takes a free one. -/
theorem dup_free (h : s.dup env n = (s', some m)) :
    (free env.limit s'.process.fds).card + 1 = (free env.limit s.process.fds).card := by
  obtain ⟨-, p, hp, rfl⟩ := call_eq_some h
  obtain ⟨hused, hlt, hfree, hfds, -⟩ := Process.dup_eq_some hp
  obtain ⟨d, hd⟩ := Option.isSome_iff_exists.mp hused
  simp only [hfds, hd]
  exact card_free_update hlt hfree

theorem close_fds (n : ℕ) :
    (s.close (some n)).process.fds = Function.update s.process.fds n none := rfl

end Calls

section Files

variable {env} {s s' : State ι} {n fd : ℕ}

theorem open_eq_some {filename : List UInt8} (h : s.open env filename = (s', some fd)) :
    ∃ j, env.inode filename = some j ∧ s.process.fds fd = none ∧
      s'.process.fds = Function.update s.process.fds fd (some s.process.kernel.opened) ∧
      s'.process.kernel = s.process.kernel.create j ∧ s'.stdout = s.stdout := by
  obtain ⟨-, p, hp, rfl⟩ := call_eq_some h
  obtain ⟨j, hj, hcreate⟩ := Option.bind_eq_some_iff.mp hp
  obtain ⟨-, hfree, hfds, hkernel⟩ := Process.create_eq_some hcreate
  exact ⟨j, hj, hfree, hfds, hkernel, rfl⟩

theorem open_isSome {filename : List UInt8} :
    (s.open env filename).2.isSome ↔ env.fails s.calls = false ∧ (env.inode filename).isSome ∧
      0 < (free env.limit s.process.fds).card := by
  rw [State.open, call_isSome]
  refine and_congr_right fun _ => ?_
  cases env.inode filename with
  | none => simp
  | some j => simpa using Process.create_isSome

theorem open_free {filename : List UInt8} (h : s.open env filename = (s', some fd)) :
    (free env.limit s'.process.fds).card + 1 = (free env.limit s.process.fds).card := by
  obtain ⟨-, p, hp, rfl⟩ := call_eq_some h
  obtain ⟨j, -, hcreate⟩ := Option.bind_eq_some_iff.mp hp
  obtain ⟨hlt, hfree, hfds, -⟩ := Process.create_eq_some hcreate
  simp only [hfds]
  exact card_free_update hlt hfree

@[simp] theorem write_fds (xs : List UInt8) : (s.write n xs).process.fds = s.process.fds :=
  Process.write_fds

theorem write_write (xs ys : List UInt8) : (s.write n xs).write n ys = s.write n (xs ++ ys) := by
  simp only [State.write, Process.write_write]

/-- Whatever the buffering, what is printed and flushed follows what was
pending. -/
theorem fflush_printf (env : Env ι) (text : List UInt8) (s : State ι) :
    (s.printf env text).fflush
      = { s.write stdoutFileno (s.stdout ++ text) with stdout := [] } := by
  unfold State.printf
  cases env.mode with
  | full => rfl
  | line =>
      have hwrite := write_write (s := s) (n := stdoutFileno)
        ((s.stdout ++ text).rdropWhile (· ≠ newline)) ((s.stdout ++ text).rtakeWhile (· ≠ newline))
      rw [List.rdropWhile_append_rtakeWhile] at hwrite
      rw [← hwrite]
      rfl

@[simp] theorem fflush_fds : s.fflush.process.fds = s.process.fds := Process.write_fds

/-- With nothing pending there is nothing to write. -/
theorem fflush_of_nil (h : s.stdout = []) : s.fflush = s := by
  have hwrite : s.process.write stdoutFileno [] = s.process := by
    unfold Process.write
    split <;> rfl
  rw [State.fflush, h, State.write, hwrite, ← h]

end Files

/-! ## `part1` -/

section Part1

variable {env} {s s' : State ι} {filename : List UInt8}

/-- What `part1` prints. -/
def randomText : List UInt8 := bytes "This is some random text.\n"

/-- The state before standard output is restored. -/
def printed (env : Env ι) (fd : ℕ) (s : State ι) : State ι :=
  (s.printf env randomText).fflush.close (some fd)

theorem part1_eq_ok (h : part1 env filename s = .ok s') :
    ∃ s₁ fd s₂ a s₃ n s₄ m, s.open env filename = (s₁, some fd) ∧
      s₁.dup env stdoutFileno = (s₂, some a) ∧
      s₂.dup2 env (some fd) stdoutFileno = (s₃, some n) ∧
      (printed env fd s₃).dup2 env (some a) stdoutFileno = (s₄, some m) ∧
      s' = s₄.close (some a) := by
  unfold part1 at h
  rcases hopen : s.open env filename with ⟨s₁, _ | fd⟩
  · simp [hopen, exit] at h
  rcases hdup : s₁.dup env stdoutFileno with ⟨s₂, saved⟩
  rcases hredirect : s₂.dup2 env (some fd) stdoutFileno with ⟨s₃, _ | n⟩
  · simp [hopen, hdup, hredirect, exit] at h
  rcases hrestore : (printed env fd s₃).dup2 env saved stdoutFileno with ⟨s₄, _ | m⟩
  · simp only [printed, randomText] at hrestore
    simp [hopen, hdup, hredirect, hrestore, exit] at h
  obtain ⟨a, rfl, -⟩ := dup2_eq_some hrestore
  refine ⟨s₁, fd, s₂, a, s₃, n, s₄, m, rfl, hdup, hredirect, hrestore, ?_⟩
  simp only [printed, randomText] at hrestore
  simp only [hopen, hdup, hredirect, hrestore, Except.ok.injEq] at h
  exact h.symm

/-- **One descriptor redirected**: the file under it, what was there before
under another one. -/
structure Redirected (s s₃ : State ι) (j : ι) (fd a : ℕ) : Prop where
  kernel : s₃.process.kernel = s.process.kernel.create j
  stdout : s₃.stdout = s.stdout
  target : s₃.process.fds stdoutFileno = some s.process.kernel.opened
  saved : s₃.process.fds a
    = Function.update s.process.fds fd (some s.process.kernel.opened) stdoutFileno
  used : (s₃.process.fds a).isSome
  agrees : Agrees [stdoutFileno, a, fd] s.process.fds s₃.process.fds
  free : s.process.fds fd = none ∧ s.process.fds a = none
  distinct : a ≠ fd ∧ a ≠ stdoutFileno

theorem redirected {s₁ s₂ s₃ : State ι} {fd a n : ℕ} (hopen : s.open env filename = (s₁, some fd))
    (hdup : s₁.dup env stdoutFileno = (s₂, some a))
    (hredirect : s₂.dup2 env (some fd) stdoutFileno = (s₃, some n)) :
    ∃ j, env.inode filename = some j ∧ Redirected s s₃ j fd a := by
  obtain ⟨j, hj, hfd, hfds₁, hk₁, hout₁⟩ := open_eq_some hopen
  obtain ⟨hused, ha, hfds₂, hk₂, hout₂⟩ := dup_eq_some hdup
  obtain ⟨_, heq, -, hfds₃, hk₃, hout₃⟩ := dup2_eq_some hredirect
  cases heq
  have hafd : a ≠ fd := by
    rintro rfl
    rw [hfds₁, Function.update_self] at ha
    cases ha
  have ha1 : a ≠ stdoutFileno := by
    rintro rfl
    rw [ha] at hused
    cases hused
  have hafree : s.process.fds a = none := by
    rwa [hfds₁, Function.update_of_ne hafd] at ha
  have hsaved : s₃.process.fds a = s₁.process.fds stdoutFileno := by
    rw [hfds₃, Function.update_of_ne ha1, hfds₂, Function.update_self]
  refine ⟨j, hj, ?_, ?_, ?_, ?_, ?_, ?_, ⟨hfd, hafree⟩, hafd, ha1⟩
  · rw [hk₃, hk₂, hk₁]
  · rw [hout₃, hout₂, hout₁]
  · rw [hfds₃, Function.update_self, hfds₂, Function.update_of_ne hafd.symm, hfds₁,
      Function.update_self]
  · rw [hsaved, hfds₁]
  · rw [hsaved]
    exact hused
  · rw [hfds₃, hfds₂, hfds₁]
    exact (((Agrees.refl _).update fd _).update a _).update stdoutFileno _

/-- After `part1`: the file holds what was printed, and nothing else is
touched. -/
theorem Redirected.printed_kernel {s₃ : State ι} {j : ι} {fd a : ℕ}
    (h : Redirected s s₃ j fd a) :
    (printed env fd s₃).process.kernel
      = (s.process.kernel.create j).write s.process.kernel.opened (s.stdout ++ randomText) := by
  rw [printed, fflush_printf, h.stdout, ← h.kernel]
  exact Process.write_kernel h.target _

theorem printed_fds (env : Env ι) (fd : ℕ) (s : State ι) :
    (printed env fd s).process.fds = Function.update s.process.fds fd none := by
  simp only [printed, fflush_printf, close_fds, write_fds]

/-- The file under `filename` holds `text`, no other file has changed, no
description that was open before has been written through, and no output is
pending. -/
structure Holds (env : Env ι) (filename text : List UInt8) (s s' : State ι) : Prop where
  content : ∃ j, env.inode filename = some j ∧
    s'.process.kernel.content = Function.update s.process.kernel.content j text
  descriptions : ∀ d < s.process.kernel.opened,
    s'.process.kernel.descriptions d = s.process.kernel.descriptions d
  stdout : s'.stdout = []

theorem Holds.of_kernel {j : ι} {text : List UInt8} (hj : env.inode filename = some j)
    (hkernel : s'.process.kernel
      = (s.process.kernel.create j).write s.process.kernel.opened text)
    (hstdout : s'.stdout = []) : Holds env filename text s s' where
  content := ⟨j, hj, by rw [hkernel, Kernel.create_write_content]⟩
  descriptions d hd := by rw [hkernel, Kernel.create_write_description (Nat.ne_of_lt hd)]
  stdout := hstdout

theorem part1_holds (h : part1 env filename s = .ok s') :
    Holds env filename (s.stdout ++ randomText) s s' ∧
      (s'.process.fds = s.process.fds ↔ (s.process.fds stdoutFileno).isSome) := by
  obtain ⟨s₁, fd, s₂, a, s₃, n, s₄, m, hopen, hdup, hredirect, hrestore, rfl⟩ := part1_eq_ok h
  obtain ⟨j, hj, hred⟩ := redirected hopen hdup hredirect
  obtain ⟨_, heq, -, hfds, hkernel, hout⟩ := dup2_eq_some hrestore
  cases heq
  obtain ⟨hafd, ha1⟩ := hred.distinct
  have hback : (printed env fd s₃).process.fds a
      = Function.update s.process.fds fd (some s.process.kernel.opened) stdoutFileno := by
    rw [printed_fds, Function.update_of_ne hafd, hred.saved]
  have hfinal : (s₄.close (some a)).process.fds = Function.update
      (Function.update (Function.update s₃.process.fds fd none) stdoutFileno
        (Function.update s.process.fds fd (some s.process.kernel.opened) stdoutFileno)) a none := by
    rw [close_fds, hfds, hback, printed_fds]
  refine ⟨.of_kernel hj (hkernel.trans hred.printed_kernel) (hout.trans rfl), ?_⟩
  constructor
  · -- standard output is open at the end, so it was at the start
    intro hsame
    have hlast := congrFun hsame stdoutFileno
    rw [hfinal, Function.update_of_ne ha1.symm, Function.update_self] at hlast
    rw [← hlast, ← hred.saved]
    exact hred.used
  · intro hopened
    have hfd1 : stdoutFileno ≠ fd := by
      rintro rfl
      rw [hred.free.1] at hopened
      cases hopened
    rw [hfinal, Function.update_of_ne hfd1]
    refine Agrees.eq ?_
    refine ((hred.agrees.restore (R := [stdoutFileno, a]) hred.free.1.symm ?_).restore
      (R := [a]) rfl ?_).restore hred.free.2.symm ?_
    · simp +contextual
    · simp +contextual
    · simp +contextual

theorem printed_calls (env : Env ι) (fd : ℕ) (s : State ι) :
    (printed env fd s).calls = s.calls := by
  rw [printed, fflush_printf]
  rfl

omit [DecidableEq ι] in
theorem exists_of_isSome {x : State ι × Option ℕ} (h : x.2.isSome) :
    ∃ s' n, x = (s', some n) := by
  obtain ⟨n, hn⟩ := Option.isSome_iff_exists.mp h
  exact ⟨x.1, n, Prod.ext rfl hn⟩

theorem free_le_limit (limit : ℕ) (t : Table ℕ) : (free limit t).card ≤ limit :=
  (Finset.card_filter_le _ _).trans (Finset.card_range limit).le

/-- When `part1` comes back. -/
theorem part1_returns (hout : (s.process.fds stdoutFileno).isSome) :
    (∃ s', part1 env filename s = .ok s') ↔ (env.inode filename).isSome ∧
      2 ≤ (free env.limit s.process.fds).card ∧ ∀ k < 4, env.fails (s.calls + k) = false := by
  constructor
  · rintro ⟨s', h⟩
    obtain ⟨s₁, fd, s₂, a, s₃, n, s₄, m, hopen, hdup, hredirect, hrestore, -⟩ := part1_eq_ok h
    obtain ⟨hf₀, hinode, -⟩ := open_isSome.mp (congrArg (·.2.isSome) hopen)
    obtain ⟨hf₁, -, hroom⟩ := dup_isSome.mp (congrArg (·.2.isSome) hdup)
    obtain ⟨hf₂, -⟩ := dup2_isSome.mp (congrArg (·.2.isSome) hredirect)
    obtain ⟨hf₃, -⟩ := dup2_isSome.mp (congrArg (·.2.isSome) hrestore)
    have hfree := open_free hopen
    have hc₁ := call_calls hopen
    have hc₂ := call_calls hdup
    have hc₃ := call_calls hredirect
    rw [printed_calls, hc₃] at hf₃
    rw [hc₂] at hf₂ hf₃
    rw [hc₁] at hf₁ hf₂ hf₃
    refine ⟨hinode, by omega, fun k hk => ?_⟩
    obtain rfl | rfl | rfl | rfl : k = 0 ∨ k = 1 ∨ k = 2 ∨ k = 3 := by omega
    · exact hf₀
    · exact hf₁
    · exact hf₂
    · exact hf₃
  · rintro ⟨hinode, hroom, hfails⟩
    have hlimit := free_le_limit env.limit s.process.fds
    obtain ⟨s₁, fd, hopen⟩ := exists_of_isSome
      (open_isSome.mpr ⟨hfails 0 (by omega), hinode, by omega⟩)
    obtain ⟨j, -, hfd, hfds₁, -⟩ := open_eq_some hopen
    have hfree := open_free hopen
    have hc₁ := call_calls hopen
    have hne : stdoutFileno ≠ fd := by
      rintro rfl
      rw [hfd] at hout
      cases hout
    obtain ⟨s₂, a, hdup⟩ := exists_of_isSome (dup_isSome (n := stdoutFileno).mpr
      ⟨hc₁ ▸ hfails 1 (by omega), by rwa [hfds₁, Function.update_of_ne hne], by omega⟩)
    obtain ⟨-, ha, hfds₂, -⟩ := dup_eq_some hdup
    have hc₂ := call_calls hdup
    have hfda : fd ≠ a := by
      rintro rfl
      rw [hfds₁, Function.update_self] at ha
      cases ha
    have hused : (s₂.process.fds fd).isSome := by
      rw [hfds₂, Function.update_of_ne hfda, hfds₁, Function.update_self]
      rfl
    obtain ⟨s₃, n, hredirect⟩ := exists_of_isSome (dup2_isSome (n := stdoutFileno).mpr
      ⟨by rw [hc₂, hc₁]; exact hfails 2 (by omega), ⟨fd, rfl, hused⟩,
        by rw [stdoutFileno]; omega⟩)
    obtain ⟨_, -, hred⟩ := redirected hopen hdup hredirect
    have hc₃ := call_calls hredirect
    have hsaved : ((printed env fd s₃).process.fds a).isSome := by
      rw [printed_fds, Function.update_of_ne hfda.symm]
      exact hred.used
    obtain ⟨s₄, m, hrestore⟩ := exists_of_isSome (dup2_isSome (n := stdoutFileno).mpr
      ⟨by rw [printed_calls, hc₃, hc₂, hc₁]; exact hfails 3 (by omega), ⟨a, rfl, hsaved⟩,
        by rw [stdoutFileno]; omega⟩)
    refine ⟨s₄.close (some a), ?_⟩
    simp only [printed, randomText] at hrestore
    simp only [part1, hopen, hdup, hredirect, hrestore]

/-- **A line printed to a file**, for every table of descriptors, whatever is
pending and whatever fails: when `part1` comes back, the file holds what was
pending and the line, and the table is what it was exactly if standard output
was open. It comes back, with standard output open, exactly if the file can be
opened, there is room for two more descriptors, and none of its four calls
fails. -/
theorem part1_restores (env : Env ι) (filename : List UInt8) (s : State ι) :
    (∀ s', part1 env filename s = .ok s' → Holds env filename (s.stdout ++ randomText) s s' ∧
      (s'.process.fds = s.process.fds ↔ (s.process.fds stdoutFileno).isSome)) ∧
    ((s.process.fds stdoutFileno).isSome →
      ((∃ s', part1 env filename s = .ok s') ↔ (env.inode filename).isSome ∧
        2 ≤ (free env.limit s.process.fds).card ∧
        ∀ k < 4, env.fails (s.calls + k) = false)) :=
  ⟨fun _ h => part1_holds h, fun hout => part1_returns hout⟩

end Part1

end OsInParts.Redirect
