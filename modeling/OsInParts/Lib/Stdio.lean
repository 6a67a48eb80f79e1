import Mathlib.Algebra.BigOperators.Group.Finset.Basic
import Mathlib.Algebra.Order.BigOperators.Group.Finset
import Mathlib.Data.List.DropRight

/-!
# Stdio — the output buffers of forking processes

Every process has a buffer of output it has printed and not yet written.
Printing adds to it; a line-buffered stream writes it out through the last
newline, a fully buffered one keeps it. A fork copies it, an exit writes it
out, and so may a request for input if the stream is line-buffered.

Nothing is lost on the way: what a process has printed is written or in its
buffer (`held_print`, `held_flush`). A fork is what duplicates text: `weight`
counts the marked characters that are written or pending in a set of
processes, and it never goes down.
-/

namespace Lib.Stdio

variable {ι α : Type*} [DecidableEq ι]

inductive Buffering where
  | line
  | full
  deriving DecidableEq

/-- The buffers of the processes, and what has been written so far. -/
structure Streams (ι α : Type*) where
  buffer : ι → List α
  output : List α

namespace Streams

/-- Process `i` writes something out and is left with `rest`. -/
def put (i : ι) (written rest : List α) (s : Streams ι α) : Streams ι α :=
  { buffer := Function.update s.buffer i rest, output := s.output ++ written }

/-- `i` prints `text`. -/
def print (mode : Buffering) (newline : α → Bool) (i : ι) (text : List α) (s : Streams ι α) :
    Streams ι α :=
  let pending := s.buffer i ++ text
  match mode with
  | .line =>
      s.put i (pending.rdropWhile fun c => !newline c) (pending.rtakeWhile fun c => !newline c)
  | .full => s.put i [] pending

/-- `i` writes out its buffer. -/
def flush (i : ι) (s : Streams ι α) : Streams ι α := s.put i (s.buffer i) []

/-- `child` starts with a copy of the buffer of `parent`. -/
def fork (parent child : ι) (s : Streams ι α) : Streams ι α :=
  { s with buffer := Function.update s.buffer child (s.buffer parent) }

/-- `i` asks for input. -/
def input (mode : Buffering) (inputFlushes : Bool) (i : ι) (s : Streams ι α) : Streams ι α :=
  match mode, inputFlushes with
  | .line, true => s.flush i
  | _, _ => s

variable {s : Streams ι α} {mode : Buffering} {newline : α → Bool} {i j : ι} {text : List α}

@[simp] theorem put_output (written rest : List α) :
    (s.put i written rest).output = s.output ++ written := rfl

@[simp] theorem put_buffer (written rest : List α) :
    (s.put i written rest).buffer = Function.update s.buffer i rest := rfl

@[simp] theorem flush_output : (s.flush i).output = s.output ++ s.buffer i := rfl

@[simp] theorem flush_buffer : (s.flush i).buffer = Function.update s.buffer i [] := rfl

@[simp] theorem fork_output : (s.fork i j).output = s.output := rfl

@[simp] theorem fork_buffer :
    (s.fork i j).buffer = Function.update s.buffer j (s.buffer i) := rfl

/-- Printing moves some of what is pending, and nothing else. -/
theorem print_eq_put (mode : Buffering) (newline : α → Bool) (i : ι) (text : List α)
    (s : Streams ι α) : ∃ written rest, written ++ rest = s.buffer i ++ text ∧
      s.print mode newline i text = s.put i written rest := by
  cases mode with
  | line => exact ⟨_, _, List.rdropWhile_append_rtakeWhile, rfl⟩
  | full => exact ⟨[], s.buffer i ++ text, rfl, rfl⟩

theorem print_buffer_of_ne (h : j ≠ i) :
    (s.print mode newline i text).buffer j = s.buffer j := by
  obtain ⟨written, rest, -, heq⟩ := print_eq_put mode newline i text s
  rw [heq, put_buffer, Function.update_of_ne h]

/-- A whole line is written at once, or kept. -/
theorem print_line {c : α} (hc : newline c = true) (hb : s.buffer i = []) (xs : List α) :
    s.print mode newline i (xs ++ [c])
      = match mode with
        | .line => s.put i (xs ++ [c]) []
        | .full => s.put i [] (xs ++ [c]) := by
  cases mode with
  | line =>
      simp only [print, hb, List.nil_append]
      rw [List.rdropWhile_concat_neg _ _ _ (by simp [hc]),
        List.rtakeWhile_concat_neg _ _ _ (by simp [hc])]
  | full => simp only [print, hb, List.nil_append]

/-- Nothing is written, and the same is left. -/
theorem put_nil : s.put i [] (s.buffer i) = s := by
  rw [put, Function.update_eq_self, List.append_nil]

/-! ## Several prints in a row -/

theorem rtakeWhile_append_append (p : α → Bool) (xs ys : List α) :
    (xs.rtakeWhile p ++ ys).rtakeWhile p = (xs ++ ys).rtakeWhile p := by
  induction ys using List.reverseRecOn with
  | nil => rw [List.append_nil, List.append_nil, List.rtakeWhile_idempotent]
  | append_singleton ys y ih =>
      rw [← List.append_assoc, ← List.append_assoc, List.rtakeWhile_concat,
        List.rtakeWhile_concat, ih]

/-- Two prints are one print of both texts. -/
theorem print_print (text' : List α) :
    (s.print mode newline i text).print mode newline i text'
      = s.print mode newline i (text ++ text') := by
  cases mode with
  | line =>
      set p : α → Bool := fun c => !newline c
      have hrest : ((s.buffer i ++ text).rtakeWhile p ++ text').rtakeWhile p
          = (s.buffer i ++ (text ++ text')).rtakeWhile p := by
        rw [rtakeWhile_append_append, List.append_assoc]
      have hwritten : (s.buffer i ++ text).rdropWhile p
            ++ ((s.buffer i ++ text).rtakeWhile p ++ text').rdropWhile p
          = (s.buffer i ++ (text ++ text')).rdropWhile p := by
        refine (List.append_left_inj ((s.buffer i ++ (text ++ text')).rtakeWhile p)).mp ?_
        rw [List.rdropWhile_append_rtakeWhile, ← hrest, List.append_assoc,
          List.rdropWhile_append_rtakeWhile, ← List.append_assoc,
          List.rdropWhile_append_rtakeWhile, List.append_assoc]
      simp only [print, put, Function.update_self, Function.update_idem, List.append_assoc]
      rw [← hwritten, ← hrest]
  | full => simp [print, put, List.append_assoc]

/-- A sequence of prints. -/
def printAll (mode : Buffering) (newline : α → Bool) (i : ι) (texts : List (List α))
    (s : Streams ι α) : Streams ι α :=
  texts.foldl (fun s text => s.print mode newline i text) s

theorem print_printAll (texts : List (List α)) :
    (s.print mode newline i text).printAll mode newline i texts
      = s.print mode newline i (text ++ texts.flatten) := by
  induction texts generalizing text with
  | nil => simp [printAll]
  | cons t texts ih =>
      rw [printAll, List.foldl_cons, print_print, List.flatten_cons, ← List.append_assoc]
      exact ih

theorem printAll_cons (texts : List (List α)) :
    s.printAll mode newline i (text :: texts)
      = s.print mode newline i (text ++ texts.flatten) := print_printAll texts

/-! ## Marked characters -/

variable {p : α → Bool}

/-- The marked characters `i` has printed: written, or still pending in `i`. -/
def held (p : α → Bool) (i : ι) (s : Streams ι α) : List α :=
  s.output.filter p ++ (s.buffer i).filter p

theorem held_put (text : List α) {written rest : List α}
    (h : written ++ rest = s.buffer i ++ text) :
    (s.put i written rest).held p i = s.held p i ++ text.filter p := by
  rw [held, put_output, put_buffer, Function.update_self, List.filter_append, List.append_assoc,
    ← List.filter_append, h, List.filter_append, ← List.append_assoc, held]

theorem held_print :
    (s.print mode newline i text).held p i = s.held p i ++ text.filter p := by
  obtain ⟨written, rest, happ, heq⟩ := print_eq_put mode newline i text s
  rw [heq, held_put text happ]

theorem held_flush : (s.flush i).held p i = s.held p i := by
  rw [flush, held_put [] rfl, List.filter_nil, List.append_nil]

/-- No marked character is pending anywhere. -/
def Clean (p : α → Bool) (s : Streams ι α) : Prop := ∀ i, (s.buffer i).filter p = []

omit [DecidableEq ι] in
theorem Clean.held_eq (h : s.Clean p) (i : ι) : s.held p i = s.output.filter p := by
  rw [held, h i, List.append_nil]

theorem Clean.put (h : s.Clean p) (text : List α) {written rest : List α}
    (happ : written ++ rest = s.buffer i ++ text) (htext : text.filter p = []) :
    (s.put i written rest).Clean p ∧
      (s.put i written rest).output.filter p = s.output.filter p := by
  have hboth : written.filter p ++ rest.filter p = [] := by
    rw [← List.filter_append, happ, List.filter_append, h i, htext, List.append_nil]
  obtain ⟨hwritten, hrest⟩ := List.append_eq_nil_iff.mp hboth
  constructor
  · intro j
    rw [put_buffer]
    by_cases hj : j = i
    · rw [hj, Function.update_self, hrest]
    · rw [Function.update_of_ne hj, h j]
  · rw [put_output, List.filter_append, hwritten, List.append_nil]

theorem Clean.print (h : s.Clean p) (htext : text.filter p = []) :
    (s.print mode newline i text).Clean p ∧
      (s.print mode newline i text).output.filter p = s.output.filter p := by
  obtain ⟨written, rest, happ, heq⟩ := print_eq_put mode newline i text s
  rw [heq]
  exact h.put text happ htext

theorem Clean.flush (h : s.Clean p) :
    (s.flush i).Clean p ∧ (s.flush i).output.filter p = s.output.filter p :=
  h.put [] rfl rfl

theorem Clean.fork (h : s.Clean p) : (s.fork i j).Clean p := by
  intro k
  rw [fork_buffer]
  by_cases hk : k = j
  · rw [hk, Function.update_self, h i]
  · rw [Function.update_of_ne hk, h k]

/-- The marked characters that are written or pending in one of `L`. -/
def weight (p : α → Bool) (L : Finset ι) (s : Streams ι α) : ℕ :=
  s.output.countP p + ∑ i ∈ L, (s.buffer i).countP p

theorem weight_le_put (L : Finset ι) (text : List α) {written rest : List α}
    (h : written ++ rest = s.buffer i ++ text) :
    s.weight p L ≤ (s.put i written rest).weight p L := by
  have hcount : written.countP p + rest.countP p = (s.buffer i).countP p + text.countP p := by
    rw [← List.countP_append, h, List.countP_append]
  have hother : ∀ j ∈ L.erase i, ((s.put i written rest).buffer j).countP p
      = (s.buffer j).countP p := by
    intro j hj
    rw [put_buffer, Function.update_of_ne (Finset.ne_of_mem_erase hj)]
  rw [weight, weight, put_output, List.countP_append]
  by_cases hi : i ∈ L
  · rw [← Finset.add_sum_erase L _ hi, ← Finset.add_sum_erase L _ hi,
      Finset.sum_congr rfl hother, put_buffer, Function.update_self]
    omega
  · rw [← Finset.erase_eq_of_notMem hi, Finset.sum_congr rfl hother]
    omega

theorem weight_le_print (L : Finset ι) :
    s.weight p L ≤ (s.print mode newline i text).weight p L := by
  obtain ⟨written, rest, happ, heq⟩ := print_eq_put mode newline i text s
  rw [heq]
  exact weight_le_put L text happ

theorem weight_le_flush (L : Finset ι) : s.weight p L ≤ (s.flush i).weight p L :=
  weight_le_put L [] rfl

/-- A process outside `L` is forked. -/
theorem weight_fork_of_notMem {L : Finset ι} (hj : j ∉ L) :
    (s.fork i j).weight p L = s.weight p L := by
  rw [weight, weight, fork_output, fork_buffer]
  congr 1
  apply Finset.sum_congr rfl
  intro k hk
  rw [Function.update_of_ne]
  rintro rfl
  exact hj hk

/-- **The fork duplicates**: parent and child both hold the pending text. -/
theorem weight_fork (hij : i ≠ j) :
    (s.fork i j).weight p {i, j} = (s.held p i).length + (s.buffer i).countP p := by
  rw [weight, Finset.sum_pair hij, fork_output, fork_buffer, Function.update_of_ne hij,
    Function.update_self, held, List.length_append, ← List.countP_eq_length_filter,
    ← List.countP_eq_length_filter]
  omega

end Streams

/-! ## Text -/

/-- A character, and whether it is one of those that are followed. -/
structure Marked where
  char : Char
  mark : Bool
  deriving DecidableEq

def Marked.newline (c : Marked) : Bool := c.char = '\n'

def marked (mark : Bool) (text : String) : List Marked := text.toList.map (Marked.mk · mark)

theorem filter_marked (text : String) :
    (marked true text).filter Marked.mark = marked true text := by
  simp [marked, List.filter_eq_self]

theorem filter_unmarked (text : String) : (marked false text).filter Marked.mark = [] := by
  simp [marked, List.filter_eq_nil_iff]

theorem filter_flatten_marked (texts : List String) :
    ((texts.map (marked true)).flatten).filter Marked.mark
      = (texts.map (marked true)).flatten := by
  rw [List.filter_flatten, List.map_map]
  exact congrArg List.flatten (List.map_congr_left fun text _ => filter_marked text)

/-- The marked characters on standard output are `text`: it is there exactly
once. -/
def Once (text : List Marked) (s : Streams ι Marked) : Prop := s.output.filter Marked.mark = text

end Lib.Stdio
