import OsInParts.Lib.Loop
import OsInParts.Lib.Runs
import OsInParts.Lib.Scan

/-!
# Prompt — a loop that reads one word a turn

`while (1) { scanf("%<width>s", word); if (...) break; ... }`: every turn reads a
word into a buffer, leaves the loop if that is one to `quit` on, and otherwise
handles it, which may end the program. At the end of the input the buffer keeps
its word, and the loop handles it again.

A word that is longer than the width is read as several. `pieces` are the words
as they are read: the loop returns exactly if there is one to quit on and none
before it ends the program, and has then handled the ones before it in order
(`returns_iff`).
-/

namespace Lib.Prompt

open Lib.Scan Lib.Runs Lib.Loop

variable {σ ε : Type*}

/-- The input that is left, the buffer (`none` before anything has been read into
it), and the state of the program. -/
structure Terminal (σ : Type*) where
  input : List UInt8
  word : Option (List UInt8)
  state : σ

variable (width : ℕ) (quit : List UInt8 → Bool) (handle : σ → List UInt8 → Except ε σ)

/-- A turn after `scanf` has been called, with what is in the buffer and what is left
of the input. -/
def answer (input : List UInt8) (state : σ) : Option (List UInt8) → Next (Terminal σ) (Except ε σ)
  | none => .undefined
  | some word =>
      if quit word then .exit (.ok state)
      else
        match handle state word with
        | .ok state => .again { input := input, word := some word, state := state }
        | .error e => .exit (.error e)

/-- One turn; the width is `width + 1`. -/
def turn (s : Terminal σ) : Next (Terminal σ) (Except ε σ) :=
  let read := word (some (width + 1)) s.input
  answer quit handle read.2 s.state (read.1.or s.word)

def start (input : List UInt8) (state : σ) : Terminal σ :=
  { input := input, word := none, state := state }

/-! ## The words that are read -/

/-- A list in pieces of `width + 1`. -/
def chunks (l : List UInt8) : List (List UInt8) :=
  match l with
  | [] => []
  | x :: l => (x :: l.take width) :: chunks (l.drop width)
  termination_by l.length
  decreasing_by
    simp only [List.length_drop, List.length_cons]
    omega

/-- The words of a text as they are read. -/
def pieces (text : List UInt8) : List (List UInt8) := (runs isSpace text).flatMap (chunks width)

variable {width} {quit} {handle}

theorem chunks_nil : chunks width [] = [] := by
  rw [chunks]

theorem chunks_cons (x : UInt8) (l : List UInt8) :
    chunks width (x :: l)
      = (x :: l).take (width + 1) :: chunks width ((x :: l).drop (width + 1)) := by
  rw [chunks, List.take_succ_cons, List.drop_succ_cons]

section Pieces

variable {spaces run rest : List UInt8}

/-- A run is read in pieces. -/
theorem pieces_append (hspaces : ∀ c ∈ spaces, isSpace c = true)
    (hrun : ∀ c ∈ run, isSpace c = false) (hrest : ∀ c ∈ rest.head?, isSpace c = true) :
    pieces width (spaces ++ (run ++ rest)) = chunks width run ++ pieces width rest := by
  rw [pieces, pieces, runs_append_sep hspaces]
  by_cases hne : run = []
  · rw [hne, chunks_nil]
    rfl
  · rw [runs_append hne hrun hrest, List.flatMap_cons]

/-- What `scanf` takes of a run. -/
theorem word_append (hspaces : ∀ c ∈ spaces, isSpace c = true) (hne : run ≠ [])
    (hrun : ∀ c ∈ run, isSpace c = false) (hrest : ∀ c ∈ rest.head?, isSpace c = true) :
    word (some (width + 1)) (spaces ++ (run ++ rest))
      = (some (run.take (width + 1)), run.drop (width + 1) ++ rest) := by
  obtain ⟨c, run, rfl⟩ := List.exists_cons_of_ne_nil hne
  have hskip : skipSpaces (spaces ++ (c :: run ++ rest)) = c :: run ++ rest :=
    skipSpaces_append hspaces fun c' hc' => by
      cases hc'
      exact hrun c List.mem_cons_self
  have htake : (c :: run ++ rest).takeWhile (!isSpace ·) = c :: run := by
    rw [List.takeWhile_append_of_pos fun x hx => by simp [hrun x hx]]
    cases rest with
    | nil => simp
    | cons x rest => simp [hrest x rfl]
  have hdrop : (c :: run ++ rest).drop ((c :: run).take (width + 1)).length
      = (c :: run).drop (width + 1) ++ rest := by
    by_cases hlength : width + 1 ≤ (c :: run).length
    · rw [List.length_take_of_le hlength, List.drop_append_of_le_length hlength]
    · have hle : (c :: run).length ≤ width + 1 := by omega
      rw [List.take_of_length_le hle, List.drop_left, List.drop_of_length_le hle, List.nil_append]
  simp only [word, hskip, htake, hdrop, if_neg (show (c :: run).take (width + 1) ≠ [] by simp)]

/-- A text is white space, a run and what follows it. -/
theorem exists_split (text : List UInt8) : ∃ spaces run rest, text = spaces ++ (run ++ rest) ∧
    (∀ c ∈ spaces, isSpace c = true) ∧ (∀ c ∈ run, isSpace c = false) ∧
    (∀ c ∈ rest.head?, isSpace c = true) ∧ (run = [] → rest = []) := by
  obtain ⟨run, rest, hskip, hrun, hrest⟩ := exists_run isSpace (skipSpaces text)
  refine ⟨text.takeWhile isSpace, run, rest, ?_, fun c hc => List.mem_takeWhile_imp hc, hrun,
    hrest, ?_⟩
  · rw [← hskip]
    exact List.takeWhile_append_dropWhile.symm
  · rintro rfl
    cases rest with
    | nil => rfl
    | cons c rest =>
        -- the white space in front has been taken
        have hhead := List.head?_dropWhile_not isSpace text
        rw [← skipSpaces, hskip] at hhead
        simp [hrest c rfl] at hhead

/-- **The pieces are what is read**, one after the other. -/
theorem word_cases (width : ℕ) (text : List UInt8) :
    (word (some (width + 1)) text = (none, []) ∧ pieces width text = []) ∨
      ∃ w rest, word (some (width + 1)) text = (some w, rest) ∧
        pieces width text = w :: pieces width rest := by
  obtain ⟨spaces, run, rest, rfl, hspaces, hrun, hrest, hnil⟩ := exists_split text
  have hpieces : pieces width (spaces ++ (run ++ rest)) = chunks width run ++ pieces width rest :=
    pieces_append hspaces hrun hrest
  by_cases hne : run = []
  · have hskip : skipSpaces (spaces ++ (run ++ rest)) = [] := by
      rw [hne, hnil hne]
      exact skipSpaces_append hspaces fun c hc => by cases hc
    rw [hne, hnil hne, chunks_nil] at hpieces
    exact .inl ⟨by simp [word, hskip], by rw [hne, hnil hne, hpieces]; rfl⟩
  · have htail : pieces width ([] ++ (run.drop (width + 1) ++ rest))
        = chunks width (run.drop (width + 1)) ++ pieces width rest :=
      pieces_append (List.forall_mem_nil _) (fun c hc => hrun c (List.mem_of_mem_drop hc)) hrest
    refine .inr ⟨_, _, word_append hspaces hne hrun hrest, ?_⟩
    obtain ⟨c, run, rfl⟩ := List.exists_cons_of_ne_nil hne
    rw [hpieces, chunks_cons, List.cons_append]
    exact congrArg _ htail.symm

/-- A word as long as the width is one piece, whatever follows it. -/
theorem pieces_exact (width : ℕ) (hspaces : ∀ c ∈ spaces, isSpace c = true)
    (hrun : ∀ c ∈ run, isSpace c = false) (hlength : run.length = width + 1)
    (rest : List UInt8) : pieces width (spaces ++ (run ++ rest)) = run :: pieces width rest := by
  have hne : run ≠ [] := by
    rintro rfl
    cases hlength
  have hskip : skipSpaces (spaces ++ (run ++ rest)) = run ++ rest := by
    refine skipSpaces_append hspaces fun c hc => ?_
    obtain ⟨d, run, rfl⟩ := List.exists_cons_of_ne_nil hne
    cases hc
    exact hrun c List.mem_cons_self
  have htake : ((run ++ rest).takeWhile (!isSpace ·)).take (width + 1) = run := by
    rw [List.takeWhile_append_of_pos fun x hx => by simp [hrun x hx], ← hlength, List.take_left]
  have hword : word (some (width + 1)) (spaces ++ (run ++ rest)) = (some run, rest) := by
    simp only [word, hskip, htake, if_neg hne, List.drop_left]
  rcases word_cases width (spaces ++ (run ++ rest)) with ⟨hnone, -⟩ | ⟨w, rest', hsome, hpieces⟩
  · rw [hword] at hnone
    cases hnone
  · rw [hword] at hsome
    cases hsome
    exact hpieces

end Pieces

/-! ## The loop -/

section Loop

variable {s : Terminal σ} {state : σ} {w input : List UInt8}

theorem answer_quit (hw : quit w = true) :
    answer quit handle input state (some w) = .exit (.ok state) := if_pos hw

theorem answer_ok {state' : σ} (hw : quit w = false) (h : handle state w = .ok state') :
    answer quit handle input state (some w)
      = .again { input := input, word := some w, state := state' } := by
  rw [answer, if_neg (by simp [hw]), h]

theorem answer_error {e : ε} (hw : quit w = false) (h : handle state w = .error e) :
    answer quit handle input state (some w) = .exit (.error e) := by
  rw [answer, if_neg (by simp [hw]), h]

/-- A turn reads the next piece, and at the end of the input it has the word before. -/
theorem turn_cases (width : ℕ) (quit : List UInt8 → Bool) (handle : σ → List UInt8 → Except ε σ)
    (s : Terminal σ) :
    (pieces width s.input = [] ∧
        turn width quit handle s = answer quit handle [] s.state s.word) ∨
      ∃ w input, pieces width s.input = w :: pieces width input ∧
        turn width quit handle s = answer quit handle input s.state (some w) := by
  unfold turn
  rcases word_cases width s.input with ⟨hword, hnil⟩ | ⟨w, rest, hword, hcons⟩
  · exact .inl ⟨hnil, by rw [hword]; rfl⟩
  · exact .inr ⟨w, rest, hcons, by rw [hword]; rfl⟩

/-- The words before one to quit on are handled in order, up to one that ends the
program. -/
theorem returns_of_quit {ws after : List (List UInt8)}
    (hpieces : pieces width s.input = ws ++ w :: after) (hws : ∀ u ∈ ws, quit u = false)
    (hw : quit w = true) :
    Returns (turn width quit handle) s (ws.foldlM handle s.state) := by
  induction ws generalizing s with
  | nil =>
      refine ⟨1, run_exit ?_ 0⟩
      rcases turn_cases width quit handle s with ⟨hnil, -⟩ | ⟨u, input, hcons, hturn⟩
      · rw [hnil] at hpieces
        cases hpieces
      · rw [hcons] at hpieces
        obtain ⟨rfl, -⟩ := List.cons.inj hpieces
        rw [hturn, answer_quit hw]
        rfl
  | cons v ws ih =>
      rcases turn_cases width quit handle s with ⟨hnil, -⟩ | ⟨u, input, hcons, hturn⟩
      · rw [hnil] at hpieces
        cases hpieces
      · rw [hcons] at hpieces
        obtain ⟨rfl, htail⟩ := List.cons.inj hpieces
        have hu := hws u List.mem_cons_self
        rw [List.foldlM_cons]
        cases hhandle : handle s.state u with
        | error e => exact ⟨1, run_exit (by rw [hturn, answer_error hu hhandle]; rfl) 0⟩
        | ok state =>
            rw [answer_ok hu hhandle] at hturn
            obtain ⟨k, hk⟩ := ih (s := ⟨input, some u, state⟩) htail
              fun u' hu' => hws u' (List.mem_cons_of_mem u hu')
            exact ⟨k + 1, by rw [run_again hturn, hk]; rfl⟩

/-- Nothing that has been read or is to be read is a word to quit on. -/
def Unending (width : ℕ) (quit : List UInt8 → Bool) (s : Terminal σ) : Prop :=
  (∀ w ∈ pieces width s.input, quit w = false) ∧ ∀ w, s.word = some w → quit w = false

theorem Unending.turn (h : Unending width quit s) (handle : σ → List UInt8 → Except ε σ) :
    (∃ s', turn width quit handle s = .again s' ∧ Unending width quit s') ∨
      (∃ e, turn width quit handle s = .exit (.error e)) ∨
      turn width quit handle s = .undefined := by
  have hanswer : ∀ w input, quit w = false → (∀ u ∈ pieces width input, quit u = false) →
      (∃ s', answer quit handle input s.state (some w) = .again s' ∧ Unending width quit s') ∨
        (∃ e, answer quit handle input s.state (some w) = .exit (.error e)) ∨
        answer quit handle input s.state (some w) = .undefined := by
    intro w input hw hinput
    cases hhandle : handle s.state w with
    | error e => exact .inr (.inl ⟨e, answer_error hw hhandle⟩)
    | ok state =>
        refine .inl ⟨_, answer_ok hw hhandle, hinput, fun u hu => ?_⟩
        cases hu
        exact hw
  obtain ⟨hpieces, hword⟩ := h
  rcases turn_cases width quit handle s with ⟨-, hturn⟩ | ⟨w, input, hcons, hturn⟩
  · rw [hturn]
    cases hs : s.word with
    | none => exact .inr (.inr rfl)
    | some w => exact hanswer w [] (hword w hs) nofun
  · rw [hturn]
    rw [hcons] at hpieces
    exact hanswer w input (hpieces w List.mem_cons_self)
      fun u hu => hpieces u (List.mem_cons_of_mem w hu)

/-- Without a word to quit on the loop is left by the end of the program only. -/
theorem Unending.not_returns (h : Unending width quit s) :
    ¬ Returns (Prompt.turn width quit handle) s (.ok state) := by
  intro hreturns
  refine hreturns.rule (Unending width quit) (fun r => r ≠ .ok state)
    (fun s s' hI hb => ?_) (fun s r hI hb => ?_) h rfl
  · rcases hI.turn handle with ⟨s₁, hturn, h₁⟩ | ⟨e, hturn⟩ | hturn <;>
      rw [hturn] at hb <;> cases hb
    exact h₁
  · rcases hI.turn handle with ⟨s₁, hturn, h₁⟩ | ⟨e, hturn⟩ | hturn <;>
      rw [hturn] at hb <;> cases hb
    exact nofun

/-- The words before the first one to quit on. -/
def handled (width : ℕ) (quit : List UInt8 → Bool) (input : List UInt8) : List (List UInt8) :=
  (pieces width input).takeWhile (!quit ·)

/-- **The loop is left in good order** exactly if there is a word to quit on and every
word before it is handled. -/
theorem returns_iff (width : ℕ) (quit : List UInt8 → Bool) (handle : σ → List UInt8 → Except ε σ)
    (input : List UInt8) (state state' : σ) :
    Returns (turn width quit handle) (start input state) (.ok state') ↔
      (∃ w ∈ pieces width input, quit w = true) ∧
        (handled width quit input).foldlM handle state = .ok state' := by
  by_cases hquit : ∃ w ∈ pieces width input, quit w = true
  · rw [and_iff_right hquit]
    obtain ⟨ws, after, hsplit, hws, hafter⟩ := exists_run quit (pieces width input)
    cases after with
    | nil =>
        obtain ⟨w, hw, hq⟩ := hquit
        rw [hsplit, List.append_nil] at hw
        simp [hws w hw] at hq
    | cons w after =>
        have hw := hafter w rfl
        have hhandled : handled width quit input = ws := by
          rw [handled, hsplit, List.takeWhile_append_of_pos fun u hu => by simp [hws u hu],
            List.takeWhile_cons_of_neg (by simp [hw]), List.append_nil]
        have hreturns : Returns (turn width quit handle) (start input state)
            (ws.foldlM handle state) := returns_of_quit hsplit hws hw
        rw [hhandled]
        exact ⟨fun h => hreturns.unique h, fun h => h ▸ hreturns⟩
  · refine iff_of_false ?_ fun h => hquit h.1
    refine Unending.not_returns ⟨fun w hw => ?_, nofun⟩
    exact Bool.eq_false_iff.mpr fun hq => hquit ⟨w, hw, hq⟩

end Loop

end Lib.Prompt
