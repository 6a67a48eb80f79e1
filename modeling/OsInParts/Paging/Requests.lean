import OsInParts.Lib.CString
import OsInParts.Lib.Scan
import OsInParts.Paging.ClockResidency

/-!
# Requests — the input of the page replacement simulator

`main` of `Segmentation, Paging, IPC/q5.c` reads the number of frames and a line of
page numbers with commas between them. `fgets` takes at most 1999 bytes of
the line, `strtok` cuts it at the commas, and `atoi` makes a number of each piece,
0 where there is none, of which a `uint8_t` keeps the lowest eight bits.

The number of frames is not checked. Above `MAX_FRAMES` the initialisation writes
past the array. With a negative number no frame is ever looked through, and the hand
goes around as many frames as its absolute value says, as long as it stays in the
array; with 0 the first request divides by 0.

Every piece is a request, whatever is in it and whatever the number of frames
(`main_counts`). A line of page numbers that fits is answered with the hits and
faults of the second-chance algorithm (`main_secondChance`).
-/

namespace OsInParts.Clock

open Lib Lib.Scan Lib.CString Lib.Loop Lib.Machine Lib.Runs

def comma : UInt8 := 44

def maxFrames : ℕ := 100

def maxRequests : ℕ := 1000

variable {n : ℕ}

/-- The token, what `strtok` has left of the line, and the globals. -/
structure Parsing (n : ℕ) where
  token : Option (List UInt8)
  rest : List UInt8
  state : State n

/-- `token = strtok(..., ",")`. -/
def nextToken (line : List UInt8) (s : State n) : Parsing n :=
  match strtok comma line with
  | some (token, rest) => { token := some token, rest := rest, state := s }
  | none => { token := none, rest := [], state := s }

/-- `clock_algorithm` for `-n` frames, where `(clock_hand + 1) % num_frames` is the
remainder by `n` as well. The hand may leave the `MAX_FRAMES` entries of `memory`. -/
def clockBodyNegative (startHand : Fin n) (s : State n) : Next (State n) (Fin n × State n) :=
  if s.clockHand.val < maxFrames then clockBody startHand s else .undefined

/-- `handle_page_request` for `-n` frames: no loop over the frames has a turn, so the
page is not found, and neither is an empty frame. -/
def handlePageRequestNegative (s : State n) (pageNumber : UInt8) : Option (State n) :=
  let s := { s with totalFaults := s.totalFaults + 1 }
  match run (clockBodyNegative s.clockHand) n s with
  | .exit (frame, s) => some (loadPage s frame pageNumber)
  | _ => none

section Tokens

variable (request : State n → UInt8 → Option (State n))

/-- `uint8_t page_number = atoi(token)` and the request for it. -/
def requestToken (s : State n) (token : List UInt8) : Option (State n) :=
  (atoi token).bind fun v => request s (UInt8.ofInt v)

/-- The body of the loop of `main`. -/
def handleToken (s : Parsing n) : Option (Parsing n) :=
  s.token.bind fun token => (requestToken request s.state token).map (nextToken s.rest)

/-- The loop over the tokens of `input`. -/
def handleRequests (s : State n) (input : List UInt8) : Option (State n) :=
  (runWhile (·.token.isSome) (handleToken request) (input.length + 1)
    (nextToken (content input) s)).map (·.state)

end Tokens

/-- What `main` prints, apart from the rate. -/
structure Totals where
  faults : ℕ
  hits : ℕ
  deriving DecidableEq

def State.totals (s : State n) : Totals := { faults := s.totalFaults, hits := s.totalHits }

/-- The requests for `num_frames` frames. -/
def simulate (numFrames : ℤ) (input : List UInt8) : Option Totals :=
  if h : 0 < numFrames then
    if numFrames ≤ maxFrames then
      (handleRequests handlePageRequest
        (initializeMemory (initial (n := numFrames.toNat) (by omega))) input).map State.totals
    else none
  else if h : numFrames < 0 then
    (handleRequests handlePageRequestNegative
      (initial (n := numFrames.natAbs) (by omega)) input).map State.totals
  else
    -- a request takes the remainder by 0
    (handleRequests (fun _ _ => none) (initial Nat.one_pos) input).map State.totals

/-- `main`, with what is in `input` when it starts. -/
def main (stdin buffer : List UInt8) : Option Totals := do
  let numFrames ← (scanInt stdin).1.value 0
  let (input, _) ← fgets buffer (maxRequests * 2) ((scanInt stdin).2.drop 1)
  simulate numFrames input

/-! ## The tokens of a line -/

theorem handleRequests_eq (request : State n → UInt8 → Option (State n)) (s : State n)
    (input : List UInt8) : handleRequests request s input
      = (runs (· == comma) (content input)).foldlM (requestToken request) s := by
  have hturns : ∀ turns line (s : State n), line.length < turns →
      (runWhile (·.token.isSome) (handleToken request) turns (nextToken line s)).map (·.state)
        = (runs (· == comma) line).foldlM (requestToken request) s := by
    intro turns
    induction turns with
    | zero => intro line s h; omega
    | succ turns ih =>
        intro line s h
        rw [runWhile_succ]
        rcases strtok_cases comma line with ⟨hnone, hruns⟩ | ⟨token, rest, hsome, hlt, hruns⟩
        · rw [nextToken, hnone, hruns]
          rfl
        · simp only [nextToken, hsome, Option.isSome_some, if_true, handleToken, Option.bind_some]
          rw [hruns, List.foldlM_cons]
          cases requestToken request s token with
          | none => rfl
          | some s' => exact ih rest s' (by omega)
  exact hturns _ _ s (Nat.lt_succ_of_le (content_length_le input))

/-! ## Every line -/

theorem handlePageRequest_count {s s' : State n} {p : UInt8} (h : handlePageRequest s p = some s') :
    s'.totalFaults + s'.totalHits = s.totalFaults + s.totalHits + 1 := by
  cases hin : isPageInMemory s p with
  | true =>
      rw [handlePageRequest, if_pos hin] at h
      cases h
      simp only [setReferenceBit_counters]
      omega
  | false =>
      obtain ⟨frame, s₁, hclock, -, hfaults, hhits⟩ :=
        clockAlgorithm_keeps { s with totalFaults := s.totalFaults + 1 }
      rw [handlePageRequest, if_neg (by simp [hin])] at h
      simp only [findEmptyFrame_eq_none, hclock, Option.map_some] at h
      cases h
      simp only [loadPage, State.setFrame, hfaults, hhits]
      omega

/-- A turn of the clock changes no counter. -/
theorem clockBody_counters (startHand : Fin n) (s : State n) :
    (∀ s', clockBody startHand s = .again s' →
      s'.totalFaults = s.totalFaults ∧ s'.totalHits = s.totalHits) ∧
    ∀ frame s', clockBody startHand s = .exit (frame, s') →
      s'.totalFaults = s.totalFaults ∧ s'.totalHits = s.totalHits := by
  unfold clockBody
  dsimp only
  constructor
  · intro s' h
    split_ifs at h <;> cases h <;> exact ⟨rfl, rfl⟩
  · intro frame s' h
    split_ifs at h <;> cases h <;> exact ⟨rfl, rfl⟩

theorem clockBodyNegative_counters {startHand : Fin n} {k : ℕ} {s s' : State n} {frame : Fin n}
    (h : run (clockBodyNegative startHand) k s = .exit (frame, s')) :
    s'.totalFaults = s.totalFaults ∧ s'.totalHits = s.totalHits := by
  induction k generalizing s with
  | zero => cases h
  | succ k ih =>
      rw [run, clockBodyNegative] at h
      split at h
      · rename_i s₁ hbody
        split at hbody
        · obtain ⟨hfaults, hhits⟩ := (clockBody_counters startHand s).1 s₁ hbody
          rw [← hfaults, ← hhits]
          exact ih h
        · cases hbody
      · rename_i r hbody
        cases h
        split at hbody
        · exact (clockBody_counters startHand s).2 frame s' hbody
        · cases hbody
      · cases h

theorem handlePageRequestNegative_count {s s' : State n} {p : UInt8}
    (h : handlePageRequestNegative s p = some s') :
    s'.totalFaults + s'.totalHits = s.totalFaults + s.totalHits + 1 := by
  unfold handlePageRequestNegative at h
  dsimp only at h
  split at h
  · rename_i frame s₁ hrun
    cases h
    obtain ⟨hfaults, hhits⟩ := clockBodyNegative_counters hrun
    simp only [loadPage, State.setFrame, hfaults, hhits]
    omega
  · cases h

variable {request : State n → UInt8 → Option (State n)}

/-- Requests that count one each. -/
theorem requestTokens_count (hrequest : ∀ {s s' p}, request s p = some s' →
      s'.totalFaults + s'.totalHits = s.totalFaults + s.totalHits + 1)
    {s s' : State n} {tokens : List (List UInt8)}
    (h : tokens.foldlM (requestToken request) s = some s') :
    s'.totalFaults + s'.totalHits = s.totalFaults + s.totalHits + tokens.length := by
  induction tokens generalizing s with
  | nil =>
      cases h
      rfl
  | cons token tokens ih =>
      rw [List.foldlM_cons] at h
      obtain ⟨s₁, htoken, htokens⟩ := Option.bind_eq_some_iff.mp h
      obtain ⟨v, -, hpage⟩ := Option.bind_eq_some_iff.mp htoken
      rw [ih htokens, hrequest hpage, List.length_cons]
      omega

theorem handleRequests_count (hrequest : ∀ {s s' p}, request s p = some s' →
      s'.totalFaults + s'.totalHits = s.totalFaults + s.totalHits + 1)
    {s : State n} (hstart : s.totalFaults = 0 ∧ s.totalHits = 0) {input : List UInt8}
    {totals : Totals} (h : (handleRequests request s input).map State.totals = some totals) :
    totals.faults + totals.hits = (runs (· == comma) (content input)).length := by
  rw [handleRequests_eq] at h
  obtain ⟨s', hs', rfl⟩ := Option.map_eq_some_iff.mp h
  have hcount := requestTokens_count hrequest hs'
  rw [hstart.1, hstart.2] at hcount
  simpa [State.totals] using hcount

theorem simulate_counts {numFrames : ℤ} {input : List UInt8} {totals : Totals}
    (h : simulate numFrames input = some totals) :
    totals.faults + totals.hits = (runs (· == comma) (content input)).length := by
  unfold simulate at h
  split at h
  · split at h
    · exact handleRequests_count handlePageRequest_count ⟨rfl, rfl⟩ h
    · cases h
  · split at h
    · exact handleRequests_count handlePageRequestNegative_count ⟨rfl, rfl⟩ h
    · exact handleRequests_count (fun hnone => by cases hnone) ⟨rfl, rfl⟩ h

/-- The bytes of `input` that `fgets` reads. -/
def requestLine (stdin : List UInt8) : List UInt8 :=
  let file := (scanInt stdin).2.drop 1
  file.take (fgetsCount (maxRequests * 2) file)

/-- **Every piece of the line between commas is counted once**, as a fault or as a hit. -/
theorem main_counts {stdin buffer : List UInt8} {totals : Totals}
    (h : main stdin buffer = some totals) :
    totals.faults + totals.hits = (runs (· == comma) (content (requestLine stdin))).length := by
  obtain ⟨numFrames, -, h⟩ := Option.bind_eq_some_iff.mp h
  obtain ⟨⟨input, file⟩, hfgets, h⟩ := Option.bind_eq_some_iff.mp h
  have hinput : content input = content (requestLine stdin) := by
    rw [fgets] at hfgets
    split at hfgets
    · cases hfgets
    · cases hfgets
      exact content_append_zero _ _
  rw [← hinput]
  exact simulate_counts h

/-- Two frames, and the line `7,,x,300`: page 7, page 0 for the `x`, and page 44. -/
def oddInput : List UInt8 := [50, 10, 55, 44, 44, 120, 44, 51, 48, 48, 10]

theorem main_counts_odd : main oddInput [] = some { faults := 3, hits := 0 } ∧
    3 + 0 = (runs (· == comma) (content (requestLine oddInput))).length := by
  have h : main oddInput [] = some { faults := 3, hits := 0 } := by decide +kernel
  exact ⟨h, main_counts h⟩

/-- `-5` frames and the line `1,2,1`: a page is never found again. -/
example : main [45, 53, 10, 49, 44, 50, 44, 49, 10] [] = some { faults := 3, hits := 0 } := by
  decide +kernel

/-! ## A line of page numbers -/

/-- A piece that `atoi` makes the page number of: white space and what comes after the
digits do not matter. -/
structure Names (p : PageNumber) (piece : List UInt8) : Prop where
  reads : ∃ (blanks text after : List UInt8) (v : ℤ),
    piece = blanks ++ (signText (v < 0) ++ (text ++ after)) ∧
    (∀ c ∈ blanks, isSpace c = true) ∧ Numeral 10 text v.natAbs ∧ Stops 10 after ∧
    (-2147483648 ≤ v ∧ v ≤ 2147483647) ∧ UInt8.ofInt v = p.1
  plain : ∀ c ∈ piece, c ≠ comma ∧ c ≠ newline ∧ c ≠ 0

/-- The lines that pages may be typed as. More than one comma is as good as one. -/
inductive Typed : List PageNumber → List UInt8 → Prop where
  | last {p : PageNumber} {piece : List UInt8} : Names p piece → Typed [p] piece
  | page {p : PageNumber} {piece : List UInt8} {pages : List PageNumber} {line : List UInt8} :
      Names p piece → Typed pages line → Typed (p :: pages) (piece ++ comma :: line)
  | skip {pages : List PageNumber} {line : List UInt8} :
      Typed pages line → Typed pages (comma :: line)

variable {p : PageNumber} {pages : List PageNumber} {piece line ending : List UInt8}

/-- A newline at the end is not read. -/
theorem Names.requestToken (h : Names p piece) (hending : ending = [] ∨ ending = [newline])
    (s : State n) :
    requestToken handlePageRequest s (piece ++ ending) = handlePageRequest s p.1 := by
  obtain ⟨blanks, text, after, v, rfl, hblanks, htext, hafter, hv, hp⟩ := h.reads
  have hstops : Stops 10 (after ++ ending) := by
    intro c hc
    cases after with
    | cons d after => exact hafter c hc
    | nil =>
        rcases hending with rfl | rfl <;> cases hc
        exact stops_of_isSpace (by decide) (by decide)
  rw [Clock.requestToken, atoi]
  simp only [List.append_assoc]
  rw [scanInt_read htext hblanks hstops hv, Conversion.value, Option.bind_some, hp]

theorem Names.ne_nil (h : Names p piece) : piece ≠ [] := by
  obtain ⟨blanks, text, after, v, rfl, -, htext, -⟩ := h.reads
  simp [htext.ne_nil]

/-- **The tokens of a line are its pages.** -/
theorem Typed.requestTokens (h : Typed pages line) (hending : ending = [] ∨ ending = [newline])
    (s : State n) : (runs (· == comma) (line ++ ending)).foldlM (requestToken handlePageRequest) s
      = pages.foldlM (fun s p => handlePageRequest s p.1) s := by
  induction h generalizing s with
  | @last p piece h =>
      have hruns : runs (· == comma) (piece ++ ending) = [piece ++ ending] := by
        have hpiece : ∀ c ∈ piece ++ ending, (c == comma) = false := by
          intro c hc
          rcases List.mem_append.mp hc with hc | hc
          · simpa using (h.plain c hc).1
          · rcases hending with rfl | rfl
            · cases hc
            · rw [List.mem_singleton.mp hc]
              rfl
        simpa using runs_append (l := []) (by simp [h.ne_nil]) hpiece nofun
      rw [hruns, List.foldlM_cons, List.foldlM_cons, h.requestToken hending]
      rfl
  | @page p piece pages line h _ ih =>
      have hpiece : ∀ c ∈ piece, (c == comma) = false := fun c hc => by
        simpa using (h.plain c hc).1
      have hcomma : ∀ c ∈ (comma :: (line ++ ending)).head?, (c == comma) = true :=
        fun c hc => by cases hc; rfl
      have hruns := runs_append h.ne_nil hpiece hcomma
      have htoken := h.requestToken (show [] = [] ∨ [] = [newline] from .inl rfl) s
      rw [List.append_nil] at htoken
      rw [List.append_assoc, List.cons_append, hruns, runs_cons_sep (by rfl), List.foldlM_cons,
        List.foldlM_cons, htoken]
      exact bind_congr ih
  | skip _ ih =>
      rw [List.cons_append, runs_cons_sep (by rfl)]
      exact ih s

theorem Typed.plain (h : Typed pages line) : (∀ c ∈ line, c ≠ newline ∧ c ≠ 0) ∧ line ≠ [] := by
  induction h with
  | last h => exact ⟨fun c hc => (h.plain c hc).2, h.ne_nil⟩
  | page h _ ih =>
      refine ⟨fun c hc => ?_, by simp⟩
      rcases List.mem_append.mp hc with hc | hc
      · exact (h.plain c hc).2
      · rcases List.mem_cons.mp hc with rfl | hc
        · decide
        · exact ih.1 c hc
  | skip _ ih =>
      refine ⟨fun c hc => ?_, List.cons_ne_nil _ _⟩
      rcases List.mem_cons.mp hc with rfl | hc
      · decide
      · exact ih.1 c hc

theorem final_step (s : State n) (pages : List PageNumber) :
    final step s pages = pages.foldlM (fun s p => handlePageRequest s p.1) s := by
  induction pages generalizing s with
  | nil => rfl
  | cons p pages ih =>
      rw [List.foldlM_cons]
      exact congrArg (Option.bind (handlePageRequest s p.1)) (funext ih)

/-- **A line of page numbers that fits is answered with the hits and faults of the
second-chance algorithm**, also without a newline at the end of the input. -/
theorem main_secondChance (hn : 0 < n) (hmax : n ≤ maxFrames) {blanks text rest : List UInt8}
    (hblanks : ∀ c ∈ blanks, isSpace c = true) (htext : Numeral 10 text n)
    (hline : Typed pages line) (hfits : line.length < maxRequests * 2)
    (hrest : ∀ c ∈ rest.head?, c = newline) (buffer : List UInt8) :
    ∃ r, final referenceStep (SecondChance.empty hn) pages = some r ∧
      main (blanks ++ (text ++ newline :: (line ++ rest))) buffer
        = some { faults := r.faults, hits := r.hits } := by
  have hframes : scanInt (blanks ++ (text ++ newline :: (line ++ rest)))
      = (.stores (n : ℤ), newline :: (line ++ rest)) := by
    have hstops := stops_space (c := newline) (by decide : 10 ≤ 36) (by decide) (line ++ rest)
    exact scanInt_read (v := n) htext hblanks hstops (by simp [maxFrames] at hmax; omega)
  obtain ⟨ending, tail, file, hending, hfgets⟩ := fgets_line
    (fun h => (hline.plain.1 newline h).1 rfl) hline.plain.2 hfits hrest buffer
  have hcontent : content (line ++ (ending ++ 0 :: tail)) = line ++ ending := by
    have hzero : (0 : UInt8) ∉ line ++ ending := by
      intro h
      rcases List.mem_append.mp h with h | h
      · exact (hline.plain.1 0 h).2 rfl
      · rcases hending with rfl | rfl <;> simp [newline] at h
    rw [← List.append_assoc, content_append_zero, content_of_notMem hzero]
  have hrequests (s : State n) : handleRequests handlePageRequest s (line ++ (ending ++ 0 :: tail))
      = final step s pages := by
    rw [handleRequests_eq, hcontent, hline.requestTokens hending, final_step]
  have hfinal := simulates_referenceStep.final pages _ _ (matches_initial hn)
  obtain ⟨r, hr, -⟩ := final_referenceStep pages (SecondChance.empty hn) nofun
  rw [hr] at hfinal
  cases hs : final step (initializeMemory (initial hn)) pages with
  | none =>
      rw [hs] at hfinal
      exact hfinal.elim
  | some s =>
      rw [hs] at hfinal
      refine ⟨r, hr, ?_⟩
      have hpos : 0 < (n : ℤ) := by omega
      have hle : (n : ℤ) ≤ maxFrames := by omega
      unfold main simulate
      simp only [hframes, Conversion.value, Option.bind_eq_bind, Option.bind_some,
        List.drop_succ_cons, List.drop_zero, hfgets, dif_pos hpos, if_pos hle, Int.toNat_natCast]
      rw [hrequests, hs, Option.map_some, State.totals, hfinal.faults, hfinal.hits]

/-- The pages with a comma between them. -/
def pageLine : List PageNumber → List UInt8
  | [] => []
  | [p] => write 10 p.1.toNat
  | p :: pages => write 10 p.1.toNat ++ comma :: pageLine pages

theorem names_write (p : PageNumber) : Names p (write 10 p.1.toNat) where
  reads := by
    have hp := p.2
    refine ⟨[], write 10 p.1.toNat, [], p.1.toNat, ?_, nofun, ?_, nofun, by omega, ?_⟩
    · simp [signText]
    · simpa using write_numeral (show 2 ≤ 10 by decide) (by decide) 0 p.1.toNat
    · have hmod : ((p.1.toNat : Int) % 2 ^ 8).toNat = p.1.toNat := by omega
      rw [UInt8.ofInt, hmod, UInt8.ofNat_toNat]
  plain c hc := by
    have hdigit := isDigit_write (by decide) (by decide) hc
    refine ⟨?_, ?_, ?_⟩ <;> rintro rfl <;> revert hdigit <;> decide

theorem typed_pageLine {pages : List PageNumber} (h : pages ≠ []) :
    Typed pages (pageLine pages) := by
  induction pages with
  | nil => exact absurd rfl h
  | cons p pages ih =>
      cases pages with
      | nil => exact .last (names_write p)
      | cons q pages => exact .page (names_write p) (ih (List.cons_ne_nil q pages))

theorem toNat_ofNat_le (p : Fin 255) : (UInt8.ofNat p).toNat ≤ 254 := by
  rw [UInt8.toNat_ofNat']
  omega

/-- The second request line of the comment at the end of the source. -/
def secondLine : List PageNumber :=
  [2, 3, 2, 1, 5, 2, 4, 5, 3, 2, 5, 2].map fun p : Fin 255 => ⟨UInt8.ofNat p, toNat_ofNat_le p⟩

/-- Its three frames give the eight faults and four hits the source expects. -/
theorem main_secondChance_secondLine :
    main (write 10 3 ++ newline :: (pageLine secondLine ++ [newline])) []
      = some { faults := 8, hits := 4 } := by
  have hframes : Numeral 10 (write 10 3) 3 := write_numeral (by decide) (by decide) 0 3
  have hline : Typed secondLine (pageLine secondLine) := typed_pageLine (List.cons_ne_nil _ _)
  have hend : ∀ c ∈ [newline].head?, c = newline := fun c hc => by cases hc; rfl
  obtain ⟨r, hr, hmain⟩ := main_secondChance (by decide) (by decide)
    (show ∀ c ∈ [], isSpace c = true from nofun) hframes hline (by decide +kernel) hend []
  have hcounts : (final referenceStep (SecondChance.empty (n := 3) (by decide)) secondLine).map
      (fun r => (r.faults, r.hits)) = some (8, 4) := by decide +kernel
  rw [hr, Option.map_some, Option.some.injEq, Prod.mk.injEq] at hcounts
  rwa [List.nil_append, hcounts.1, hcounts.2] at hmain

end OsInParts.Clock
