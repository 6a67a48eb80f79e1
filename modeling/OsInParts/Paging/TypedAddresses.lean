import OsInParts.Lib.Prompt
import OsInParts.Paging.Segmentation
import OsInParts.Paging.TlbSession

/-!
# TypedAddresses — the input of the two address translators

`main` of `Segmentation, Paging, IPC/q2.c` and of `q3.c` reads words with
`scanf("%4s")` until one begins with `q` or `Q`, and `strtol` converts each word.
A longer word is read four characters at a time: `12345678` is two addresses,
and in `0x1A2B` the address is `0x1A`, with `2B` for the next.

`addresses` are the addresses in a text, as far as the first word to quit on.
Addresses that are written with four digits each are read back, with white
space between them or without (`addresses_typed`).
-/

namespace OsInParts

open Lib.Scan Lib.Prompt Lib.Loop Segmentation

/-- `input[0] == 'q' || input[0] == 'Q'`. -/
def quits (word : List UInt8) : Bool := word.head? = some 113 || word.head? = some 81

/-- `(uint16_t)strtol(input, NULL, 16)`. -/
def logicalAddr (word : List UInt8) : UInt16 := UInt16.ofInt (strtol word)

/-- The words that are translated. -/
def typedWords (input : List UInt8) : List (List UInt8) := handled 3 quits input

def addresses (input : List UInt8) : List UInt16 := (typedWords input).map logicalAddr

/-- There is a word to quit on. -/
def HasQuit (input : List UInt8) : Prop := ∃ w ∈ pieces 3 input, quits w = true

/-! ## Addresses that are written with four digits -/

theorem hexChar_plain {d : Nat} (hd : d < 16) :
    isSpace (hexChar d) = false ∧ hexChar d ≠ 113 ∧ hexChar d ≠ 81 := by
  revert d
  decide

theorem hexText_plain (a : UInt16) : (∀ c ∈ hexText a, isSpace c = false) ∧
    quits (hexText a) = false := by
  have ha := a.toNat_lt
  have hfirst := hexChar_plain (show a.toNat / 4096 < 16 by omega)
  refine ⟨fun c hc => ?_, ?_⟩
  · obtain ⟨d, hd, rfl⟩ := List.mem_map.mp hc
    refine (hexChar_plain ?_).1
    simp only [List.mem_cons, List.not_mem_nil, or_false] at hd
    omega
  · simp [quits, hexText, hfirst.2]

theorem logicalAddr_hexText (a : UInt16) : logicalAddr (hexText a) = a := by
  have hmod : ((a.toNat : Int) % 2 ^ 16).toNat = a.toNat := by
    have := a.toNat_lt
    omega
  rw [logicalAddr, strtol_hexText, UInt16.ofInt, hmod, UInt16.ofNat_toNat]

/-- Addresses with what is typed before each. -/
def typed (las : List (List UInt8 × UInt16)) : List UInt8 :=
  las.flatMap fun (spaces, la) => spaces ++ hexText la

theorem pieces_typed {las : List (List UInt8 × UInt16)}
    (h : ∀ entry ∈ las, ∀ c ∈ entry.1, isSpace c = true) (rest : List UInt8) :
    pieces 3 (typed las ++ rest) = las.map (fun entry => hexText entry.2) ++ pieces 3 rest := by
  induction las with
  | nil => rfl
  | cons entry las ih =>
      have hentry := h entry List.mem_cons_self
      have hrest := ih fun entry' hmem => h entry' (List.mem_cons_of_mem entry hmem)
      have hpieces := pieces_exact 3 hentry (hexText_plain entry.2).1 rfl
        (typed las ++ rest)
      rw [hrest] at hpieces
      rw [typed, List.flatMap_cons, ← typed, List.append_assoc, List.append_assoc]
      exact hpieces

/-- **Addresses that are typed are read back**, with any white space before each of
them, up to the first word to quit on. -/
theorem addresses_typed (las : List (List UInt8 × UInt16))
    (h : ∀ entry ∈ las, ∀ c ∈ entry.1, isSpace c = true) (rest : List UInt8) :
    addresses (typed las ++ rest) = las.map Prod.snd ++ addresses rest ∧
      (HasQuit (typed las ++ rest) ↔ HasQuit rest) := by
  have hnot : ∀ entry ∈ las, quits (hexText entry.2) = false := fun entry _ =>
    (hexText_plain entry.2).2
  refine ⟨?_, ?_⟩
  · rw [addresses, typedWords, handled, pieces_typed h, List.takeWhile_append_of_pos,
      List.map_append, List.map_map]
    · refine congrArg (· ++ _) (List.map_congr_left fun entry _ => ?_)
      exact logicalAddr_hexText entry.2
    · intro w hw
      obtain ⟨entry, hmem, rfl⟩ := List.mem_map.mp hw
      simp [hnot entry hmem]
  · rw [HasQuit, pieces_typed h]
    constructor
    · rintro ⟨w, hw, hquit⟩
      rcases List.mem_append.mp hw with hw | hw
      · obtain ⟨entry, hmem, rfl⟩ := List.mem_map.mp hw
        rw [hnot entry hmem] at hquit
        cases hquit
      · exact ⟨w, hw, hquit⟩
    · rintro ⟨w, hw, hquit⟩
      exact ⟨w, List.mem_append_right _ hw, hquit⟩

theorem pieces_q : pieces 3 [113] = [[113]] := by
  rw [pieces, show Lib.Runs.runs isSpace [113] = [[113]] by decide, List.flatMap_singleton,
    chunks_cons, show [(113 : UInt8)].drop (3 + 1) = [] from rfl, chunks_nil]
  rfl

/-- `1A2B0001q`. -/
theorem addresses_typed_two :
    addresses (typed [([], 0x1A2B), ([], 1)] ++ [113]) = [0x1A2B, 1] ∧
      HasQuit (typed [([], 0x1A2B), ([], 1)] ++ [113]) := by
  obtain ⟨haddresses, hquit⟩ := addresses_typed [([], 0x1A2B), ([], 1)] (by simp) [113]
  rw [haddresses, hquit, HasQuit, addresses, typedWords, handled, pieces_q]
  exact ⟨rfl, [113], List.mem_cons_self, rfl⟩

/-! ## Segmentation -/

namespace Segmentation

/-- `translateAddress(logicalAddress)`, with what has been printed so far. -/
def report (s : Segments) (printed : List Translation) (word : List UInt8) :
    Except Empty (List Translation) := .ok (printed ++ [translateAddress s word])

/-- One turn of the loop of `main`. -/
def mainTurn (s : Segments) : Terminal (List Translation) →
    Next (Terminal (List Translation)) (Except Empty (List Translation)) :=
  turn 3 quits (report s)

theorem foldlM_report (s : Segments) (words : List (List UInt8)) (printed : List Translation) :
    words.foldlM (report s) printed = .ok (printed ++ words.map (translateAddress s)) := by
  induction words generalizing printed with
  | nil =>
      rw [List.map_nil, List.append_nil]
      rfl
  | cons word words ih =>
      rw [List.foldlM_cons, List.map_cons, List.append_cons]
      exact ih _

/-- **Every text**: `main` comes back exactly if there is a word to quit on, and has then
translated the words before it, four characters at a time, in order. -/
theorem main_translates (s : Segments) (input : List UInt8) (printed : List Translation) :
    Returns (mainTurn s) (start input []) (.ok printed) ↔
      HasQuit input ∧ printed = (typedWords input).map (translateAddress s) := by
  rw [mainTurn, returns_iff, ← typedWords, foldlM_report, List.nil_append, Except.ok.injEq]
  exact and_congr_right fun _ => eq_comm

end Segmentation

/-! ## The TLB -/

namespace Tlb

/-- One turn of the loop of `main`, from the `scanf` on. -/
def typedTurn (pageTable : PageTable) : Terminal Session →
    Next (Terminal Session) (Except Stop Session) :=
  turn 3 quits fun s word => mainTurn pageTable s (logicalAddr word)

theorem typedTurn_returns (pageTable : PageTable) (s s' : Session) (input : List UInt8) :
    Returns (typedTurn pageTable) (start input s) (.ok s') ↔
      HasQuit input ∧ mainLoop pageTable s (addresses input) = .ok s' := by
  rw [typedTurn, returns_iff, mainLoop, addresses, List.foldlM_map]
  rfl

/-- What a session prints of a translation. -/
def Line.outcome (line : Line) : UInt16 × Except Fault UInt16 :=
  (line.logicalAddr, .ok line.physicalAddr)

/-- The lines of a session that does not fault are those of the page table alone. -/
theorem translations_walk {pageTable : PageTable} {s : State} (h : Coherent pageTable s)
    {las : List UInt16} (hall : (translations pageTable s las).map (·.logicalAddr) = las) :
    (translations pageTable s las).map Line.outcome
      = las.map fun la => (la, walk pageTable la) := by
  induction las generalizing s with
  | nil => rfl
  | cons la las ih =>
      obtain ⟨houtput, hcontinues⟩ := simulates_walkStep pageTable s () la h
      cases htranslate : translateAddress pageTable s la with
      | error fault =>
          rw [translations, htranslate] at hall
          cases hall
      | ok r =>
          obtain ⟨pa, tlbHit, s'⟩ := r
          rw [translations, htranslate] at hall ⊢
          simp only [step, htranslate, walkStep] at houtput hcontinues
          cases hwalk : walk pageTable la with
          | error fault =>
              rw [hwalk] at houtput
              cases houtput
          | ok pa' =>
              rw [hwalk] at houtput hcontinues
              cases houtput
              have htail := (List.cons.inj hall).2
              rw [List.map_cons, List.map_cons, ih hcontinues htail, hwalk]
              rfl

/-- **Every text**: `main` comes back exactly if there is a word to quit on and at most
100 different addresses before it, and has then printed for each of them, in order, what
the page table says. -/
theorem main_walks (previous : Fin maxAddresses → UInt16) (input : List UInt8) :
    ((∃ s, Returns (typedTurn initPageTable) (start input (mainStart previous)) (.ok s)) ↔
      HasQuit input ∧ (addresses input).eraseDups.length ≤ maxAddresses) ∧
    ∀ s, Returns (typedTurn initPageTable) (start input (mainStart previous)) (.ok s) →
      s.printed.map Line.outcome
        = (addresses input).map fun la => (la, walk initPageTable la) := by
  have hstart := ready_start previous
  refine ⟨?_, fun s hs => ?_⟩
  · simp only [typedTurn_returns, exists_and_left]
    refine and_congr_right fun _ => ⟨fun ⟨s, hloop⟩ => ?_, fun hfits => ?_⟩
    · by_contra hfull
      rw [hstart.loop_out _ (by simpa using hfull)] at hloop
      cases hloop
    · obtain ⟨s, hloop, -⟩ := hstart.loop (addresses input) (by simpa using hfits)
      exact ⟨s, hloop⟩
  · obtain ⟨-, hloop⟩ := (typedTurn_returns _ _ _ _).mp hs
    have hfits : ([] ++ addresses input).eraseDups.length ≤ maxAddresses := by
      by_contra hfull
      rw [hstart.loop_out _ (not_le.mp hfull)] at hloop
      cases hloop
    obtain ⟨s', hloop', hready⟩ := hstart.loop _ hfits
    rw [hloop] at hloop'
    cases hloop'
    have hprinted : s.printed = translations initPageTable (mainStart previous).toState
        (addresses input) := by
      simpa [mainStart] using mainLoop_printed hloop
    have hasked := hready.asked
    rw [hprinted] at hasked ⊢
    exact translations_walk (fun i vpn hvalid => by cases hvalid) hasked

end Tlb

end OsInParts
