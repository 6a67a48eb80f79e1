import OsInParts.Lib.Loop
import OsInParts.Lib.Scan
import OsInParts.Paging.FrameAllocation

/-!
# Commands — the session that is typed in

`main` of `Segmentation, Paging, IPC/q4.c` reads a letter, an address in
hexadecimal and for a store a value, until the letter is `q`. No result of
`scanf` is looked at: where there is nothing to convert, a variable keeps its value,
and at the end of the input the last letter is carried out again and again. A
variable is read before anything was stored in it, or a number does not fit:
both are undefined here.

However the commands are laid out, what is printed is what a flat byte memory
would answer (`commands_read`), and `main` comes to an end exactly if the
input has a `q` (`main_returns_iff`).
-/

namespace OsInParts.Paging

open Lib.Scan Lib.Loop Lib.Machine

/-- What `main` prints: its three questions, and an answer to each command. -/
inductive Line where
  | enterOperation
  | enterAddress
  | enterValue
  | valueAt (va : UInt32) (value : UInt8)
  | storedAt (value : UInt8) (va : UInt32)
  deriving DecidableEq

/-- The input that is left, the locals of `main`, the globals and the output. -/
structure Console where
  input : List UInt8
  operation : Option UInt8
  va : Option UInt32
  value : Option UInt8
  memory : State
  printed : List Line

def Console.start (input : List UInt8) : Console :=
  { input := input, operation := none, va := none, value := none, memory := initial, printed := [] }

def Console.print (s : Console) (line : Line) : Console := { s with printed := s.printed ++ [line] }

/-- `scanf(" %c", &operation)`. -/
def scanOperation (s : Console) : Console :=
  match skipSpaces s.input with
  | [] => { s with input := [] }
  | c :: input => { s with operation := some c, input := input }

/-- `scanf("%x", &va)`. -/
def scanAddress (s : Console) : Option Console :=
  ((scanHex s.input).1.assign s.va).map fun va => { s with va := va, input := (scanHex s.input).2 }

/-- `scanf("%hhu", &value)`. -/
def scanValue (s : Console) : Option Console :=
  ((scanByte s.input).1.assign s.value).map fun value =>
    { s with value := value, input := (scanByte s.input).2 }

/-- The branch of `l`. -/
def loadCommand (s : Console) : Option Console :=
  s.va.map fun va =>
    { s with
      value := some (load s.memory va).1
      memory := (load s.memory va).2
      printed := s.printed ++ [.valueAt va (load s.memory va).1] }

/-- The branch of `s`, after the value has been read. -/
def storeCommand (s : Console) : Option Console :=
  s.va.bind fun va => s.value.map fun value =>
    { s with
      memory := store s.memory va value
      printed := s.printed ++ [.storedAt value va] }

/-- The letters `l`, `s` and `q`. -/
def letterL : UInt8 := 108

def letterS : UInt8 := 115

def letterQ : UInt8 := 113

/-- The rest of a turn, when the letter is not `q`. -/
def command (operation : UInt8) (s : Console) : Option Console := do
  let s ← scanAddress (s.print .enterAddress)
  if operation = letterL then loadCommand s
  else if operation = letterS then do
    let s ← scanValue (s.print .enterValue)
    storeCommand s
  else some s

/-- One turn of `while (1)`. -/
def mainTurn (s : Console) : Next Console Console :=
  let s := scanOperation (s.print .enterOperation)
  match s.operation with
  | none => .undefined
  | some operation =>
      if operation = letterQ then .exit s
      else
        match command operation s with
        | some s => .again s
        | none => .undefined

/-! ## Typing commands in -/

/-- The texts that commands may be typed as, up to a `q` and whatever comes
after it. White space is needed where the value of a store would be read as
more of its address, and nowhere else. -/
inductive Typed : List Op → List UInt8 → Prop where
  | quit (spaces rest : List UInt8) : (∀ c ∈ spaces, isSpace c = true) →
      Typed [] (spaces ++ letterQ :: rest)
  | load {ops : List Op} {rest : List UInt8} (spaces gap address : List UInt8) (va : UInt32) :
      (∀ c ∈ spaces, isSpace c = true) → (∀ c ∈ gap, isSpace c = true) →
      Numeral 16 address va.toNat → Stops 16 rest → Typed ops rest →
      Typed (.load va :: ops) (spaces ++ letterL :: (gap ++ (address ++ rest)))
  | store {ops : List Op} {rest : List UInt8} (spaces gap address gap' text : List UInt8)
      (va : UInt32) (value : UInt8) :
      (∀ c ∈ spaces, isSpace c = true) → (∀ c ∈ gap, isSpace c = true) →
      Numeral 16 address va.toNat → gap' ≠ [] → (∀ c ∈ gap', isSpace c = true) →
      Numeral 10 text value.toNat → Stops 10 rest → Typed ops rest →
      Typed (.store va value :: ops)
        (spaces ++ letterS :: (gap ++ (address ++ (gap' ++ (text ++ rest)))))

/-- What a session prints over a flat memory. -/
def transcript : FlatMemory → List Op → List Line
  | _, [] => [.enterOperation]
  | m, .load va :: ops =>
      [.enterOperation, .enterAddress, .valueAt va (m va)] ++ transcript m ops
  | m, .store va value :: ops =>
      [.enterOperation, .enterAddress, .enterValue, .storedAt value va]
        ++ transcript (Function.update m va value) ops

/-- After a load has been read and carried out. -/
def Console.loaded (s : Console) (va : UInt32) (rest : List UInt8) : Console :=
  { input := rest
    operation := some letterL
    va := some va
    value := some (load s.memory va).1
    memory := (load s.memory va).2
    printed := s.printed ++ [.enterOperation, .enterAddress, .valueAt va (load s.memory va).1] }

/-- After a store has been read and carried out. -/
def Console.stored (s : Console) (va : UInt32) (value : UInt8) (rest : List UInt8) : Console :=
  { input := rest
    operation := some letterS
    va := some va
    value := some value
    memory := store s.memory va value
    printed := s.printed ++ [.enterOperation, .enterAddress, .enterValue, .storedAt value va] }

section Reading

variable {s : Console} {spaces gap address gap' text rest : List UInt8} {va : UInt32}
  {value : UInt8}

theorem scanOperation_read {c : UInt8} (hinput : s.input = spaces ++ c :: rest)
    (hspaces : ∀ c ∈ spaces, isSpace c = true) (hc : isSpace c = false) :
    scanOperation s = { s with operation := some c, input := rest } := by
  have hskip : skipSpaces s.input = c :: rest := by
    rw [hinput]
    refine skipSpaces_append hspaces fun c' hc' => ?_
    cases hc'
    exact hc
  rw [scanOperation, hskip]

theorem mainTurn_quit (hinput : s.input = spaces ++ letterQ :: rest)
    (hspaces : ∀ c ∈ spaces, isSpace c = true) :
    mainTurn s = .exit { s with
      input := rest
      operation := some letterQ
      printed := s.printed ++ [.enterOperation] } := by
  have hread := scanOperation_read (s := s.print .enterOperation) hinput hspaces (by decide)
  simp only [mainTurn, hread, if_true]
  rfl

theorem scanAddress_read (hinput : s.input = gap ++ (address ++ rest))
    (hgap : ∀ c ∈ gap, isSpace c = true) (haddress : Numeral 16 address va.toNat)
    (hrest : Stops 16 rest) : scanAddress s = some { s with va := some va, input := rest } := by
  simp only [scanAddress, hinput, scanHex_read haddress hgap hrest, Conversion.assign,
    Option.map_some]

theorem scanValue_read (hinput : s.input = gap ++ (text ++ rest))
    (hgap : ∀ c ∈ gap, isSpace c = true) (htext : Numeral 10 text value.toNat)
    (hrest : Stops 10 rest) : scanValue s = some { s with value := some value, input := rest } := by
  simp only [scanValue, hinput, scanByte_read htext hgap hrest, Conversion.assign,
    Option.map_some]

theorem mainTurn_load (hinput : s.input = spaces ++ letterL :: (gap ++ (address ++ rest)))
    (hspaces : ∀ c ∈ spaces, isSpace c = true) (hgap : ∀ c ∈ gap, isSpace c = true)
    (haddress : Numeral 16 address va.toNat) (hrest : Stops 16 rest) :
    mainTurn s = .again (s.loaded va rest) := by
  have hread := scanOperation_read (s := s.print .enterOperation) hinput hspaces (by decide)
  have hva := scanAddress_read (s := Console.print { s.print .enterOperation with
    operation := some letterL, input := gap ++ (address ++ rest) } .enterAddress) rfl hgap
    haddress hrest
  simp only [mainTurn, hread, if_neg (show letterL ≠ letterQ by decide), command, hva,
    Option.bind_eq_bind, Option.bind_some, if_true, loadCommand, Option.map_some]
  simp [Console.print, Console.loaded]

theorem mainTurn_store
    (hinput : s.input = spaces ++ letterS :: (gap ++ (address ++ (gap' ++ (text ++ rest)))))
    (hspaces : ∀ c ∈ spaces, isSpace c = true) (hgap : ∀ c ∈ gap, isSpace c = true)
    (haddress : Numeral 16 address va.toNat) (hne : gap' ≠ [])
    (hgap' : ∀ c ∈ gap', isSpace c = true) (htext : Numeral 10 text value.toNat)
    (hrest : Stops 10 rest) :
    mainTurn s = .again (s.stored va value rest) := by
  -- the address ends at the white space
  have hstops : Stops 16 (gap' ++ (text ++ rest)) := by
    obtain ⟨c, gap', rfl⟩ := List.exists_cons_of_ne_nil hne
    exact stops_space (by decide) (hgap' c List.mem_cons_self) _
  have hread := scanOperation_read (s := s.print .enterOperation) hinput hspaces (by decide)
  have hva := scanAddress_read (s := Console.print { s.print .enterOperation with
    operation := some letterS, input := gap ++ (address ++ (gap' ++ (text ++ rest))) }
    .enterAddress) rfl hgap haddress hstops
  have hvalue := scanValue_read (s := Console.print
    { Console.print { s.print .enterOperation with
        operation := some letterS, input := gap ++ (address ++ (gap' ++ (text ++ rest))) }
        .enterAddress with
      va := some va, input := gap' ++ (text ++ rest) } .enterValue) rfl hgap' htext hrest
  simp only [mainTurn, hread, if_neg (show letterS ≠ letterQ by decide), command, hva,
    Option.bind_eq_bind, Option.bind_some, if_true, if_neg (show letterS ≠ letterL by decide),
    hvalue, storeCommand, Option.map_some]
  simp [Console.print, Console.stored]

end Reading

/-- A session goes through the commands one by one. -/
theorem Typed.session {ops : List Op} {text : List UInt8} (h : Typed ops text) {s : Console}
    {m : FlatMemory} (hinput : s.input = text) (hm : Represents s.memory m) :
    ∃ s', Returns mainTurn s s' ∧ s'.printed = s.printed ++ transcript m ops ∧
      s'.memory = Paging.run s.memory ops := by
  induction h generalizing s m with
  | quit spaces rest hspaces =>
      exact ⟨_, ⟨1, run_exit (mainTurn_quit hinput hspaces) 0⟩, rfl, rfl⟩
  | load spaces gap address va hspaces hgap haddress hrest _ ih =>
      obtain ⟨hvalue, hm'⟩ := hm.load va
      have hturn := mainTurn_load hinput hspaces hgap haddress hrest
      obtain ⟨s', ⟨k, hk⟩, hprinted, hmemory⟩ := ih (s := s.loaded va _) rfl hm'
      refine ⟨s', ⟨k + 1, ?_⟩, ?_, hmemory⟩
      · rw [run_again hturn, hk]
      · rw [hprinted, Console.loaded, hvalue, transcript, List.append_assoc]
  | store spaces gap address gap' text va value hspaces hgap haddress hne hgap' htext hrest _ ih =>
      have hturn := mainTurn_store hinput hspaces hgap haddress hne hgap' htext hrest
      obtain ⟨s', ⟨k, hk⟩, hprinted, hmemory⟩ :=
        ih (s := s.stored va value _) rfl (hm.store va value)
      refine ⟨s', ⟨k + 1, ?_⟩, ?_, hmemory⟩
      · rw [run_again hturn, hk]
      · rw [hprinted, Console.stored, transcript, List.append_assoc]

/-- **A session that is typed in** comes to an end, whatever its layout, and prints
what a flat byte memory answers. -/
theorem commands_read {ops : List Op} {text : List UInt8} (h : Typed ops text) :
    ∃ s, Returns mainTurn (Console.start text) s ∧ s.printed = transcript (fun _ => 0) ops ∧
      s.memory = Paging.run initial ops :=
  h.session rfl represents_initial

/-- `s10 7`, a new line and `l 0x10q`. -/
def sampleText : List UInt8 := [115, 49, 48, 32, 55, 10, 108, 32, 48, 120, 49, 48, 113]

theorem typed_sampleText : Typed [.store 16 7, .load 16] sampleText := by
  have haddress : Numeral 16 [49, 48] (16 : UInt32).toNat :=
    .plain [49, 48] (by decide) (List.all_eq_true.mp rfl)
  have haddress' : Numeral 16 [48, 120, 49, 48] (16 : UInt32).toNat :=
    .prefixed 120 [49, 48] rfl (.inl rfl) (by decide) (List.all_eq_true.mp rfl)
  have hvalue : Numeral 10 [55] (7 : UInt8).toNat :=
    .plain [55] (by decide) (List.all_eq_true.mp rfl)
  have hspace : ∀ c ∈ [(32 : UInt8)], isSpace c = true := List.all_eq_true.mp rfl
  have hnewline : ∀ c ∈ [(10 : UInt8)], isSpace c = true := List.all_eq_true.mp rfl
  have hnone : ∀ c ∈ ([] : List UInt8), isSpace c = true := nofun
  refine .store [] [] [49, 48] [32] [55] 16 7 hnone hnone haddress (by decide) hspace hvalue
    (stops_space (by decide) (by decide) _) ?_
  refine .load [10] [32] [48, 120, 49, 48] 16 hnewline hspace haddress'
    (stops_cons (by decide) _) ?_
  exact .quit [] [] hnone

theorem commands_read_sample : ∃ s, Returns mainTurn (Console.start sampleText) s ∧
    s.printed = [.enterOperation, .enterAddress, .enterValue, .storedAt 7 16, .enterOperation,
      .enterAddress, .valueAt 16 7, .enterOperation] := by
  obtain ⟨s, hreturns, hprinted, -⟩ := commands_read typed_sampleText
  exact ⟨s, hreturns, by rw [hprinted]; rfl⟩

/-! ## When `main` returns -/

/-- The input that is taken has no `q` in it, and the letter stays. -/
def Console.Passes (s s' : Console) : Prop :=
  (∃ taken, s.input = taken ++ s'.input ∧ letterQ ∉ taken) ∧ s'.operation = s.operation

theorem Console.Passes.of_input {s s' : Console} (hinput : s'.input = s.input)
    (hoperation : s'.operation = s.operation) : s.Passes s' :=
  ⟨⟨[], hinput.symm, List.not_mem_nil⟩, hoperation⟩

theorem Console.Passes.trans {s s₁ s₂ : Console} (h : s.Passes s₁) (h' : s₁.Passes s₂) :
    s.Passes s₂ := by
  obtain ⟨⟨taken, htaken, hq⟩, hoperation⟩ := h
  obtain ⟨⟨taken', htaken', hq'⟩, hoperation'⟩ := h'
  refine ⟨⟨taken ++ taken', ?_, ?_⟩, hoperation'.trans hoperation⟩
  · rw [htaken, htaken', List.append_assoc]
  · simp [hq, hq']

theorem not_taken_letterQ {base : Nat} (hbase : base ≤ 16) : ¬ Taken base letterQ := by
  have hdigit : isDigit base letterQ = false := by
    rw [isDigit, show digitValue letterQ = 26 from rfl, decide_eq_false_iff_not]
    omega
  unfold Taken
  rw [hdigit]
  decide

theorem scanAddress_passes {s s' : Console} (h : scanAddress s = some s') : s.Passes s' := by
  obtain ⟨va, -, rfl⟩ := Option.map_eq_some_iff.mp h
  obtain ⟨taken, htaken, hall⟩ := convert_split 16 _ s.input
  exact ⟨⟨taken, htaken, fun hq => not_taken_letterQ (by decide) (hall _ hq)⟩, rfl⟩

theorem scanValue_passes {s s' : Console} (h : scanValue s = some s') : s.Passes s' := by
  obtain ⟨value, -, rfl⟩ := Option.map_eq_some_iff.mp h
  obtain ⟨taken, htaken, hall⟩ := convert_split 10 _ s.input
  exact ⟨⟨taken, htaken, fun hq => not_taken_letterQ (by decide) (hall _ hq)⟩, rfl⟩

theorem loadCommand_passes {s s' : Console} (h : loadCommand s = some s') : s.Passes s' := by
  obtain ⟨va, -, rfl⟩ := Option.map_eq_some_iff.mp h
  exact .of_input rfl rfl

theorem storeCommand_passes {s s' : Console} (h : storeCommand s = some s') : s.Passes s' := by
  obtain ⟨va, -, h⟩ := Option.bind_eq_some_iff.mp h
  obtain ⟨value, -, rfl⟩ := Option.map_eq_some_iff.mp h
  exact .of_input rfl rfl

theorem command_passes {operation : UInt8} {s s' : Console} (h : command operation s = some s') :
    s.Passes s' := by
  obtain ⟨s₁, haddress, h⟩ := Option.bind_eq_some_iff.mp h
  have hfirst : s.Passes s₁ :=
    (Console.Passes.of_input rfl rfl : s.Passes (s.print .enterAddress)).trans
      (scanAddress_passes haddress)
  refine hfirst.trans ?_
  split at h
  · exact loadCommand_passes h
  · split at h
    · obtain ⟨s₂, hvalue, h⟩ := Option.bind_eq_some_iff.mp h
      exact ((Console.Passes.of_input rfl rfl : s₁.Passes (s₁.print .enterValue)).trans
        (scanValue_passes hvalue)).trans (storeCommand_passes h)
    · cases h
      exact .of_input rfl rfl

/-- The letter is the next byte that is no white space, if there is one. -/
theorem scanOperation_cases (s : Console) :
    ((∀ c ∈ s.input, isSpace c = true) ∧ scanOperation s = { s with input := [] }) ∨
      ∃ spaces c rest, s.input = spaces ++ c :: rest ∧ (∀ c ∈ spaces, isSpace c = true) ∧
        scanOperation s = { s with operation := some c, input := rest } := by
  have hsplit : s.input = s.input.takeWhile isSpace ++ skipSpaces s.input :=
    List.takeWhile_append_dropWhile.symm
  unfold scanOperation
  cases hskip : skipSpaces s.input with
  | nil =>
      refine .inl ⟨fun c hc => ?_, rfl⟩
      rw [hsplit, hskip, List.append_nil] at hc
      exact List.mem_takeWhile_imp hc
  | cons c rest =>
      exact .inr ⟨_, c, rest, hskip ▸ hsplit, fun c hc => List.mem_takeWhile_imp hc, rfl⟩

theorem not_mem_letterQ {spaces : List UInt8} (h : ∀ c ∈ spaces, isSpace c = true) :
    letterQ ∉ spaces := fun hq => absurd (h letterQ hq) (by decide)

/-- A turn that goes on has not come to the `q`, and has come nearer to it. -/
theorem mainTurn_again {s s' : Console} (h : mainTurn s = .again s') :
    s'.operation ≠ some letterQ ∧ (letterQ ∈ s'.input ↔ letterQ ∈ s.input) ∧
      (letterQ ∈ s.input → s'.input.length < s.input.length) := by
  unfold mainTurn at h
  dsimp only at h
  split at h
  · cases h
  · rename_i operation hoperation
    split at h
    · cases h
    · rename_i hq
      split at h
      · rename_i s₁ hcommand
        cases h
        obtain ⟨⟨taken, htaken, hnot⟩, hkeep⟩ := command_passes hcommand
        refine ⟨?_, ?_⟩
        · rw [hkeep, hoperation]
          exact fun heq => hq (Option.some.inj heq)
        · rcases scanOperation_cases (s.print .enterOperation) with
            ⟨hspaces, hread⟩ | ⟨spaces, c, rest, hinput, hspaces, hread⟩
          · -- the end of the input
            rw [hread] at htaken
            obtain ⟨-, hnil⟩ := List.append_eq_nil_iff.mp htaken.symm
            have hnone : letterQ ∉ s.input := not_mem_letterQ hspaces
            exact ⟨by simp [hnil, hnone], fun hmem => absurd hmem hnone⟩
          · rw [hread] at htaken hoperation
            obtain rfl : c = operation := Option.some.inj hoperation
            have hinput : s.input = spaces ++ c :: (taken ++ s'.input) := by
              rw [← htaken]
              exact hinput
            have hspace := not_mem_letterQ hspaces
            refine ⟨?_, fun _ => ?_⟩
            · rw [hinput]
              simp [hspace, hnot, Ne.symm hq]
            · rw [hinput]
              simp only [List.length_append, List.length_cons]
              omega
      · cases h

/-- A turn that ends the loop has come to a `q`. -/
theorem mainTurn_exit {s s' : Console} (h : mainTurn s = .exit s')
    (hs : s.operation ≠ some letterQ) : letterQ ∈ s.input := by
  unfold mainTurn at h
  dsimp only at h
  split at h
  · cases h
  · rename_i operation hoperation
    split at h
    · rename_i hq
      rcases scanOperation_cases (s.print .enterOperation) with
        ⟨-, hread⟩ | ⟨spaces, c, rest, hinput, -, hread⟩
      · rw [hread, hq] at hoperation
        exact absurd hoperation hs
      · rw [hread] at hoperation
        obtain rfl : c = operation := Option.some.inj hoperation
        have hinput : s.input = spaces ++ c :: rest := hinput
        rw [hinput, hq]
        simp
    · split at h <;> cases h

/-- **`main` comes back exactly if the input has a `q`**, where it is defined: no
number, sign or prefix takes the `q` away, and without one no letter ends the
loop. -/
theorem main_returns_iff (input : List UInt8) :
    (∃ k, Lib.Loop.run mainTurn k (Console.start input) = .undefined) ∨
      ((∃ s, Returns mainTurn (Console.start input) s) ↔ letterQ ∈ input) := by
  have hreturns : ∀ (n : Nat) (s : Console), s.input.length = n → letterQ ∈ s.input →
      s.operation ≠ some letterQ → (∃ k, Lib.Loop.run mainTurn k s = .undefined) ∨
        ∃ s', Returns mainTurn s s' := by
    intro n
    induction n using Nat.strongRecOn with
    | _ n ih =>
        intro s hlength hq hs
        cases hturn : mainTurn s with
        | again s' =>
            obtain ⟨hs', hiff, hlt⟩ := mainTurn_again hturn
            rcases ih _ (hlength ▸ hlt hq) s' rfl (hiff.mpr hq) hs' with ⟨k, hk⟩ | ⟨s'', k, hk⟩
            · exact .inl ⟨k + 1, by rw [run_again hturn, hk]⟩
            · exact .inr ⟨s'', k + 1, by rw [run_again hturn, hk]⟩
        | exit s' => exact .inr ⟨s', 1, run_exit hturn 0⟩
        | undefined => exact .inl ⟨1, run_undefined hturn 0⟩
  have hstart : (Console.start input).operation ≠ some letterQ := nofun
  by_cases hq : letterQ ∈ input
  · exact (hreturns _ _ rfl hq hstart).imp_right fun h => iff_of_true h hq
  · refine .inr (iff_of_false ?_ hq)
    rintro ⟨s, hs⟩
    refine hs.rule (fun s => s.operation ≠ some letterQ ∧ letterQ ∉ s.input) (fun _ => False)
      (fun s s' hI hturn => ?_) (fun s r hI hturn => ?_) ⟨hstart, hq⟩
    · obtain ⟨hs', hiff, -⟩ := mainTurn_again hturn
      exact ⟨hs', fun hmem => hI.2 (hiff.mp hmem)⟩
    · exact hI.2 (mainTurn_exit hturn hI.1)

/-! ## What is printed -/

/-- The command that a line answers. -/
def Line.served : Line → Option Op
  | .valueAt va _ => some (.load va)
  | .storedAt value va => some (.store va value)
  | _ => none

def Line.answer : Line → Option (Option UInt8)
  | .valueAt _ value => some (some value)
  | .storedAt _ _ => some none
  | _ => none

/-- **The output is the record of the session**: the memory is what the commands
in it make of it, and the values in it are those of a flat byte memory. -/
structure Console.Honest (s : Console) : Prop where
  memory : s.memory = Paging.run initial (s.printed.filterMap Line.served)
  answers : s.printed.filterMap Line.answer
    = outputs flatStep (fun _ => 0) (s.printed.filterMap Line.served)

/-- A question changes neither. -/
theorem Console.Honest.of_question {s s' : Console} (h : s.Honest) {line : Line}
    (hserved : line.served = none) (hanswer : line.answer = none)
    (hprinted : s'.printed = s.printed ++ [line]) (hmemory : s'.memory = s.memory) :
    s'.Honest := by
  have hserved' : s'.printed.filterMap Line.served = s.printed.filterMap Line.served := by
    rw [hprinted, List.filterMap_append, List.filterMap_cons, hserved]
    exact List.append_nil _
  have hanswer' : s'.printed.filterMap Line.answer = s.printed.filterMap Line.answer := by
    rw [hprinted, List.filterMap_append, List.filterMap_cons, hanswer]
    exact List.append_nil _
  exact ⟨by rw [hmemory, hserved', h.memory], by rw [hserved', hanswer', h.answers]⟩

theorem Console.Honest.of_answer {s s' : Console} (h : s.Honest) (op : Op) {line : Line}
    (hserved : line.served = some op)
    (hanswer : line.answer = some (flatStep (lastStored (s.printed.filterMap Line.served)) op).1)
    (hprinted : s'.printed = s.printed ++ [line])
    (hmemory : s'.memory = Paging.run s.memory [op]) : s'.Honest := by
  have hserved' : s'.printed.filterMap Line.served
      = s.printed.filterMap Line.served ++ [op] := by
    rw [hprinted, List.filterMap_append, List.filterMap_cons, hserved]
    rfl
  refine ⟨?_, ?_⟩
  · rw [hmemory, hserved', run_append, h.memory]
  · rw [hserved', outputs_concat (final_flatStep _), hprinted, List.filterMap_append,
      List.filterMap_cons, hanswer, h.answers]
    rfl

theorem loadCommand_honest {s s' : Console} (h : s.Honest) (hs : loadCommand s = some s') :
    s'.Honest := by
  obtain ⟨va, -, rfl⟩ := Option.map_eq_some_iff.mp hs
  have hvalue := ((represents_run (s.printed.filterMap Line.served)).load va).1
  rw [← h.memory] at hvalue
  refine h.of_answer (.load va) rfl ?_ rfl rfl
  rw [Line.answer, hvalue]
  rfl

theorem storeCommand_honest {s s' : Console} (h : s.Honest) (hs : storeCommand s = some s') :
    s'.Honest := by
  obtain ⟨va, -, hs⟩ := Option.bind_eq_some_iff.mp hs
  obtain ⟨value, -, rfl⟩ := Option.map_eq_some_iff.mp hs
  exact h.of_answer (.store va value) rfl rfl rfl rfl

theorem scanAddress_honest {s s' : Console} (h : s.Honest)
    (hs : scanAddress (s.print .enterAddress) = some s') : s'.Honest := by
  obtain ⟨va, -, rfl⟩ := Option.map_eq_some_iff.mp hs
  exact h.of_question rfl rfl rfl rfl

theorem scanValue_honest {s s' : Console} (h : s.Honest)
    (hs : scanValue (s.print .enterValue) = some s') : s'.Honest := by
  obtain ⟨value, -, rfl⟩ := Option.map_eq_some_iff.mp hs
  exact h.of_question rfl rfl rfl rfl

theorem command_honest {operation : UInt8} {s s' : Console} (h : s.Honest)
    (hs : command operation s = some s') : s'.Honest := by
  obtain ⟨s₁, haddress, hs⟩ := Option.bind_eq_some_iff.mp hs
  have h₁ := scanAddress_honest h haddress
  split at hs
  · exact loadCommand_honest h₁ hs
  · split at hs
    · obtain ⟨s₂, hvalue, hs⟩ := Option.bind_eq_some_iff.mp hs
      exact storeCommand_honest (scanValue_honest h₁ hvalue) hs
    · cases hs
      exact h₁

theorem mainTurn_honest {s s' : Console} (h : s.Honest)
    (hs : mainTurn s = .again s' ∨ mainTurn s = .exit s') : s'.Honest := by
  have h₁ : (scanOperation (s.print .enterOperation)).Honest := by
    rcases scanOperation_cases (s.print .enterOperation) with ⟨-, hread⟩ | ⟨_, _, _, -, -, hread⟩
    · rw [hread]
      exact h.of_question rfl rfl rfl rfl
    · rw [hread]
      exact h.of_question rfl rfl rfl rfl
  unfold mainTurn at hs
  dsimp only at hs
  split at hs
  · rcases hs with hs | hs <;> cases hs
  · split at hs
    · rcases hs with hs | hs <;> cases hs
      exact h₁
    · split at hs
      · rcases hs with hs | hs <;> cases hs
        exact command_honest h₁ ‹_›
      · rcases hs with hs | hs <;> cases hs

/-- **Whatever is typed in**, in every turn and at the end, the values that have been
printed are those of a flat byte memory, and no command is lost or carried out
without its line. -/
theorem console_honest {input : List UInt8} {s : Console}
    (h : Reaches mainTurn (Console.start input) s ∨ Returns mainTurn (Console.start input) s) :
    s.Honest := by
  have hstart : (Console.start input).Honest := ⟨rfl, rfl⟩
  rcases h with h | h
  · exact h.rule Console.Honest (fun _ _ hs hturn => mainTurn_honest hs (.inl hturn)) hstart
  · exact h.rule Console.Honest Console.Honest
      (fun _ _ hs hturn => mainTurn_honest hs (.inl hturn))
      (fun _ _ hs hturn => mainTurn_honest hs (.inr hturn)) hstart

/-- A value is stored and read back. -/
theorem console_honest_sample : ∃ s, Returns mainTurn (Console.start sampleText) s ∧ s.Honest := by
  obtain ⟨s, hreturns, -, -⟩ :=
    typed_sampleText.session (s := Console.start sampleText) rfl represents_initial
  exact ⟨s, hreturns, console_honest (.inr hreturns)⟩

end OsInParts.Paging
