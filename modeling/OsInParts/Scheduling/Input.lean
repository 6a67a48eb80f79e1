import OsInParts.Lib.CString
import OsInParts.Lib.Scan
import OsInParts.Scheduling.Schedulers

/-!
# Input — which scheduler `main` calls

`main` of `Fork, Wait, Exec, Process Scheduling/q4.c` reads the number of processes,
two times for each of them, the name of an algorithm into `char algo[4]`, and for
round robin the quantum. A variable that is used before anything was stored in it,
an array without entries and a name that does not fit are undefined here.

`FIFO` and `SRTF` have four letters, and a zero byte goes behind them. So no input
leads to `fifo` or to `srtf`, while every set of processes can be handed to the other
two (`jobs_iff`).
-/

namespace OsInParts.Scheduling

open Lib.Scan Lib.CString

def fifoName : List UInt8 := [70, 73, 70, 79]

def sjfName : List UInt8 := [83, 74, 70]

def srtfName : List UInt8 := [83, 82, 84, 70]

def rrName : List UInt8 := [82, 82]

/-- What `main` goes on to do. -/
inductive Algorithm where
  | fifo
  | sjf
  | srtf
  | rr (timeQuantum : Int)
  /-- `Invalid scheduling algorithm.` -/
  | invalid
  deriving DecidableEq

/-- The arguments of the call. -/
structure Job where
  n : ℕ
  processes : Fin n → Process
  algorithm : Algorithm

/-- The lines that `input_processes` reads. -/
def readProcesses : ℕ → List UInt8 → Option (List (Int × Int) × List UInt8)
  | 0, text => some ([], text)
  | n + 1, text => do
      let (arrivalTime, text) ← scanNew text
      let (burstTime, text) ← scanNew text
      let (lines, text) ← readProcesses n text
      some ((arrivalTime, burstTime) :: lines, text)

/-- `scanf("%s", algo)`, and what is left of the text. -/
def readAlgo (text : List UInt8) : Option (List UInt8 × List UInt8) := do
  let name ← (word none text).1
  let algo ← storeString (List.replicate 4 0) name
  some (algo, (word none text).2)

/-- From the test for `RR` on. -/
def chooseAlgorithm (algo text : List UInt8) : Option Algorithm :=
  if content algo = rrName then (scanNew text).map fun (timeQuantum, _) => .rr timeQuantum
  else if content algo = fifoName then some .fifo
  else if content algo = sjfName then some .sjf
  else if content algo = srtfName then some .srtf
  else some .invalid

/-- `main`, with what is on the stack where `processes` is put. -/
def main (stack : (n : ℕ) → Fin n → Process) (stdin : List UInt8) : Option Job := do
  let (n, text) ← scanNew stdin
  if 0 < n then
    let (lines, text) ← readProcesses n.toNat text
    let (algo, text) ← readAlgo text
    let algorithm ← chooseAlgorithm algo text
    some {
      n := n.toNat
      processes := inputProcesses (stack n.toNat) fun i => lines.getD i (0, 0)
      algorithm := algorithm }
  else none

variable {stack : (n : ℕ) → Fin n → Process} {stdin text rest : List UInt8}

/-- The numbers of the lines, in the order in which they are typed. -/
def lineNumbers (lines : List (Int × Int)) : List ℤ := lines.flatMap fun (a, b) => [a, b]

theorem readProcesses_ints {lines : List (Int × Int)} (h : Ints (lineNumbers lines) text rest) :
    readProcesses lines.length text = some (lines, rest) := by
  induction lines generalizing text with
  | nil =>
      cases h
      rfl
  | cons line lines ih =>
      have h : Ints (line.1 :: line.2 :: lineNumbers lines) text rest := h
      obtain ⟨text', harrival, h⟩ := h.scanNew
      obtain ⟨text'', hburst, h⟩ := h.scanNew
      simp only [List.length_cons, readProcesses, harrival, hburst, ih h, Option.bind_eq_bind,
        Option.bind_some]

/-- **Processes that are typed in** are handed on, with the algorithm that is named. -/
theorem main_reads {n : ℕ} (hn : 0 < n) {line : Fin n → Int × Int}
    (h : Ints (n :: lineNumbers (List.ofFn line)) stdin text) :
    main stack stdin = (readAlgo text).bind fun (algo, text) =>
      (chooseAlgorithm algo text).map fun algorithm =>
        { n := n, processes := inputProcesses (stack n) line, algorithm := algorithm } := by
  obtain ⟨text', hscan, hlines⟩ := h.scanNew
  have hread := readProcesses_ints hlines
  rw [List.length_ofFn] at hread
  have hline : (fun i : Fin n => (List.ofFn line).getD i (0, 0)) = line := by
    funext i
    simp
  unfold main
  simp only [hscan, Option.bind_eq_bind, Option.bind_some, Int.natCast_pos, hn, if_true,
    Int.toNat_natCast, hread, hline, Option.map_eq_bind]
  rfl

/-- What can be asked for. -/
def Algorithm.Available : Algorithm → Prop
  | .fifo => False
  | .srtf => False
  | .rr timeQuantum => InInt timeQuantum
  | .sjf => True
  | .invalid => True

/-- A name of four letters does not fit. -/
theorem available_of_readAlgo {algo : List UInt8} {algorithm : Algorithm}
    (halgo : readAlgo stdin = some (algo, text)) (h : chooseAlgorithm algo text = some algorithm) :
    algorithm.Available := by
  obtain ⟨name, -, halgo⟩ := Option.bind_eq_some_iff.mp halgo
  obtain ⟨algo', hstore, halgo⟩ := Option.bind_eq_some_iff.mp halgo
  cases halgo
  obtain ⟨hlt, -, hcontent⟩ := storeString_eq_some hstore
  have hlength : (content algo).length < 4 := by
    have hle := content_length_le name
    rw [List.length_replicate] at hlt
    rw [hcontent]
    omega
  unfold chooseAlgorithm at h
  split at h
  · obtain ⟨⟨q, rest⟩, hq, rfl⟩ := Option.map_eq_some_iff.mp h
    exact scanNew_inInt hq
  · split at h
    · rename_i heq
      rw [heq] at hlength
      exact absurd hlength (by decide)
    · split at h
      · cases h
        trivial
      · split at h
        · rename_i heq
          rw [heq] at hlength
          exact absurd hlength (by decide)
        · cases h
          trivial

/-- A name that fits is read, up to the white space behind it. -/
theorem readAlgo_name (name rest : List UInt8) (hne : name ≠ [])
    (hname : name.any isSpace = false) (hlength : name.length < 4)
    (hrest : ∀ c ∈ rest.head?, isSpace c = true) :
    ∃ algo, readAlgo (32 :: (name ++ rest)) = some (algo, rest) ∧ content algo = content name := by
  have hblank : ∀ c ∈ [(32 : UInt8)], isSpace c = true := List.all_eq_true.mp rfl
  have hword := word_read hblank hne (by simpa using hname) hrest
  rw [List.singleton_append] at hword
  refine ⟨name ++ 0 :: (List.replicate 4 0).drop (name.length + 1), ?_, content_append_zero _ _⟩
  have hstore : storeString (List.replicate 4 0) name
      = some (name ++ 0 :: (List.replicate 4 0).drop (name.length + 1)) :=
    if_pos (by rwa [List.length_replicate])
  simp only [readAlgo, hword, Option.bind_eq_bind, Option.bind_some, hstore]

/-- **Every algorithm that is available can be asked for.** -/
theorem Algorithm.Available.typed {algorithm : Algorithm} (h : algorithm.Available) :
    ∃ text algo rest, Stops 10 text ∧ readAlgo text = some (algo, rest) ∧
      chooseAlgorithm algo rest = some algorithm := by
  have hstops : ∀ text, Stops 10 (32 :: text) := stops_space (by decide) (by decide)
  cases algorithm with
  | fifo => exact h.elim
  | srtf => exact h.elim
  | sjf =>
      obtain ⟨algo, hread, hcontent⟩ := readAlgo_name sjfName [] (by decide) (by decide)
        (by decide) nofun
      refine ⟨_, algo, _, hstops _, hread, ?_⟩
      rw [chooseAlgorithm, hcontent]
      rfl
  | invalid =>
      obtain ⟨algo, hread, hcontent⟩ := readAlgo_name [88] [] (by decide) (by decide)
        (by decide) nofun
      refine ⟨_, algo, _, hstops _, hread, ?_⟩
      rw [chooseAlgorithm, hcontent]
      rfl
  | rr timeQuantum =>
      obtain ⟨algo, hread, hcontent⟩ := readAlgo_name rrName (writeInts [timeQuantum])
        (by decide) (by decide) (by decide) (fun c hc => by cases hc; rfl)
      have hrange : ∀ v ∈ [timeQuantum], InInt v := fun v hv => by
        rw [List.mem_singleton.mp hv]
        exact h
      obtain ⟨rest', hq, -⟩ := (ints_writeInts hrange (show Stops 10 [] from nofun)).scanNew
      rw [List.append_nil] at hq
      refine ⟨_, algo, _, hstops _, hread, ?_⟩
      rw [chooseAlgorithm, hcontent, if_pos (by decide), hq]
      rfl

/-- **Which calls there are**: any processes with times in the range of `int`, for
every algorithm but `FIFO` and `SRTF`, and no others. -/
theorem jobs_iff (stack : (n : ℕ) → Fin n → Process) {n : ℕ} (hn : 0 < n) (hmax : InInt n)
    (line : Fin n → Int × Int) (hline : ∀ i, InInt (line i).1 ∧ InInt (line i).2)
    (algorithm : Algorithm) :
    (∃ stdin, main stack stdin
        = some { n := n, processes := inputProcesses (stack n) line, algorithm := algorithm }) ↔
      algorithm.Available := by
  constructor
  · rintro ⟨stdin, h⟩
    obtain ⟨⟨m, text⟩, -, h⟩ := Option.bind_eq_some_iff.mp h
    dsimp only at h
    split at h
    · obtain ⟨⟨lines, text⟩, -, h⟩ := Option.bind_eq_some_iff.mp h
      obtain ⟨⟨algo, text⟩, halgo, h⟩ := Option.bind_eq_some_iff.mp h
      obtain ⟨algorithm', hchoose, h⟩ := Option.bind_eq_some_iff.mp h
      have hsame : algorithm' = algorithm := congrArg Job.algorithm (Option.some.inj h)
      exact hsame ▸ available_of_readAlgo halgo hchoose
    · cases h
  · intro h
    obtain ⟨text, algo, rest, hstops, hread, hchoose⟩ := h.typed
    have hnumbers : ∀ v ∈ (n : ℤ) :: lineNumbers (List.ofFn line), InInt v := by
      intro v hv
      rcases List.mem_cons.mp hv with rfl | hv
      · exact hmax
      · obtain ⟨l, hl, hv⟩ := List.mem_flatMap.mp hv
        obtain ⟨i, rfl⟩ := List.mem_ofFn.mp hl
        simp only [List.mem_cons, List.not_mem_nil, or_false] at hv
        rcases hv with rfl | rfl
        · exact (hline i).1
        · exact (hline i).2
    refine ⟨writeInts (n :: lineNumbers (List.ofFn line)) ++ text, ?_⟩
    rw [main_reads hn (ints_writeInts hnumbers hstops), hread, Option.bind_some]
    dsimp only
    rw [hchoose]
    rfl

/-- One process that arrives at 0 and needs 5, for `SJF`. -/
theorem jobs_iff_sjf : ∃ stdin, main (fun _ _ => Process.zero) stdin
    = some { n := 1, processes := inputProcesses (fun _ => Process.zero) ![(0, 5)],
             algorithm := .sjf } :=
  (jobs_iff (fun _ _ => Process.zero) Nat.one_pos (by unfold InInt; decide) ![(0, 5)]
    (by unfold InInt; decide) .sjf).mpr trivial

end OsInParts.Scheduling
