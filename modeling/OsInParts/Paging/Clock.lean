import OsInParts.Lib.Loop
import OsInParts.Lib.Machine
import OsInParts.Lib.SecondChance

/-!
# Clock — the page replacement simulator

`Segmentation, Paging, IPC/q5.c`: `initialize_memory`, the two scans,
`clock_algorithm` and `handle_page_request`, on the first `num_frames`
entries of `memory`. A request line holds under `2 * MAX_REQUESTS`
characters, so the two `int` counters are natural numbers here.

`clock_algorithm` is a `while (true)` loop: `clockBody` is one turn of it,
and `clockAlgorithm` gives it `num_frames` turns, which is all it ever takes
(`clockAlgorithm_advance` in `ClockRefinement`).
-/

namespace OsInParts.Clock

open Lib Lib.Loop

structure Page where
  pageNumber : UInt8
  referenceBit : Bool
  dirtyBit : Bool
  deriving DecidableEq

/-- The globals, with the `num_frames = n` entries of `memory` in use. -/
structure State (n : Nat) where
  memory : Fin n → Page
  clockHand : Fin n
  totalFaults : Nat
  totalHits : Nat

variable {n : Nat}

/-- The zero-initialised globals. -/
def initial (hn : 0 < n) : State n :=
  { memory := fun _ => { pageNumber := 0, referenceBit := false, dirtyBit := false },
    clockHand := ⟨0, hn⟩, totalFaults := 0, totalHits := 0 }

/-- The assignment of `-1` to the `uint8_t` page number stores 255. -/
def initializeMemory (s : State n) : State n :=
  { s with
    memory := fun _ => { pageNumber := 255, referenceBit := false, dirtyBit := false } }

def isPageInMemory (s : State n) (pageNumber : UInt8) : Bool :=
  (List.finRange n).any fun i => (s.memory i).pageNumber == pageNumber

/-- The first frame whose page number, promoted to `int`, is `-1`; `none`
for the returned `-1`. -/
def findEmptyFrame (s : State n) : Option (Fin n) :=
  (List.finRange n).find? fun i => ((s.memory i).pageNumber.toNat : Int) == -1

theorem nextHand_lt (hand : Fin n) : (hand.val + 1) % n < n :=
  Nat.mod_lt _ (Nat.zero_lt_of_lt hand.isLt)

/-- `(clock_hand + 1) % num_frames`. -/
def nextHand (hand : Fin n) : Fin n := ⟨(hand.val + 1) % n, nextHand_lt hand⟩

/-- Overwrite one frame. -/
def State.setFrame (s : State n) (i : Fin n) (page : Page) : State n :=
  { s with memory := Function.update s.memory i page }

/-- `victim = clock_hand; clock_hand = (clock_hand + 1) % num_frames`. -/
def takeVictim (s : State n) : Fin n × State n :=
  (s.clockHand, { s with clockHand := nextHand s.clockHand })

/-- One turn of the loop of `clock_algorithm`, started at `start_hand`. -/
def clockBody (startHand : Fin n) (s : State n) : Next (State n) (Fin n × State n) :=
  let page := s.memory s.clockHand
  if !page.referenceBit && !page.dirtyBit then .exit (takeVictim s)
  else
    let s :=
      if !page.referenceBit then
        -- simulated write back
        s.setFrame s.clockHand { page with dirtyBit := false }
      else s.setFrame s.clockHand { page with referenceBit := false }
    let s := { s with clockHand := nextHand s.clockHand }
    if s.clockHand = startHand then .exit (takeVictim s)
    else .again s

def clockAlgorithm (s : State n) : Option (Fin n × State n) :=
  match run (clockBody s.clockHand) n s with
  | .exit r => some r
  | _ => none

/-- The `for` loop of a hit: the first frame with the page gets its bit set. -/
def setReferenceBit (s : State n) (pageNumber : UInt8) : State n :=
  match (List.finRange n).find? fun i => (s.memory i).pageNumber == pageNumber with
  | some i => s.setFrame i { s.memory i with referenceBit := true }
  | none => s

/-- Newly loaded pages are assumed not dirty. -/
def loadPage (s : State n) (frame : Fin n) (pageNumber : UInt8) : State n :=
  s.setFrame frame { pageNumber := pageNumber, referenceBit := true, dirtyBit := false }

/-- `none` only if `clock_algorithm` did not return. -/
def handlePageRequest (s : State n) (pageNumber : UInt8) : Option (State n) :=
  if isPageInMemory s pageNumber then
    some (setReferenceBit { s with totalHits := s.totalHits + 1 } pageNumber)
  else
    let s := { s with totalFaults := s.totalFaults + 1 }
    match findEmptyFrame s with
    | some frame => some (loadPage s frame pageNumber)
    | none => (clockAlgorithm s).map fun (frame, s) => loadPage s frame pageNumber

/-- The empty-frame scan never finds one: an 8-bit page number promoted to
`int` is not `-1`. -/
theorem findEmptyFrame_eq_none (s : State n) : findEmptyFrame s = none := by
  rw [findEmptyFrame, List.find?_eq_none]
  intro i _
  simp only [beq_iff_eq]
  omega

end OsInParts.Clock
