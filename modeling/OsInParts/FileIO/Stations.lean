import Mathlib.Data.List.OfFn
import OsInParts.Lib.CString
import OsInParts.Lib.Loop

/-!
# Stations — temperature statistics of a file, read in two ways

`Hard Disk and File IO/q1.c`: a table of stations with a linear search by
name, and the two functions that fill it from the lines `name;temperature` of
a file, `process_file_mmap` over the mapped file with `memchr`, and
`process_file_fread` with `fgets`.

A file is the list of its bytes. The memory of the arrays on the stack is
arbitrary (`Stack`), and no write leaves an array: `none` is undefined
behaviour. Numbers are any type with a comparison and an addition; `atof` and
the conversion of an `int` are any functions.
-/

namespace OsInParts.FileIO

open Lib.CString Lib.Loop

def maxStations : Nat := 10000

def maxNameLength : Nat := 100

/-- `sizeof(line)` and `sizeof(line_copy)`. -/
def lineSize : Nat := maxNameLength + 20

/-- The byte `';'`. -/
def separator : UInt8 := 59

structure StationData (D : Type*) where
  name : List UInt8
  minTemp : D
  maxTemp : D
  totalTemp : D
  count : Int32

/-- What the arrays hold before they are written to. -/
structure Stack where
  /-- `stations[i].name` -/
  name : Nat → Fin maxNameLength → UInt8
  /-- `line`, and `line_copy` for the line at this offset -/
  line : Nat → Fin lineSize → UInt8

variable {D : Type*} [LT D] [DecidableLT D] [Add D] [Neg D] [Zero D]

def compareStations (a b : StationData D) : Option Int := strcmp a.name b.name

/-- The loop of `find_or_add_station`: the index of the first entry of that
name. -/
def findStation (name : List UInt8) : List (StationData D) → Option (Option Nat)
  | [] => some none
  | station :: stations =>
      (strcmp station.name name).bind fun c =>
        if c = 0 then some (some 0)
        else (findStation name stations).map fun found => found.map (· + 1)

/-- The entry that is added; `memory` is what the array held. -/
def newStation (dblMax : D) (memory : Fin maxNameLength → UInt8) (name : List UInt8) :
    StationData D where
  name := strncpy (List.ofFn memory) name (maxNameLength - 1)
  minTemp := dblMax
  maxTemp := -dblMax
  totalTemp := 0
  count := 0

/-- The table, and the index of the station in it; `none` is `NULL`. -/
def findOrAddStation (dblMax : D) (stack : Stack) (stations : List (StationData D))
    (name : List UInt8) : Option (List (StationData D) × Option Nat) :=
  (findStation name stations).map fun
    | some i => (stations, some i)
    | none =>
        if stations.length < maxStations then
          (stations ++ [newStation dblMax (stack.name stations.length) name],
            some stations.length)
        else (stations, none)

/-- One more temperature of a station. -/
def StationData.update (station : StationData D) (temperature : D) : StationData D where
  name := station.name
  minTemp := if temperature < station.minTemp then temperature else station.minTemp
  maxTemp := if temperature > station.maxTemp then temperature else station.maxTemp
  totalTemp := station.totalTemp + temperature
  count := station.count + 1

/-- `if (station)` and the statements under it. -/
def updateStation (temperature : D) :
    List (StationData D) × Option Nat → List (StationData D)
  | (stations, some station) => stations.modify station (·.update temperature)
  | (stations, none) => stations

/-- "Parse station name and temperature", the same statements in both
functions. -/
def processLine (dblMax : D) (atof : List UInt8 → D) (stack : Stack)
    (stations : List (StationData D)) (line : List UInt8) : Option (List (StationData D)) :=
  match strchr line separator with
  | none => some stations
  | some semicolon =>
      let line := line.set semicolon 0
      let temperature := atof (content (line.drop (semicolon + 1)))
      (findOrAddStation dblMax stack stations line).map (updateStation temperature)

/-! ## `process_file_mmap` -/

/-- `mmap` of a file of size 0 fails. -/
def mmap (file : List UInt8) : Option (List UInt8) := if file.isEmpty then none else some file

/-- `line - file_contents`, and the table. -/
structure MmapState (D : Type*) where
  line : Nat
  stations : List (StationData D)

/-- "Find end of current line". -/
def nextLine (fileContents : List UInt8) (line : Nat) : Nat :=
  match memchr (fileContents.drop line) newline (fileContents.length - line) with
  | some k => line + k
  | none => fileContents.length

/-- The body of `while (line < end)`. -/
def mmapTurn (dblMax : D) (atof : List UInt8 → D) (stack : Stack) (fileContents : List UInt8)
    (s : MmapState D) : Option (MmapState D) :=
  let nextLine := nextLine fileContents s.line
  (storeString (List.ofFn (stack.line s.line))
      ((fileContents.drop s.line).take (nextLine - s.line))).bind fun lineCopy =>
    (processLine dblMax atof stack s.stations lineCopy).map fun stations =>
      { line := nextLine + 1, stations := stations }

/-- The table that is reported. Where `mmap` fails the function returns without
one, and nothing is reported. -/
def processFileMmap (dblMax : D) (atof : List UInt8 → D) (stack : Stack)
    (file : List UInt8) : Option (List (StationData D)) :=
  match mmap file with
  | none => some []
  | some fileContents =>
      (runWhile (fun s => s.line < fileContents.length)
        (mmapTurn dblMax atof stack fileContents) (fileContents.length + 1)
        { line := 0, stations := [] }).map MmapState.stations

/-! ## `process_file_fread` -/

/-- What `fgets` has not read yet, the buffer and the table. -/
structure FreadState (D : Type*) where
  file : List UInt8
  line : List UInt8
  stations : List (StationData D)

/-- One turn of `while (fgets(line, sizeof(line), file))`. -/
def freadTurn (dblMax : D) (atof : List UInt8 → D) (stack : Stack) (s : FreadState D) :
    Next (FreadState D) (List (StationData D)) :=
  match fgets s.line lineSize s.file with
  | none => .exit s.stations
  | some (line, file) =>
      -- `line[strcspn(line, "\n")] = 0`
      let line := line.set (strcspn line newline) 0
      match processLine dblMax atof stack s.stations line with
      | some stations => .again { file := file, line := line, stations := stations }
      | none => .undefined

def processFileFread (dblMax : D) (atof : List UInt8 → D) (stack : Stack)
    (file : List UInt8) : Option (List (StationData D)) :=
  match run (freadTurn dblMax atof stack) (file.length + 1)
      { file := file, line := List.ofFn (stack.line 0), stations := [] } with
  | .exit stations => some stations
  | _ => none

/-! ## The report -/

/-- `qsort(stations, station_count, sizeof(StationData), compare_stations)` may
leave `sorted` where it found `stations`. -/
structure Qsorted (stations sorted : List (StationData D)) : Prop where
  perm : sorted.Perm stations
  ordered : sorted.Pairwise fun a b => ∃ c, compareStations a b = some c ∧ c ≤ 0

/-- What a line of the report prints: name, minimum, mean and maximum. -/
def StationData.report [Div D] (toDouble : Int32 → D) (station : StationData D) :
    List UInt8 × D × D × D :=
  (content station.name, station.minTemp, station.totalTemp / toDouble station.count,
    station.maxTemp)

end OsInParts.FileIO
