import OsInParts.Lib.Directories

/-!
# FileSystem — path strings, and the calls that may fail

What the programs of `Hard Disk and File IO/q5` see of a file system: regular
files and directories, the strings that name them, and the system calls as
POSIX describes them. A string leads through directories, which have to be there
when it is used; there are no symbolic links. A directory that has been removed
leads nowhere, also not as the current directory.

Every call but `stat` may also fail for a reason outside the model (`fails`,
by the number of the call); a call that fails changes nothing, and that one
has failed is remembered in `failed`.
-/

namespace OsInParts.FileIO

open Lib.Directories

/-! ## Path strings -/

/-- The byte `'/'`. -/
def slash : UInt8 := 47

def dot : List UInt8 := [46]

def dotDot : List UInt8 := [46, 46]

/-- What an entry of a directory can be called, besides `.` and `..`. -/
def EntryName (bytes : List UInt8) : Prop :=
  bytes ≠ [] ∧ 0 ∉ bytes ∧ slash ∉ bytes ∧ bytes ≠ dot ∧ bytes ≠ dotDot

instance : DecidablePred EntryName := fun bytes =>
  inferInstanceAs (Decidable
    (bytes ≠ [] ∧ 0 ∉ bytes ∧ slash ∉ bytes ∧ bytes ≠ dot ∧ bytes ≠ dotDot))

abbrev Name := { bytes : List UInt8 // EntryName bytes }

/-- The names from the root on, the innermost first. -/
abbrev Path := List Name

/-- Contents are lists of bytes. -/
abbrev Files := FileTree Name (List UInt8)

/-- Where a component leads; an empty one and `.` lead nowhere. -/
def enter (path : Path) (component : List UInt8) : Path :=
  if component = dotDot then path.tail
  else if h : EntryName component then ⟨component, h⟩ :: path
  else path

/-- Where a string starts. -/
def startOf (cwd : Path) (s : List UInt8) : Path := if s.head? = some slash then [] else cwd

/-- One component further, which takes a directory. -/
def walk (files : Files) (path : Path) (component : List UInt8) : Option Path :=
  if component = [] then some path
  else if files.node path = some .dir then some (enter path component)
  else none

/-- What a string names, from the current directory `cwd`; the empty string
names nothing. -/
def resolve (cwd : Path) (files : Files) (s : List UInt8) : Option Path :=
  if s = [] then none else (s.splitOn slash).foldlM (walk files) (startOf cwd s)

/-- What it names if there are directories on the way. -/
def target (cwd : Path) (s : List UInt8) : Option Path :=
  if s = [] then none else some ((s.splitOn slash).foldl enter (startOf cwd s))

/-- The paths that the components are entered from. -/
def passed : Path → List (List UInt8) → List Path
  | _, [] => []
  | path, c :: cs => if c = [] then passed path cs else path :: passed (enter path c) cs

/-- The paths that a string leads through. -/
def through (cwd : Path) (s : List UInt8) : List Path := passed (startOf cwd s) (s.splitOn slash)

/-- There are directories on the way. -/
def Walks (cwd : Path) (files : Files) (s : List UInt8) : Prop :=
  ∀ q ∈ through cwd s, files.node q = some .dir

instance (cwd : Path) (files : Files) (s : List UInt8) : Decidable (Walks cwd files s) :=
  inferInstanceAs (Decidable (∀ q ∈ through cwd s, files.node q = some .dir))

/-- The last component is `.` or `..`. -/
def endsInDots (s : List UInt8) : Bool :=
  match ((s.splitOn slash).filter (· ≠ [])).getLast? with
  | some component => decide (component = dot ∨ component = dotDot)
  | none => false

/-- Nothing but a directory can be meant. -/
def asksDir (s : List UInt8) : Bool := endsInDots s || s.getLast? == some slash

section Strings

variable {cwd : Path} {s : List UInt8} {p : Path} {files : Files} (a : Name)

@[simp] theorem enter_nil (p : Path) : enter p [] = p := rfl

@[simp] theorem enter_name (p : Path) : enter p a.val = a :: p := by
  rw [enter, if_neg a.property.2.2.2.2, dif_pos a.property]

theorem foldlM_walk {cs : List (List UInt8)} {q : Path} :
    cs.foldlM (walk files) q = some p ↔
      cs.foldl enter q = p ∧ ∀ x ∈ passed q cs, files.node x = some .dir := by
  induction cs generalizing q with
  | nil => simp [passed]
  | cons c cs ih =>
      rw [List.foldlM_cons, List.foldl_cons, passed, walk]
      by_cases hc : c = []
      · subst hc
        simpa using ih
      · rw [if_neg hc, if_neg hc]
        by_cases hq : files.node q = some .dir
        · rw [if_pos hq, Option.bind_eq_bind, Option.bind_some, ih]
          simp [hq]
        · rw [if_neg hq]
          simp [hq]

/-- **A string names** what it leads to, if there are directories on the way. -/
theorem resolve_eq_some_iff :
    resolve cwd files s = some p ↔ target cwd s = some p ∧ Walks cwd files s := by
  unfold resolve target Walks through
  by_cases hs : s = []
  · simp [hs]
  · rw [if_neg hs, if_neg hs, foldlM_walk, Option.some_inj]

theorem resolve_eq (h : target cwd s = some p) :
    resolve cwd files s = if Walks cwd files s then some p else none := by
  split
  · exact resolve_eq_some_iff.mpr ⟨h, ‹_›⟩
  · by_contra hne
    obtain ⟨q, hq⟩ := Option.ne_none_iff_exists'.mp hne
    exact absurd (resolve_eq_some_iff.mp hq).2 ‹_›

theorem passed_concat (q : Path) (cs : List (List UInt8)) :
    passed q (cs ++ [a.val]) = passed q cs ++ [cs.foldl enter q] := by
  induction cs generalizing q with
  | nil => simp [passed, a.property.1]
  | cons c cs ih =>
      rw [List.cons_append, passed, passed, List.foldl_cons]
      by_cases hc : c = []
      · subst hc
        simpa using ih q
      · rw [if_neg hc, if_neg hc, ih, List.cons_append]

theorem splitOn_entry : (s ++ slash :: a.val).splitOn slash = s.splitOn slash ++ [a.val] := by
  rw [List.splitOn_append_cons_self, List.splitOn_eq_singleton a.property.2.2.1]

/-- The string `s` leads to `p` when a name is put after it: it names `p`, or it is
empty and what follows is below the root. -/
def Leads (cwd : Path) (s : List UInt8) (p : Path) : Prop :=
  target cwd s = some p ∨ s = [] ∧ p = []

theorem Leads.startOf_entry (h : Leads cwd s p) :
    (s.splitOn slash).foldl enter (startOf cwd (s ++ slash :: a.val)) = p ∧
      through cwd s = passed (startOf cwd (s ++ slash :: a.val)) (s.splitOn slash) := by
  cases s with
  | nil =>
      obtain ⟨-, rfl⟩ := h.resolve_left (by simp [target])
      exact ⟨rfl, rfl⟩
  | cons b s => exact ⟨Option.some.inj (h.resolve_right (by simp)), rfl⟩

/-- An entry of the directory that a string names. -/
theorem Leads.entry (h : Leads cwd s p) : target cwd (s ++ slash :: a.val) = some (a :: p) := by
  rw [target, if_neg (by simp), splitOn_entry, List.foldl_append, (h.startOf_entry a).1,
    List.foldl_cons, List.foldl_nil, enter_name]

theorem Leads.through_entry (h : Leads cwd s p) :
    through cwd (s ++ slash :: a.val) = through cwd s ++ [p] := by
  rw [through, splitOn_entry, passed_concat, (h.startOf_entry a).1, (h.startOf_entry a).2]

theorem Leads.walks_entry (files : Files) (h : Leads cwd s p) :
    Walks cwd files (s ++ slash :: a.val) ↔ Walks cwd files s ∧ files.node p = some .dir := by
  unfold Walks
  rw [h.through_entry]
  simp only [List.mem_append, List.mem_singleton, or_imp, forall_and, forall_eq]

theorem endsInDots_entry : endsInDots (s ++ slash :: a.val) = false := by
  have hlast : ((s.splitOn slash ++ [a.val]).filter (· ≠ [])).getLast? = some a.val := by
    rw [List.filter_append, List.filter_cons_of_pos (by simpa using a.property.1),
      List.filter_nil, List.getLast?_concat]
  rw [endsInDots, splitOn_entry, hlast]
  simpa using ⟨a.property.2.2.2.1, a.property.2.2.2.2⟩

theorem asksDir_entry : asksDir (s ++ slash :: a.val) = false := by
  obtain ⟨init, b, hbytes⟩ := (List.eq_nil_or_concat a.val).resolve_left a.property.1
  have hb : b ≠ slash := by
    rintro rfl
    exact a.property.2.2.1 (by rw [hbytes]; simp)
  have hlast : (s ++ slash :: a.val).getLast? = some b := by
    rw [hbytes, List.concat_eq_append, ← List.cons_append, ← List.append_assoc,
      List.getLast?_concat]
  rw [asksDir, endsInDots_entry, hlast, Bool.false_or, beq_eq_false_iff_ne]
  exact fun h => hb (Option.some.inj h)

end Strings

/-! ## What the calls do when they succeed -/

/-- An entry as `readdir` returns it; `isDir` is `d_type == DT_DIR`. -/
structure Dirent where
  name : List UInt8
  isDir : Bool
  deriving DecidableEq

def stat (cwd : Path) (files : Files) (path : List UInt8) : Option (Node (List UInt8)) :=
  match (resolve cwd files path).bind files.node with
  | some (.file c) => if asksDir path = true then none else some (.file c)
  | x => x

def mkdir (cwd : Path) (files : Files) (path : List UInt8) : Option Files :=
  match resolve cwd files path with
  | some (a :: p) =>
      if h : endsInDots path = false ∧ files.node p = some .dir ∧ files.node (a :: p) = none then
        some (files.put p a .dir h.2.1 h.2.2)
      else none
  | _ => none

/-- Only an empty directory is removed. -/
def rmdir (cwd : Path) (files : Files) (path : List UInt8) : Option Files :=
  match resolve cwd files path with
  | some (a :: p) =>
      if h : endsInDots path = false ∧ files.node (a :: p) = some .dir ∧
          files.names (a :: p) = [] then
        some (files.remove p a h.2.2)
      else none
  | _ => none

/-- All entries of a directory. -/
def opendir (cwd : Path) (files : Files) (path : List UInt8) : Option (List Dirent) :=
  match resolve cwd files path with
  | some p =>
      if files.node p = some .dir then
        some ({ name := dot, isDir := true } :: { name := dotDot, isDir := true } ::
          (files.names p).map fun a =>
            { name := a.val, isDir := decide (files.node (a :: p) = some .dir) })
      else none
  | none => none

/-- `rename` of the regular file `b :: q` with content `c` to `a :: p`, which it
replaces if that is a regular file. -/
def replaceFile (files : Files) (b : Name) (q : Path) (a : Name) (p : Path)
    (c : List UInt8) (hold : files.node (b :: q) = some (.file c)) (hne : b :: q ≠ a :: p)
    (hnew : files.node (a :: p) ≠ some .dir) (hp : files.node p = some .dir) : Files :=
  let cleared := files.remove p a (FileTree.names_of_ne_dir hnew)
  have hp' : cleared.node p = some .dir := by
    rw [FileTree.remove_of_ne _ (List.cons_ne_self a p).symm, hp]
  let written := cleared.put p a (.file c) hp' (FileTree.remove_self _)
  written.remove q b (FileTree.names_of_ne_dir (by
    rw [FileTree.put_of_ne _ _ hne, FileTree.remove_of_ne _ hne, hold]
    simp))

/-- `rename` where `old` is a regular file. -/
def rename (cwd : Path) (files : Files) (old new : List UInt8) : Option Files :=
  match resolve cwd files old, resolve cwd files new with
  | some (b :: q), some (a :: p) =>
      if asksDir old = true ∨ asksDir new = true then none
      else
        match hold : files.node (b :: q) with
        | some (.file c) =>
            if hne : b :: q = a :: p then some files
            else if h : files.node (a :: p) ≠ some .dir ∧ files.node p = some .dir then
              some (replaceFile files b q a p c hold hne h.1 h.2)
            else none
        | _ => none
  | _, _ => none

/-! ## Calls that may fail -/

structure System where
  files : Files
  /-- the number of calls so far -/
  calls : Nat
  /-- whether one of them has failed -/
  failed : Bool

/-- One call, with what it does and returns when it succeeds. -/
def System.call {α : Type} (fails : Nat → Bool) (s : System) (result : Option (Files × α)) :
    System × Option α :=
  match (if fails s.calls = true then none else result) with
  | some (files, a) => ({ s with files := files, calls := s.calls + 1 }, some a)
  | none => ({ s with calls := s.calls + 1, failed := true }, none)

/-- A call whose return value is not used. -/
def System.run (fails : Nat → Bool) (s : System) (result : Option Files) : System :=
  (s.call fails (result.map fun files => (files, ()))).1

/-- **A call** succeeds or changes nothing. -/
theorem call_cases {α : Type} (fails : Nat → Bool) (s : System) (result : Option (Files × α)) :
    (∃ files a, result = some (files, a) ∧
        s.call fails result = ({ s with files := files, calls := s.calls + 1 }, some a)) ∨
      ((∀ k, fails k = false) → result = none) ∧
        s.call fails result = ({ s with calls := s.calls + 1, failed := true }, none) := by
  unfold System.call
  cases hf : fails s.calls with
  | true => exact .inr ⟨fun hall => absurd (hall s.calls) (by simp [hf]), by simp⟩
  | false =>
      cases hr : result with
      | none => exact .inr ⟨fun _ => rfl, by simp⟩
      | some x => exact .inl ⟨x.1, x.2, rfl, by simp⟩

theorem run_cases (fails : Nat → Bool) (s : System) (result : Option Files) :
    (∃ files, result = some files ∧ (s.run fails result).files = files ∧
        (s.run fails result).failed = s.failed) ∨
      ((∀ k, fails k = false) → result = none) ∧ (s.run fails result).files = s.files ∧
        (s.run fails result).failed = true := by
  unfold System.run
  rcases call_cases fails s (result.map fun files => (files, ())) with
    ⟨files, u, hr, hcall⟩ | ⟨hr, hcall⟩
  · obtain ⟨files', rfl, heq⟩ := Option.map_eq_some_iff.mp hr
    cases heq
    exact .inl ⟨files, rfl, by rw [hcall], by rw [hcall]⟩
  · exact .inr ⟨fun hall => Option.map_eq_none_iff.mp (hr hall), by rw [hcall], by rw [hcall]⟩

end OsInParts.FileIO
