import OsInParts.FileIO.FileSystem

/-!
# Move — `move_file` and `move_directory`

`Hard Disk and File IO/q5/move.c`. The recursion is given the depth it may
reach; `none` stands for a deeper one. `readdir` returns the entries that the
directory has when it is opened: it loses one only after that one has been
returned, and POSIX leaves open whether one that is added meanwhile is. What is
printed is left out.
-/

namespace OsInParts.FileIO

open Lib.Directories

/-- `sizeof(src_path)` and `sizeof(dest_path)`. -/
def pathSize : Nat := 1024

/-- `snprintf(path, sizeof(path), "%s/%s", dir, name)`. -/
def entryPath (dir name : List UInt8) : List UInt8 := (dir ++ slash :: name).take (pathSize - 1)

variable (cwd : Path) (fails : Nat → Bool)

def moveFile (src dest : List UInt8) (s : System) : System :=
  s.run fails (rename cwd s.files src dest)

/-- One turn of the loop over the entries of `src`, with the recursive call. -/
def moveEntry (recurse : List UInt8 → List UInt8 → System → Option System)
    (src dest : List UInt8) (s : System) (entry : Dirent) : Option System :=
  if entry.name = dot ∨ entry.name = dotDot then some s
  else
    let srcPath := entryPath src entry.name
    let destPath := entryPath dest entry.name
    if entry.isDir = true then recurse srcPath destPath s
    else some (moveFile cwd fails srcPath destPath s)

/-- The call of `mkdir`, if there is nothing at `dest`. -/
def makeDest (dest : List UInt8) (s : System) : System :=
  if stat cwd s.files dest = none then s.run fails (mkdir cwd s.files dest) else s

def moveDirectory : Nat → List UInt8 → List UInt8 → System → Option System
  | 0, _, _, _ => none
  | depth + 1, src, dest, s =>
      let s := makeDest cwd fails dest s
      match s.call fails ((opendir cwd s.files src).map fun entries => (s.files, entries)) with
      | (s, none) => some s
      | (s, some entries) =>
          (entries.foldlM (moveEntry cwd fails (moveDirectory depth) src dest) s).map fun s =>
            s.run fails (rmdir cwd s.files src)

end OsInParts.FileIO
