import Mathlib.Order.Basic
import Mathlib.Order.Nat
import OsInParts.Lib.Slice

/-!
# Copy — `copy_file`

`Hard Disk and File IO/q5/copy.c`. A path leads to a directory or to an inode,
and two paths may lead to the same one (links, `.` and `..`), so the file that
is truncated and written can be the one that is read.

What the system calls return is given by the number of the call: a read takes
what it asks for, less, or fails, and so does a write. Neither result is
looked at but for the sign of a read's, so the file that is said to be copied
is a copy exactly if every read before the end of the file and every write
after it does all it is asked to (`copyFile_iff`).

For a directory as destination the path is put together in an array of an
inner block, and used after the block: that is undefined (`none`).
-/

namespace OsInParts.Copy

open Lib.Slice

/-! ## Files -/

inductive Object (ι : Type*) where
  | dir
  | file (inode : ι)
  deriving DecidableEq

/-- What every path leads to, and what every inode holds. -/
structure FileSystem (ι : Type*) where
  lookup : List UInt8 → Option (Object ι)
  content : ι → List UInt8

variable {ι : Type*}

/-- The content of the regular file at a path. -/
def FileSystem.contentAt (fs : FileSystem ι) (path : List UInt8) : Option (List UInt8) :=
  match fs.lookup path with
  | some (.file i) => some (fs.content i)
  | _ => none

/-- How the system calls of one run turn out. -/
structure Env (fs : FileSystem ι) where
  /-- `open` fails for another reason than its path -/
  srcFails : Bool
  destFails : Bool
  /-- the inode of a new file, if one can be created -/
  created : Option { i : ι // ∀ path, fs.lookup path ≠ some (.file i) }
  /-- how much the `k`-th read is ready to return, `none` for -1 -/
  reads : Nat → Option Nat
  /-- how much the `k`-th write is ready to take, `none` for -1 -/
  writes : Nat → Option Nat

/-- `sizeof(buffer)`. -/
def bufferSize : Nat := 1024

/-- `read(fd, buffer, sizeof(buffer))` at offset `pos`: one byte or more before
the end of the file, none at the end; a directory cannot be read. -/
def read (result : Option Nat) (fd : Object ι) (pos : Nat) (content : ι → List UInt8) :
    Option (List UInt8) :=
  match fd with
  | .dir => none
  | .file i =>
      result.map fun n => ((content i).drop pos).take (max 1 (min n bufferSize))

variable [DecidableEq ι]

/-- `write(fd, buffer, bytes)` at offset `pos`, and how much it has written. -/
def write (result : Option Nat) (fd : ι) (pos : Nat) (bytes : List UInt8)
    (content : ι → List UInt8) : Nat × (ι → List UInt8) :=
  match result with
  | none => (0, content)
  | some n =>
      let written := bytes.take n
      (written.length, Function.update content fd (splice (content fd) pos written))

/-! ## The function -/

/-- The copy loop in at most `turns` turns, of which `k` are done; `none` if
there are more. -/
def copyLoop (reads writes : Nat → Option Nat) (srcFd : Object ι) (destFd : ι) :
    Nat → Nat → Nat → Nat → (ι → List UInt8) → Option (ι → List UInt8)
  | 0, _, _, _, _ => none
  | turns + 1, k, srcPos, destPos, content =>
      match read (reads k) srcFd srcPos content with
      | none | some [] => some content
      | some bytes =>
          let (n, content) := write (writes k) destFd destPos bytes content
          copyLoop reads writes srcFd destFd turns (k + 1) (srcPos + bytes.length) (destPos + n)
            content

/-- The path that is opened for writing. For a directory it is in `dest_path`, which
is not there any more when `dest` is used: `none`. -/
def destPath (fs : FileSystem ι) (dest : List UInt8) : Option (List UInt8) :=
  if fs.lookup dest = some .dir then none else some dest

variable {fs : FileSystem ι}

/-- `open(src, O_RDONLY)`. -/
def openSrc (env : Env fs) (src : List UInt8) : Option (Object ι) :=
  if env.srcFails then none else fs.lookup src

/-- `open(dest, O_WRONLY | O_CREAT | O_TRUNC, 0644)`: the inode, before it is
truncated. -/
def openDest (env : Env fs) (dest : List UInt8) : Option ι :=
  if env.destFails then none
  else
    match fs.lookup dest with
    | some (.file j) => some j
    | some .dir => none
    | none => env.created.map Subtype.val

/-- The state that `copy_file` leaves, and the two paths it prints. -/
structure Result (ι : Type*) where
  fs : FileSystem ι
  printed : Option (List UInt8 × List UInt8)

/-- After the loop: `dest` leads to the file that was written, and the message
is printed. -/
def closed (fs : FileSystem ι) (src dest : List UInt8) (destFd : ι) (content : ι → List UInt8) :
    Result ι :=
  { fs := { lookup := Function.update fs.lookup dest (some (.file destFd)), content := content }
    printed := some (src, dest) }

/-- The length of what is read, if it is a regular file. -/
def srcLength (fs : FileSystem ι) : Object ι → Nat
  | .dir => 0
  | .file i => (fs.content i).length

/-- `copy_file`; a read that goes on takes a byte of the source at least. -/
def copyFile (env : Env fs) (src dest : List UInt8) : Option (Result ι) :=
  match openSrc env src with
  | none => some { fs := fs, printed := none }
  | some srcFd =>
      (destPath fs dest).bind fun dest =>
        match openDest env dest with
        | none => some { fs := fs, printed := none }
        | some destFd =>
            (copyLoop env.reads env.writes srcFd destFd (srcLength fs srcFd + 1) 0 0 0
              (Function.update fs.content destFd [])).map (closed fs src dest destFd)

/-! ## What the loop writes -/

/-- How many bytes a read returns with `rest` bytes to go. -/
def taken (result : Option Nat) (rest : Nat) : Nat :=
  match result with
  | none => 0
  | some n => min (max 1 (min n bufferSize)) rest

/-- Where the `k`-th read begins in a file of `len` bytes. -/
def offset (reads : Nat → Option Nat) (len : Nat) : Nat → Nat
  | 0 => 0
  | k + 1 => offset reads len k + taken (reads k) (len - offset reads len k)

/-- From turn `k` on every read before the end of the file succeeds, and every
write takes all that was read. -/
def Complete (reads writes : Nat → Option Nat) (len k : Nat) : Prop :=
  ∀ m, k ≤ m → offset reads len m < len →
    (reads m).isSome ∧ ∃ n, writes m = some n ∧ taken (reads m) (len - offset reads len m) ≤ n

theorem taken_le (result : Option Nat) (rest : Nat) : taken result rest ≤ rest := by
  unfold taken
  split <;> omega

theorem taken_pos {n rest : Nat} (h : 0 < rest) : 0 < taken (some n) rest := by
  unfold taken
  dsimp only
  omega

variable {reads writes : Nat → Option Nat} {len : Nat}

theorem offset_mono (reads : Nat → Option Nat) (len : Nat) {k m : Nat} (h : k ≤ m) :
    offset reads len k ≤ offset reads len m := by
  induction m, h using Nat.le_induction with
  | base => exact Nat.le_refl _
  | succ m _ ih => exact ih.trans (Nat.le_add_right _ _)

/-- After the end of the file there is nothing to fail. -/
theorem complete_of_end {k : Nat} (h : len ≤ offset reads len k) :
    Complete reads writes len k := by
  intro m hm hlt
  have hmono := offset_mono reads len hm
  omega

theorem complete_iff (writes : Nat → Option Nat) {k : Nat} (h : offset reads len k < len) :
    Complete reads writes len k ↔
      ((reads k).isSome ∧
        ∃ n, writes k = some n ∧ taken (reads k) (len - offset reads len k) ≤ n) ∧
      Complete reads writes len (k + 1) := by
  constructor
  · intro hall
    exact ⟨hall k (Nat.le_refl k) h, fun m hm => hall m (by omega)⟩
  · rintro ⟨hk, hrest⟩ m hm hlt
    rcases hm.eq_or_lt with rfl | hgt
    · exact hk
    · exact hrest m hgt hlt

omit [DecidableEq ι] in
/-- A read of a regular file. -/
theorem read_file {result : Option Nat} {i : ι} {pos : Nat} {content : ι → List UInt8}
    {bytes : List UInt8} (h : read result (.file i) pos content = some bytes) :
    result.isSome ∧ bytes = ((content i).drop pos).take bytes.length ∧
      bytes.length = taken result ((content i).length - pos) := by
  obtain ⟨n, rfl, rfl⟩ := Option.map_eq_some_iff.mp h
  refine ⟨rfl, ?_, ?_⟩
  · rw [List.length_take, List.take_eq_take_min]
  · rw [List.length_take, List.length_drop, taken]

theorem splice_end (content bytes : List UInt8) :
    splice content content.length bytes = content ++ bytes := by
  rw [splice, List.take_length, List.drop_of_length_le (by omega), List.append_nil]

/-- A write at the end of a file appends some of its bytes, and all of them
exactly if it is not short. -/
theorem write_end (result : Option Nat) (j : ι) {bytes : List UInt8} (hne : bytes ≠ [])
    (content : ι → List UInt8) :
    ∃ written, write result j (content j).length bytes content
        = (written.length, Function.update content j (content j ++ written)) ∧
      written.length ≤ bytes.length ∧
      (written.length = bytes.length → ∃ n, result = some n ∧ bytes.length ≤ n) ∧
      ((∃ n, result = some n ∧ bytes.length ≤ n) → written = bytes) := by
  cases result with
  | none =>
      refine ⟨[], by simp [write], by simp, fun hlen => ?_, by simp⟩
      exact absurd (List.eq_nil_of_length_eq_zero hlen.symm) hne
  | some n =>
      refine ⟨bytes.take n, by simp [write, splice_end], List.length_take_le' _ _,
        fun hlen => ?_, ?_⟩
      · rw [List.length_take] at hlen
        exact ⟨n, rfl, by omega⟩
      · rintro ⟨n', heq, hle⟩
        cases heq
        exact List.take_of_length_le hle

/-- What has happened to the two files when the loop ends: the source is as it
was, and the destination has grown by `new`, which is all of the rest of the
source exactly if nothing failed. -/
structure Copied (c w : List UInt8) (i j : ι) (complete : Prop) (pos : Nat)
    (content : ι → List UInt8) (new : List UInt8) : Prop where
  src : content i = c
  dest : content j = w ++ new
  length_le : new.length ≤ c.length - pos
  complete_of_eq : new.length = c.length - pos → complete
  eq_of_complete : complete → new = c.drop pos

omit [DecidableEq ι] in
/-- The loop ends with turn `k`. -/
theorem copied_end {i j : ι} {c : List UInt8} {k : Nat} {content : ι → List UInt8}
    (hsrc : content i = c)
    (hend : offset reads c.length k < c.length → reads k = none) :
    Copied c (content j) i j (Complete reads writes c.length k) (offset reads c.length k)
      content [] where
  src := hsrc
  dest := (List.append_nil _).symm
  length_le := Nat.zero_le _
  complete_of_eq := by
    intro h
    rw [List.length_nil] at h
    exact complete_of_end (by omega)
  eq_of_complete := by
    intro hcomplete
    by_cases hlt : offset reads c.length k < c.length
    · have hsome := (hcomplete k (Nat.le_refl k) hlt).1
      rw [hend hlt] at hsome
      cases hsome
    · rw [List.drop_of_length_le (by omega)]

omit [DecidableEq ι] in
/-- Turn `k` reads `bytes` and writes `written`. -/
theorem Copied.turn {i j : ι} {c w bytes written new : List UInt8} {k : Nat}
    {content : ι → List UInt8} (hlt : offset reads c.length k < c.length)
    (hsome : (reads k).isSome)
    (hbytes : bytes = (c.drop (offset reads c.length k)).take bytes.length)
    (hlen : bytes.length = taken (reads k) (c.length - offset reads c.length k))
    (hle : written.length ≤ bytes.length)
    (hfull : written.length = bytes.length → ∃ n, writes k = some n ∧ bytes.length ≤ n)
    (hall : (∃ n, writes k = some n ∧ bytes.length ≤ n) → written = bytes)
    (h : Copied c (w ++ written) i j (Complete reads writes c.length (k + 1))
      (offset reads c.length (k + 1)) content new) :
    Copied c w i j (Complete reads writes c.length k) (offset reads c.length k) content
      (written ++ new) := by
  have hnext : offset reads c.length (k + 1) = offset reads c.length k + bytes.length := by
    rw [hlen, offset]
  have hmax := taken_le (reads k) (c.length - offset reads c.length k)
  have hmore := h.length_le
  have hiff := complete_iff writes hlt
  rw [← hlen] at hiff hmax
  refine ⟨h.src, ?_, ?_, fun heq => ?_, fun hcomplete => ?_⟩
  · rw [h.dest, List.append_assoc]
  · rw [List.length_append]
    omega
  · rw [List.length_append] at heq
    exact hiff.mpr ⟨⟨hsome, hfull (by omega)⟩, h.complete_of_eq (by omega)⟩
  · obtain ⟨⟨-, hwrites⟩, hrest⟩ := hiff.mp hcomplete
    rw [hall hwrites, h.eq_of_complete hrest, hnext, ← List.drop_drop]
    nth_rewrite 1 [hbytes]
    exact List.take_append_drop _ _

/-- **The copy loop** between two files ends, and leaves in the destination
what `Copied` says. -/
theorem copyLoop_copied (reads writes : Nat → Option Nat) {i j : ι} (hij : i ≠ j)
    {c : List UInt8} (turns : Nat) {k : Nat}
    {content : ι → List UInt8} (hsrc : content i = c)
    (hturns : c.length - offset reads c.length k < turns) :
    ∃ content' new, copyLoop reads writes (.file i) j turns k (offset reads c.length k)
        (content j).length content = some content' ∧
      Copied c (content j) i j (Complete reads writes c.length k) (offset reads c.length k)
        content' new := by
  induction turns generalizing k content with
  | zero => omega
  | succ turns ih =>
      rw [copyLoop]
      cases hread : read (reads k) (.file i) (offset reads c.length k) content with
      | none =>
          refine ⟨content, [], rfl, copied_end hsrc fun _ => ?_⟩
          simpa [read] using hread
      | some bytes =>
          obtain ⟨hsome, hbytes, hlen⟩ := read_file hread
          rw [hsrc] at hbytes hlen
          cases bytes with
          | nil =>
              refine ⟨content, [], rfl, copied_end hsrc fun hlt => ?_⟩
              -- nothing is read only at the end of the file
              obtain ⟨n, hn⟩ := Option.isSome_iff_exists.mp hsome
              have hpos := taken_pos (n := n) (Nat.sub_pos_of_lt hlt)
              rw [← hn, ← hlen] at hpos
              cases hpos
          | cons b bytes =>
              dsimp only
              obtain ⟨written, hwrite, hle, hfull, hall⟩ :=
                write_end (writes k) j (List.cons_ne_nil b bytes) content
              have hcount : 0 < (b :: bytes).length := Nat.zero_lt_succ _
              have hmax := taken_le (reads k) (c.length - offset reads c.length k)
              have hnext : offset reads c.length (k + 1)
                  = offset reads c.length k + (b :: bytes).length := by rw [hlen, offset]
              have hsrc' : Function.update content j (content j ++ written) i = c := by
                rw [Function.update_of_ne hij, hsrc]
              -- the read begins further on, so fewer turns are needed
              obtain ⟨content', new, hloop, hcopied⟩ := ih (k := k + 1) hsrc' (by omega)
              rw [Function.update_self, hnext, List.length_append] at hloop
              rw [Function.update_self] at hcopied
              rw [hwrite]
              exact ⟨content', written ++ new, hloop, hcopied.turn (by omega) hsome hbytes hlen hle
                hfull hall⟩

/-! ## The function -/

/-- Whenever the message is printed, the destination holds what the source
held before. -/
def Result.Exact (fs : FileSystem ι) (src : List UInt8) (r : Result ι) : Prop :=
  ∀ dest, r.printed = some (src, dest) → r.fs.contentAt dest = fs.contentAt src

/-- If the source is opened, the destination is not a directory. If both are opened,
the source is a regular file; if it is the destination as well it is empty, and if
not, no read fails before its end and no write is short. -/
def CopiesAll (env : Env fs) (src dest : List UInt8) : Prop :=
  ∀ srcFd, openSrc env src = some srcFd → fs.lookup dest ≠ some .dir ∧
    ∀ destFd, openDest env dest = some destFd →
      ∃ i, srcFd = .file i ∧
        if i = destFd then fs.content i = []
        else Complete env.reads env.writes (fs.content i).length 0

omit [DecidableEq ι] in
theorem contentAt_of_openSrc {env : Env fs} {src : List UInt8} {srcFd : Object ι}
    (h : openSrc env src = some srcFd) :
    fs.contentAt src = match srcFd with
      | .dir => none
      | .file i => some (fs.content i) := by
  rw [openSrc] at h
  split at h
  · cases h
  · rw [FileSystem.contentAt, h]
    cases srcFd <;> rfl

omit [DecidableEq ι] in
theorem contentAt_closed (src dest : List UInt8) (destFd : ι) (content : ι → List UInt8) :
    (closed fs src dest destFd content).fs.contentAt dest = some (content destFd) := by
  simp [closed, FileSystem.contentAt]

/-- A directory, or the file that has just been truncated, has nothing to be
read. -/
theorem copyLoop_empty {srcFd : Object ι} {j : ι} (turns : Nat) (content : ι → List UInt8)
    (hempty : ∀ i, srcFd = .file i → content i = []) :
    copyLoop reads writes srcFd j (turns + 1) 0 0 0 content = some content := by
  rw [copyLoop]
  cases srcFd with
  | dir => rfl
  | file i =>
      rw [read, hempty i rfl]
      cases reads 0 <;> simp

theorem copyFile_opened {env : Env fs} {src : List UInt8} {srcFd : Object ι} (destFd : ι)
    (hsrc : openSrc env src = some srcFd) :
    ∃ content, copyLoop env.reads env.writes srcFd destFd (srcLength fs srcFd + 1) 0 0 0
          (Function.update fs.content destFd []) = some content ∧
      (some (content destFd) = fs.contentAt src ↔
        ∃ i, srcFd = .file i ∧
          if i = destFd then fs.content i = []
          else Complete env.reads env.writes (fs.content i).length 0) := by
  rw [contentAt_of_openSrc hsrc]
  cases srcFd with
  | dir => exact ⟨_, copyLoop_empty _ _ nofun, by simp⟩
  | file i =>
      by_cases hij : i = destFd
      · -- the destination is truncated when it is opened, so a copy to itself reads nothing
        subst hij
        refine ⟨_, copyLoop_empty _ _ ?_, ?_⟩
        · rintro i' heq
          cases heq
          exact Function.update_self _ _ _
        · rw [Function.update_self]
          constructor
          · intro h
            exact ⟨i, rfl, by rw [if_pos rfl, ← Option.some.inj h]⟩
          · rintro ⟨i', heq, h⟩
            cases heq
            rw [if_pos rfl] at h
            exact congrArg some h.symm
      · have hcontent : Function.update fs.content destFd [] i = fs.content i :=
          Function.update_of_ne hij _ _
        obtain ⟨content, new, hloop, hcopied⟩ := copyLoop_copied env.reads env.writes hij
          (srcLength fs (.file i) + 1) (k := 0) hcontent (Nat.lt_succ_of_le (Nat.sub_le _ _))
        rw [Function.update_self] at hloop hcopied
        refine ⟨content, hloop, ?_⟩
        rw [hcopied.dest, List.nil_append, Option.some.injEq]
        constructor
        · intro hnew
          refine ⟨i, rfl, ?_⟩
          rw [if_neg hij]
          exact hcopied.complete_of_eq (by rw [hnew]; rfl)
        · rintro ⟨i', heq, hcomplete⟩
          cases heq
          rw [if_neg hij] at hcomplete
          exact hcopied.eq_of_complete hcomplete

/-- The destination is not a directory: `copy_file` ends. -/
theorem copyFile_ends (env : Env fs) (src : List UInt8) {dest : List UInt8}
    (hdest : fs.lookup dest ≠ some .dir) :
    ∃ r, copyFile env src dest = some r ∧ (r.Exact fs src ↔ CopiesAll env src dest) := by
  cases hsrc : openSrc env src with
  | none =>
      refine ⟨{ fs := fs, printed := none }, by rw [copyFile, hsrc], iff_of_true nofun ?_⟩
      intro srcFd hopen
      rw [hsrc] at hopen
      cases hopen
  | some srcFd =>
      have hpath : destPath fs dest = some dest := if_neg hdest
      cases hopened : openDest env dest with
      | none =>
          refine ⟨{ fs := fs, printed := none },
            by simp only [copyFile, hsrc, hpath, hopened, Option.bind_some],
            iff_of_true nofun fun srcFd' _ => ⟨hdest, fun destFd hopen => ?_⟩⟩
          rw [hopened] at hopen
          cases hopen
      | some destFd =>
          obtain ⟨content, hloop, hiff⟩ := copyFile_opened destFd hsrc
          refine ⟨closed fs src dest destFd content,
            by simp only [copyFile, hsrc, hpath, hopened, hloop, Option.bind_some,
              Option.map_some], ?_⟩
          constructor
          · intro hexact srcFd' hopen
            refine ⟨hdest, fun destFd' hopen' => ?_⟩
            rw [hsrc, Option.some.injEq] at hopen
            rw [hopened, Option.some.injEq] at hopen'
            subst hopen hopen'
            apply hiff.mp
            rw [← hexact _ rfl, contentAt_closed]
          · intro hall dest' hprinted
            cases hprinted
            rw [contentAt_closed]
            exact hiff.mpr ((hall srcFd hsrc).2 destFd hopened)

/-- **A copy**, for all paths, files and results of the system calls:
`copy_file` is defined and what it says it has copied is a copy exactly under
`CopiesAll`. -/
theorem copyFile_iff (env : Env fs) (src dest : List UInt8) :
    (∃ r, copyFile env src dest = some r ∧ r.Exact fs src) ↔ CopiesAll env src dest := by
  by_cases hdir : fs.lookup dest = some .dir
  · cases hsrc : openSrc env src with
    | none =>
        refine iff_of_true ⟨{ fs := fs, printed := none }, by rw [copyFile, hsrc], nofun⟩ ?_
        intro srcFd hopen
        rw [hsrc] at hopen
        cases hopen
    | some srcFd =>
        have hpath : destPath fs dest = none := if_pos hdir
        refine iff_of_false ?_ fun hall => (hall srcFd hsrc).1 hdir
        rintro ⟨r, hr, -⟩
        rw [copyFile, hsrc] at hr
        dsimp only at hr
        rw [hpath] at hr
        cases hr
  · obtain ⟨r, hr, hiff⟩ := copyFile_ends env src hdir
    rw [← hiff, hr]
    exact ⟨fun ⟨r', hr', hexact⟩ => Option.some.inj hr' ▸ hexact, fun hexact => ⟨r, rfl, hexact⟩⟩

/-- One file that every path leads to. -/
def oneFile : FileSystem Unit := { lookup := fun _ => some (.file ()), content := fun _ => [120] }

/-- A file that is copied to itself is emptied. -/
theorem copyFile_itself :
    ¬ ∀ (fs : FileSystem Unit) (env : Env fs) (src dest : List UInt8) (r : Result Unit),
      copyFile env src dest = some r → r.Exact fs src := by
  intro hclaim
  have hexact := hclaim oneFile
    { srcFails := false, destFails := false, created := none
      reads := fun _ => some 1024, writes := fun _ => some 1024 } [97] [98] _ rfl
  have hcontent := hexact [98] rfl
  revert hcontent
  decide

end OsInParts.Copy
