import Mathlib.Data.Finset.Card
import Mathlib.Data.List.TakeDrop
import Mathlib.Logic.Function.Basic

/-!
# Descriptors — descriptor tables and what is written through them

A descriptor refers to an open file description, several of them to the same
one after a `dup`; a description has a position in a file. `Table` is what
the descriptors refer to, `Kernel` the descriptions and the files, `Process`
the two together, with no descriptor that refers to nothing.

A table that is changed in a few places and put right there again is the same
table: `Agrees` says where two tables may differ, `Agrees.update` adds a place
and `Agrees.restore` takes one away. What is written through one description
in several pieces is written in one (`write_write`), and nothing else is
touched by it.
-/

namespace Lib.Descriptors

/-! ## Tables -/

section Tables

variable {δ : Type*}

/-- What each descriptor refers to. -/
abbrev Table (δ : Type*) := ℕ → Option δ

/-- The lowest descriptor that is free. -/
def lowest (limit : ℕ) (t : Table δ) : Option ℕ := (List.range limit).find? fun n => (t n).isNone

/-- The free descriptors. -/
def free (limit : ℕ) (t : Table δ) : Finset ℕ := (Finset.range limit).filter fun n => t n = none

variable {limit n : ℕ} {t u : Table δ} {d : δ} {S : List ℕ}

theorem lowest_eq_some (h : lowest limit t = some n) : n < limit ∧ t n = none := by
  have hmem := List.mem_of_find?_eq_some h
  have hfree := List.find?_some h
  exact ⟨List.mem_range.mp hmem, Option.isNone_iff_eq_none.mp hfree⟩

theorem lowest_isSome : (lowest limit t).isSome ↔ 0 < (free limit t).card := by
  rw [lowest, List.find?_isSome, Finset.card_pos]
  constructor
  · rintro ⟨n, hn, hfree⟩
    exact ⟨n, by simpa [free] using ⟨List.mem_range.mp hn, Option.isNone_iff_eq_none.mp hfree⟩⟩
  · rintro ⟨n, hn⟩
    obtain ⟨hlt, hfree⟩ := Finset.mem_filter.mp hn
    exact ⟨n, List.mem_range.mpr (Finset.mem_range.mp hlt), Option.isNone_iff_eq_none.mpr hfree⟩

/-- A free descriptor that is taken is one less. -/
theorem card_free_update (hn : n < limit) (hfree : t n = none) :
    (free limit (Function.update t n (some d))).card + 1 = (free limit t).card := by
  have hmem : n ∈ free limit t := by simpa [free] using ⟨hn, hfree⟩
  have herase : free limit (Function.update t n (some d)) = (free limit t).erase n := by
    ext k
    by_cases hk : k = n
    · subst hk
      simp [free]
    · simp [free, hk]
  rw [herase, Finset.card_erase_add_one hmem]

/-- The tables differ at most in `S`. -/
def Agrees (S : List ℕ) (t u : Table δ) : Prop := ∀ k ∉ S, u k = t k

theorem Agrees.refl (t : Table δ) : Agrees [] t t := fun _ _ => rfl

theorem Agrees.update (h : Agrees S t u) (n : ℕ) (x : Option δ) :
    Agrees (n :: S) t (Function.update u n x) := by
  intro k hk
  obtain ⟨hne, hS⟩ := not_or.mp (fun hor => hk (List.mem_cons.mpr hor))
  rw [Function.update_of_ne hne, h k hS]

/-- What is put right need not be listed. -/
theorem Agrees.restore {R : List ℕ} (h : Agrees S t u) {x : Option δ} (hx : x = t n)
    (hS : ∀ k ∈ S, k ≠ n → k ∈ R) : Agrees R t (Function.update u n x) := by
  intro k hk
  by_cases hkn : k = n
  · rw [hkn, Function.update_self, hx]
  · rw [Function.update_of_ne hkn, h k fun hmem => hk (hS k hmem hkn)]

theorem Agrees.eq (h : Agrees [] t u) : u = t := funext fun k => h k List.not_mem_nil

end Tables

/-! ## Files -/

section Files

variable {ι α : Type*} [Zero α]

/-- `xs` written at `pos`, behind a hole if that is beyond the end. -/
def writeAt (content : List α) (pos : ℕ) (xs : List α) : List α :=
  content.takeD pos 0 ++ xs ++ content.drop (pos + xs.length)

theorem writeAt_writeAt (content : List α) (pos : ℕ) (xs ys : List α) :
    writeAt (writeAt content pos xs) (pos + xs.length) ys = writeAt content pos (xs ++ ys) := by
  have hlen : (content.takeD pos 0 ++ xs).length = pos + xs.length := by
    rw [List.length_append, List.takeD_length]
  have htake : (writeAt content pos xs).takeD (pos + xs.length) 0 = content.takeD pos 0 ++ xs :=
    List.takeD_left' hlen
  have hdrop : (writeAt content pos xs).drop (pos + xs.length + ys.length)
      = content.drop (pos + (xs ++ ys).length) := by
    rw [writeAt, List.drop_append, List.drop_of_length_le (by omega), List.nil_append, hlen,
      List.drop_drop, List.length_append]
    congr 1
    omega
  rw [writeAt, htake, hdrop, writeAt]
  simp only [List.append_assoc]

theorem writeAt_length (content xs : List α) :
    writeAt content content.length xs = content ++ xs := by
  rw [writeAt, List.takeD_eq_take 0 le_rfl, List.take_length, List.drop_of_length_le (by omega),
    List.append_nil]

/-- An open file description; `append` is `O_APPEND`, or a pipe or terminal. -/
structure Description (ι : Type*) where
  inode : ι
  offset : ℕ
  append : Bool

/-- What every inode holds, and the descriptions opened so far, by number. -/
structure Kernel (ι α : Type*) where
  content : ι → List α
  descriptions : ℕ → Description ι
  opened : ℕ

variable [DecidableEq ι]

namespace Kernel

/-- Where the next byte through a description goes. -/
def position (k : Kernel ι α) (d : ℕ) : ℕ :=
  if (k.descriptions d).append then (k.content (k.descriptions d).inode).length
  else (k.descriptions d).offset

/-- `write` through description `d`; nothing is done for no bytes. -/
def write [DecidableEq α] (d : ℕ) (xs : List α) (k : Kernel ι α) : Kernel ι α :=
  if xs = [] then k
  else
    let e := k.descriptions d
    { k with
      content := Function.update k.content e.inode
        (writeAt (k.content e.inode) (k.position d) xs)
      descriptions := Function.update k.descriptions d
        { e with offset := k.position d + xs.length } }

/-- A new description of `i`, which is truncated. -/
def create (i : ι) (k : Kernel ι α) : Kernel ι α :=
  { content := Function.update k.content i []
    descriptions := Function.update k.descriptions k.opened
      { inode := i, offset := 0, append := false }
    opened := k.opened + 1 }

variable [DecidableEq α] {k : Kernel ι α} {d : ℕ} {xs ys : List α} {i : ι}

@[simp] theorem write_nil : k.write d [] = k := rfl

@[simp] theorem write_opened : (k.write d xs).opened = k.opened := by
  unfold write
  split <;> rfl

/-- Through `d`, a write behind a write. -/
theorem position_write (hxs : xs ≠ []) : (k.write d xs).position d = k.position d + xs.length := by
  unfold write
  rw [if_neg hxs]
  simp only [position, Function.update_self]
  split
  · -- the file is as long as what is written to its end
    rw [writeAt_length, List.length_append]
  · rfl

/-- **Two writes are one** of both texts. -/
theorem write_write : (k.write d xs).write d ys = k.write d (xs ++ ys) := by
  by_cases hxs : xs = []
  · subst hxs
    rfl
  by_cases hys : ys = []
  · subst hys
    rw [write_nil, List.append_nil]
  have hpos := position_write (k := k) (d := d) hxs
  have happ : xs ++ ys ≠ [] := fun h => hxs (List.append_eq_nil_iff.mp h).1
  rw [write, if_neg hys, hpos, write, if_neg hxs, write, if_neg happ]
  simp only [Function.update_self, Function.update_idem, writeAt_writeAt, List.length_append,
    Nat.add_assoc]

/-- A file that is created and written holds what is written. -/
theorem create_write_content :
    ((k.create i).write k.opened xs).content = Function.update k.content i xs := by
  unfold write
  split
  · rename_i hxs
    rw [hxs]
    rfl
  · simp [create, position, writeAt]

theorem create_write_description (hd : d ≠ k.opened) :
    ((k.create i).write k.opened xs).descriptions d = k.descriptions d := by
  unfold write
  split
  · exact Function.update_of_ne hd ..
  · simp only [create, Function.update_of_ne hd]

end Kernel

end Files

/-! ## Processes -/

section Processes

variable {ι α : Type*}

/-- The descriptors of a process refer to descriptions that there are. -/
@[ext]
structure Process (ι α : Type*) where
  fds : Table ℕ
  kernel : Kernel ι α
  valid : ∀ n d, fds n = some d → d < kernel.opened

namespace Process

/-- Descriptor `n` is given another description, or none. -/
def assign (n : ℕ) (x : Option ℕ) (p : Process ι α) (hx : ∀ d, x = some d → d < p.kernel.opened) :
    Process ι α where
  fds := Function.update p.fds n x
  kernel := p.kernel
  valid m d h := by
    by_cases hm : m = n
    · subst hm
      exact hx d (by rwa [Function.update_self] at h)
    · exact p.valid m d (by rwa [Function.update_of_ne hm] at h)

/-- `close`. -/
def close (n : ℕ) (p : Process ι α) : Process ι α := p.assign n none fun _ h => nomatch h

@[simp] theorem close_fds (n : ℕ) (p : Process ι α) :
    (p.close n).fds = Function.update p.fds n none := rfl

@[simp] theorem close_kernel (n : ℕ) (p : Process ι α) : (p.close n).kernel = p.kernel := rfl

/-- `dup`: the lowest free descriptor refers to what `n` refers to. -/
def dup (limit n : ℕ) (p : Process ι α) : Option (ℕ × Process ι α) :=
  match h : p.fds n with
  | none => none
  | some d =>
      (lowest limit p.fds).map fun m => (m, p.assign m (some d) fun e he => by
        cases he
        exact p.valid n d h)

/-- `dup2`: `new` refers to what `old` refers to. -/
def dup2 (limit old new : ℕ) (p : Process ι α) : Option (Process ι α) :=
  match h : p.fds old with
  | none => none
  | some d =>
      if new < limit then
        some (p.assign new (some d) fun e he => by
          cases he
          exact p.valid old d h)
      else none

variable {p p' : Process ι α} {m n d limit : ℕ}

theorem dup_eq_some (h : p.dup limit n = some (m, p')) :
    (p.fds n).isSome ∧ m < limit ∧ p.fds m = none ∧
      p'.fds = Function.update p.fds m (p.fds n) ∧ p'.kernel = p.kernel := by
  unfold dup at h
  split at h
  · cases h
  · rename_i d hd
    obtain ⟨m', hm, heq⟩ := Option.map_eq_some_iff.mp h
    cases heq
    obtain ⟨hlt, hfree⟩ := lowest_eq_some hm
    exact ⟨by rw [hd]; rfl, hlt, hfree, congrArg (Function.update p.fds m) hd.symm, rfl⟩

theorem dup_isSome :
    (p.dup limit n).isSome ↔ (p.fds n).isSome ∧ 0 < (free limit p.fds).card := by
  unfold dup
  split
  · rename_i h
    simp [h]
  · rename_i d h
    rw [Option.isSome_map, lowest_isSome, h]
    simp

theorem dup2_eq_some (h : p.dup2 limit m n = some p') :
    (p.fds m).isSome ∧ p'.fds = Function.update p.fds n (p.fds m) ∧ p'.kernel = p.kernel := by
  unfold dup2 at h
  split at h
  · cases h
  · rename_i d hd
    split at h
    · cases h
      exact ⟨by rw [hd]; rfl, congrArg (Function.update p.fds n) hd.symm, rfl⟩
    · cases h

theorem dup2_isSome : (p.dup2 limit m n).isSome ↔ (p.fds m).isSome ∧ n < limit := by
  unfold dup2
  split
  · rename_i h
    simp [h]
  · rename_i d h
    simp [h]

variable [DecidableEq ι] {i : ι}

/-- `open` with `O_CREAT` and `O_TRUNC` of a file that can be written. -/
def create (limit : ℕ) (i : ι) (p : Process ι α) : Option (ℕ × Process ι α) :=
  (lowest limit p.fds).map fun n =>
    (n, { fds := Function.update p.fds n (some p.kernel.opened)
          kernel := p.kernel.create i
          valid := fun m d h => by
            by_cases hm : m = n
            · subst hm
              rw [Function.update_self] at h
              cases h
              exact Nat.lt_succ_self _
            · rw [Function.update_of_ne hm] at h
              exact Nat.lt_succ_of_lt (p.valid m d h) })

theorem create_eq_some (h : p.create limit i = some (m, p')) :
    m < limit ∧ p.fds m = none ∧ p'.fds = Function.update p.fds m (some p.kernel.opened) ∧
      p'.kernel = p.kernel.create i := by
  obtain ⟨m', hm, heq⟩ := Option.map_eq_some_iff.mp h
  cases heq
  obtain ⟨hlt, hfree⟩ := lowest_eq_some hm
  exact ⟨hlt, hfree, rfl, rfl⟩

theorem create_isSome : (p.create limit i).isSome ↔ 0 < (free limit p.fds).card := by
  rw [create, Option.isSome_map, lowest_isSome]

variable [Zero α] [DecidableEq α] {xs : List α}

/-- `write`; nothing comes of it if the descriptor is closed. -/
def write (n : ℕ) (xs : List α) (p : Process ι α) : Process ι α :=
  match p.fds n with
  | none => p
  | some d =>
      { p with
        kernel := p.kernel.write d xs
        valid := fun m e h => by
          rw [Kernel.write_opened]
          exact p.valid m e h }

@[simp] theorem write_fds : (p.write n xs).fds = p.fds := by
  unfold write
  split <;> rfl

theorem write_kernel (h : p.fds n = some d) (xs : List α) :
    (p.write n xs).kernel = p.kernel.write d xs := by
  unfold write
  split <;> simp_all

theorem write_write {ys : List α} : (p.write n xs).write n ys = p.write n (xs ++ ys) := by
  apply Process.ext
  · rw [write_fds, write_fds, write_fds]
  · cases h : p.fds n with
    | none => simp [write, h]
    | some d =>
        rw [write_kernel (d := d) (by rwa [write_fds]), write_kernel h, write_kernel h,
          Kernel.write_write]

end Process

end Processes

end Lib.Descriptors
