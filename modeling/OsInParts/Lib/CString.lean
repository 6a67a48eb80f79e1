import Mathlib.Data.List.Basic
import OsInParts.Lib.Runs

/-!
# C strings — what the string functions make of the bytes of a buffer

A buffer is a list of bytes, a string in it goes up to the first zero byte
(`content`). `strcmp` reads its two arguments side by side and is `none` where
it would run off a buffer; the others are given buffers with a terminator.

Each function is described by what it does to `content`, so that the bytes
behind the terminator never matter; `fgets` by the line it cuts off the file,
and `strtok` by the runs of what is left of the string.
-/

namespace Lib.CString

/-- The string that starts at the first byte. -/
def content (s : List UInt8) : List UInt8 := s.takeWhile (· ≠ 0)

/-- `strchr(s, c) - s`; `none` is `NULL`. -/
def strchr (s : List UInt8) (c : UInt8) : Option Nat := (content s).idxOf? c

/-- `strcspn(s, reject)` for a string of one byte. -/
def strcspn (s : List UInt8) (reject : UInt8) : Nat :=
  ((content s).takeWhile (· ≠ reject)).length

/-- `memchr(s, c, n) - s`; `none` is `NULL`. -/
def memchr (s : List UInt8) (c : UInt8) (n : Nat) : Option Nat := (s.take n).idxOf? c

/-- Bytes are compared as `unsigned char`. -/
def strcmp : List UInt8 → List UInt8 → Option Int
  | a :: s, b :: t =>
      if a ≠ b then some (a.toNat - b.toNat) else if a = 0 then some 0 else strcmp s t
  | _, _ => none

/-- `strncpy(dst, src, n)`: at most `n` bytes of the string, zeros up to the
`n`-th byte, the rest of `dst` as it was. -/
def strncpy (dst src : List UInt8) (n : Nat) : List UInt8 :=
  let copied := (content src).take n
  copied ++ List.replicate (n - copied.length) 0 ++ dst.drop n

/-- Writing `bytes` and a terminator to the front of a buffer; `none` where they
do not fit. -/
def storeString (buffer bytes : List UInt8) : Option (List UInt8) :=
  if bytes.length < buffer.length then some (bytes ++ 0 :: buffer.drop (bytes.length + 1))
  else none

def newline : UInt8 := 10

/-- The bytes that `fgets(s, size, file)` takes from the file: up to a newline,
and at most `size - 1`. -/
def fgetsCount (size : Nat) (file : List UInt8) : Nat :=
  match memchr file newline (size - 1) with
  | some k => k + 1
  | none => min (size - 1) file.length

/-- `fgets(s, size, file)`: the new buffer and what is left of the file; at its
end `fgets` returns `NULL`. -/
def fgets (s : List UInt8) (size : Nat) (file : List UInt8) :
    Option (List UInt8 × List UInt8) :=
  if file.isEmpty then none
  else
    let n := fgetsCount size file
    some (file.take n ++ 0 :: s.drop (n + 1), file.drop n)

/-- `strtok(s, delim)` for one delimiter: the next token, and the string that
`strtok(NULL, delim)` goes on with; `none` is `NULL`. -/
def strtok (delim : UInt8) (s : List UInt8) : Option (List UInt8 × List UInt8) :=
  match s.dropWhile (· == delim) with
  | [] => none
  | c :: s =>
      some (c :: s.takeWhile (· != delim), (s.dropWhile (· != delim)).drop 1)

/-! ## Strings -/

variable {s t x y : List UInt8} {a b c : UInt8}

@[simp] theorem content_nil : content [] = [] := rfl

@[simp] theorem content_zero (s : List UInt8) : content (0 :: s) = [] := rfl

theorem content_cons (hb : b ≠ 0) (s : List UInt8) : content (b :: s) = b :: content s :=
  List.takeWhile_cons_of_pos (by simpa using hb)

theorem zero_notMem_content (s : List UInt8) : 0 ∉ content s := by
  induction s with
  | nil => simp
  | cons b s ih =>
      by_cases hb : b = 0
      · simp [hb]
      · rw [content_cons hb, List.mem_cons, not_or]
        exact ⟨Ne.symm hb, ih⟩

/-- A string and what stands behind it. -/
theorem exists_content_append (s : List UInt8) :
    ∃ tail, s = content s ++ tail ∧ content tail = [] := by
  induction s with
  | nil => exact ⟨[], rfl, rfl⟩
  | cons b s ih =>
      by_cases hb : b = 0
      · subst hb
        exact ⟨0 :: s, rfl, rfl⟩
      · obtain ⟨tail, hs, htail⟩ := ih
        exact ⟨tail, by rw [content_cons hb, List.cons_append, ← hs], htail⟩

theorem content_length_le (s : List UInt8) : (content s).length ≤ s.length :=
  (List.takeWhile_prefix _).length_le

/-- A terminator stands behind the string. -/
theorem content_length_lt (h : 0 ∈ s) : (content s).length < s.length := by
  obtain ⟨tail, heq, -⟩ := exists_content_append s
  cases tail with
  | nil =>
      rw [heq, List.append_nil] at h
      exact absurd h (zero_notMem_content s)
  | cons b tail =>
      have := congrArg List.length heq
      rw [List.length_append, List.length_cons] at this
      omega

theorem content_append (hx : 0 ∉ x) (t : List UInt8) : content (x ++ t) = x ++ content t := by
  induction x with
  | nil => rfl
  | cons b x ih =>
      rw [List.mem_cons, not_or] at hx
      rw [List.cons_append, content_cons (Ne.symm hx.1), ih hx.2, List.cons_append]

theorem content_of_notMem (hx : 0 ∉ x) : content x = x := by
  simpa using content_append hx []

@[simp] theorem content_content (s : List UInt8) : content (content s) = content s :=
  content_of_notMem (zero_notMem_content s)

/-- What stands behind a terminator is not read. -/
theorem content_append_zero (x t : List UInt8) : content (x ++ 0 :: t) = content x := by
  induction x with
  | nil => rfl
  | cons b x ih =>
      by_cases hb : b = 0
      · simp [hb]
      · rw [List.cons_append, content_cons hb, content_cons hb, ih]

theorem content_append_of_mem (hx : 0 ∈ x) (t : List UInt8) :
    content (x ++ t) = content x := by
  obtain ⟨y, z, rfl⟩ := List.append_of_mem hx
  rw [List.append_assoc, List.cons_append, content_append_zero, content_append_zero]

/-! ## Searching -/

/-- **`strchr`** cuts the string at the first `c`. -/
theorem strchr_eq_some {i : Nat} (h : strchr s c = some i) :
    ∃ y, content s = (content s).take i ++ c :: y ∧ c ∉ (content s).take i ∧
      i < (content s).length := by
  obtain ⟨hi, hc, hfirst⟩ := List.idxOf?_eq_some_iff.mp h
  refine ⟨(content s).drop (i + 1), ?_, fun hmem => ?_, hi⟩
  · rw [← hc, ← List.drop_eq_getElem_cons hi, List.take_append_drop]
  · obtain ⟨j, hj, heq⟩ := List.mem_iff_getElem.mp hmem
    rw [List.length_take] at hj
    rw [List.getElem_take] at heq
    exact hfirst j (by omega) heq

theorem strchr_append (hx : 0 ∉ x) (hc : c ≠ 0) (hcx : c ∉ x) (t : List UInt8) :
    strchr (x ++ c :: t) c = some x.length := by
  rw [strchr, content_append hx, content_cons hc]
  clear hx
  induction x with
  | nil => simp [List.idxOf?_cons]
  | cons b x ih =>
      rw [List.mem_cons, not_or] at hcx
      rw [List.cons_append, List.idxOf?_cons, if_neg (by simpa using Ne.symm hcx.1), ih hcx.2]
      rfl

/-- Terminating the string earlier. -/
theorem content_set_zero {i : Nat} (hi : i ≤ (content s).length) (hs : i < s.length) :
    content (s.set i 0) = (content s).take i := by
  obtain ⟨tail, heq, -⟩ := exists_content_append s
  have htake : s.take i = (content s).take i := by
    conv_lhs => rw [heq]
    exact List.take_append_of_le_length hi
  rw [List.set_eq_take_append_cons_drop, if_pos hs, htake, content_append_zero]
  exact content_of_notMem fun h => zero_notMem_content s (List.mem_of_mem_take h)

/-- The rest of a string is a string. -/
theorem content_drop {i : Nat} (hi : i ≤ (content s).length) :
    content (s.drop i) = (content s).drop i := by
  obtain ⟨tail, heq, htail⟩ := exists_content_append s
  have hdrop : s.drop i = (content s).drop i ++ tail := by
    conv_lhs => rw [heq]
    exact List.drop_append_of_le_length hi
  rw [hdrop, content_append (fun h => zero_notMem_content s (List.mem_of_mem_drop h)), htail,
    List.append_nil]

/-- **`s[strcspn(s, c)] = 0`** cuts the string before the first `c`. -/
theorem content_set_strcspn (hs : 0 ∈ s) (c : UInt8) :
    content (s.set (strcspn s c) 0) = (content s).takeWhile (· ≠ c) := by
  have hle : strcspn s c ≤ (content s).length := (List.takeWhile_prefix _).length_le
  rw [content_set_zero hle (Nat.lt_of_le_of_lt hle (content_length_lt hs)), strcspn]
  exact (List.prefix_iff_eq_take.mp (List.takeWhile_prefix _)).symm

theorem memchr_eq_none {n : Nat} : memchr s c n = none ↔ c ∉ s.take n :=
  List.idxOf?_eq_none_iff

/-- **`memchr`** cuts the bytes at the first `c`. -/
theorem memchr_eq_some {n i : Nat} (h : memchr s c n = some i) :
    i < s.length ∧ s = s.take i ++ c :: s.drop (i + 1) ∧ c ∉ s.take i := by
  obtain ⟨hi, hc, hfirst⟩ := List.idxOf?_eq_some_iff.mp h
  rw [List.length_take] at hi
  rw [List.getElem_take] at hc
  refine ⟨by omega, ?_, fun hmem => ?_⟩
  · rw [← hc, ← List.drop_eq_getElem_cons (by omega), List.take_append_drop]
  · obtain ⟨j, hj, heq⟩ := List.mem_iff_getElem.mp hmem
    rw [List.length_take] at hj
    rw [List.getElem_take] at heq
    exact hfirst j (by omega) (by rw [List.getElem_take]; exact heq)

/-- `fgets` takes something from a file, and no more than the buffer holds. -/
theorem fgetsCount_bounds {size : Nat} (hsize : 1 < size) (hs : s ≠ []) :
    0 < fgetsCount size s ∧ fgetsCount size s < size ∧ fgetsCount size s ≤ s.length := by
  have hpos := List.length_pos_iff.mpr hs
  unfold fgetsCount
  cases h : memchr s newline (size - 1) with
  | none => simp only; omega
  | some k =>
      obtain ⟨hk, -⟩ := List.idxOf?_eq_some_iff.mp h
      rw [List.length_take] at hk
      simp only
      omega

/-- **`fgets`** stays in the buffer, terminates what it writes and goes on in
the file. -/
theorem fgets_eq_some {size : Nat} {file : List UInt8} (hsize : 1 < size) (hfile : file ≠ [])
    (hs : s.length = size) :
    ∃ s', fgets s size file = some (s', file.drop (fgetsCount size file)) ∧
      s'.length = size ∧ 0 ∈ s' ∧ (file.drop (fgetsCount size file)).length < file.length := by
  obtain ⟨hpos, hlt, hle⟩ := fgetsCount_bounds hsize hfile
  refine ⟨_, if_neg (by simpa using hfile), ?_, by simp, ?_⟩
  · rw [List.length_append, List.length_take, List.length_cons, List.length_drop]
    omega
  · rw [List.length_drop]
    omega

theorem memchr_append {n : Nat} (hc : c ∉ x) (hn : x.length < n) (t : List UInt8) :
    memchr (x ++ c :: t) c n = some x.length := by
  refine List.idxOf?_eq_some_iff.mpr ⟨?_, ?_, fun j hj => ?_⟩
  · rw [List.length_take, List.length_append, List.length_cons]
    omega
  · rw [List.getElem_take, List.getElem_append_right (Nat.le_refl _)]
    simp
  · rw [List.getElem_take, List.getElem_append_left hj]
    exact fun heq => hc (heq ▸ List.getElem_mem hj)

/-- **A line that fits is taken whole**, with its newline where there is room for it. -/
theorem fgets_line {size : Nat} {line rest : List UInt8} (hline : newline ∉ line)
    (hne : line ≠ []) (hfits : line.length < size) (hrest : ∀ c ∈ rest.head?, c = newline)
    (s : List UInt8) :
    ∃ ending tail file, (ending = [] ∨ ending = [newline]) ∧
      fgets s size (line ++ rest) = some (line ++ (ending ++ 0 :: tail), file) := by
  have hfgets : ∀ n ending, fgetsCount size (line ++ rest) = n →
      (line ++ rest).take n = line ++ ending →
      ∃ tail file, fgets s size (line ++ rest) = some (line ++ (ending ++ 0 :: tail), file) := by
    rintro n ending rfl htake
    rw [fgets, if_neg (by simp [hne])]
    dsimp only
    rw [htake, List.append_assoc]
    exact ⟨_, _, rfl⟩
  by_cases hroom : line.length + 1 < size ∧ rest ≠ []
  · obtain ⟨hroom, hrest'⟩ := hroom
    obtain ⟨d, rest, rfl⟩ := List.exists_cons_of_ne_nil hrest'
    obtain rfl := hrest d rfl
    obtain ⟨tail, file, h⟩ := hfgets (line.length + 1) [newline]
      (by rw [fgetsCount, memchr_append hline (by omega)]) (by simp [List.take_length_add_append])
    exact ⟨_, tail, file, .inr rfl, h⟩
  · have hnone : memchr (line ++ rest) newline (size - 1) = none := by
      rw [memchr_eq_none]
      intro h
      cases rest with
      | nil =>
          rw [List.append_nil] at h
          exact hline (List.mem_of_mem_take h)
      | cons d rest =>
          rw [List.take_append_of_le_length (by simp at hroom; omega)] at h
          exact hline (List.mem_of_mem_take h)
    have hcount : fgetsCount size (line ++ rest) = line.length := by
      rw [fgetsCount, hnone]
      cases rest with
      | nil => simp; omega
      | cons d rest => simp at hroom ⊢; omega
    obtain ⟨tail, file, h⟩ := hfgets line.length [] hcount (by simp)
    exact ⟨_, tail, file, .inl rfl, h⟩

/-- A string that is stored has room, and is read back. -/
theorem storeString_eq_some {buffer bytes : List UInt8} (h : storeString buffer bytes = some s) :
    bytes.length < buffer.length ∧ s.length = buffer.length ∧ content s = content bytes := by
  unfold storeString at h
  split at h
  · rename_i hlt
    cases h
    refine ⟨hlt, ?_, content_append_zero _ _⟩
    rw [List.length_append, List.length_cons, List.length_drop]
    omega
  · cases h

/-! ## Comparing -/

/-- The order of two strings: the difference at the first byte in which they
differ, the end of a string being the least. -/
def order : List UInt8 → List UInt8 → Int
  | [], [] => 0
  | [], b :: _ => -b.toNat
  | a :: _, [] => a.toNat
  | a :: x, b :: y => if a ≠ b then a.toNat - b.toNat else order x y

/-- **`strcmp`** compares the strings; terminated buffers are not left. -/
theorem strcmp_eq (hs : 0 ∈ s) (ht : 0 ∈ t) :
    strcmp s t = some (order (content s) (content t)) := by
  induction s generalizing t with
  | nil => cases hs
  | cons a s ih =>
      cases t with
      | nil => cases ht
      | cons b t =>
          rw [strcmp]
          by_cases hab : a = b
          · subst hab
            rw [if_neg (not_not_intro rfl)]
            by_cases ha : a = 0
            · subst ha
              rfl
            · rw [if_neg ha, content_cons ha, content_cons ha, order,
                if_neg (not_not_intro rfl)]
              exact ih ((List.mem_cons.mp hs).resolve_left (Ne.symm ha))
                ((List.mem_cons.mp ht).resolve_left (Ne.symm ha))
          · rw [if_pos hab]
            by_cases ha : a = 0
            · subst ha
              rw [content_zero, content_cons (Ne.symm hab), order]
              simp
            · by_cases hb : b = 0
              · subst hb
                rw [content_zero, content_cons ha, order]
                simp
              · rw [content_cons ha, content_cons hb, order, if_pos hab]

theorem order_swap (x y : List UInt8) : order y x = -order x y := by
  induction x generalizing y with
  | nil => cases y <;> simp [order]
  | cons a x ih =>
      cases y with
      | nil => simp [order]
      | cons b y =>
          rw [order, order]
          by_cases hab : a = b
          · subst hab
            rw [if_neg (not_not_intro rfl), if_neg (not_not_intro rfl), ih]
          · rw [if_pos hab, if_pos (Ne.symm hab)]
            omega

/-- Only a string itself compares equal to it. -/
theorem order_eq_zero (hx : 0 ∉ x) (hy : 0 ∉ y) : order x y = 0 ↔ x = y := by
  induction x generalizing y with
  | nil =>
      cases y with
      | nil => simp [order]
      | cons b y =>
          have hb : b ≠ 0 := fun h => hy (h ▸ List.mem_cons_self)
          simp [order, ← UInt8.toNat_inj] at hb ⊢
          exact hb
  | cons a x ih =>
      cases y with
      | nil =>
          have ha : a ≠ 0 := fun h => hx (h ▸ List.mem_cons_self)
          simp [order, ← UInt8.toNat_inj] at ha ⊢
          exact ha
      | cons b y =>
          rw [List.mem_cons, not_or] at hx hy
          rw [order, List.cons.injEq]
          by_cases hab : a = b
          · rw [if_neg (not_not_intro hab), ih hx.2 hy.2]
            simp [hab]
          · rw [if_pos hab]
            rw [← UInt8.toNat_inj] at hab
            simp only [← UInt8.toNat_inj, hab, false_and, iff_false]
            omega

/-- Equal bytes up to a terminator in both. -/
theorem strcmp_eq_zero (h : strcmp s t = some 0) : 0 ∈ s ∧ 0 ∈ t ∧ content s = content t := by
  induction s generalizing t with
  | nil => cases h
  | cons a s ih =>
      cases t with
      | nil => cases h
      | cons b t =>
          rw [strcmp] at h
          by_cases hab : a = b
          · subst hab
            rw [if_neg (not_not_intro rfl)] at h
            by_cases ha : a = 0
            · subst ha
              exact ⟨List.mem_cons_self, List.mem_cons_self, rfl⟩
            · rw [if_neg ha] at h
              obtain ⟨hs, ht, heq⟩ := ih h
              rw [content_cons ha, content_cons ha, heq]
              exact ⟨List.mem_cons_of_mem a hs, List.mem_cons_of_mem a ht, rfl⟩
          · rw [if_pos hab, Option.some.injEq] at h
            exact absurd (UInt8.toNat_inj.mp (by omega)) hab

theorem strcmp_eq_zero_iff (ht : 0 ∈ t) :
    strcmp s t = some 0 ↔ 0 ∈ s ∧ content s = content t := by
  refine ⟨fun h => ?_, fun ⟨hs, heq⟩ => ?_⟩
  · obtain ⟨hs, -, heq⟩ := strcmp_eq_zero h
    exact ⟨hs, heq⟩
  · rw [strcmp_eq hs ht, heq]
    exact congrArg some ((order_eq_zero (zero_notMem_content t) (zero_notMem_content t)).mpr rfl)

/-- A string that is shorter than the buffer is told from what is in it. -/
theorem strcmp_ne_none (ht : 0 ∈ t) (hlt : (content t).length < s.length) :
    ∃ c, strcmp s t = some c := by
  induction s generalizing t with
  | nil => cases hlt
  | cons a s ih =>
      cases t with
      | nil => cases ht
      | cons b t =>
          rw [strcmp]
          by_cases hab : a = b
          · subst hab
            rw [if_neg (not_not_intro rfl)]
            by_cases ha : a = 0
            · rw [if_pos ha]
              exact ⟨0, rfl⟩
            · rw [if_neg ha]
              rw [content_cons ha, List.length_cons, List.length_cons] at hlt
              exact ih ((List.mem_cons.mp ht).resolve_left (Ne.symm ha)) (by omega)
          · rw [if_pos hab]
            exact ⟨_, rfl⟩

theorem length_strncpy {n : Nat} (h : n ≤ s.length) (t : List UInt8) :
    (strncpy s t n).length = s.length := by
  simp only [strncpy, List.length_append, List.length_take, List.length_replicate,
    List.length_drop]
  omega

/-- **`strncpy`** of a string that is shorter than the limit. -/
theorem content_strncpy {n : Nat} (h : (content t).length < n) (s : List UInt8) :
    content (strncpy s t n) = content t ∧ 0 ∈ strncpy s t n := by
  obtain ⟨k, hk⟩ : ∃ k, n - (content t).length = k + 1 := ⟨n - (content t).length - 1, by omega⟩
  have hcopy : strncpy s t n
      = content t ++ 0 :: (List.replicate k 0 ++ s.drop n) := by
    rw [strncpy, List.take_of_length_le (by omega), hk, List.replicate_succ]
    simp
  rw [hcopy, content_append_zero, content_content]
  exact ⟨rfl, by simp⟩

/-! ## Tokens -/

/-- **The tokens are the runs** between delimiters. -/
theorem strtok_cases (delim : UInt8) (s : List UInt8) :
    (strtok delim s = none ∧ Runs.runs (· == delim) s = []) ∨
      ∃ token rest, strtok delim s = some (token, rest) ∧ rest.length < s.length ∧
        Runs.runs (· == delim) s = token :: Runs.runs (· == delim) rest := by
  have hruns : Runs.runs (· == delim) s = Runs.runs (· == delim) (s.dropWhile (· == delim)) := by
    conv_lhs => rw [← List.takeWhile_append_dropWhile (p := (· == delim)) (l := s)]
    refine Runs.runs_append_sep (fun c hc => ?_) _
    exact List.mem_takeWhile_imp (p := (· == delim)) hc
  have hle := (List.dropWhile_suffix (· == delim) (l := s)).length_le
  rw [hruns, strtok]
  cases hdrop : s.dropWhile (· == delim) with
  | nil => exact .inl ⟨rfl, rfl⟩
  | cons c text =>
      have hc : (c == delim) = false := by
        have hhead := List.head?_dropWhile_not (· == delim) s
        rw [hdrop] at hhead
        simpa using hhead
      have hrest := List.head?_dropWhile_not (· != delim) text
      have hsuffix := (List.dropWhile_suffix (· != delim) (l := text)).length_le
      have htext : Runs.runs (· == delim) (c :: text)
          = (c :: text.takeWhile (· != delim))
            :: Runs.runs (· == delim) (text.dropWhile (· != delim)) := by
        conv_lhs => rw [← List.takeWhile_append_dropWhile (p := (· != delim)) (l := text)]
        refine Runs.runs_append (List.cons_ne_nil _ _) (fun x hx => ?_) fun x hx => ?_
        · rcases List.mem_cons.mp hx with rfl | hx
          · exact hc
          · simpa using List.mem_takeWhile_imp hx
        · rw [Option.mem_def.mp hx] at hrest
          simpa using hrest
      refine .inr ⟨_, _, rfl, ?_, ?_⟩
      · rw [hdrop, List.length_cons] at hle
        rw [List.length_drop]
        omega
      · rw [htext]
        cases hafter : text.dropWhile (· != delim) with
        | nil => rfl
        | cons d after =>
            rw [hafter] at hrest
            exact congrArg _ (Runs.runs_cons_sep (by simpa using hrest) after)

end Lib.CString
