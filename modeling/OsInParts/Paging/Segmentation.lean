import Mathlib.Data.Set.BooleanAlgebra
import Mathlib.Order.CompletePartialOrder

/-!
# Segmentation — translation by segment and offset

`Segmentation, Paging, IPC/q2.c`: the three segments and `translateAddress`.
The top two bits of a 16-bit address select the segment, the other 14 are the
offset. Code and heap grow upwards from their base. The stack grows downwards,
so 4096 is subtracted from its offset first; the difference is stored in an
`int`, but the limit check compares it with an `unsigned int`, and a negative
difference is then larger than any size.
-/

namespace OsInParts.Segmentation

structure Segment where
  base : UInt32
  size : UInt32
  deriving DecidableEq

/-- The three globals. -/
structure Segments where
  codeSegment : Segment
  heapSegment : Segment
  stackSegment : Segment
  deriving DecidableEq

/-- 2KB at 32KB, 3KB at 34KB and 2KB at 28KB. -/
def segments : Segments :=
  { codeSegment := ⟨32768, 2048⟩, heapSegment := ⟨34816, 3072⟩, stackSegment := ⟨28672, 2048⟩ }

inductive SegmentName where
  | code
  | heap
  | stack
  deriving DecidableEq

/-- What `translateAddress` prints. -/
inductive Translation where
  | physical (segment : SegmentName) (physicalAddr : UInt32)
  | segmentationFault (segment : SegmentName)
  | invalidSegment
  deriving DecidableEq

/-! ## The text of an address -/

def hexDigit (c : UInt8) : Option Nat :=
  if 48 ≤ c ∧ c ≤ 57 then some (c.toNat - 48)
  else if 65 ≤ c ∧ c ≤ 70 then some (c.toNat - 55)
  else if 97 ≤ c ∧ c ≤ 102 then some (c.toNat - 87)
  else none

/-- The digits up to the first byte that is none. -/
def hexValue (value : Nat) : List UInt8 → Nat
  | [] => value
  | c :: s =>
      match hexDigit c with
      | some digit => hexValue (16 * value + digit) s
      | none => value

/-- An optional `0x` or `0X`. -/
def afterPrefix : List UInt8 → List UInt8
  | 48 :: 120 :: s => s
  | 48 :: 88 :: s => s
  | s => s

/-- `strtol(s, NULL, 16)` of a word of four characters at most, whose value is
in the range of `long`. -/
def strtol : List UInt8 → Int
  | 45 :: s => -(hexValue 0 (afterPrefix s))
  | 43 :: s => hexValue 0 (afterPrefix s)
  | s => hexValue 0 (afterPrefix s)

/-- The character of a hexadecimal digit. -/
def hexChar (digit : Nat) : UInt8 := UInt8.ofNat (if digit < 10 then 48 + digit else 55 + digit)

/-- A 16-bit address as a word of four characters. -/
def hexText (address : UInt16) : List UInt8 :=
  let a := address.toNat
  [a / 4096, a / 256 % 16, a / 16 % 16, a % 16].map hexChar

theorem hexDigit_hexChar {d : Nat} (hd : d < 16) : hexDigit (hexChar d) = some d := by
  revert d
  decide

/-- A digit is no sign and no `x`. -/
theorem hexChar_ne {d : Nat} (hd : d < 16) :
    hexChar d ≠ 45 ∧ hexChar d ≠ 43 ∧ hexChar d ≠ 120 ∧ hexChar d ≠ 88 := by
  revert d
  decide

/-- Every 16-bit address is read from its text. -/
theorem strtol_hexText (a : UInt16) : strtol (hexText a) = a.toNat := by
  have ha := a.toNat_lt
  have h3 : a.toNat / 4096 < 16 := by omega
  have h2 : a.toNat / 256 % 16 < 16 := by omega
  have h1 : a.toNat / 16 % 16 < 16 := by omega
  have h0 : a.toNat % 16 < 16 := by omega
  obtain ⟨hminus, hplus, -, -⟩ := hexChar_ne h3
  obtain ⟨-, -, hx, hX⟩ := hexChar_ne h2
  have htext : afterPrefix (hexText a) = hexText a := by
    unfold hexText afterPrefix
    split
    · rename_i heq
      simp_all
    · rename_i heq
      simp_all
    · rfl
  have hsign : strtol (hexText a) = hexValue 0 (afterPrefix (hexText a)) := by
    unfold strtol
    split
    · rename_i heq
      simp_all [hexText]
    · rename_i heq
      simp_all [hexText]
    · rfl
  rw [hsign, htext]
  simp only [hexText, List.map_cons, List.map_nil, hexValue, hexDigit_hexChar h3,
    hexDigit_hexChar h2, hexDigit_hexChar h1, hexDigit_hexChar h0]
  omega

/-! ## `translateAddress` -/

/-- The body of `translateAddress` after the conversion of its argument. -/
def translate (s : Segments) (address : UInt32) : Translation :=
  let segment := (address &&& 0xC000) >>> 14
  let offset := address &&& 0x3FFF
  if segment = 0 then
    if offset < s.codeSegment.size then .physical .code (s.codeSegment.base + offset)
    else .segmentationFault .code
  else if segment = 1 then
    if offset < s.heapSegment.size then .physical .heap (s.heapSegment.base + offset)
    else .segmentationFault .heap
  else if segment = 2 then
    let negativeOffset : Int32 := (offset - 4096).toInt32
    -- compared and added as `unsigned int`
    if negativeOffset.toUInt32 ≤ s.stackSegment.size then
      .physical .stack (s.stackSegment.base + negativeOffset.toUInt32)
    else .segmentationFault .stack
  else .invalidSegment

/-- The conversion to `unsigned int` keeps the low 32 bits. -/
def translateAddress (s : Segments) (logicalAddress : List UInt8) : Translation :=
  translate s (UInt32.ofInt (strtol logicalAddress))

/-! ## What the fields of an address select -/

/-- The number in the top two bits. -/
def selector (a : UInt16) : Nat := a.toNat / 16384

def offsetOf (a : UInt16) : Nat := a.toNat % 16384

theorem selector_cases (a : UInt16) :
    selector a = 0 ∨ selector a = 1 ∨ selector a = 2 ∨ selector a = 3 := by
  have ha := a.toNat_lt
  unfold selector
  omega

theorem offsetOf_lt (a : UInt16) : offsetOf a < 16384 := Nat.mod_lt _ (by decide)

theorem eq_of_fields {a b : UInt16} (hselector : selector a = selector b)
    (hoffset : offsetOf a = offsetOf b) : a = b := by
  unfold selector at hselector
  unfold offsetOf at hoffset
  exact UInt16.toNat_inj.mp (by omega)

/-- The address reaches `pa`. -/
def Yields (s : Segments) (a : UInt16) (pa : UInt32) : Prop :=
  ∃ segment, translateAddress s (hexText a) = .physical segment pa

theorem translateAddress_hexText (s : Segments) (a : UInt16) :
    translateAddress s (hexText a) = translate s a.toUInt32 := by
  have hvalue : UInt32.ofInt a.toNat = a.toUInt32 := by
    have hmod : ((a.toNat : Int) % 2 ^ 32).toNat = a.toNat := by
      have := a.toNat_lt
      omega
    rw [UInt32.ofInt, hmod]
    exact UInt32.toNat_inj.mp (by simp)
  rw [translateAddress, strtol_hexText, hvalue]

/-- The shift brings the top two bits down. -/
theorem segment_eq (a : UInt16) :
    (a.toUInt32 &&& 0xC000) >>> 14 = UInt32.ofNat (selector a) := by
  have ha := a.toNat_lt
  have hmask : (a.toNat &&& 0xC000) >>> 14 = selector a := by
    rw [Nat.shiftRight_and_distrib, Nat.shiftRight_eq_div_pow]
    calc a.toNat / 2 ^ 14 &&& 0xC000 >>> 14 = a.toNat / 2 ^ 14 % 2 ^ 2 :=
          Nat.and_two_pow_sub_one_eq_mod _ 2
      _ = selector a := by
          unfold selector
          omega
  apply UInt32.toNat_inj.mp
  rw [UInt32.toNat_shiftRight, UInt32.toNat_and, UInt16.toNat_toUInt32, UInt32.toNat_ofNat']
  refine hmask.trans (Nat.mod_eq_of_lt ?_).symm
  unfold selector
  omega

theorem offset_toNat (a : UInt16) : (a.toUInt32 &&& 0x3FFF).toNat = offsetOf a := by
  rw [UInt32.toNat_and, UInt16.toNat_toUInt32]
  exact Nat.and_two_pow_sub_one_eq_mod a.toNat 14

/-! ## One lemma for each segment -/

section Branches

variable {s : Segments} {a : UInt16} {pa : UInt32}

/-- A branch that checks the offset against the size and adds it to the base. -/
theorem yields_upward {segment : Segment} (name : SegmentName)
    (h : translateAddress s (hexText a) =
      if a.toUInt32 &&& 0x3FFF < segment.size then
        .physical name (segment.base + (a.toUInt32 &&& 0x3FFF))
      else .segmentationFault name) :
    Yields s a pa ↔ offsetOf a < segment.size.toNat ∧
      pa = segment.base + UInt32.ofNat (offsetOf a) := by
  have hoffset : a.toUInt32 &&& 0x3FFF = UInt32.ofNat (offsetOf a) := by
    rw [← offset_toNat, UInt32.ofNat_toNat]
  have hlt : a.toUInt32 &&& 0x3FFF < segment.size ↔ offsetOf a < segment.size.toNat := by
    rw [UInt32.lt_iff_toNat_lt, offset_toNat]
  unfold Yields
  rw [h]
  split
  · rename_i hin
    rw [hoffset]
    constructor
    · rintro ⟨_, heq⟩
      cases heq
      exact ⟨hlt.mp hin, rfl⟩
    · rintro ⟨-, rfl⟩
      exact ⟨name, rfl⟩
  · rename_i hout
    constructor
    · rintro ⟨_, heq⟩
      cases heq
    · rintro ⟨hin, -⟩
      exact absurd (hlt.mpr hin) hout

theorem yields_code (h : selector a = 0) :
    Yields s a pa ↔ offsetOf a < s.codeSegment.size.toNat ∧
      pa = s.codeSegment.base + UInt32.ofNat (offsetOf a) := by
  refine yields_upward .code ?_
  rw [translateAddress_hexText, translate, segment_eq, h]
  rfl

theorem yields_heap (h : selector a = 1) :
    Yields s a pa ↔ offsetOf a < s.heapSegment.size.toNat ∧
      pa = s.heapSegment.base + UInt32.ofNat (offsetOf a) := by
  refine yields_upward .heap ?_
  rw [translateAddress_hexText, translate, segment_eq, h]
  rfl

/-- The check as it is made: the offsets from 4096 on that the size admits. -/
theorem yields_stack (h : selector a = 2) (hsize : s.stackSegment.size.toNat ≤ 4096) :
    Yields s a pa ↔ 4096 ≤ offsetOf a ∧ offsetOf a ≤ 4096 + s.stackSegment.size.toNat ∧
      pa = s.stackSegment.base + UInt32.ofNat (offsetOf a - 4096) := by
  have hoffset := offsetOf_lt a
  have hsub : ((a.toUInt32 &&& 0x3FFF) - 4096).toNat
      = (2 ^ 32 - 4096 + offsetOf a) % 2 ^ 32 := by
    rw [UInt32.toNat_sub, offset_toNat]
    rfl
  have htranslate : translateAddress s (hexText a) =
      if (a.toUInt32 &&& 0x3FFF) - 4096 ≤ s.stackSegment.size then
        .physical .stack (s.stackSegment.base + ((a.toUInt32 &&& 0x3FFF) - 4096))
      else .segmentationFault .stack := by
    rw [translateAddress_hexText, translate, segment_eq, h]
    rfl
  have hle : (a.toUInt32 &&& 0x3FFF) - 4096 ≤ s.stackSegment.size ↔
      4096 ≤ offsetOf a ∧ offsetOf a ≤ 4096 + s.stackSegment.size.toNat := by
    rw [UInt32.le_iff_toNat_le, hsub]
    omega
  unfold Yields
  rw [htranslate]
  split
  · rename_i hin
    obtain ⟨h1, h2⟩ := hle.mp hin
    have hvalue : (a.toUInt32 &&& 0x3FFF) - 4096 = UInt32.ofNat (offsetOf a - 4096) := by
      apply UInt32.toNat_inj.mp
      rw [hsub, UInt32.toNat_ofNat']
      omega
    rw [hvalue]
    constructor
    · rintro ⟨_, heq⟩
      cases heq
      exact ⟨h1, h2, rfl⟩
    · rintro ⟨-, -, rfl⟩
      exact ⟨.stack, rfl⟩
  · rename_i hout
    constructor
    · rintro ⟨_, heq⟩
      cases heq
    · rintro ⟨h1, h2, -⟩
      exact absurd (hle.mpr ⟨h1, h2⟩) hout

theorem not_yields_invalid (h : selector a = 3) : ¬ Yields s a pa := by
  rintro ⟨_, heq⟩
  rw [translateAddress_hexText, translate, segment_eq, h] at heq
  cases heq

end Branches

/-! ## Layouts -/

/-- `[base, base + size)`. -/
def Segment.upward (g : Segment) : Set Int :=
  { x | (g.base.toNat : Int) ≤ x ∧ x < g.base.toNat + g.size.toNat }

/-- `[base - size, base)`. -/
def Segment.downward (g : Segment) : Set Int :=
  { x | (g.base.toNat : Int) - g.size.toNat ≤ x ∧ x < g.base.toNat }

/-- The physical addresses of the segment with number `selector`. -/
def Segments.range (s : Segments) : Nat → Set Int
  | 0 => s.codeSegment.upward
  | 1 => s.heapSegment.upward
  | 2 => s.stackSegment.downward
  | _ => ∅

/-- The addresses below `PHYSICAL_MEMORY_SIZE`. -/
def physicalMemory : Set Int := { x | 0 ≤ x ∧ x < 65536 }

/-- **A layout**: segments of at most 4KB in physical memory that do not
overlap. -/
structure Layout (s : Segments) : Prop where
  code_size : s.codeSegment.size.toNat ≤ 4096
  heap_size : s.heapSegment.size.toNat ≤ 4096
  stack_size : s.stackSegment.size.toNat ≤ 4096
  inside : ∀ selector, s.range selector ⊆ physicalMemory
  disjoint : ∀ i j, i ≠ j → Disjoint (s.range i) (s.range j)

/-- What an address is for: the offsets of its segment are accepted, and reach
the segment. -/
structure Correct (s : Segments) (a : UInt16) : Prop where
  inside : ∀ pa, Yields s a pa → (pa.toNat : Int) ∈ s.range (selector a)
  code : selector a = 0 → ((∃ pa, Yields s a pa) ↔ offsetOf a < s.codeSegment.size.toNat)
  heap : selector a = 1 → ((∃ pa, Yields s a pa) ↔ offsetOf a < s.heapSegment.size.toNat)
  stack : selector a = 2 → ∀ pa, Yields s a pa ↔
    4096 - s.stackSegment.size.toNat ≤ offsetOf a ∧ offsetOf a < 4096 ∧
      (pa.toNat : Int) = s.stackSegment.base.toNat + ((offsetOf a : Int) - 4096)

/-- A stack address whose offset is in the segment, or at most its size above
4096. -/
def Misjudged (s : Segments) (a : UInt16) : Prop :=
  selector a = 2 ∧ 4096 - s.stackSegment.size.toNat ≤ offsetOf a ∧
    offsetOf a ≤ 4096 + s.stackSegment.size.toNat

section Layout

variable {s : Segments} {a b : UInt16} {pa : UInt32}

/-- Adding an offset below the size does not wrap around. -/
theorem upward_address {g : Segment} (hg : g.upward ⊆ physicalMemory)
    {offset : Nat} (hlt : offset < g.size.toNat) :
    (g.base + UInt32.ofNat offset).toNat = g.base.toNat + offset ∧
      ((g.base + UInt32.ofNat offset).toNat : Int) ∈ g.upward := by
  have hmem : (g.base.toNat : Int) + offset ∈ g.upward := ⟨by omega, by omega⟩
  have hbound := (hg hmem).2
  have hvalue : (g.base + UInt32.ofNat offset).toNat = g.base.toNat + offset := by
    rw [UInt32.toNat_add, UInt32.toNat_ofNat']
    omega
  refine ⟨hvalue, ?_⟩
  rw [hvalue, Int.natCast_add]
  exact hmem

theorem upward_injective {g : Segment} (hg : g.upward ⊆ physicalMemory)
    {i j : Nat} (hi : i < g.size.toNat) (hj : j < g.size.toNat)
    (h : g.base + UInt32.ofNat i = g.base + UInt32.ofNat j) : i = j := by
  have hvalue := (upward_address hg hi).1
  rw [h, (upward_address hg hj).1] at hvalue
  omega

/-- A stack address that is not misjudged faults. -/
theorem not_yields_stack (hs : Layout s) (h : selector a = 2) (ha : ¬ Misjudged s a) :
    ¬ Yields s a pa := by
  rw [yields_stack h hs.stack_size]
  rintro ⟨h1, h2, -⟩
  exact ha ⟨h, by omega, h2⟩

theorem correct_of_not_misjudged (hs : Layout s) (ha : ¬ Misjudged s a) : Correct s a := by
  constructor
  · intro pa hpa
    rcases selector_cases a with hsel | hsel | hsel | hsel
    · obtain ⟨hin, rfl⟩ := (yields_code hsel).mp hpa
      rw [hsel]
      exact (upward_address (hs.inside 0) hin).2
    · obtain ⟨hin, rfl⟩ := (yields_heap hsel).mp hpa
      rw [hsel]
      exact (upward_address (hs.inside 1) hin).2
    · exact absurd hpa (not_yields_stack hs hsel ha)
    · exact absurd hpa (not_yields_invalid hsel)
  · intro hsel
    simp [yields_code hsel]
  · intro hsel
    simp [yields_heap hsel]
  · intro hsel pa
    constructor
    · intro hpa
      exact absurd hpa (not_yields_stack hs hsel ha)
    · rintro ⟨h1, h2, -⟩
      exact absurd ⟨hsel, h1, by omega⟩ ha

/-- A misjudged address faults inside the segment and is accepted above it. -/
theorem not_correct_of_misjudged (hs : Layout s) (ha : Misjudged s a) : ¬ Correct s a := by
  obtain ⟨hsel, hlow, hhigh⟩ := ha
  intro h
  rcases Nat.lt_or_ge (offsetOf a) 4096 with hlt | hge
  · have hbottom : ((s.stackSegment.base.toNat : Int) - s.stackSegment.size.toNat)
        ∈ s.range 2 := ⟨le_rfl, by omega⟩
    have hnonneg := (hs.inside 2 hbottom).1
    have hbase := s.stackSegment.base.toNat_lt
    have hreach := (h.stack hsel
      (UInt32.ofNat (s.stackSegment.base.toNat + offsetOf a - 4096))).mpr
      ⟨hlow, hlt, by
        rw [UInt32.toNat_ofNat']
        omega⟩
    have hfault := (yields_stack hsel hs.stack_size).mp hreach
    omega
  · have hreach := (yields_stack (s := s) hsel hs.stack_size).mpr ⟨hge, hhigh, rfl⟩
    have hbound := ((h.stack hsel _).mp hreach).2.1
    omega

/-- Two addresses that are not misjudged do not meet. -/
theorem eq_of_yields (hs : Layout s) (ha : ¬ Misjudged s a) (hb : ¬ Misjudged s b)
    (hya : Yields s a pa) (hyb : Yields s b pa) : a = b := by
  have hsel : selector a = selector b := by
    by_contra hne
    exact Set.disjoint_left.mp (hs.disjoint _ _ hne)
      ((correct_of_not_misjudged hs ha).inside pa hya)
      ((correct_of_not_misjudged hs hb).inside pa hyb)
  refine eq_of_fields hsel ?_
  rcases selector_cases a with h | h | h | h
  · obtain ⟨hina, rfl⟩ := (yields_code h).mp hya
    obtain ⟨hinb, heq⟩ := (yields_code (hsel ▸ h)).mp hyb
    exact upward_injective (hs.inside 0) hina hinb heq
  · obtain ⟨hina, rfl⟩ := (yields_heap h).mp hya
    obtain ⟨hinb, heq⟩ := (yields_heap (hsel ▸ h)).mp hyb
    exact upward_injective (hs.inside 1) hina hinb heq
  · exact absurd hya (not_yields_stack hs h ha)
  · exact absurd hya (not_yields_invalid h)

/-- **Two addresses are translated correctly, and to different physical
addresses, exactly if neither is a stack address within the size of 4096.** -/
theorem translateAddress_correct_iff (hs : Layout s) (a b : UInt16) :
    (Correct s a ∧ Correct s b ∧ (a ≠ b → ∀ pa, Yields s a pa → ¬ Yields s b pa)) ↔
      ¬ Misjudged s a ∧ ¬ Misjudged s b := by
  constructor
  · rintro ⟨ha, hb, -⟩
    exact ⟨fun hm => not_correct_of_misjudged hs hm ha,
      fun hm => not_correct_of_misjudged hs hm hb⟩
  · rintro ⟨ha, hb⟩
    exact ⟨correct_of_not_misjudged hs ha, correct_of_not_misjudged hs hb,
      fun hne pa hya hyb => hne (eq_of_yields hs ha hb hya hyb)⟩

end Layout

/-- The layout of the source. -/
theorem layout_segments : Layout segments := by
  have hcode : segments.range 0 = { x | 32768 ≤ x ∧ x < 34816 } := rfl
  have hheap : segments.range 1 = { x | 34816 ≤ x ∧ x < 37888 } := rfl
  have hstack : segments.range 2 = { x | 26624 ≤ x ∧ x < 28672 } := rfl
  refine ⟨by decide, by decide, by decide, fun i x hx => ?_, fun i j hne => ?_⟩
  · rcases i with _ | _ | _ | i
    · exact ⟨Int.le_trans (by decide) hx.1, hx.2.trans (by decide)⟩
    · exact ⟨Int.le_trans (by decide) hx.1, hx.2.trans (by decide)⟩
    · exact ⟨Int.le_trans (by decide) hx.1, hx.2.trans (by decide)⟩
    · exact hx.elim
  · rw [Set.disjoint_left]
    intro x hi hj
    rcases i with _ | _ | _ | i <;> rcases j with _ | _ | _ | j
    all_goals first
      | exact hne rfl
      | exact hi.elim
      | exact hj.elim
      | skip
    all_goals
      simp only [Nat.zero_add, Nat.reduceAdd, hcode, hheap, hstack, Set.mem_ofPred_eq] at hi hj
      omega

theorem translateAddress_correct_iff_sample :
    Correct segments 0x0010 ∧ Correct segments 0x4010 ∧
      (0x0010 ≠ (0x4010 : UInt16) →
        ∀ pa, Yields segments 0x0010 pa → ¬ Yields segments 0x4010 pa) :=
  (translateAddress_correct_iff layout_segments 0x0010 0x4010).mpr
    ⟨by unfold Misjudged; decide, by unfold Misjudged; decide⟩

/-- What the translation is for. -/
def AlwaysCorrect : Prop :=
  ∀ s, Layout s → (∀ a, Correct s a) ∧
    ∀ a b, a ≠ b → ∀ pa, Yields s a pa → ¬ Yields s b pa

/-- The last byte below the stack's base faults. -/
theorem translateAddress_not_alwaysCorrect : ¬ AlwaysCorrect := by
  intro h
  have hcorrect := (h segments layout_segments).1 0x8FFF
  have hreach := (hcorrect.stack rfl 28671).mpr ⟨by decide, by decide, by decide⟩
  obtain ⟨name, hpa⟩ := hreach
  have hfault : translateAddress segments (hexText 0x8FFF) = .segmentationFault .stack := by
    rw [translateAddress_hexText]
    decide
  rw [hfault] at hpa
  cases hpa

end OsInParts.Segmentation
