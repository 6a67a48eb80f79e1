import Mathlib.Data.List.Basic

/-!
# Words — 32-bit integers as bytes, lowest byte first

`encode` is what a write of an array puts on the wire, `decode` what a read
stores; incomplete trailing bytes decode to nothing.
-/

namespace Lib.Words

/-- The four bytes of an integer. -/
def toBytes (x : Int32) : List UInt8 :=
  let v := x.toUInt32.toNat
  [UInt8.ofNat v, UInt8.ofNat (v / 256), UInt8.ofNat (v / 65536), UInt8.ofNat (v / 16777216)]

def ofBytes (b₀ b₁ b₂ b₃ : UInt8) : Int32 :=
  (UInt32.ofNat (b₀.toNat + 256 * b₁.toNat + 65536 * b₂.toNat + 16777216 * b₃.toNat)).toInt32

def encode (xs : List Int32) : List UInt8 := xs.flatMap toBytes

def decode : List UInt8 → List Int32
  | b₀ :: b₁ :: b₂ :: b₃ :: bytes => ofBytes b₀ b₁ b₂ b₃ :: decode bytes
  | _ => []

theorem ofBytes_toBytes (v : UInt32) :
    UInt32.ofNat ((UInt8.ofNat v.toNat).toNat + 256 * (UInt8.ofNat (v.toNat / 256)).toNat
      + 65536 * (UInt8.ofNat (v.toNat / 65536)).toNat
      + 16777216 * (UInt8.ofNat (v.toNat / 16777216)).toNat) = v := by
  have hv := v.toNat_lt
  simp only [UInt8.toNat_ofNat']
  refine UInt32.toNat_inj.mp ?_
  rw [UInt32.toNat_ofNat']
  omega

@[simp] theorem length_encode (xs : List Int32) : (encode xs).length = 4 * xs.length := by
  induction xs with
  | nil => rfl
  | cons x xs ih =>
      rw [encode, List.flatMap_cons, List.length_append, ← encode, ih, List.length_cons]
      simp only [toBytes, List.length_cons, List.length_nil]
      omega

/-- **A round trip** over the wire. -/
theorem decode_encode (xs : List Int32) : decode (encode xs) = xs := by
  induction xs with
  | nil => rfl
  | cons x xs ih =>
      rw [encode, List.flatMap_cons, ← encode]
      show ofBytes _ _ _ _ :: decode (encode xs) = x :: xs
      rw [ih, ofBytes, ofBytes_toBytes x.toUInt32]
      rfl

end Lib.Words
