/-!
Fixed and variable-length word encodings, as byte lists.

* `VarInt.encode`: seven bits per byte, lowest group first, the high bit set on every byte but
  the last. A 32-bit word takes one to five bytes.
* `S24`: a signed displacement in three little-endian bytes (two's complement).
* `LittleEndian`: fixed-width words, lowest byte first.
-/
namespace AbcKit

namespace VarInt

/-- the largest value a 30-bit field holds -/
def maxU30 : Nat := 1073741823

/-- seven-bit groups, lowest first, each but the last marked by its high bit -/
def encode (n : Nat) : List UInt8 :=
  if n < 128 then [n.toUInt8] else (n % 128 + 128).toUInt8 :: encode (n / 128)
termination_by n
decreasing_by omega

/-- every encoded value takes at least one byte -/
theorem encode_ne_nil (n : Nat) : encode n ≠ [] := by
  rw [encode]; split <;> simp

end VarInt

namespace S24

/-- the smallest displacement a 24-bit field holds -/
def min : Int := -8388608

/-- the largest displacement a 24-bit field holds -/
def max : Int := 8388607

/-- whether a displacement fits the 24-bit field -/
def Fits (v : Int) : Prop := min ≤ v ∧ v ≤ max

instance (v : Int) : Decidable (Fits v) := by unfold Fits; infer_instance

/-- the three low bytes of the two's complement, lowest first -/
def bytes (v : Int) : UInt8 × UInt8 × UInt8 :=
  let u := (v % 16777216).toNat
  ((u % 256).toUInt8, (u / 256 % 256).toUInt8, (u / 65536).toUInt8)

/-- the field's bytes as a list -/
def encode (v : Int) : List UInt8 :=
  let (x, y, z) := bytes v
  [x, y, z]

/-- three little-endian bytes read as a signed 24-bit value -/
def decode (b0 b1 b2 : UInt8) : Int :=
  let u := b0.toNat + 256 * b1.toNat + 65536 * b2.toNat
  if u < 8388608 then u else (u : Int) - 16777216

end S24

namespace LittleEndian

/-- the `width` low bytes of a value, lowest first -/
def encode (width n : Nat) : List UInt8 :=
  (List.range width).map fun i => (n / Nat.pow 256 i % 256).toUInt8

/-- the value of bytes read lowest first -/
def decode (bs : List UInt8) : Nat :=
  bs.foldr (fun b acc => b.toNat + 256 * acc) 0

end LittleEndian

end AbcKit
