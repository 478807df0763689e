import AbcKit.Error
/-!
Checked word arithmetic. Each operation computes the exact integer result and refuses it with the
`Overflow` of that operation when it leaves the word: signed 32-bit for effects, unsigned 32-bit
for registers, unsigned 64-bit for addresses. On success the result is the exact one.
-/
namespace AbcKit

/-- the integers a signed 32-bit word holds -/
def InI32 (x : Int) : Prop := -2147483648 ≤ x ∧ x ≤ 2147483647

instance (x : Int) : Decidable (InI32 x) := by unfold InI32; infer_instance

/-- an exact result kept only when a signed 32-bit word holds it -/
def checkI32 (o : Overflow) (x : Int) : Except Overflow Int :=
  if InI32 x then .ok x else .error o

/-- exact result of an unsigned operation, kept below `2 ^ bits` -/
def checkUnsigned (bits : Nat) (o : Overflow) (x : Nat) : Except Overflow Nat :=
  if x < Nat.pow 2 bits then .ok x else .error o

/-- the signed reading of a 32-bit word, as a count is reinterpreted -/
def signedOfU32 (v : UInt32) : Int :=
  if v.toNat < 2147483648 then v.toNat else (v.toNat : Int) - 4294967296

/-- a checked value that passes is the value itself, and lies in the signed 32-bit range -/
theorem checkI32_ok {o : Overflow} {x y : Int} (h : checkI32 o x = .ok y) : x = y ∧ InI32 x := by
  unfold checkI32 at h
  split at h
  · cases h; exact ⟨rfl, by assumption⟩
  · cases h

end AbcKit
