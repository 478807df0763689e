import AbcKit.Error
import AbcKit.Word.VarInt
/-!
A forward-only cursor over encoded bytes, and decoders that move it.

A `Decoder` runs on a `Cursor` and ends with a value or a `FormatError`; in both cases the cursor
it leaves is kept, so a failed read shows how far it got. Reading a byte past the end fails
without moving; a multi-byte read fails as a whole when the bytes are not all there.
-/
namespace AbcKit

/-- how many bytes were read, and those still to read -/
structure Cursor where
  pos : Nat
  rest : List UInt8
deriving DecidableEq, Repr

/-- a cursor at the start of `bytes` -/
def Cursor.start (bytes : List UInt8) : Cursor := ⟨0, bytes⟩

/-- a reading step: a value or an error, with the cursor it leaves either way -/
abbrev Decoder := EStateM FormatError Cursor

namespace Decoder

/-- the offset of the next byte -/
def position : Decoder Nat := fun c => .ok c.pos c

/-- the next byte -/
def byte : Decoder UInt8 := fun c =>
  match c.rest with
  | [] => .error .unexpectedEnd c
  | b :: r => .ok b ⟨c.pos + 1, r⟩

/-- the next `n` bytes, all or none -/
def bytes (n : Nat) : Decoder (List UInt8) := fun c =>
  if n ≤ c.rest.length then .ok (c.rest.take n) ⟨c.pos + n, c.rest.drop n⟩
  else .error .unexpectedEnd c

/-- seven-bit groups at shifts `shift`, `shift + 7`, ...: at most `groups` of them. A last byte
with its continuation bit still set is a malformed operand at the offset after it. Groups
shifted past bit 31 lose their high bits. -/
def groups : Nat → UInt32 → UInt32 → Decoder UInt32
  | 0, _, _ => fun c => .error (.invalidOperand c.pos) c
  | k + 1, shift, acc => do
    let b ← byte
    let acc := acc ||| ((b &&& 0x7f).toUInt32 <<< shift)
    if b &&& 0x80 == 0 then pure acc else groups k (shift + 7) acc

/-- a 32-bit word in seven-bit groups: at most five bytes -/
def u32 : Decoder UInt32 := groups 5 0 0

/-- a 30-bit field; a larger value is a malformed operand at its first byte -/
def u30 : Decoder UInt32 := do
  let start ← position
  let v ← u32
  if v.toNat ≤ VarInt.maxU30 then pure v else throw (.invalidOperand start)

/-- a 30-bit count -/
def count : Decoder Nat := do
  let v ← u30
  pure v.toNat

/-- a signed 32-bit word: the two's complement pattern of a 32-bit field -/
def s32 : Decoder Int32 := do
  let v ← u32
  pure v.toInt32

/-- a 16-bit word, lowest byte first -/
def u16 : Decoder UInt16 := do
  let bs ← bytes 2
  pure (LittleEndian.decode bs).toUInt16

/-- a signed 24-bit displacement -/
def s24 : Decoder Int := do
  let bs ← bytes 3
  match bs with
  | [x, y, z] => pure (S24.decode x y z)
  | _ => throw .unexpectedEnd

/-- the bit pattern of a double, lowest byte first -/
def f64 : Decoder UInt64 := do
  let bs ← bytes 8
  pure (LittleEndian.decode bs).toUInt64

/-- a length-prefixed UTF-8 string; ill-formed text is a malformed operand at its first byte -/
def string : Decoder String := do
  let n ← count
  let start ← position
  let bs ← bytes n
  match String.fromUTF8? (ByteArray.mk bs.toArray) with
  | some s => pure s
  | none => throw (.invalidOperand start)

/-- `n` items read one after another -/
def many {α : Type} (n : Nat) (item : Decoder α) : Decoder (List α) :=
  match n with
  | 0 => pure []
  | k + 1 => do
    let x ← item
    let xs ← many k item
    pure (x :: xs)

/-- run a decoder from the start of `bytes` -/
def run {α : Type} (d : Decoder α) (bytes : List UInt8) : Except FormatError α :=
  match d (Cursor.start bytes) with
  | .ok a _ => .ok a
  | .error e _ => .error e

end Decoder

end AbcKit
