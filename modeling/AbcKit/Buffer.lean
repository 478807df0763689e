import AbcKit.Word.Checked
import AbcKit.Word.VarInt
/-!
An append-only byte buffer whose reserved 24-bit slots can be overwritten in place.

Every writer appends the encoding of `AbcKit.Word.VarInt` for its value; the checked writers
refuse a value their field cannot hold and then leave the buffer as it was. Addresses are 64-bit
words: a slot whose end would pass the last address aborts with an add overflow.
-/
namespace AbcKit

/-- bytes written so far -/
structure Buffer where
  bytes : Array UInt8 := #[]
deriving DecidableEq, Repr, Inhabited

namespace Buffer

/-- number of bytes written -/
def size (b : Buffer) : Nat := b.bytes.size

/-- the bytes in order -/
def toList (b : Buffer) : List UInt8 := b.bytes.toList

/-- the byte at an index -/
def get? (b : Buffer) (i : Nat) : Option UInt8 := b.bytes[i]?

/-- append raw bytes -/
def append (b : Buffer) (bs : List UInt8) : Buffer := ⟨b.bytes ++ bs.toArray⟩

/-- append one byte -/
def writeByte (b : Buffer) (v : UInt8) : Buffer := ⟨b.bytes.push v⟩

/-- append a 16-bit word, lowest byte first -/
def writeU16 (b : Buffer) (v : UInt16) : Buffer := b.append (LittleEndian.encode 2 v.toNat)

/-- append a 32-bit word in seven-bit groups -/
def writeU32 (b : Buffer) (v : UInt32) : Buffer := b.append (VarInt.encode v.toNat)

/-- append a 30-bit field; a larger value is refused -/
def writeU30 (b : Buffer) (v : UInt32) : Except FormatError Buffer :=
  if v.toNat ≤ VarInt.maxU30 then .ok (b.writeU32 v)
  else .error (.indexOverflow "u30" v.toNat)

/-- append a count or index as a 30-bit field; `what` names it when it is refused -/
def writeCount (b : Buffer) (what : String) (n : Nat) : Except FormatError Buffer :=
  if n ≤ VarInt.maxU30 then .ok (b.append (VarInt.encode n))
  else .error (.indexOverflow what n)

/-- append a signed 32-bit word: its two's complement pattern in seven-bit groups -/
def writeS32 (b : Buffer) (v : Int32) : Buffer := b.writeU32 v.toUInt32

/-- append a signed 24-bit displacement; one out of range is refused -/
def writeS24 (b : Buffer) (v : Int) : Except FormatError Buffer :=
  if S24.Fits v then .ok (b.append (S24.encode v)) else .error (.branchOutOfRange v)

/-- append the bit pattern of a double, lowest byte first -/
def writeF64 (b : Buffer) (bits : UInt64) : Buffer := b.append (LittleEndian.encode 8 bits.toNat)

/-- whether the three-byte slot at `addr` ends past the last 64-bit address -/
def SlotOverflows (addr : Nat) : Prop := 18446744073709551616 ≤ addr + 3

instance (addr : Nat) : Decidable (SlotOverflows addr) := by unfold SlotOverflows; infer_instance

/-- the buffer with the 24-bit slot at `addr` holding `v`; bytes past the end are not written -/
def setSlot (b : Buffer) (addr : Nat) (v : Int) : Buffer :=
  let (x, y, z) := S24.bytes v
  ⟨((b.bytes.setIfInBounds addr x).setIfInBounds (addr + 1) y).setIfInBounds (addr + 2) z⟩

/-- overwrite the 24-bit slot at `addr`. The displacement is checked first, then the slot's end
address, then that the slot lies inside the buffer. -/
def patchS24 (b : Buffer) (addr : Nat) (v : Int) : Except Overflow (Except FormatError Buffer) :=
  if ¬S24.Fits v then .ok (.error (.branchOutOfRange v))
  else if SlotOverflows addr then .error .add
  else if addr + 3 ≤ b.size then .ok (.ok (b.setSlot addr v))
  else .ok (.error (.invalidOperand addr))

/-- the 24-bit value stored at `addr`, if the slot lies inside the buffer -/
def readS24 (b : Buffer) (addr : Nat) : Except Overflow (Option Int) :=
  if SlotOverflows addr then .error .add
  else if h : addr + 3 ≤ b.bytes.size then
    .ok (some (S24.decode b.bytes[addr] b.bytes[addr + 1] b.bytes[addr + 2]))
  else .ok none

end Buffer

/-- a writing step: it appends to the buffer, and a failed step keeps what was written before
it -/
abbrev Encoder := EStateM FormatError Buffer

namespace Encoder

/-- lift a checked write: on refusal the buffer is left as it was -/
def checked (w : Buffer → Except FormatError Buffer) : Encoder Unit := fun b =>
  match w b with
  | .ok b' => .ok () b'
  | .error e => .error e b

/-- append one byte -/
def byte (v : UInt8) : Encoder Unit := fun b => .ok () (b.writeByte v)

/-- append raw bytes -/
def raw (bs : List UInt8) : Encoder Unit := fun b => .ok () (b.append bs)

/-- append a 16-bit word -/
def u16 (v : UInt16) : Encoder Unit := fun b => .ok () (b.writeU16 v)

/-- append a 32-bit word -/
def u32 (v : UInt32) : Encoder Unit := fun b => .ok () (b.writeU32 v)

/-- append a 30-bit field -/
def u30 (v : UInt32) : Encoder Unit := checked (·.writeU30 v)

/-- append a count; `what` names it when it is refused -/
def count (what : String) (n : Nat) : Encoder Unit := checked (·.writeCount what n)

/-- append a signed 32-bit word -/
def s32 (v : Int32) : Encoder Unit := fun b => .ok () (b.writeS32 v)

/-- append a 24-bit displacement -/
def s24 (v : Int) : Encoder Unit := checked (·.writeS24 v)

/-- append a double's bit pattern -/
def f64 (bits : UInt64) : Encoder Unit := fun b => .ok () (b.writeF64 bits)

/-- append a length-prefixed UTF-8 string; `what` names the length when it is refused -/
def string (what : String) (s : String) : Encoder Unit := do
  count what s.utf8ByteSize
  raw s.toUTF8.toList

/-- append every item in turn -/
def each {α : Type} (item : α → Encoder Unit) : List α → Encoder Unit
  | [] => pure ()
  | x :: xs => do
    item x
    each item xs

/-- append a count of items, then the items -/
def counted {α : Type} (what : String) (item : α → Encoder Unit) (xs : List α) :
    Encoder Unit := do
  count what xs.length
  each item xs

/-- the bytes an encoder writes into an empty buffer, or its error -/
def run (e : Encoder Unit) : Except FormatError (List UInt8) :=
  match e {} with
  | .ok _ b => .ok b.toList
  | .error err _ => .error err

/-- what an encoder leaves in `b`, and its error if it failed -/
def exec (e : Encoder Unit) (b : Buffer) : Buffer × Option FormatError :=
  match e b with
  | .ok _ b' => (b', none)
  | .error err b' => (b', some err)

end Encoder

end AbcKit
