import AbcKit.Text.Hex
/-!
Errors of the container format, and the arithmetic overflows that abort a run.

`FormatError` is what reading, writing and checking a module report; its text is
`FormatError.message`. `Overflow` names the machine operation whose result left its word: such a
run is not reported as an error but stops, with `Overflow.message` as its text.
-/
namespace AbcKit

/-- a fault in encoded data, or a value that the encoding cannot hold -/
inductive FormatError where
  /-- the header names a version this reader does not read -/
  | unsupportedVersion (major minor : UInt16)
  /-- a byte that is no opcode -/
  | invalidOpcode (byte : UInt8)
  /-- a malformed operand or record starting at this offset -/
  | invalidOperand (offset : Nat)
  /-- a reference to a table entry that does not exist -/
  | invalidIndex (table : String) (index : UInt32)
  /-- the data ends inside a record -/
  | unexpectedEnd
  /-- a count or index above the 30-bit range -/
  | indexOverflow (what : String) (value : Nat)
  /-- a branch displacement outside the signed 24-bit range -/
  | branchOutOfRange (displacement : Int)
  /-- the class and instance tables differ in length -/
  | classCountMismatch (classes instances : Nat)
deriving DecidableEq, Repr

/-- the text of a format error -/
def FormatError.message : FormatError → String
  | .unsupportedVersion major minor =>
    "Unsupported version: " ++ toString major ++ "." ++ toString minor
  | .invalidOpcode byte => "Invalid opcode 0x" ++ Hex.ofByte byte
  | .invalidOperand offset => "Invalid operand at offset " ++ toString offset
  | .invalidIndex table index => "Invalid " ++ table ++ " index " ++ toString index
  | .unexpectedEnd => "Unexpected end of bytecode"
  | .indexOverflow what value => what ++ " value " ++ toString value ++ " exceeds the u30 range"
  | .branchOutOfRange d => "Branch displacement " ++ toString d ++ " does not fit in 24 bits"
  | .classCountMismatch classes instances =>
    "Class table has " ++ toString classes ++ " entries but instance table has " ++
      toString instances

/-- the machine operation whose exact result does not fit its word -/
inductive Overflow where
  | add
  | subtract
  | multiply
  | negate
deriving DecidableEq, Repr

/-- the text of an aborted run -/
def Overflow.message : Overflow → String
  | .add => "attempt to add with overflow"
  | .subtract => "attempt to subtract with overflow"
  | .multiply => "attempt to multiply with overflow"
  | .negate => "attempt to negate with overflow"

end AbcKit
