import AbcKit.Instruction.Codec
/-!
A method's code as a sequence of instructions at byte offsets.

`Code.decode` reads instructions one after another from offset 0 until the bytes are used up;
the first malformed instruction makes the whole reading fail. Each instruction starts where the
previous one ended.
-/
namespace AbcKit.Code

/-- read instructions from the cursor until no bytes are left; `fuel` bounds their number -/
def decodeFrom : Nat → Cursor → List (Nat × Instruction) →
    Except FormatError (List (Nat × Instruction))
  | 0, _, acc => .ok acc.reverse
  | fuel + 1, c, acc =>
    if c.rest.isEmpty then .ok acc.reverse
    else
      match Instruction.decode c with
      | .ok i c' => decodeFrom fuel c' ((c.pos, i) :: acc)
      | .error e _ => .error e

/-- the instructions of a code array with their offsets; every instruction takes at least one
byte, so the byte count bounds their number -/
def decode (code : List UInt8) : Except FormatError (List (Nat × Instruction)) :=
  decodeFrom code.length (Cursor.start code) []

end AbcKit.Code
