/-!
Hexadecimal text of bytes: two lowercase digits per byte, high nibble first. Reading accepts
either case and skips blanks between digits.
-/
namespace AbcKit.Hex

/-- the lowercase digit of a value below sixteen -/
def digit (n : Nat) : Char :=
  if n < 10 then Char.ofNat (48 + n) else Char.ofNat (87 + n)

/-- two lowercase digits of a byte -/
def ofByte (b : UInt8) : String :=
  String.ofList [digit (b.toNat / 16), digit (b.toNat % 16)]

/-- the digits of every byte in turn -/
def ofBytes (bs : List UInt8) : String :=
  bs.foldl (fun acc b => acc ++ ofByte b) ""

/-- the value of one hexadecimal digit of either case -/
def value? (c : Char) : Option Nat :=
  if '0' ≤ c ∧ c ≤ '9' then some (c.toNat - 48)
  else if 'a' ≤ c ∧ c ≤ 'f' then some (c.toNat - 87)
  else if 'A' ≤ c ∧ c ≤ 'F' then some (c.toNat - 55)
  else none

/-- pairs of digits to bytes; `none` on a stray character or an odd digit count -/
def pairs : List Char → Option (List UInt8)
  | [] => some []
  | [_] => none
  | hi :: lo :: rest => do
    let h ← value? hi
    let l ← value? lo
    let tail ← pairs rest
    pure ((h * 16 + l).toUInt8 :: tail)

/-- the bytes a hexadecimal text denotes, blanks skipped -/
def toBytes? (s : String) : Option (List UInt8) :=
  pairs (s.toList.filter (fun c => !c.isWhitespace))

end AbcKit.Hex
