import AbcKit.Instruction
import AbcKit.Buffer
import AbcKit.Cursor
/-!
Binary form of instructions: the opcode byte, then the operands of its family.

Index operands, registers, counts and line numbers are 30-bit fields; branch displacements are
24-bit fields; a jump table writes its default, the case count less one, then the cases. The
opcode byte is written before any operand is checked, so a refused operand leaves it behind.
Reading tries the shared families first and then the opcodes with shapes of their own.
-/
namespace AbcKit.Instruction

open Encoder in
/-- write the instruction -/
def encode (i : Instruction) : Encoder Unit := do
  byte i.opcode.byte
  match i with
  | .simple _ => pure ()
  | .branch _ offset => s24 offset.toInt
  | .lookupSwitch default cases =>
    match cases with
    | [] => fun b => .error (.invalidOperand b.size) b
    | _ :: rest => do
      s24 default.toInt
      count "lookupswitch case count" rest.length
      each (fun c => s24 c.toInt) cases
  | .pushByte v => byte v.toUInt8
  | .pushShort v => u30 v.toUInt16.toUInt32
  | .pushString n | .pushInt n | .pushUint n | .pushDouble n | .pushNamespace n => u30 n
  | .register _ reg => u30 reg
  | .hasNext2 object index => do u30 object; u30 index
  | .name _ n => u30 n
  | .callName _ n argc => do u30 n; u30 argc
  | .args _ argc => u30 argc
  | .callMethod disp argc => do u30 disp; u30 argc
  | .callStatic method argc => do u30 method; u30 argc
  | .slot _ n => u30 n
  | .newFunction n | .newClass n | .newCatch n | .dxns n => u30 n
  | .getScopeObject n => byte n
  | .debug kind text reg extra => do
    byte kind
    u30 text
    byte reg
    u30 extra
  | .debugLine n | .debugFile n | .bkptLine n => u30 n

/-- the number of bytes the instruction takes, or 0 when it cannot be written -/
def encodedLen (i : Instruction) : Nat :=
  match i.encode {} with
  | .ok _ b => b.size
  | .error _ _ => 0

open Decoder in
/-- the operands of an opcode with a shape of its own -/
def decodeOther (op : Opcode) (b : UInt8) : Decoder Instruction :=
  match op with
  | .lookupSwitch => do
    let default ← s24
    let n ← count
    let cases ← many (n + 1) s24
    pure (.lookupSwitch (Int32.ofInt default) (cases.map Int32.ofInt))
  | .pushByte => do
    let v ← byte
    pure (.pushByte v.toInt8)
  | .pushShort => do
    let v ← u30
    pure (.pushShort v.toUInt16.toInt16)
  | .pushString => .pushString <$> u30
  | .pushInt => .pushInt <$> u30
  | .pushUint => .pushUint <$> u30
  | .pushDouble => .pushDouble <$> u30
  | .pushNamespace => .pushNamespace <$> u30
  | .hasNext2 => do
    let object ← u30
    let index ← u30
    pure (.hasNext2 object index)
  | .callMethod => do
    let disp ← u30
    let argc ← u30
    pure (.callMethod disp argc)
  | .callStatic => do
    let method ← u30
    let argc ← u30
    pure (.callStatic method argc)
  | .newFunction => .newFunction <$> u30
  | .newClass => .newClass <$> u30
  | .newCatch => .newCatch <$> u30
  | .getScopeObject => .getScopeObject <$> byte
  | .dxns => .dxns <$> u30
  | .debug => do
    let kind ← byte
    let text ← u30
    let reg ← byte
    let extra ← u30
    pure (.debug kind text reg extra)
  | .debugLine => .debugLine <$> u30
  | .debugFile => .debugFile <$> u30
  | .bkptLine => .bkptLine <$> u30
  | _ => throw (.invalidOpcode b)

open Decoder in
/-- read one instruction -/
def decode : Decoder Instruction := do
  let b ← byte
  match Opcode.ofByte? b with
  | none => throw (.invalidOpcode b)
  | some op =>
    if h : op.family = .simple then pure (.simple ⟨op, h⟩)
    else if h : op.family = .branch then do
      let d ← s24
      pure (.branch ⟨op, h⟩ (Int32.ofInt d))
    else if h : op.family = .register then .register ⟨op, h⟩ <$> u30
    else if h : op.family = .name then .name ⟨op, h⟩ <$> u30
    else if h : op.family = .callName then do
      let n ← u30
      let argc ← u30
      pure (.callName ⟨op, h⟩ n argc)
    else if h : op.family = .args then .args ⟨op, h⟩ <$> u30
    else if h : op.family = .slot then .slot ⟨op, h⟩ <$> u30
    else decodeOther op b

end AbcKit.Instruction
