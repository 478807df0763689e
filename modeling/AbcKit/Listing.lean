import AbcKit.Code
import AbcKit.Module
import AbcKit.Pool.Display
import AbcKit.Text.Quoted
import AbcKit.Decimal.Shortest
/-!
Readable listings of method bodies.

A body's listing opens with a header line naming the method and its frame sizes, then one line
per instruction (its offset right-aligned in five columns, then its text), then one line per
exception handler. An instruction's text is its mnemonic, padded to sixteen columns when operands
follow; branch operands are absolute targets `L<offset>`, pool operands are resolved to their
values or names, and strings are quoted. Writing a name can run forever (see `Pool.showName`),
and then so does the listing.
-/
namespace AbcKit.Listing

/-- `s` padded with spaces on the right to `width` columns -/
def padRight (s : String) (width : Nat) : String :=
  s ++ String.ofList (List.replicate (width - s.length) ' ')

/-- `s` padded with spaces on the left to `width` columns -/
def padLeft (s : String) (width : Nat) : String :=
  String.ofList (List.replicate (width - s.length) ' ') ++ s

/-- the text of a double: the shortest decimal that reads back, without an exponent; `NaN`,
`inf` and `-inf` for the special values, and a minus sign on negative values and negative
zero -/
def showDouble (bits : UInt64) : String :=
  let e := (bits >>> 52) &&& 0x7FF
  let f := bits &&& 0xFFFFFFFFFFFFF
  let sign := if bits >>> 63 == 1 then "-" else ""
  if e == 0x7FF then (if f != 0 then "NaN" else sign ++ "inf")
  else if e == 0 && f == 0 then sign ++ "0"
  else sign ++ (Decimal.Binary.ofBits bits).shortest.positional

/-- a method reference: its index and its name -/
def showMethod (m : Module) (i : UInt32) : String :=
  let n := m.methodName i
  "#" ++ toString i ++ " " ++ (if n.isEmpty then "<anonymous>" else n)

/-- the operand text of an instruction at `offset`, empty for none; `none` when the text of the
name it shows never ends -/
def operands (m : Module) (offset : Nat) (i : Instruction) : Option String :=
  let p := m.pool
  let quoted := fun (s : UInt32) => Text.quote ((p.string? s).getD "")
  match i with
  | .simple _ => some ""
  | .branch .. => match i.targets offset with
    | t :: _ => some ("L" ++ toString t)
    | [] => some ""
  | .lookupSwitch .. => match i.targets offset with
    | d :: cs =>
      some ("default:L" ++ toString d ++ " [" ++
        ", ".intercalate (cs.map fun t => "L" ++ toString t) ++ "]")
    | [] => some ""
  | .pushByte v => some (toString v.toInt)
  | .pushShort v => some (toString v.toInt)
  | .pushString s | .dxns s | .debugFile s => some (quoted s)
  | .pushInt n => some (((p.ints.get? n.toNat).map fun v => toString v.toInt).getD "")
  | .pushUint n => some (((p.uints.get? n.toNat).map toString).getD "")
  | .pushDouble n => some (((p.doubles.get? n.toNat).map showDouble).getD "")
  | .pushNamespace n =>
    some ((((p.namespaces.get? n.toNat).bind fun e => p.string? e.name).map Text.quote).getD "")
  | .register _ r => some (toString r)
  | .hasNext2 o x => some (toString o ++ ", " ++ toString x)
  | .name _ n => p.showName n
  | .callName _ n a => (p.showName n).map (· ++ ", " ++ toString a)
  | .args _ a => some (toString a)
  | .callMethod d a => some (toString d ++ ", " ++ toString a)
  | .callStatic meth a => some (showMethod m meth ++ ", " ++ toString a)
  | .slot _ s => some (toString s)
  | .newFunction meth => some (showMethod m meth)
  | .newClass c => some ("#" ++ toString c)
  | .newCatch n => some (toString n)
  | .getScopeObject n => some (toString n)
  | .debug k s r _ => some (toString k ++ ", " ++ quoted s ++ ", " ++ toString r)
  | .debugLine n | .bkptLine n => some (toString n)

/-- the text of an instruction at `offset`; `none` when the text of its name never ends -/
def formatInstruction (m : Module) (offset : Nat) (i : Instruction) : Option String := do
  let ops ← operands m offset i
  pure (if ops.isEmpty then i.opcode.mnemonic else padRight i.opcode.mnemonic 16 ++ ops)

/-- the listing of one body: an error when its code does not decode, and `none` when the text
of a name it shows never ends -/
def body (m : Module) (b : MethodBody) : Option (Except FormatError String) :=
  match Code.decode b.code with
  | .error e => some (.error e)
  | .ok instrs => do
    let n := m.methodName b.method
    let header := "method #" ++ toString b.method ++ " " ++
      (if n.isEmpty then "<anonymous>" else n) ++
      " (max_stack=" ++ toString b.maxStack ++ " locals=" ++ toString b.localCount ++
      " scope=" ++ toString b.initScopeDepth ++ ".." ++ toString b.maxScopeDepth ++ ")\n"
    let lines ← instrs.mapM fun (o, i) => do
      pure ("  " ++ padLeft (toString o) 5 ++ "  " ++ (← formatInstruction m o i) ++ "\n")
    let handlers ← ((List.range b.exceptions.length).zip b.exceptions).mapM fun (k, e) => do
      pure ("  exception #" ++ toString k ++ ": [" ++ toString e.start ++ ", " ++
        toString e.stop ++ ") -> " ++ toString e.target ++ " type=" ++
        (← m.pool.showName e.excType) ++ " var=" ++ (← m.pool.showName e.varName) ++ "\n")
    pure (.ok (header ++ String.join lines ++ String.join handlers))

/-- the listings of all bodies, each followed by an empty line; the first failure aborts, and
`none` when the text of a name never ends -/
def module (m : Module) : Option (Except FormatError String) := ExceptT.run do
  let parts ← m.bodies.mapM fun b => ExceptT.mk (body m b)
  pure (String.join (parts.map (· ++ "\n")))

end AbcKit.Listing
