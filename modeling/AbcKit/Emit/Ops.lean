import AbcKit.Emit.Emitter
/-!
The instruction catalogue: one call per operation a compiler needs, each writing its
instructions through `Emitter.emit`.

Constants and names are interned before the instruction is written, so they reach the pool
even when the call then fails. Registers 0 to 3 have one-byte get and set forms. An integer is
pushed in the smallest form that holds it. A NaN is pushed by its own instruction and never
reaches the pool. A not-equal comparison is an equality followed by `not`. Reading, writing or
calling a property of the base class needs a name without run-time parts.
-/
namespace AbcKit.Emit

/-- operators on one operand -/
inductive UnaryOperator where
  | negate | bitNot | not | typeOf | increment | decrement | negateI | incrementI | decrementI
deriving DecidableEq, Repr, Inhabited

/-- operators on two operands -/
inductive BinaryOperator where
  | add | subtract | multiply | divide | modulo | lshift | rshift | urshift | bitAnd | bitOr
  | bitXor | equals | notEquals | strictEquals | strictNotEquals | lessThan | lessEquals
  | greaterThan | greaterEquals | instanceOf | isType | asType | isIn | addI | subtractI
  | multiplyI
deriving DecidableEq, Repr, Inhabited

/-- the built-in types a value can be coerced to -/
inductive CoerceKind where
  | any | string | boolean | int | uint | double | object
deriving DecidableEq, Repr, Inhabited

/-- the built-in types a value can be converted to -/
inductive ConvertKind where
  | string | int | uint | double | boolean | object
deriving DecidableEq, Repr, Inhabited

namespace UnaryOperator

/-- the instruction of the operator -/
def op : UnaryOperator → SimpleOp
  | .negate => ⟨.negate, rfl⟩
  | .bitNot => ⟨.bitNot, rfl⟩
  | .not => ⟨.not, rfl⟩
  | .typeOf => ⟨.typeOf, rfl⟩
  | .increment => ⟨.increment, rfl⟩
  | .decrement => ⟨.decrement, rfl⟩
  | .negateI => ⟨.negateI, rfl⟩
  | .incrementI => ⟨.incrementI, rfl⟩
  | .decrementI => ⟨.decrementI, rfl⟩

/-- every operator -/
def all : List UnaryOperator :=
  [.negate, .bitNot, .not, .typeOf, .increment, .decrement, .negateI, .incrementI, .decrementI]

/-- the operator's name -/
def name : UnaryOperator → String
  | .negate => "Negate"
  | .bitNot => "BitNot"
  | .not => "Not"
  | .typeOf => "TypeOf"
  | .increment => "Increment"
  | .decrement => "Decrement"
  | .negateI => "NegateI"
  | .incrementI => "IncrementI"
  | .decrementI => "DecrementI"

/-- the operator of a name -/
def ofName? (s : String) : Option UnaryOperator := all.find? (·.name == s)

end UnaryOperator

namespace BinaryOperator

/-- the instruction of the operator, and whether its result is negated afterwards -/
def ops : BinaryOperator → SimpleOp × Bool
  | .add => (⟨.add, rfl⟩, false)
  | .subtract => (⟨.subtract, rfl⟩, false)
  | .multiply => (⟨.multiply, rfl⟩, false)
  | .divide => (⟨.divide, rfl⟩, false)
  | .modulo => (⟨.modulo, rfl⟩, false)
  | .lshift => (⟨.lshift, rfl⟩, false)
  | .rshift => (⟨.rshift, rfl⟩, false)
  | .urshift => (⟨.urshift, rfl⟩, false)
  | .bitAnd => (⟨.bitAnd, rfl⟩, false)
  | .bitOr => (⟨.bitOr, rfl⟩, false)
  | .bitXor => (⟨.bitXor, rfl⟩, false)
  | .equals => (⟨.equals, rfl⟩, false)
  | .notEquals => (⟨.equals, rfl⟩, true)
  | .strictEquals => (⟨.strictEquals, rfl⟩, false)
  | .strictNotEquals => (⟨.strictEquals, rfl⟩, true)
  | .lessThan => (⟨.lessThan, rfl⟩, false)
  | .lessEquals => (⟨.lessEquals, rfl⟩, false)
  | .greaterThan => (⟨.greaterThan, rfl⟩, false)
  | .greaterEquals => (⟨.greaterEquals, rfl⟩, false)
  | .instanceOf => (⟨.instanceOf, rfl⟩, false)
  | .isType => (⟨.isTypeLate, rfl⟩, false)
  | .asType => (⟨.asTypeLate, rfl⟩, false)
  | .isIn => (⟨.isIn, rfl⟩, false)
  | .addI => (⟨.addI, rfl⟩, false)
  | .subtractI => (⟨.subtractI, rfl⟩, false)
  | .multiplyI => (⟨.multiplyI, rfl⟩, false)

/-- every operator -/
def all : List BinaryOperator :=
  [.add, .subtract, .multiply, .divide, .modulo, .lshift, .rshift, .urshift, .bitAnd, .bitOr,
    .bitXor, .equals, .notEquals, .strictEquals, .strictNotEquals, .lessThan, .lessEquals,
    .greaterThan, .greaterEquals, .instanceOf, .isType, .asType, .isIn, .addI, .subtractI,
    .multiplyI]

/-- the operator's name -/
def name : BinaryOperator → String
  | .add => "Add"
  | .subtract => "Subtract"
  | .multiply => "Multiply"
  | .divide => "Divide"
  | .modulo => "Modulo"
  | .lshift => "LShift"
  | .rshift => "RShift"
  | .urshift => "URShift"
  | .bitAnd => "BitAnd"
  | .bitOr => "BitOr"
  | .bitXor => "BitXor"
  | .equals => "Equals"
  | .notEquals => "NotEquals"
  | .strictEquals => "StrictEquals"
  | .strictNotEquals => "StrictNotEquals"
  | .lessThan => "LessThan"
  | .lessEquals => "LessEquals"
  | .greaterThan => "GreaterThan"
  | .greaterEquals => "GreaterEquals"
  | .instanceOf => "InstanceOf"
  | .isType => "Is"
  | .asType => "As"
  | .isIn => "In"
  | .addI => "AddI"
  | .subtractI => "SubtractI"
  | .multiplyI => "MultiplyI"

/-- the operator of a name -/
def ofName? (s : String) : Option BinaryOperator := all.find? (·.name == s)

end BinaryOperator

namespace CoerceKind

/-- the coercion instruction -/
def op : CoerceKind → SimpleOp
  | .any => ⟨.coerceA, rfl⟩
  | .string => ⟨.coerceS, rfl⟩
  | .boolean => ⟨.coerceB, rfl⟩
  | .int => ⟨.coerceI, rfl⟩
  | .uint => ⟨.coerceU, rfl⟩
  | .double => ⟨.coerceD, rfl⟩
  | .object => ⟨.coerceO, rfl⟩

/-- every kind -/
def all : List CoerceKind := [.any, .string, .boolean, .int, .uint, .double, .object]

/-- the kind's name -/
def name : CoerceKind → String
  | .any => "Any"
  | .string => "String"
  | .boolean => "Boolean"
  | .int => "Int"
  | .uint => "Uint"
  | .double => "Double"
  | .object => "Object"

/-- the kind of a name -/
def ofName? (s : String) : Option CoerceKind := all.find? (·.name == s)

end CoerceKind

namespace ConvertKind

/-- the conversion instruction -/
def op : ConvertKind → SimpleOp
  | .string => ⟨.convertS, rfl⟩
  | .int => ⟨.convertI, rfl⟩
  | .uint => ⟨.convertU, rfl⟩
  | .double => ⟨.convertD, rfl⟩
  | .boolean => ⟨.convertB, rfl⟩
  | .object => ⟨.convertO, rfl⟩

/-- every kind -/
def all : List ConvertKind := [.string, .int, .uint, .double, .boolean, .object]

/-- the kind's name -/
def name : ConvertKind → String
  | .string => "String"
  | .int => "Int"
  | .uint => "Uint"
  | .double => "Double"
  | .boolean => "Boolean"
  | .object => "Object"

/-- the kind of a name -/
def ofName? (s : String) : Option ConvertKind := all.find? (·.name == s)

end ConvertKind

namespace Emitter

/-- an instruction on a property name -/
def nameOp (op : NameOp) (n : Name) : EmitM Unit := do
  let i ← onPool (Pool.name n)
  discard (emit (.name op i))

/-- a call or construction by name -/
def callNameOp (op : CallNameOp) (n : Name) (argCount : UInt32) : EmitM Unit := do
  let i ← onPool (Pool.name n)
  discard (emit (.callName op i argCount))

/-- an instruction on a register -/
def registerOp (op : RegisterOp) (reg : UInt32) : EmitM Unit := discard (emit (.register op reg))

/-- intern a name that must have no run-time parts; `what` names the construct otherwise -/
def staticName (n : Name) (what : String) : EmitM UInt32 := do
  let i ← onPool (Pool.name n)
  if (← get).assembler.pool.runtimeArity i > 0 then
    throw (.error (.unsupported (what ++ " with a run-time qualified name")))
  pure i

/-- push a register -/
def getLocal (reg : UInt32) : EmitM Unit :=
  match reg with
  | 0 => simple ⟨.getLocal0, rfl⟩
  | 1 => simple ⟨.getLocal1, rfl⟩
  | 2 => simple ⟨.getLocal2, rfl⟩
  | 3 => simple ⟨.getLocal3, rfl⟩
  | _ => registerOp ⟨.getLocal, rfl⟩ reg

/-- pop into a register -/
def setLocal (reg : UInt32) : EmitM Unit :=
  match reg with
  | 0 => simple ⟨.setLocal0, rfl⟩
  | 1 => simple ⟨.setLocal1, rfl⟩
  | 2 => simple ⟨.setLocal2, rfl⟩
  | 3 => simple ⟨.setLocal3, rfl⟩
  | _ => registerOp ⟨.setLocal, rfl⟩ reg

/-- mark a register dead -/
def kill (reg : UInt32) : EmitM Unit := registerOp ⟨.kill, rfl⟩ reg

/-- hand out a temporary register -/
def allocTemp : EmitM UInt32 := onMethod fun _ => MethodM.allocTemp

/-- kill and give back a temporary register, which must be the one handed out last -/
def freeTemp (reg : UInt32) : EmitM Unit := do
  kill reg
  onMethod fun _ => MethodM.freeTemp reg

/-- push an integer -/
def pushInt (v : Int32) : EmitM Unit := do
  let i ← onPool (intInstruction v)
  discard (emit i)

/-- push an unsigned integer -/
def pushUint (v : UInt32) : EmitM Unit := do
  let i ← onPool (Pool.uint v)
  discard (emit (.pushUint i))

/-- whether bits of a double are a NaN -/
def isNaN (bits : UInt64) : Bool :=
  (bits >>> 52) &&& 0x7FF == 0x7FF && bits &&& 0xFFFFFFFFFFFFF != 0

/-- push a double, given by its bits -/
def pushDouble (bits : UInt64) : EmitM Unit := do
  if isNaN bits then simple ⟨.pushNaN, rfl⟩
  else
    let i ← onPool (Pool.double bits)
    discard (emit (.pushDouble i))

/-- push a string -/
def pushString (s : String) : EmitM Unit := do
  let i ← onPool (Pool.string s)
  discard (emit (.pushString i))

/-- push a boolean -/
def pushBool (b : Bool) : EmitM Unit :=
  simple (if b then ⟨.pushTrue, rfl⟩ else ⟨.pushFalse, rfl⟩)

/-- push a namespace object -/
def pushNamespace (space : Namespace) : EmitM Unit := do
  let i ← onPool (Pool.ns space)
  discard (emit (.pushNamespace i))

/-- read a property of the base class -/
def getSuper (n : Name) : EmitM Unit := do
  let i ← staticName n "super property read"
  discard (emit (.name ⟨.getSuper, rfl⟩ i))

/-- write a property of the base class -/
def setSuper (n : Name) : EmitM Unit := do
  let i ← staticName n "super property write"
  discard (emit (.name ⟨.setSuper, rfl⟩ i))

/-- call a method of the base class, keeping (`callSuper`) or dropping its result -/
def callSuper (op : CallNameOp) (n : Name) (argCount : UInt32) : EmitM Unit := do
  discard (staticName n "super call")
  callNameOp op n argCount

/-- push register `reg` as a scope, recorded so that handlers can push it again -/
def pushSaved (reg : UInt32) (isWith : Bool) : EmitM Unit := do
  getLocal reg
  simple (if isWith then SimpleOp.pushWith else SimpleOp.pushScope)
  onMethod fun _ => modify fun m => { m with
    scopes := match m.scopes.getLast? with
      | some _ => m.scopes.dropLast ++ [some ⟨reg, isWith⟩]
      | none => m.scopes }

/-- pop the innermost scope -/
def popScope : EmitM Unit := simple SimpleOp.popScope

/-- throw the value on the stack -/
def throwValue : EmitM Unit := simple SimpleOp.throw

/-- apply a unary operator -/
def unary (o : UnaryOperator) : EmitM Unit := simple o.op

/-- apply a binary operator -/
def binary (o : BinaryOperator) : EmitM Unit := do
  let (op, negated) := o.ops
  simple op
  if negated then simple ⟨.not, rfl⟩

/-- set the default XML namespace to `uri`; the method is marked as setting it -/
def dxns (uri : String) : EmitM Unit := do
  let i ← onPool (Pool.string uri)
  discard (emit (.dxns i))
  onMethod fun _ => modify fun m => { m with setsDxns := true }

/-- set the default XML namespace from the stack; the method is marked as setting it -/
def dxnsLate : EmitM Unit := do
  simple ⟨.dxnsLate, rfl⟩
  onMethod fun _ => modify fun m => { m with setsDxns := true }

/-- pop scopes until the scope depth is `depth`, at most `fuel` of them -/
def popScopesWithin (depth : Nat) : Nat → EmitM Unit
  | 0 => pure ()
  | fuel + 1 => do
    if (← current).depth.scope > depth then
      popScope
      popScopesWithin depth fuel

/-- pop scopes until the scope depth is `depth`; each pop lowers it by one, so the current
depth bounds their number -/
def popScopesTo (depth : Nat) : EmitM Unit := do
  popScopesWithin depth (← current).depth.scope

end Emitter

end AbcKit.Emit
