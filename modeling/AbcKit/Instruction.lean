import AbcKit.Opcode.Effect
import AbcKit.Word.Checked
/-!
Instructions: an opcode with its operands, grouped by operand family.

An opcode of a family with a shared operand shape is carried as a member of that family
(`SimpleOp`, `BranchOp`, ...), so every instruction has exactly the operands its opcode takes.
`stackEffect` computes the operand-stack change in 32-bit signed arithmetic, refusing an
intermediate result that leaves the word; `scopeEffect`, `maxRegister` and `isTerminator` read
the rest of an instruction's bookkeeping.
-/
namespace AbcKit

/-- an opcode without operands -/
abbrev SimpleOp := { op : Opcode // op.family = .simple }
/-- a conditional or unconditional branch -/
abbrev BranchOp := { op : Opcode // op.family = .branch }
/-- an access to one register -/
abbrev RegisterOp := { op : Opcode // op.family = .register }
/-- an access to a property by name -/
abbrev NameOp := { op : Opcode // op.family = .name }
/-- a call or construction by name -/
abbrev CallNameOp := { op : Opcode // op.family = .callName }
/-- a call or construction on stacked operands, by argument count -/
abbrev ArgsOp := { op : Opcode // op.family = .args }
/-- an access to a slot by number -/
abbrev SlotOp := { op : Opcode // op.family = .slot }

/-- the unconditional jump -/
def BranchOp.jump : BranchOp := ⟨.jump, rfl⟩

namespace SimpleOp

/-- the marker at the target of a backward branch -/
def label : SimpleOp := ⟨.label, rfl⟩

/-- push the value on the stack onto the scope stack -/
def pushScope : SimpleOp := ⟨.pushScope, rfl⟩

/-- push the value on the stack onto the scope stack as a `with` scope -/
def pushWith : SimpleOp := ⟨.pushWith, rfl⟩

/-- pop the innermost scope -/
def popScope : SimpleOp := ⟨.popScope, rfl⟩

/-- throw the value on the stack -/
def throw : SimpleOp := ⟨.throw, rfl⟩

end SimpleOp

/-- the branch taken exactly when this one is not -/
def BranchOp.complement (op : BranchOp) : BranchOp :=
  ⟨op.1.complement, Opcode.family_complement op.1 op.2⟩

/-- one instruction with its operands; pool references are 1-based indices, 0 for none -/
inductive Instruction where
  | simple (op : SimpleOp)
  /-- a branch whose displacement counts from the end of its own four bytes -/
  | branch (op : BranchOp) (offset : Int32)
  /-- a jump table; displacements count from the instruction's first byte -/
  | lookupSwitch (default : Int32) (cases : List Int32)
  | pushByte (value : Int8)
  | pushShort (value : Int16)
  | pushString (index : UInt32)
  | pushInt (index : UInt32)
  | pushUint (index : UInt32)
  | pushDouble (index : UInt32)
  | pushNamespace (index : UInt32)
  | register (op : RegisterOp) (reg : UInt32)
  | hasNext2 (object index : UInt32)
  | name (op : NameOp) (name : UInt32)
  | callName (op : CallNameOp) (name argCount : UInt32)
  | args (op : ArgsOp) (argCount : UInt32)
  | callMethod (dispId argCount : UInt32)
  | callStatic (method argCount : UInt32)
  | slot (op : SlotOp) (slot : UInt32)
  | newFunction (method : UInt32)
  | newClass (cls : UInt32)
  | newCatch (index : UInt32)
  | getScopeObject (index : UInt8)
  | dxns (uri : UInt32)
  /-- a debug record: kind, name, register and an extra word -/
  | debug (kind : UInt8) (name : UInt32) (reg : UInt8) (extra : UInt32)
  | debugLine (line : UInt32)
  | debugFile (file : UInt32)
  | bkptLine (line : UInt32)
deriving DecidableEq, Repr

namespace Instruction

/-- the instruction's opcode -/
def opcode : Instruction → Opcode
  | .simple op | .branch op _ | .register op _ | .name op _ | .callName op _ _ | .args op _
  | .slot op _ => op.1
  | .lookupSwitch .. => .lookupSwitch
  | .pushByte _ => .pushByte
  | .pushShort _ => .pushShort
  | .pushString _ => .pushString
  | .pushInt _ => .pushInt
  | .pushUint _ => .pushUint
  | .pushDouble _ => .pushDouble
  | .pushNamespace _ => .pushNamespace
  | .hasNext2 .. => .hasNext2
  | .callMethod .. => .callMethod
  | .callStatic .. => .callStatic
  | .newFunction _ => .newFunction
  | .newClass _ => .newClass
  | .newCatch _ => .newCatch
  | .getScopeObject _ => .getScopeObject
  | .dxns _ => .dxns
  | .debug .. => .debug
  | .debugLine _ => .debugLine
  | .debugFile _ => .debugFile
  | .bkptLine _ => .bkptLine

/-- effect of a call by name with `argc` arguments and `runtime` run-time name parts -/
def callNameEffect (discards : Bool) (argc runtime : Int) : Except Overflow Int := do
  let popped ← if discards then checkI32 .add (argc + 1) else pure argc
  let negated ← checkI32 .negate (-popped)
  checkI32 .subtract (negated - runtime)

/-- effect of a call or construction on stacked operands with `argc` arguments -/
def argsEffect (op : Opcode) (argc : Int) : Except Overflow Int :=
  match op with
  | .call | .constructSuper => do
    let popped ← checkI32 .add (argc + 1)
    checkI32 .negate (-popped)
  | .newObject => do
    let pairs ← checkI32 .multiply (2 * argc)
    checkI32 .subtract (1 - pairs)
  | .newArray => checkI32 .subtract (1 - argc)
  | _ => checkI32 .negate (-argc)

/-- operand-stack change. `arity` gives the number of run-time parts of a pool name; argument
counts are read as signed 32-bit words, and a result outside that word aborts. -/
def stackEffect (arity : UInt32 → Nat) : Instruction → Except Overflow Int
  | .simple op => pure op.1.simpleDelta
  | .branch op _ => pure op.1.branchDelta
  | .lookupSwitch .. => pure (-1)
  | .pushByte _ | .pushShort _ | .pushString _ | .pushInt _ | .pushUint _ | .pushDouble _
  | .pushNamespace _ => pure 1
  | .register op _ => pure op.1.registerDelta
  | .hasNext2 .. => pure 1
  | .name op n => pure (op.1.nameBase - arity n)
  | .callName op n argc => callNameEffect op.1.discardsResult (signedOfU32 argc) (arity n)
  | .args op argc => argsEffect op.1 (signedOfU32 argc)
  | .callMethod _ argc | .callStatic _ argc => checkI32 .negate (-signedOfU32 argc)
  | .slot op _ => pure op.1.slotDelta
  | .newFunction _ | .newCatch _ | .getScopeObject _ => pure 1
  | .newClass _ | .dxns _ | .debug .. | .debugLine _ | .debugFile _ | .bkptLine _ => pure 0

/-- scope-stack change -/
def scopeEffect : Instruction → Int
  | .simple op => op.1.scopeDelta
  | _ => 0

/-- the highest register the instruction reads or writes -/
def maxRegister : Instruction → Option UInt32
  | .simple op => op.1.fixedRegister
  | .register _ reg => some reg
  | .hasNext2 object index => some (max object index)
  | _ => none

/-- whether control never falls through to the next instruction -/
def isTerminator : Instruction → Bool
  | .simple op => op.1 == .throw || op.1 == .returnVoid || op.1 == .returnValue
  | .branch op _ => op.1 == .jump
  | .lookupSwitch .. => true
  | _ => false

/-- where control can go from the instruction at `site`: a branch counts from the end of its
four bytes, a jump table (default first, then the cases) from its first byte -/
def targets (site : Int) : Instruction → List Int
  | .branch _ d => [site + 4 + d.toInt]
  | .lookupSwitch d cs => (d :: cs).map fun c => site + c.toInt
  | _ => []

end Instruction

end AbcKit
