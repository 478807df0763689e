import AbcKit.Opcode
/-!
What each opcode does to the operand stack and the scope stack, when that depends on the opcode
alone. Effects that depend on operands (argument counts, run-time name parts) are computed from
these by `Instruction.stackEffect`.
-/
namespace AbcKit.Opcode

/-- operand-stack change of an opcode of the simple family -/
def simpleDelta : Opcode → Int
  | .pushNull | .pushUndefined | .pushTrue | .pushFalse | .pushNaN | .dup | .newActivation |
    .getGlobalScope | .getLocal0 | .getLocal1 | .getLocal2 | .getLocal3 => 1
  | .throw | .dxnsLate | .pushWith | .pushScope | .pop | .returnValue | .setLocal0 | .setLocal1 |
    .setLocal2 | .setLocal3 | .nextName | .nextValue | .hasNext => -1
  | .asTypeLate | .add | .subtract | .multiply | .divide | .modulo | .lshift | .rshift |
    .urshift | .bitAnd | .bitOr | .bitXor | .equals | .strictEquals | .lessThan | .lessEquals |
    .greaterThan | .greaterEquals | .instanceOf | .isTypeLate | .isIn | .addI | .subtractI |
    .multiplyI => -1
  | _ => 0

/-- scope-stack change: pushing a scope or a `with` object adds one, popping removes one -/
def scopeDelta : Opcode → Int
  | .pushScope | .pushWith => 1
  | .popScope => -1
  | _ => 0

/-- the register a one-byte local access names -/
def fixedRegister : Opcode → Option UInt32
  | .getLocal0 | .setLocal0 => some 0
  | .getLocal1 | .setLocal1 => some 1
  | .getLocal2 | .setLocal2 => some 2
  | .getLocal3 | .setLocal3 => some 3
  | _ => none

/-- operand-stack change of a branch: a jump pops nothing, a test of one value pops it, a
comparison pops both operands -/
def branchDelta : Opcode → Int
  | .jump => 0
  | .ifTrue | .ifFalse => -1
  | _ => -2

/-- the branch taken exactly when this one is not; a jump is its own negation -/
def complement : Opcode → Opcode
  | .ifTrue => .ifFalse
  | .ifFalse => .ifTrue
  | .ifEq => .ifNe
  | .ifNe => .ifEq
  | .ifStrictEq => .ifStrictNe
  | .ifStrictNe => .ifStrictEq
  | .ifLt => .ifNlt
  | .ifNlt => .ifLt
  | .ifLe => .ifNle
  | .ifNle => .ifLe
  | .ifGt => .ifNgt
  | .ifNgt => .ifGt
  | .ifGe => .ifNge
  | .ifNge => .ifGe
  | op => op

/-- operand-stack change of a register access -/
def registerDelta : Opcode → Int
  | .getLocal => 1
  | .setLocal => -1
  | _ => 0

/-- operand-stack change of a name access before the run-time name parts are popped -/
def nameBase : Opcode → Int
  | .findPropStrict | .findProperty | .findDef | .getLex => 1
  | .setSuper | .setProperty | .initProperty => -2
  | _ => 0

/-- whether a call by name discards the call's result -/
def discardsResult : Opcode → Bool
  | .callSuperVoid | .callPropVoid => true
  | _ => false

/-- operand-stack change of a slot access -/
def slotDelta : Opcode → Int
  | .setSlot => -2
  | .getGlobalSlot => 1
  | .setGlobalSlot => -1
  | _ => 0

/-- the opposite of a conditional branch is again a branch -/
theorem family_complement (op : Opcode) (h : op.family = .branch) :
    op.complement.family = .branch := by
  cases op <;> revert h <;> decide

end AbcKit.Opcode
