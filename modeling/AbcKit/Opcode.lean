/-!
The opcode table: every opcode's byte, mnemonic, canonical name and operand family.

Bytes and names are one-to-one: `ofByte?` and `ofName?` invert `byte` and `name`.
-/
namespace AbcKit

/-- one instruction opcode -/
inductive Opcode where
  | bkpt
  | nop
  | throw
  | getSuper
  | setSuper
  | dxns
  | dxnsLate
  | kill
  | label
  | ifNlt
  | ifNle
  | ifNgt
  | ifNge
  | jump
  | ifTrue
  | ifFalse
  | ifEq
  | ifNe
  | ifLt
  | ifLe
  | ifGt
  | ifGe
  | ifStrictEq
  | ifStrictNe
  | lookupSwitch
  | pushWith
  | popScope
  | nextName
  | hasNext
  | pushNull
  | pushUndefined
  | nextValue
  | pushByte
  | pushShort
  | pushTrue
  | pushFalse
  | pushNaN
  | pop
  | dup
  | swap
  | pushString
  | pushInt
  | pushUint
  | pushDouble
  | pushScope
  | pushNamespace
  | hasNext2
  | newFunction
  | call
  | construct
  | callMethod
  | callStatic
  | callSuper
  | callProperty
  | returnVoid
  | returnValue
  | constructSuper
  | constructProp
  | callPropLex
  | callSuperVoid
  | callPropVoid
  | applyType
  | newObject
  | newArray
  | newActivation
  | newClass
  | getDescendants
  | newCatch
  | findPropStrict
  | findProperty
  | findDef
  | getLex
  | setProperty
  | getLocal
  | setLocal
  | getGlobalScope
  | getScopeObject
  | getProperty
  | initProperty
  | deleteProperty
  | getSlot
  | setSlot
  | getGlobalSlot
  | setGlobalSlot
  | convertS
  | escXElem
  | escXAttr
  | convertI
  | convertU
  | convertD
  | convertB
  | convertO
  | checkFilter
  | coerce
  | coerceB
  | coerceA
  | coerceI
  | coerceD
  | coerceS
  | asType
  | asTypeLate
  | coerceU
  | coerceO
  | negate
  | increment
  | incLocal
  | decrement
  | decLocal
  | typeOf
  | not
  | bitNot
  | add
  | subtract
  | multiply
  | divide
  | modulo
  | lshift
  | rshift
  | urshift
  | bitAnd
  | bitOr
  | bitXor
  | equals
  | strictEquals
  | lessThan
  | lessEquals
  | greaterThan
  | greaterEquals
  | instanceOf
  | isType
  | isTypeLate
  | isIn
  | incrementI
  | decrementI
  | incLocalI
  | decLocalI
  | negateI
  | addI
  | subtractI
  | multiplyI
  | getLocal0
  | getLocal1
  | getLocal2
  | getLocal3
  | setLocal0
  | setLocal1
  | setLocal2
  | setLocal3
  | debug
  | debugLine
  | debugFile
  | bkptLine
deriving DecidableEq, Repr, Inhabited

/-- how an opcode's operands are laid out: one shape per family, `other` for opcodes with a
shape of their own -/
inductive Family where
  | simple
  | branch
  | register
  | name
  | callName
  | args
  | slot
  | other
deriving DecidableEq, Repr

namespace Opcode

/-- the opcode byte -/
def byte : Opcode → UInt8
  | .bkpt => 0x01
  | .nop => 0x02
  | .throw => 0x03
  | .getSuper => 0x04
  | .setSuper => 0x05
  | .dxns => 0x06
  | .dxnsLate => 0x07
  | .kill => 0x08
  | .label => 0x09
  | .ifNlt => 0x0C
  | .ifNle => 0x0D
  | .ifNgt => 0x0E
  | .ifNge => 0x0F
  | .jump => 0x10
  | .ifTrue => 0x11
  | .ifFalse => 0x12
  | .ifEq => 0x13
  | .ifNe => 0x14
  | .ifLt => 0x15
  | .ifLe => 0x16
  | .ifGt => 0x17
  | .ifGe => 0x18
  | .ifStrictEq => 0x19
  | .ifStrictNe => 0x1A
  | .lookupSwitch => 0x1B
  | .pushWith => 0x1C
  | .popScope => 0x1D
  | .nextName => 0x1E
  | .hasNext => 0x1F
  | .pushNull => 0x20
  | .pushUndefined => 0x21
  | .nextValue => 0x23
  | .pushByte => 0x24
  | .pushShort => 0x25
  | .pushTrue => 0x26
  | .pushFalse => 0x27
  | .pushNaN => 0x28
  | .pop => 0x29
  | .dup => 0x2A
  | .swap => 0x2B
  | .pushString => 0x2C
  | .pushInt => 0x2D
  | .pushUint => 0x2E
  | .pushDouble => 0x2F
  | .pushScope => 0x30
  | .pushNamespace => 0x31
  | .hasNext2 => 0x32
  | .newFunction => 0x40
  | .call => 0x41
  | .construct => 0x42
  | .callMethod => 0x43
  | .callStatic => 0x44
  | .callSuper => 0x45
  | .callProperty => 0x46
  | .returnVoid => 0x47
  | .returnValue => 0x48
  | .constructSuper => 0x49
  | .constructProp => 0x4A
  | .callPropLex => 0x4C
  | .callSuperVoid => 0x4E
  | .callPropVoid => 0x4F
  | .applyType => 0x53
  | .newObject => 0x55
  | .newArray => 0x56
  | .newActivation => 0x57
  | .newClass => 0x58
  | .getDescendants => 0x59
  | .newCatch => 0x5A
  | .findPropStrict => 0x5D
  | .findProperty => 0x5E
  | .findDef => 0x5F
  | .getLex => 0x60
  | .setProperty => 0x61
  | .getLocal => 0x62
  | .setLocal => 0x63
  | .getGlobalScope => 0x64
  | .getScopeObject => 0x65
  | .getProperty => 0x66
  | .initProperty => 0x68
  | .deleteProperty => 0x6A
  | .getSlot => 0x6C
  | .setSlot => 0x6D
  | .getGlobalSlot => 0x6E
  | .setGlobalSlot => 0x6F
  | .convertS => 0x70
  | .escXElem => 0x71
  | .escXAttr => 0x72
  | .convertI => 0x73
  | .convertU => 0x74
  | .convertD => 0x75
  | .convertB => 0x76
  | .convertO => 0x77
  | .checkFilter => 0x78
  | .coerce => 0x80
  | .coerceB => 0x81
  | .coerceA => 0x82
  | .coerceI => 0x83
  | .coerceD => 0x84
  | .coerceS => 0x85
  | .asType => 0x86
  | .asTypeLate => 0x87
  | .coerceU => 0x88
  | .coerceO => 0x89
  | .negate => 0x90
  | .increment => 0x91
  | .incLocal => 0x92
  | .decrement => 0x93
  | .decLocal => 0x94
  | .typeOf => 0x95
  | .not => 0x96
  | .bitNot => 0x97
  | .add => 0xA0
  | .subtract => 0xA1
  | .multiply => 0xA2
  | .divide => 0xA3
  | .modulo => 0xA4
  | .lshift => 0xA5
  | .rshift => 0xA6
  | .urshift => 0xA7
  | .bitAnd => 0xA8
  | .bitOr => 0xA9
  | .bitXor => 0xAA
  | .equals => 0xAB
  | .strictEquals => 0xAC
  | .lessThan => 0xAD
  | .lessEquals => 0xAE
  | .greaterThan => 0xAF
  | .greaterEquals => 0xB0
  | .instanceOf => 0xB1
  | .isType => 0xB2
  | .isTypeLate => 0xB3
  | .isIn => 0xB4
  | .incrementI => 0xC0
  | .decrementI => 0xC1
  | .incLocalI => 0xC2
  | .decLocalI => 0xC3
  | .negateI => 0xC4
  | .addI => 0xC5
  | .subtractI => 0xC6
  | .multiplyI => 0xC7
  | .getLocal0 => 0xD0
  | .getLocal1 => 0xD1
  | .getLocal2 => 0xD2
  | .getLocal3 => 0xD3
  | .setLocal0 => 0xD4
  | .setLocal1 => 0xD5
  | .setLocal2 => 0xD6
  | .setLocal3 => 0xD7
  | .debug => 0xEF
  | .debugLine => 0xF0
  | .debugFile => 0xF1
  | .bkptLine => 0xF2

/-- the lowercase mnemonic of listings -/
def mnemonic : Opcode → String
  | .bkpt => "bkpt"
  | .nop => "nop"
  | .throw => "throw"
  | .getSuper => "getsuper"
  | .setSuper => "setsuper"
  | .dxns => "dxns"
  | .dxnsLate => "dxnslate"
  | .kill => "kill"
  | .label => "label"
  | .ifNlt => "ifnlt"
  | .ifNle => "ifnle"
  | .ifNgt => "ifngt"
  | .ifNge => "ifnge"
  | .jump => "jump"
  | .ifTrue => "iftrue"
  | .ifFalse => "iffalse"
  | .ifEq => "ifeq"
  | .ifNe => "ifne"
  | .ifLt => "iflt"
  | .ifLe => "ifle"
  | .ifGt => "ifgt"
  | .ifGe => "ifge"
  | .ifStrictEq => "ifstricteq"
  | .ifStrictNe => "ifstrictne"
  | .lookupSwitch => "lookupswitch"
  | .pushWith => "pushwith"
  | .popScope => "popscope"
  | .nextName => "nextname"
  | .hasNext => "hasnext"
  | .pushNull => "pushnull"
  | .pushUndefined => "pushundefined"
  | .nextValue => "nextvalue"
  | .pushByte => "pushbyte"
  | .pushShort => "pushshort"
  | .pushTrue => "pushtrue"
  | .pushFalse => "pushfalse"
  | .pushNaN => "pushnan"
  | .pop => "pop"
  | .dup => "dup"
  | .swap => "swap"
  | .pushString => "pushstring"
  | .pushInt => "pushint"
  | .pushUint => "pushuint"
  | .pushDouble => "pushdouble"
  | .pushScope => "pushscope"
  | .pushNamespace => "pushnamespace"
  | .hasNext2 => "hasnext2"
  | .newFunction => "newfunction"
  | .call => "call"
  | .construct => "construct"
  | .callMethod => "callmethod"
  | .callStatic => "callstatic"
  | .callSuper => "callsuper"
  | .callProperty => "callproperty"
  | .returnVoid => "returnvoid"
  | .returnValue => "returnvalue"
  | .constructSuper => "constructsuper"
  | .constructProp => "constructprop"
  | .callPropLex => "callproplex"
  | .callSuperVoid => "callsupervoid"
  | .callPropVoid => "callpropvoid"
  | .applyType => "applytype"
  | .newObject => "newobject"
  | .newArray => "newarray"
  | .newActivation => "newactivation"
  | .newClass => "newclass"
  | .getDescendants => "getdescendants"
  | .newCatch => "newcatch"
  | .findPropStrict => "findpropstrict"
  | .findProperty => "findproperty"
  | .findDef => "finddef"
  | .getLex => "getlex"
  | .setProperty => "setproperty"
  | .getLocal => "getlocal"
  | .setLocal => "setlocal"
  | .getGlobalScope => "getglobalscope"
  | .getScopeObject => "getscopeobject"
  | .getProperty => "getproperty"
  | .initProperty => "initproperty"
  | .deleteProperty => "deleteproperty"
  | .getSlot => "getslot"
  | .setSlot => "setslot"
  | .getGlobalSlot => "getglobalslot"
  | .setGlobalSlot => "setglobalslot"
  | .convertS => "convert_s"
  | .escXElem => "esc_xelem"
  | .escXAttr => "esc_xattr"
  | .convertI => "convert_i"
  | .convertU => "convert_u"
  | .convertD => "convert_d"
  | .convertB => "convert_b"
  | .convertO => "convert_o"
  | .checkFilter => "checkfilter"
  | .coerce => "coerce"
  | .coerceB => "coerce_b"
  | .coerceA => "coerce_a"
  | .coerceI => "coerce_i"
  | .coerceD => "coerce_d"
  | .coerceS => "coerce_s"
  | .asType => "astype"
  | .asTypeLate => "astypelate"
  | .coerceU => "coerce_u"
  | .coerceO => "coerce_o"
  | .negate => "negate"
  | .increment => "increment"
  | .incLocal => "inclocal"
  | .decrement => "decrement"
  | .decLocal => "declocal"
  | .typeOf => "typeof"
  | .not => "not"
  | .bitNot => "bitnot"
  | .add => "add"
  | .subtract => "subtract"
  | .multiply => "multiply"
  | .divide => "divide"
  | .modulo => "modulo"
  | .lshift => "lshift"
  | .rshift => "rshift"
  | .urshift => "urshift"
  | .bitAnd => "bitand"
  | .bitOr => "bitor"
  | .bitXor => "bitxor"
  | .equals => "equals"
  | .strictEquals => "strictequals"
  | .lessThan => "lessthan"
  | .lessEquals => "lessequals"
  | .greaterThan => "greaterthan"
  | .greaterEquals => "greaterequals"
  | .instanceOf => "instanceof"
  | .isType => "istype"
  | .isTypeLate => "istypelate"
  | .isIn => "in"
  | .incrementI => "increment_i"
  | .decrementI => "decrement_i"
  | .incLocalI => "inclocal_i"
  | .decLocalI => "declocal_i"
  | .negateI => "negate_i"
  | .addI => "add_i"
  | .subtractI => "subtract_i"
  | .multiplyI => "multiply_i"
  | .getLocal0 => "getlocal0"
  | .getLocal1 => "getlocal1"
  | .getLocal2 => "getlocal2"
  | .getLocal3 => "getlocal3"
  | .setLocal0 => "setlocal0"
  | .setLocal1 => "setlocal1"
  | .setLocal2 => "setlocal2"
  | .setLocal3 => "setlocal3"
  | .debug => "debug"
  | .debugLine => "debugline"
  | .debugFile => "debugfile"
  | .bkptLine => "bkptline"

/-- the canonical name, in upper camel case -/
def name : Opcode → String
  | .bkpt => "Bkpt"
  | .nop => "Nop"
  | .throw => "Throw"
  | .getSuper => "GetSuper"
  | .setSuper => "SetSuper"
  | .dxns => "Dxns"
  | .dxnsLate => "DxnsLate"
  | .kill => "Kill"
  | .label => "Label"
  | .ifNlt => "IfNlt"
  | .ifNle => "IfNle"
  | .ifNgt => "IfNgt"
  | .ifNge => "IfNge"
  | .jump => "Jump"
  | .ifTrue => "IfTrue"
  | .ifFalse => "IfFalse"
  | .ifEq => "IfEq"
  | .ifNe => "IfNe"
  | .ifLt => "IfLt"
  | .ifLe => "IfLe"
  | .ifGt => "IfGt"
  | .ifGe => "IfGe"
  | .ifStrictEq => "IfStrictEq"
  | .ifStrictNe => "IfStrictNe"
  | .lookupSwitch => "LookupSwitch"
  | .pushWith => "PushWith"
  | .popScope => "PopScope"
  | .nextName => "NextName"
  | .hasNext => "HasNext"
  | .pushNull => "PushNull"
  | .pushUndefined => "PushUndefined"
  | .nextValue => "NextValue"
  | .pushByte => "PushByte"
  | .pushShort => "PushShort"
  | .pushTrue => "PushTrue"
  | .pushFalse => "PushFalse"
  | .pushNaN => "PushNaN"
  | .pop => "Pop"
  | .dup => "Dup"
  | .swap => "Swap"
  | .pushString => "PushString"
  | .pushInt => "PushInt"
  | .pushUint => "PushUint"
  | .pushDouble => "PushDouble"
  | .pushScope => "PushScope"
  | .pushNamespace => "PushNamespace"
  | .hasNext2 => "HasNext2"
  | .newFunction => "NewFunction"
  | .call => "Call"
  | .construct => "Construct"
  | .callMethod => "CallMethod"
  | .callStatic => "CallStatic"
  | .callSuper => "CallSuper"
  | .callProperty => "CallProperty"
  | .returnVoid => "ReturnVoid"
  | .returnValue => "ReturnValue"
  | .constructSuper => "ConstructSuper"
  | .constructProp => "ConstructProp"
  | .callPropLex => "CallPropLex"
  | .callSuperVoid => "CallSuperVoid"
  | .callPropVoid => "CallPropVoid"
  | .applyType => "ApplyType"
  | .newObject => "NewObject"
  | .newArray => "NewArray"
  | .newActivation => "NewActivation"
  | .newClass => "NewClass"
  | .getDescendants => "GetDescendants"
  | .newCatch => "NewCatch"
  | .findPropStrict => "FindPropStrict"
  | .findProperty => "FindProperty"
  | .findDef => "FindDef"
  | .getLex => "GetLex"
  | .setProperty => "SetProperty"
  | .getLocal => "GetLocal"
  | .setLocal => "SetLocal"
  | .getGlobalScope => "GetGlobalScope"
  | .getScopeObject => "GetScopeObject"
  | .getProperty => "GetProperty"
  | .initProperty => "InitProperty"
  | .deleteProperty => "DeleteProperty"
  | .getSlot => "GetSlot"
  | .setSlot => "SetSlot"
  | .getGlobalSlot => "GetGlobalSlot"
  | .setGlobalSlot => "SetGlobalSlot"
  | .convertS => "ConvertS"
  | .escXElem => "EscXElem"
  | .escXAttr => "EscXAttr"
  | .convertI => "ConvertI"
  | .convertU => "ConvertU"
  | .convertD => "ConvertD"
  | .convertB => "ConvertB"
  | .convertO => "ConvertO"
  | .checkFilter => "CheckFilter"
  | .coerce => "Coerce"
  | .coerceB => "CoerceB"
  | .coerceA => "CoerceA"
  | .coerceI => "CoerceI"
  | .coerceD => "CoerceD"
  | .coerceS => "CoerceS"
  | .asType => "AsType"
  | .asTypeLate => "AsTypeLate"
  | .coerceU => "CoerceU"
  | .coerceO => "CoerceO"
  | .negate => "Negate"
  | .increment => "Increment"
  | .incLocal => "IncLocal"
  | .decrement => "Decrement"
  | .decLocal => "DecLocal"
  | .typeOf => "TypeOf"
  | .not => "Not"
  | .bitNot => "BitNot"
  | .add => "Add"
  | .subtract => "Subtract"
  | .multiply => "Multiply"
  | .divide => "Divide"
  | .modulo => "Modulo"
  | .lshift => "LShift"
  | .rshift => "RShift"
  | .urshift => "URShift"
  | .bitAnd => "BitAnd"
  | .bitOr => "BitOr"
  | .bitXor => "BitXor"
  | .equals => "Equals"
  | .strictEquals => "StrictEquals"
  | .lessThan => "LessThan"
  | .lessEquals => "LessEquals"
  | .greaterThan => "GreaterThan"
  | .greaterEquals => "GreaterEquals"
  | .instanceOf => "InstanceOf"
  | .isType => "IsType"
  | .isTypeLate => "IsTypeLate"
  | .isIn => "In"
  | .incrementI => "IncrementI"
  | .decrementI => "DecrementI"
  | .incLocalI => "IncLocalI"
  | .decLocalI => "DecLocalI"
  | .negateI => "NegateI"
  | .addI => "AddI"
  | .subtractI => "SubtractI"
  | .multiplyI => "MultiplyI"
  | .getLocal0 => "GetLocal0"
  | .getLocal1 => "GetLocal1"
  | .getLocal2 => "GetLocal2"
  | .getLocal3 => "GetLocal3"
  | .setLocal0 => "SetLocal0"
  | .setLocal1 => "SetLocal1"
  | .setLocal2 => "SetLocal2"
  | .setLocal3 => "SetLocal3"
  | .debug => "Debug"
  | .debugLine => "DebugLine"
  | .debugFile => "DebugFile"
  | .bkptLine => "BkptLine"

/-- the operand family -/
def family : Opcode → Family
  | .bkpt | .nop | .throw | .dxnsLate | .label | .pushWith | .popScope | .nextName | .hasNext |
    .pushNull | .pushUndefined | .nextValue | .pushTrue | .pushFalse | .pushNaN | .pop | .dup |
    .swap | .pushScope | .returnVoid | .returnValue | .newActivation | .getGlobalScope |
    .convertS | .escXElem | .escXAttr | .convertI | .convertU | .convertD | .convertB |
    .convertO | .checkFilter | .coerceB | .coerceA | .coerceI | .coerceD | .coerceS |
    .asTypeLate | .coerceU | .coerceO | .negate | .increment | .decrement | .typeOf | .not |
    .bitNot | .add | .subtract | .multiply | .divide | .modulo | .lshift | .rshift | .urshift |
    .bitAnd | .bitOr | .bitXor | .equals | .strictEquals | .lessThan | .lessEquals |
    .greaterThan | .greaterEquals | .instanceOf | .isTypeLate | .isIn | .incrementI |
    .decrementI | .negateI | .addI | .subtractI | .multiplyI | .getLocal0 | .getLocal1 |
    .getLocal2 | .getLocal3 | .setLocal0 | .setLocal1 | .setLocal2 | .setLocal3 => .simple
  | .ifNlt | .ifNle | .ifNgt | .ifNge | .jump | .ifTrue | .ifFalse | .ifEq | .ifNe | .ifLt |
    .ifLe | .ifGt | .ifGe | .ifStrictEq | .ifStrictNe => .branch
  | .kill | .getLocal | .setLocal | .incLocal | .decLocal | .incLocalI | .decLocalI => .register
  | .getSuper | .setSuper | .getDescendants | .findPropStrict | .findProperty | .findDef |
    .getLex | .setProperty | .getProperty | .initProperty | .deleteProperty | .coerce | .asType |
    .isType => .name
  | .callSuper | .callProperty | .constructProp | .callPropLex | .callSuperVoid |
    .callPropVoid => .callName
  | .call | .construct | .constructSuper | .applyType | .newObject | .newArray => .args
  | .getSlot | .setSlot | .getGlobalSlot | .setGlobalSlot => .slot
  | _ => .other

/-- every opcode, in byte order -/
def all : List Opcode :=
  [.bkpt, .nop, .throw, .getSuper, .setSuper, .dxns, .dxnsLate, .kill, .label, .ifNlt, .ifNle,
   .ifNgt, .ifNge, .jump, .ifTrue, .ifFalse, .ifEq, .ifNe, .ifLt, .ifLe, .ifGt, .ifGe,
   .ifStrictEq, .ifStrictNe, .lookupSwitch, .pushWith, .popScope, .nextName, .hasNext, .pushNull,
   .pushUndefined, .nextValue, .pushByte, .pushShort, .pushTrue, .pushFalse, .pushNaN, .pop,
   .dup, .swap, .pushString, .pushInt, .pushUint, .pushDouble, .pushScope, .pushNamespace,
   .hasNext2, .newFunction, .call, .construct, .callMethod, .callStatic, .callSuper,
   .callProperty, .returnVoid, .returnValue, .constructSuper, .constructProp, .callPropLex,
   .callSuperVoid, .callPropVoid, .applyType, .newObject, .newArray, .newActivation, .newClass,
   .getDescendants, .newCatch, .findPropStrict, .findProperty, .findDef, .getLex, .setProperty,
   .getLocal, .setLocal, .getGlobalScope, .getScopeObject, .getProperty, .initProperty,
   .deleteProperty, .getSlot, .setSlot, .getGlobalSlot, .setGlobalSlot, .convertS, .escXElem,
   .escXAttr, .convertI, .convertU, .convertD, .convertB, .convertO, .checkFilter, .coerce,
   .coerceB, .coerceA, .coerceI, .coerceD, .coerceS, .asType, .asTypeLate, .coerceU, .coerceO,
   .negate, .increment, .incLocal, .decrement, .decLocal, .typeOf, .not, .bitNot, .add,
   .subtract, .multiply, .divide, .modulo, .lshift, .rshift, .urshift, .bitAnd, .bitOr, .bitXor,
   .equals, .strictEquals, .lessThan, .lessEquals, .greaterThan, .greaterEquals, .instanceOf,
   .isType, .isTypeLate, .isIn, .incrementI, .decrementI, .incLocalI, .decLocalI, .negateI,
   .addI, .subtractI, .multiplyI, .getLocal0, .getLocal1, .getLocal2, .getLocal3, .setLocal0,
   .setLocal1, .setLocal2, .setLocal3, .debug, .debugLine, .debugFile, .bkptLine]

/-- the opcode of a byte, if any -/
def ofByte? (b : UInt8) : Option Opcode := all.find? (·.byte == b)

/-- the opcode of a canonical name, if any -/
def ofName? (s : String) : Option Opcode := all.find? (·.name == s)

end Opcode

end AbcKit
