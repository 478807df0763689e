import AbcKit.Emit.Program
/-!
The calls a compiler makes on an emitter, as data, and a run of them.

Each call has an operation name (`push_null`, `get_lex`, `return_void`, ...); `Call.nullary?`
gives the calls that take no arguments by name, and `operationOpcode?` the opcode of each
operation that writes one instruction on a name, an argument count, a slot or a register.

A run performs the calls in order. A call that reports an error leaves the emitter in the state
it reached and the run goes on; a call that aborts stops the run, and nothing after it is
performed.
-/
namespace AbcKit.Emit

/-- one call on an emitter, with its arguments -/
inductive Call where
  | startMethod (s : StartMethod)
  | finishMethod (f : FinishMethod)
  | startClass (name : Name)
  | finishClass (d : ClassDefinition)
  | startProgram
  | finishProgram (init : UInt32) (traits : ObjectDescriptor)
  | addMetadata (name : String) (items : List (Option String × String))
  | multiname (name : Name)
  | methodIndex (name : String)
  | code
  | emit (i : Instruction)
  | simple (op : SimpleOp)
  | getLocal (reg : UInt32)
  | setLocal (reg : UInt32)
  /-- `kill`, and the in-place increments and decrements of a register -/
  | register (op : RegisterOp) (reg : UInt32)
  | allocTemp
  | freeTemp (reg : UInt32)
  | pushInt (v : Int32)
  | pushUint (v : UInt32)
  | pushDouble (bits : UInt64)
  | pushString (s : String)
  | pushBool (b : Bool)
  | pushNamespace (space : Namespace)
  /-- an instruction on a property or type name -/
  | property (op : NameOp) (name : Name)
  | getSuper (name : Name)
  | setSuper (name : Name)
  | callName (op : CallNameOp) (name : Name) (argCount : UInt32)
  | callSuper (op : CallNameOp) (name : Name) (argCount : UInt32)
  | args (op : ArgsOp) (argCount : UInt32)
  | callMethod (dispId argCount : UInt32)
  | callStatic (method argCount : UInt32)
  | slot (op : SlotOp) (slot : UInt32)
  | pushSaved (reg : UInt32) (isWith : Bool)
  | getScopeObject (index : UInt8)
  | newFunction (method : UInt32)
  | newClass (cls : UInt32)
  | newCatch (index : UInt32)
  | hasNext2 (object index : UInt32)
  | unary (o : UnaryOperator)
  | binary (o : BinaryOperator)
  | coerceTo (k : CoerceKind)
  | convert (k : ConvertKind)
  | dxns (uri : String)
  | dxnsLate
  | pushDepth
  | popDepth
  | ifBranch (op : BranchOp)
  | elseBranch
  | patchIf
  | patchElse
  | loopBegin
  | doLoopBegin
  | labelBegin
  | patchLoopBegin (index : Nat)
  | loopBack (index : Nat) (op : BranchOp)
  | continueLoop (index : Nat)
  | breakLoop (index : Nat)
  | patchContinue (index : Nat)
  | patchBreak (index : Nat)
  | switchBegin
  | caseLabel (index : Nat)
  | defaultLabel (index : Nat)
  | switchTable (index : Nat)
  | switchDispatch (index : Nat)
  | tryBegin (hasFinally : Bool)
  | catchClausesBegin
  | catchClause (excType varName : Option Name)
  | catchClausesEnd
  | finallyClauseBegin
  | finallyClauseEnd
  | callFinallies (limit : Nat)
  | returnValue
  | returnVoid
  | setPosition (file : String) (line : UInt32)
  | setLine (line : UInt32)
  | debugRegister (name : String) (reg : UInt32)
deriving Inhabited

/-- what a call returns: nothing, a number (an index, address, register or count), or code -/
inductive Reply where
  | none
  | number (n : Nat)
  | code (bytes : List UInt8)
deriving DecidableEq, Repr, Inhabited

namespace Call

/-- the call of an operation that takes no arguments, by its name -/
def nullary? : String → Option Call
  | "push_null" => some (.simple ⟨.pushNull, rfl⟩)
  | "push_undefined" => some (.simple ⟨.pushUndefined, rfl⟩)
  | "dup" => some (.simple ⟨.dup, rfl⟩)
  | "pop" => some (.simple ⟨.pop, rfl⟩)
  | "swap" => some (.simple ⟨.swap, rfl⟩)
  | "push_scope" => some (.simple SimpleOp.pushScope)
  | "push_with" => some (.simple SimpleOp.pushWith)
  | "pop_scope" => some (.simple SimpleOp.popScope)
  | "get_global_scope" => some (.simple ⟨.getGlobalScope, rfl⟩)
  | "new_activation" => some (.simple ⟨.newActivation, rfl⟩)
  | "next_name" => some (.simple ⟨.nextName, rfl⟩)
  | "next_value" => some (.simple ⟨.nextValue, rfl⟩)
  | "throw" => some (.simple SimpleOp.throw)
  | "check_filter" => some (.simple ⟨.checkFilter, rfl⟩)
  | "esc_xelem" => some (.simple ⟨.escXElem, rfl⟩)
  | "esc_xattr" => some (.simple ⟨.escXAttr, rfl⟩)
  | "start_program" => some .startProgram
  | "code" => some .code
  | "alloc_temp" => some .allocTemp
  | "dxns_late" => some .dxnsLate
  | "push_depth" => some .pushDepth
  | "pop_depth" => some .popDepth
  | "else_branch" => some .elseBranch
  | "patch_if" => some .patchIf
  | "patch_else" => some .patchElse
  | "loop_begin" => some .loopBegin
  | "do_loop_begin" => some .doLoopBegin
  | "label_begin" => some .labelBegin
  | "switch_begin" => some .switchBegin
  | "catch_clauses_begin" => some .catchClausesBegin
  | "catch_clauses_end" => some .catchClausesEnd
  | "finally_clause_begin" => some .finallyClauseBegin
  | "finally_clause_end" => some .finallyClauseEnd
  | "return_value" => some .returnValue
  | "return_void" => some .returnVoid
  | _ => none

end Call

/-- the opcode an operation writes, for the operations on a name, a call by name, an argument
count, a slot or a register -/
def operationOpcode? : String → Option Opcode
  | "get_property" => some .getProperty
  | "set_property" => some .setProperty
  | "init_property" => some .initProperty
  | "delete_property" => some .deleteProperty
  | "get_descendants" => some .getDescendants
  | "find_property" => some .findProperty
  | "find_prop_strict" => some .findPropStrict
  | "find_def" => some .findDef
  | "get_lex" => some .getLex
  | "coerce" => some .coerce
  | "as_type" => some .asType
  | "is_type" => some .isType
  | "call_property" => some .callProperty
  | "call_prop_void" => some .callPropVoid
  | "call_prop_lex" => some .callPropLex
  | "construct_prop" => some .constructProp
  | "call_super" => some .callSuper
  | "call_super_void" => some .callSuperVoid
  | "call" => some .call
  | "construct" => some .construct
  | "construct_super" => some .constructSuper
  | "apply_type" => some .applyType
  | "new_object" => some .newObject
  | "new_array" => some .newArray
  | "get_slot" => some .getSlot
  | "set_slot" => some .setSlot
  | "get_global_slot" => some .getGlobalSlot
  | "set_global_slot" => some .setGlobalSlot
  | "kill" => some .kill
  | "inc_local" => some .incLocal
  | "dec_local" => some .decLocal
  | "inc_local_i" => some .incLocalI
  | "dec_local_i" => some .decLocalI
  | _ => none

/-- the call of an operation that writes opcode `op` with operands read by the given readers;
a call by name on the base class checks its name first -/
def Call.ofOpcode {m : Type → Type} [Monad m] (op : Opcode) (name : m Name)
    (count slot reg : m UInt32) : Option (m Call) :=
  if h : op.family = .name then some (do pure (.property ⟨op, h⟩ (← name)))
  else if h : op.family = .callName then some do
    let o : CallNameOp := ⟨op, h⟩
    if op = .callSuper || op = .callSuperVoid then pure (.callSuper o (← name) (← count))
    else pure (.callName o (← name) (← count))
  else if h : op.family = .args then some (do pure (.args ⟨op, h⟩ (← count)))
  else if h : op.family = .slot then some (do pure (.slot ⟨op, h⟩ (← slot)))
  else if h : op.family = .register then some (do pure (.register ⟨op, h⟩ (← reg)))
  else none

namespace Emitter

open Reply in
/-- perform one call -/
def perform : Call → EmitM Reply
  | .startMethod s => do pure (number (← startMethod s).toNat)
  | .finishMethod f => do pure (number (← finishMethod f).toNat)
  | .startClass n => do pure (number (← startClass n).toNat)
  | .finishClass d => do pure (number (← finishClass d).toNat)
  | .startProgram => number <$> startProgram
  | .finishProgram init traits => number <$> finishProgram init traits
  | .addMetadata n items => do pure (number (← onAssembler (Assembler.addMetadata n items)).toNat)
  | .multiname n => do pure (number (← onPool (Pool.name n)).toNat)
  | .methodIndex n => do pure (number (← onAssembler (Assembler.methodIndex n)).toNat)
  | .code => Reply.code <$> code
  | .emit i => number <$> emit i
  | .simple op => do simple op; pure none
  | .getLocal reg => do getLocal reg; pure none
  | .setLocal reg => do setLocal reg; pure none
  | .register op reg => do registerOp op reg; pure none
  | .allocTemp => do pure (number (← allocTemp).toNat)
  | .freeTemp reg => do freeTemp reg; pure none
  | .pushInt v => do pushInt v; pure none
  | .pushUint v => do pushUint v; pure none
  | .pushDouble bits => do pushDouble bits; pure none
  | .pushString s => do pushString s; pure none
  | .pushBool b => do pushBool b; pure none
  | .pushNamespace space => do pushNamespace space; pure none
  | .property op n => do nameOp op n; pure none
  | .getSuper n => do getSuper n; pure none
  | .setSuper n => do setSuper n; pure none
  | .callName op n argc => do callNameOp op n argc; pure none
  | .callSuper op n argc => do callSuper op n argc; pure none
  | .args op argc => do discard (emit (.args op argc)); pure none
  | .callMethod d argc => do discard (emit (.callMethod d argc)); pure none
  | .callStatic m argc => do discard (emit (.callStatic m argc)); pure none
  | .slot op s => do discard (emit (.slot op s)); pure none
  | .pushSaved reg isWith => do pushSaved reg isWith; pure none
  | .getScopeObject i => do discard (emit (.getScopeObject i)); pure none
  | .newFunction m => do discard (emit (.newFunction m)); pure none
  | .newClass c => do discard (emit (.newClass c)); pure none
  | .newCatch i => do discard (emit (.newCatch i)); pure none
  | .hasNext2 o i => do discard (emit (.hasNext2 o i)); pure none
  | .unary o => do unary o; pure none
  | .binary o => do binary o; pure none
  | .coerceTo k => do simple k.op; pure none
  | .convert k => do simple k.op; pure none
  | .dxns uri => do dxns uri; pure none
  | .dxnsLate => do dxnsLate; pure none
  | .pushDepth => do pushDepth; pure none
  | .popDepth => do popDepth; pure none
  | .ifBranch op => do ifBranch op; pure none
  | .elseBranch => do elseBranch; pure none
  | .patchIf => do patchIf; pure none
  | .patchElse => do patchElse; pure none
  | .loopBegin => number <$> loopBegin
  | .doLoopBegin => number <$> doLoopBegin
  | .labelBegin => number <$> labelBegin
  | .patchLoopBegin i => do patchLoopBegin i; pure none
  | .loopBack i op => do loopBack i op; pure none
  | .continueLoop i => do continueLoop i; pure none
  | .breakLoop i => do breakLoop i; pure none
  | .patchContinue i => do patchContinue i; pure none
  | .patchBreak i => do patchBreak i; pure none
  | .switchBegin => number <$> switchBegin
  | .caseLabel i => do caseLabel i; pure none
  | .defaultLabel i => do defaultLabel i; pure none
  | .switchTable i => do switchTable i; pure none
  | .switchDispatch i => do switchDispatch i; pure none
  | .tryBegin f => do tryBegin f; pure none
  | .catchClausesBegin => do catchClausesBegin; pure none
  | .catchClause t v => number <$> catchClause t v
  | .catchClausesEnd => do catchClausesEnd; pure none
  | .finallyClauseBegin => do finallyClauseBegin; pure none
  | .finallyClauseEnd => do finallyClauseEnd; pure none
  | .callFinallies limit => number <$> callFinallies limit
  | .returnValue => do returnValue; pure none
  | .returnVoid => do returnVoid; pure none
  | .setPosition file line => do setPosition file line; pure none
  | .setLine line => do setLine line; pure none
  | .debugRegister n reg => do debugRegister n reg; pure none

end Emitter

/-- one performed call: its reply or why it ended early, and the innermost open method after
it (none after an abort) -/
structure Step where
  result : Except Halt Reply
  state : Option MethodState

/-- Perform calls in order: the steps, and the emitter after the last of them, or `none` when a
call aborted and the run stopped there. -/
def Emitter.runCalls : Emitter → List Call → List Step × Option Emitter
  | e, [] => ([], some e)
  | e, c :: rest =>
    match Emitter.perform c e with
    | .ok r e' =>
      let (steps, final) := Emitter.runCalls e' rest
      (⟨.ok r, e'.methods.head?⟩ :: steps, final)
    | .error (.abort msg) _ => ([⟨.error (.abort msg), none⟩], none)
    | .error err e' =>
      let (steps, final) := Emitter.runCalls e' rest
      (⟨.error err, e'.methods.head?⟩ :: steps, final)

end AbcKit.Emit
