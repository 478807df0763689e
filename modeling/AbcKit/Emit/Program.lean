import AbcKit.Emit.Flow
/-!
The order of a compiler's calls: a method body is opened, written and finished, and bodies may
nest, an inner one finished before the enclosing one resumes; classes are started and
finished; each script is finished with its global members; finishing the emitter seals the
module.

Finishing a method writes its signature and, unless it is native or an interface method, its
body. The counts it is given must agree with the method's parameters. Anything still open at
that point (control flow, try regions, operands, temporaries) is out of order.
-/
namespace AbcKit.Emit

/-- what finishing a method declares -/
structure FinishMethod where
  /-- the return type; `none` is any -/
  returnType : Option Name := none
  /-- one type per parameter (none for any), or no list at all -/
  paramTypes : List (Option Name) := []
  /-- defaults of the trailing optional parameters -/
  optional : List Initializer := []
  /-- parameter names, or none at all -/
  paramNames : List String := []
  isNative : Bool := false
  isInterface : Bool := false
  /-- the members of the activation scope, when the method needs one -/
  activation : Option ObjectDescriptor := none
deriving Inhabited

/-- what finishing a class declares -/
structure ClassDefinition where
  name : Name
  superName : Option Name := none
  interfaces : List Name := []
  flags : UInt8 := 0
  protectedNs : Option Namespace := none
  iinit : UInt32 := 0
  cinit : UInt32 := 0
  instanceTraits : ObjectDescriptor := {}
  staticTraits : ObjectDescriptor := {}
deriving Inhabited

namespace Emitter

/-- report an out-of-order call, by the emitter's own option -/
def violationHere (msg : String) : EmitM Unit := do
  if (← get).config.strictOrdering then throw (.abort msg)

/-- open a method body; the method's index -/
def startMethod (s : StartMethod) : EmitM UInt32 := do
  let index ← onAssembler (Assembler.methodIndex s.name)
  match MethodState.ofStart s (← get).config.strictOrdering with
  | .error o => throw (.overflow o)
  | .ok m =>
    modify fun e => { e with methods := m :: e.methods, debug := e.debug.enterFunction }
    pure index

/-- the signature of a finished method: parameter types, return type, name, parameter names,
then optional defaults, interned in that order -/
def methodSig (state : MethodState) (f : FinishMethod) : EmitM MethodSig := do
  let paramTypes ← if f.paramTypes.isEmpty then pure (List.replicate state.paramCount.toNat 0)
    else f.paramTypes.mapM fun t => match t with
      | some t => onPool (Pool.name t)
      | none => pure 0
  let returnType ← match f.returnType with
    | some t => onPool (Pool.name t)
    | none => pure 0
  let name ← match state.debugName with
    | some n => onPool (Pool.string n)
    | none => pure 0
  let paramNames ← f.paramNames.mapM fun n => onPool (Pool.string n)
  let flags : UInt8 :=
    setBits (setBits (setBits (setBits (setBits 0
      MethodFlag.needArguments (state.arguments = .arguments))
      MethodFlag.needRest (state.arguments = .rest))
      MethodFlag.needActivation state.needsActivation)
      MethodFlag.native f.isNative)
      MethodFlag.setDxns state.setsDxns
  let optional ← f.optional.mapM fun init => onAssembler (Assembler.parameterDefault init)
  pure { paramTypes, returnType, name, flags, optional, paramNames }

/-- seal the innermost method and write its records; the method's index -/
def finishMethod (f : FinishMethod) : EmitM UInt32 := do
  let state ← match (← get).methods with
    | m :: rest => do
      modify fun e => { e with methods := rest }
      pure m
    | [] => throw (.error .noOpenMethod)
  let index ← onAssembler (Assembler.methodIndex state.name)
  if !state.flow.isEmpty || !state.handlers.isEmpty then
    violationHere "method finished with open control-flow or exception blocks"
  if state.depth.stack ≠ 0 then
    violationHere ("method finished with stack depth " ++ toString state.depth.stack)
  if state.registers.inUse ≠ 0 then
    violationHere ("method finished with " ++ toString state.registers.inUse ++
      " temporaries still allocated")
  let params := state.paramCount.toNat
  let declares := "method `" ++ state.name ++ "` declares " ++ toString params ++ " parameters but "
  if !f.paramTypes.isEmpty && f.paramTypes.length ≠ params then
    throw (.internal (declares ++ toString f.paramTypes.length ++ " types"))
  if !f.paramNames.isEmpty && f.paramNames.length ≠ params then
    throw (.internal (declares ++ toString f.paramNames.length ++ " names"))
  if f.optional.length > params then
    throw (.internal ("method `" ++ state.name ++ "` has more defaults than parameters"))
  let sig ← methodSig state f
  let body ← if !f.isNative && !f.isInterface then do
      let traits ← match f.activation with
        | some scope => onAssembler (Assembler.buildTraits scope)
        | none => pure []
      pure (some {
        method := index
        maxStack := state.depth.maxStack.toUInt32
        localCount := state.registers.max.toUInt32
        initScopeDepth := state.initScopeDepth
        maxScopeDepth := state.depth.maxScope.toUInt32
        code := state.code.toList
        exceptions := state.exceptions
        traits })
    else pure none
  onAssembler (Assembler.defineMethod index sig body)
  modify fun e => { e with debug := e.debug.enterFunction }
  pure index

/-- reserve the class and instance records of a class name; the class's index -/
def startClass (name : Name) : EmitM UInt32 := onAssembler (Assembler.classIndex name)

/-- write both records of a class; the class's index -/
def finishClass (d : ClassDefinition) : EmitM UInt32 := do
  let index ← onAssembler (Assembler.classIndex d.name)
  let name ← onPool (Pool.name d.name)
  let superName ← match d.superName with
    | some s => onPool (Pool.name s)
    | none => pure 0
  let interfaces ← d.interfaces.mapM fun i => onPool (Pool.name i)
  let protectedNs ← match d.protectedNs with
    | some space => some <$> onPool (Pool.ns space)
    | none => pure none
  let flags :=
    if d.instanceTraits.isInterface then d.flags ||| InstanceFlag.isInterface else d.flags
  let traits ← onAssembler (Assembler.buildTraits d.instanceTraits)
  let inst : Instance :=
    { name, superName, flags, protectedNs, interfaces, iinit := d.iinit, traits }
  let statics ← onAssembler (Assembler.buildTraits d.staticTraits)
  onAssembler (Assembler.defineClass index inst ⟨d.cinit, statics⟩)
  pure index

/-- the index the next finished script gets -/
def startProgram : EmitM Nat := do pure (← get).assembler.scripts.length

/-- write a script record with its global members; its index -/
def finishProgram (init : UInt32) (traits : ObjectDescriptor) : EmitM Nat := do
  let ts ← onAssembler (Assembler.buildTraits traits)
  onAssembler (Assembler.addScript ⟨init, ts⟩)

/-- the code written so far into the open method -/
def code : EmitM (List UInt8) := do pure (← current).code.toList

end Emitter

/-- the result of sealing an emitter: the module and the coverage points -/
structure EmittedModule where
  module : Module
  coverage : CoverageMap

/-- seal the module: no method may be open, and every method and class mentioned must be
finished -/
def Emitter.finish (e : Emitter) : Except EmitError EmittedModule := do
  if let some m := e.methods.head? then
    throw (.internal ("method `" ++ m.name ++ "` is still open"))
  let module ← e.assembler.finish e.config
  pure ⟨module, e.coverage⟩

end AbcKit.Emit
