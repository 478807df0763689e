import AbcKit.Emit.Method
import AbcKit.Emit.Traits
import AbcKit.Emit.Debug
/-!
The emitter of one module: its options, the module tables, the stack of open method bodies
(innermost first), the source position, and the coverage points.

Every instruction goes through `emit`, which first writes pending position records, then the
instruction, into the innermost open method; with no method open a call reports
`noOpenMethod`. A failed call keeps the state it reached: constants already interned, bytes
already written.
-/
namespace AbcKit.Emit

/-- the emitter of one module -/
structure Emitter where
  config : Config := {}
  assembler : Assembler := .empty
  /-- open method bodies, innermost first -/
  methods : List MethodState := []
  debug : DebugState := {}
  coverage : CoverageMap := {}
deriving Inhabited

/-- a call on the emitter -/
abbrev EmitM := EStateM Halt Emitter

/-- the smallest instruction pushing `v`: a byte, a short, or an interned integer -/
def intInstruction (v : Int32) : StateM Pool Instruction :=
  if -128 ≤ v.toInt && v.toInt ≤ 127 then pure (.pushByte (Int8.ofInt v.toInt))
  else if -32768 ≤ v.toInt && v.toInt ≤ 32767 then pure (.pushShort (Int16.ofInt v.toInt))
  else do pure (.pushInt (← Pool.int v))

namespace Emitter

/-- the innermost open method -/
def current : EmitM MethodState := do
  match (← get).methods with
  | m :: _ => pure m
  | [] => throw (.error .noOpenMethod)

/-- run a step on the innermost open method, which sees the pool -/
def onMethod {α : Type} (act : Pool → MethodM α) : EmitM α := fun e =>
  match e.methods with
  | [] => .error (.error .noOpenMethod) e
  | m :: rest =>
    match act e.assembler.pool m with
    | .ok a m' => .ok a { e with methods := m' :: rest }
    | .error h m' => .error h { e with methods := m' :: rest }

/-- run a step on the module tables -/
def onAssembler {α : Type} (act : AssemblerM α) : EmitM α := fun e =>
  match act e.assembler with
  | .ok a asm => .ok a { e with assembler := asm }
  | .error err asm => .error (.error err) { e with assembler := asm }

/-- run a step on the constant pool -/
def onPool {α : Type} (act : StateM Pool α) : EmitM α := onAssembler (Assembler.onPool act)

/-- append an instruction without writing pending position records -/
def emitRaw (i : Instruction) : EmitM Nat := onMethod fun pool => MethodM.emit pool i

/-- write the pending file and line records, when debug records are on, a method is open, a
position was set, and the line is marked changed -/
def flushPosition : EmitM Unit := do
  let e ← get
  if !e.config.debug || !e.debug.lineDirty || e.methods.isEmpty then return
  if e.debug.file.isNone && e.debug.line == 0 then return
  if e.debug.fileDirty || e.debug.functionDirty then
    if let some file := e.debug.file then
      let name ← onPool (Pool.string file)
      discard (emitRaw (.debugFile name))
  discard (emitRaw (.debugLine (← get).debug.line))
  modify fun e => { e with
    debug := { e.debug with fileDirty := false, lineDirty := false, functionDirty := false } }

/-- append an instruction to the open method; the address of its first byte -/
def emit (i : Instruction) : EmitM Nat := do
  flushPosition
  emitRaw i

/-- append an instruction without operands -/
def simple (op : SimpleOp) : EmitM Unit := discard (emit (.simple op))

/-- a branch whose displacement is landed later; the address of its opcode -/
def reserve (op : BranchOp) : EmitM Nat := do
  flushPosition
  onMethod fun pool => MethodM.reserveBranch pool op

/-- a branch to a known address -/
def branchBack (op : BranchOp) (target : Nat) : EmitM Unit := do
  flushPosition
  onMethod fun pool => MethodM.branchTo pool op target

/-- land the branch at `site` on the current address -/
def patchHere (site : Nat) : EmitM Unit := onMethod fun _ => MethodM.patchHere site

/-- a `label` instruction; its address -/
def label : EmitM Nat := emit (.simple SimpleOp.label)

/-- report an out-of-order call on the open method -/
def violation (msg : String) : EmitM Unit := onMethod fun _ => MethodM.violation msg

/-- set the source file and line for what follows -/
def setPosition (file : String) (line : UInt32) : EmitM Unit :=
  modify fun e => { e with debug := e.debug.setPosition file line }

/-- set the source line for what follows -/
def setLine (line : UInt32) : EmitM Unit :=
  modify fun e => { e with debug := e.debug.setLine line }

/-- Name register `reg` for the debugger, when debug records are on: the record holds the
register less one, so the receiver and registers above 256 cannot be named. -/
def debugRegister (name : String) (reg : UInt32) : EmitM Unit := do
  if !(← get).config.debug then return
  if reg = 0 || reg.toNat - 1 > 255 then
    violation ("register " ++ toString reg ++ " cannot carry a debug name")
  else
    let n ← onPool (Pool.string name)
    discard (emit (.debug 1 n (reg - 1).toUInt8 0))

/-- A call to the coverage hook, leaving the stack as it was, for one outcome of a branch: the
hook is found, then called with the file, the line and the point's id. The point is registered
first, with the current position. -/
def coverageRecord (taken : Bool) : EmitM Unit := do
  let e ← get
  let file := e.debug.file.getD ""
  if e.debug.branchFileDirty then
    modify fun e => { e with
      coverage := e.coverage.addFile file
      debug := { e.debug with branchFileDirty := false } }
  let line := (← get).debug.line
  let (id, coverage) := (← get).coverage.record file line taken
  modify fun e => { e with coverage }
  let hook ← onPool (Pool.name (.public (← get).config.coverageHook))
  let fileIndex ← onPool (Pool.string file)
  let pushLine ← onPool (intInstruction line.toInt32)
  let pushId ← onPool (intInstruction id.toUInt32.toInt32)
  discard (emitRaw (.name ⟨.findPropStrict, rfl⟩ hook))
  discard (emitRaw (.pushString fileIndex))
  discard (emitRaw pushLine)
  discard (emitRaw pushId)
  discard (emitRaw (.callName ⟨.callPropVoid, rfl⟩ hook 3))

end Emitter

end AbcKit.Emit
