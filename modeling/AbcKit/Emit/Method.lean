import AbcKit.Emit.Error
import AbcKit.Emit.State
import AbcKit.Instruction.Codec
import AbcKit.Pool
/-!
Writing into one method body: instructions with their effects on the depth counters, forward
branches with a displacement landed later, backward branches, and the small bookkeeping calls
(saved depths, temporaries, snapshots).

An instruction's bytes are written first; when writing fails, the bytes already written stay.
Then the counters move by its stack and scope effects, a scope record is pushed or popped, and
the register count grows to cover the registers it names. A branch displacement counts from the
end of the branch's four bytes and must fit in 24 signed bits.
-/
namespace AbcKit.Emit

/-- a step on the open method -/
abbrev MethodM := EStateM Halt MethodState

namespace MethodM

/-- report an out-of-order call: it aborts under strict ordering and is otherwise ignored -/
def violation (msg : String) : MethodM Unit := do
  if (← get).strict then throw (.abort msg)

/-- the current code address -/
def position : MethodM Nat := do pure (← get).code.size

/-- a displacement that fits in 24 signed bits -/
def displacement (v : Int) : MethodM Int32 :=
  if S24.Fits v then pure (Int32.ofInt v) else throw (.error (.format (.branchOutOfRange v)))

/-- append an instruction and apply its effects; the address of its first byte -/
def emit (pool : Pool) (i : Instruction) : MethodM Nat := do
  let m ← get
  let site := m.code.size
  let (code, err) := Encoder.exec i.encode m.code
  set { m with code }
  if let some e := err then throw (.error (.format e))
  let delta ← match i.stackEffect pool.runtimeArity with
    | .ok d => pure d
    | .error o => throw (.overflow o)
  let scopeDelta := i.scopeEffect
  let (depth, ok) := (← get).depth.apply delta scopeDelta
  modify fun m => { m with depth }
  unless ok do
    violation ("stack underflow at " ++ toString site ++ " (" ++ i.opcode.mnemonic ++ ")")
  modify fun m => { m with
    scopes := if scopeDelta > 0 then m.scopes ++ [none]
      else if scopeDelta < 0 then m.scopes.dropLast else m.scopes }
  if let some r := i.maxRegister then
    modify fun m => { m with registers := m.registers.touch r.toNat }
  pure site

/-- a `label` instruction, a valid target of a backward branch; its address -/
def label (pool : Pool) : MethodM Nat := emit pool (.simple SimpleOp.label)

/-- a branch with a displacement to be landed later; the address of its opcode -/
def reserveBranch (pool : Pool) (op : BranchOp) : MethodM Nat := emit pool (.branch op 0)

/-- a branch to a known address -/
def branchTo (pool : Pool) (op : BranchOp) (target : Nat) : MethodM Unit := do
  let d ← displacement ((target : Int) - ((← position) + 4))
  discard (emit pool (.branch op d))

/-- point the branch whose opcode is at `site` to `target` -/
def patch (site target : Nat) : MethodM Unit := do
  let d ← displacement ((target : Int) - site - 4)
  match (← get).code.patchS24 (site + 1) d.toInt with
  | .error o => throw (.overflow o)
  | .ok (.error e) => throw (.error (.format e))
  | .ok (.ok code) => modify fun m => { m with code }

/-- point the branch whose opcode is at `site` to the current address -/
def patchHere (site : Nat) : MethodM Unit := do patch site (← position)

/-- move the operand depth without writing code -/
def adjustStack (delta : Int) : MethodM Unit := do
  let (depth, ok) := (← get).depth.apply delta 0
  modify fun m => { m with depth }
  unless ok do violation "stack underflow in depth adjustment"

/-- force the operand depth -/
def setStack (n : Nat) : MethodM Unit := modify fun m => { m with depth := m.depth.setStack n }

/-- remember the operand depth -/
def pushDepth : MethodM Unit :=
  modify fun m => { m with depthStack := m.depth.stack :: m.depthStack }

/-- return to the operand depth remembered last -/
def popDepth : MethodM Unit := do
  match (← get).depthStack with
  | d :: rest => modify fun m => { m with depthStack := rest, depth := m.depth.setStack d }
  | [] => violation "depth stack is empty"

/-- hand out a temporary register -/
def allocTemp : MethodM UInt32 := do
  match (← get).registers.alloc with
  | .ok (r, registers) =>
    modify fun m => { m with registers }
    pure r.toUInt32
  | .error o => throw (.overflow o)

/-- give back a temporary register; it must be the one handed out last -/
def freeTemp (reg : UInt32) : MethodM Unit := do
  let (inOrder, registers) := (← get).registers.free reg.toNat
  modify fun m => { m with registers }
  unless inOrder do violation ("register " ++ toString reg ++ " released out of order")

/-- the depths and scope records -/
def snapshot : MethodM Snapshot := do
  let m ← get
  pure ⟨m.depth, m.scopes⟩

/-- return to a snapshot; the highest depths reached since are kept -/
def restore (s : Snapshot) : MethodM Unit :=
  modify fun m => { m with
    depth := { m.depth with stack := s.depth.stack, scope := s.depth.scope }
    scopes := s.scopes }

end MethodM

end AbcKit.Emit
