import AbcKit.Word.Checked
import AbcKit.Record.Method
/-!
The state of one method body while its code is written: its buffer and counters, its
registers, the scopes it pushed, and the pending jumps of its control flow and exception
handlers.

Registers below the first free one belong to the receiver, the parameters, the `arguments`
object or rest array, the declared locals and the reserved temporaries; temporaries are handed
out above it, and given back in the reverse order. The depth counters follow the operand and
scope stacks and remember their highest values; a counter never goes below zero, and an attempt
to is reported as out of order. Positions and registers are 32-bit words.
-/
namespace AbcKit.Emit

/-- how a method receives arguments beyond its parameters -/
inductive ArgumentsMode where
  /-- not at all -/
  | none
  /-- through the `arguments` object -/
  | arguments
  /-- collected into a rest array -/
  | rest
deriving DecidableEq, Repr, Inhabited

/-- what opening a method declares -/
structure StartMethod where
  /-- the method's key; a repeated name refers to the same method record -/
  name : String
  paramCount : UInt32 := 0
  localCount : UInt32 := 0
  tempCount : UInt32 := 0
  needsActivation : Bool := false
  arguments : ArgumentsMode := .none
  /-- the name written into the method record -/
  debugName : Option String := none
  /-- the scope depth the engine sets up before entry -/
  initScopeDepth : UInt32 := 0
deriving DecidableEq, Repr, Inhabited

/-- the first register above the receiver, parameters, arguments, locals and temporaries; the
sum is taken left to right in a 32-bit word -/
def StartMethod.firstFreeRegister (s : StartMethod) : Except Overflow Nat := do
  let x ← checkUnsigned 32 .add (1 + s.paramCount.toNat)
  let x ← checkUnsigned 32 .add (x + if s.arguments = .none then 0 else 1)
  let x ← checkUnsigned 32 .add (x + s.localCount.toNat)
  checkUnsigned 32 .add (x + s.tempCount.toNat)

/-- temporaries above `base`: the next one to hand out, and one above the highest register
used -/
structure Registers where
  base : Nat
  next : Nat
  max : Nat
deriving DecidableEq, Repr, Inhabited

namespace Registers

/-- no temporary handed out yet -/
def start (base : Nat) : Registers := ⟨base, base, base⟩

/-- hand out the next register -/
def alloc (r : Registers) : Except Overflow (Nat × Registers) := do
  let next ← checkUnsigned 32 .add (r.next + 1)
  pure (r.next, { r with next, max := Nat.max r.max next })

/-- give back the most recent register: the count goes down in any case, and the answer says
whether `reg` was that register -/
def free (r : Registers) (reg : Nat) : Bool × Registers :=
  let inOrder := r.next > r.base && reg + 1 == r.next
  (inOrder, if r.next > r.base then { r with next := r.next - 1 } else r)

/-- record that `reg` is used -/
def touch (r : Registers) (reg : Nat) : Registers := { r with max := Nat.max r.max (reg + 1) }

/-- how many temporaries are out -/
def inUse (r : Registers) : Nat := r.next - r.base

end Registers

/-- the operand and scope stack depths, with the highest of each so far -/
structure Depth where
  stack : Nat := 0
  maxStack : Nat := 0
  scope : Nat := 0
  maxScope : Nat := 0
deriving DecidableEq, Repr, Inhabited

namespace Depth

/-- the depths on entry to a method whose engine pushed `init` scopes -/
def start (init : Nat) : Depth := ⟨0, 0, init, init⟩

/-- force the operand depth -/
def setStack (d : Depth) (n : Nat) : Depth :=
  { d with stack := n, maxStack := Nat.max d.maxStack n }

/-- force the scope depth -/
def setScope (d : Depth) (n : Nat) : Depth :=
  { d with scope := n, maxScope := Nat.max d.maxScope n }

/-- a depth moved by `delta`, as a 32-bit count: zero, and `false`, below zero -/
def offset (value : Nat) (delta : Int) : Nat × Bool :=
  let r := (value : Int) + delta
  if r < 0 then (0, false) else (r.toNat % 4294967296, true)

/-- move both depths; `false` when either would go below zero -/
def apply (d : Depth) (stackDelta scopeDelta : Int) : Depth × Bool :=
  let (s, okStack) := offset d.stack stackDelta
  let (c, okScope) := offset d.scope scopeDelta
  ((d.setStack s).setScope c, okStack && okScope)

end Depth

/-- a scope pushed from a register, so that a handler can push it again -/
structure SavedScope where
  register : UInt32
  /-- pushed as a `with` scope -/
  isWith : Bool
deriving DecidableEq, Repr, Inhabited

/-- depths and scope records, saved around a path that leaves early -/
structure Snapshot where
  depth : Depth
  scopes : List (Option SavedScope)
deriving DecidableEq, Repr, Inhabited

/-- a pending forward branch: the address of its opcode, and the operand depth on the path
that takes it -/
structure BranchFrame where
  site : Nat
  depth : Nat
deriving DecidableEq, Repr, Inhabited

/-- what `break` and `continue` can address -/
inductive FrameKind where
  | loop
  | label
  | switch
deriving DecidableEq, Repr, Inhabited

/-- an open loop, label or switch -/
structure LoopFrame where
  kind : FrameKind
  /-- the jump into the condition or the dispatch, not yet landed -/
  entry : Option Nat
  /-- the address a loop branches back to -/
  top : Option Nat
  breaks : List Nat := []
  continues : List Nat := []
  stackDepth : Nat
  scopeDepth : Nat
  /-- the addresses of case labels, in order -/
  cases : List Nat := []
  defaultCase : Option Nat := none
deriving DecidableEq, Repr, Inhabited

/-- the pending branches of a method: if and else stacks (innermost first), and the frames
that `break` and `continue` address by index (outermost first) -/
structure FlowState where
  ifs : List BranchFrame := []
  elses : List BranchFrame := []
  loops : List LoopFrame := []
deriving DecidableEq, Repr, Inhabited

/-- whether no branch or frame is pending -/
def FlowState.isEmpty (f : FlowState) : Bool := f.ifs.isEmpty && f.elses.isEmpty && f.loops.isEmpty

/-- where a try region is -/
inductive BlockState where
  /-- in the protected body -/
  | protectedBody
  /-- among the catch handlers -/
  | catches
  /-- in the finally body -/
  | finallyBody
deriving DecidableEq, Repr, Inhabited

/-- the name of a region state, as messages give it -/
def BlockState.name : BlockState → String
  | .protectedBody => "Try"
  | .catches => "Catches"
  | .finallyBody => "Finally"

/-- an open try region -/
structure HandlerBlock where
  state : BlockState
  tryStart : Nat
  tryEnd : Nat
  /-- depths and scopes on entry -/
  entry : Snapshot
  /-- loop frames open on entry -/
  loopDepth : Nat
  hasFinally : Bool
  /-- the register holding the resume index while the finally body runs -/
  selector : Option UInt32
  /-- the jump over the handlers -/
  skip : Option Nat := none
  /-- the jumps from the end of each handler but the last -/
  handlerEnds : List Nat := []
  clauses : Nat := 0
  /-- the jumps into the finally body, not yet landed -/
  callSites : List Nat := []
  /-- the addresses the finally body returns to, by resume index -/
  resumes : List Nat := []
  /-- the jump past the rethrowing handler -/
  done : Option Nat := none
deriving DecidableEq, Repr, Inhabited

/-- whether leaving the region runs its finally body -/
def HandlerBlock.runsFinally (b : HandlerBlock) : Bool := b.hasFinally && b.state ≠ .finallyBody

/-- everything tracked while one method body is written -/
structure MethodState where
  name : String
  debugName : Option String
  paramCount : UInt32
  arguments : ArgumentsMode
  needsActivation : Bool
  setsDxns : Bool := false
  initScopeDepth : UInt32
  code : Buffer := {}
  depth : Depth
  registers : Registers
  exceptions : List ExceptionEntry := []
  /-- one record per scope pushed in this method, innermost last -/
  scopes : List (Option SavedScope) := []
  /-- operand depths saved by `pushDepth`, innermost first -/
  depthStack : List Nat := []
  flow : FlowState := {}
  /-- open try regions, innermost last -/
  handlers : List HandlerBlock := []
  /-- an out-of-order call aborts -/
  strict : Bool
deriving DecidableEq, Repr, Inhabited

/-- the state of a method just opened -/
def MethodState.ofStart (s : StartMethod) (strict : Bool) : Except Overflow MethodState := do
  let base ← s.firstFreeRegister
  pure {
    name := s.name
    debugName := s.debugName
    paramCount := s.paramCount
    arguments := s.arguments
    needsActivation := s.needsActivation
    initScopeDepth := s.initScopeDepth
    depth := .start s.initScopeDepth.toNat
    registers := .start base
    strict }

end AbcKit.Emit
