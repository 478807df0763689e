import AbcKit.Emit.Handlers
/-!
Structured control flow: if and else, loops, labelled blocks and switches, with `break` and
`continue`.

A forward branch is written with a zero displacement and kept pending until its target is
known. Loops, labels and switches share one list of frames, addressed by index, which `break`
and `continue` name. Leaving a frame runs the finally bodies of the regions opened inside it
and pops the scopes pushed inside it. Where two paths meet with different operand depths the
call is out of order, and the larger depth is kept. With coverage on, each conditional branch
records both of its outcomes through the coverage hook.
-/
namespace AbcKit.Emit

namespace Emitter

/-- A conditional forward branch; the jump that must reach the branch's target. With coverage
on, the taken and the not-taken path each call the hook before going on. -/
def conditional (op : BranchOp) : EmitM Nat := do
  if !(← get).config.coverage || op = BranchOp.jump then return ← reserve op
  let taken ← reserve op
  coverageRecord false
  let skip ← reserve BranchOp.jump
  patchHere taken
  discard label
  coverageRecord true
  let target ← reserve BranchOp.jump
  patchHere skip
  discard label
  pure target

/-- remember the operand depth before a path that rejoins later -/
def pushDepth : EmitM Unit := onMethod fun _ => MethodM.pushDepth

/-- return to the depth remembered last -/
def popDepth : EmitM Unit := onMethod fun _ => MethodM.popDepth

/-- two paths meet at a landed branch whose path had depth `branchDepth` -/
def reconcile (branchDepth : Nat) : MethodM Unit := do
  let stack := (← get).depth.stack
  if stack ≠ branchDepth then
    MethodM.violation ("paths meet with stack depths " ++ toString stack ++ " and " ++
      toString branchDepth)
    MethodM.setStack (Nat.max stack branchDepth)

/-- branch over the block that follows when `op` is taken -/
def ifBranch (op : BranchOp) : EmitM Unit := do
  let site ← conditional op
  onMethod fun _ => modify fun m => { m with
    flow := { m.flow with ifs := ⟨site, m.depth.stack⟩ :: m.flow.ifs } }

/-- end the then-block with a jump over the else-block, which starts here with the depth of the
path that skipped the then-block -/
def elseBranch : EmitM Unit := do
  let jump ← reserve BranchOp.jump
  onMethod fun _ => do
    let m ← get
    match m.flow.ifs with
    | [] => MethodM.violation "else without a pending if"
    | frame :: rest =>
      set { m with flow := { m.flow with ifs := rest } }
      MethodM.patchHere frame.site
      MethodM.setStack frame.depth
      modify fun m' => { m' with
        flow := { m'.flow with elses := ⟨jump, m.depth.stack⟩ :: m'.flow.elses } }

/-- land the pending if-branch here -/
def patchIf : EmitM Unit := onMethod fun _ => do
  let m ← get
  match m.flow.ifs with
  | [] => MethodM.violation "patch_if without a pending if"
  | frame :: rest =>
    set { m with flow := { m.flow with ifs := rest } }
    MethodM.patchHere frame.site
    reconcile frame.depth

/-- land the pending else-jump here -/
def patchElse : EmitM Unit := onMethod fun _ => do
  let m ← get
  match m.flow.elses with
  | [] => MethodM.violation "patch_else without a pending else"
  | frame :: rest =>
    set { m with flow := { m.flow with elses := rest } }
    MethodM.patchHere frame.site
    reconcile frame.depth

/-- the frame at `index`; an index with no frame is out of order -/
def frame (index : Nat) : MethodM (Option LoopFrame) := do
  match (← get).flow.loops[index]? with
  | some f => pure (some f)
  | none =>
    MethodM.violation ("no loop, label or switch with index " ++ toString index)
    pure none

/-- change the frame at `index` -/
def modifyFrame (index : Nat) (f : LoopFrame → LoopFrame) : MethodM Unit :=
  modify fun m => { m with flow := { m.flow with loops := m.flow.loops.modify index f } }

/-- open a frame at the current depths; its index -/
def pushFrame (kind : FrameKind) (entry top : Option Nat) : EmitM Nat := onMethod fun _ => do
  let m ← get
  let f : LoopFrame :=
    { kind, entry, top, stackDepth := m.depth.stack, scopeDepth := m.depth.scope }
  set { m with flow := { m.flow with loops := m.flow.loops ++ [f] } }
  pure m.flow.loops.length

/-- open a loop whose condition follows its body: jump to the condition, then mark the top -/
def loopBegin : EmitM Nat := do
  let entry ← reserve BranchOp.jump
  let top ← label
  pushFrame .loop (some entry) (some top)

/-- open a loop entered at its top -/
def doLoopBegin : EmitM Nat := do
  let top ← label
  pushFrame .loop none (some top)

/-- open a labelled block that `break` can leave -/
def labelBegin : EmitM Nat := pushFrame .label none none

/-- land the loop's jump to its condition here -/
def patchLoopBegin (index : Nat) : EmitM Unit := onMethod fun _ => do
  let some f ← frame index | return
  modifyFrame index fun f => { f with entry := none }
  match f.entry with
  | some entry => MethodM.patchHere entry
  | none => MethodM.violation "loop has no pending entry jump"

/-- branch back to the top of loop `index` when `op` is taken -/
def loopBack (index : Nat) (op : BranchOp) : EmitM Unit := do
  let some f ← onMethod fun _ => frame index | return
  let some top := f.top
    | violation "loop_back on a frame without a loop top"
  if !(← get).config.coverage || op = BranchOp.jump then return ← branchBack op top
  let taken ← reserve op
  coverageRecord false
  let skip ← reserve BranchOp.jump
  patchHere taken
  discard label
  coverageRecord true
  branchBack BranchOp.jump top
  patchHere skip
  discard label

/-- leave frame `index` by a jump kept pending on it, after the finally bodies and scope pops
that leaving needs; the depths and scopes of the path go on unchanged -/
def exitTo (index : Nat) (isBreak : Bool) : EmitM Unit := do
  let m ← current
  let scopeDepth := ((m.flow.loops[index]?).map LoopFrame.scopeDepth).getD 0
  let saved : Snapshot := ⟨m.depth, m.scopes⟩
  discard (unwind (some index) m.handlers.length)
  popScopesTo scopeDepth
  let site ← reserve BranchOp.jump
  onMethod fun _ => do
    modifyFrame index fun f =>
      if isBreak then { f with breaks := f.breaks ++ [site] }
      else { f with continues := f.continues ++ [site] }
    MethodM.restore saved

/-- jump to the continue point of loop `index` -/
def continueLoop (index : Nat) : EmitM Unit := do
  let some f ← onMethod fun _ => frame index | return
  if f.kind ≠ .loop then
    violation "continue targets a label or switch"
    return
  exitTo index false

/-- jump out of loop, label or switch `index` -/
def breakLoop (index : Nat) : EmitM Unit := do
  let some _ ← onMethod fun _ => frame index | return
  exitTo index true

/-- land every pending continue of loop `index` here -/
def patchContinue (index : Nat) : EmitM Unit := onMethod fun _ => do
  let some f ← frame index | return
  modifyFrame index fun f => { f with continues := [] }
  f.continues.forM MethodM.patchHere

/-- land every pending break of frame `index` here and close it, with the frames inside it; the
operand depth returns to the frame's -/
def patchBreak (index : Nat) : EmitM Unit := onMethod fun _ => do
  let some _ ← frame index | return
  if index + 1 ≠ (← get).flow.loops.length then
    MethodM.violation "frame closed while inner frames are open"
  let loops := (← get).flow.loops.take (index + 1)
  let some f := loops.getLast? | return
  modify fun m => { m with flow := { m.flow with loops := loops.dropLast } }
  if f.entry.isSome then MethodM.violation "loop closed with its entry jump unpatched"
  if !f.continues.isEmpty then
    MethodM.violation ("loop closed with " ++ toString f.continues.length ++
      " unpatched continue jumps")
  (f.breaks ++ f.continues).forM MethodM.patchHere
  MethodM.setStack f.stackDepth

/-- open a switch: jump ahead to the dispatch code -/
def switchBegin : EmitM Nat := do
  let entry ← reserve BranchOp.jump
  pushFrame .switch (some entry) none

/-- start a case or default body of switch `index`, at the switch's depth; its address -/
def switchLabel (index : Nat) : EmitM (Option Nat) := do
  let some f ← onMethod fun _ => frame index | return none
  onMethod fun _ => MethodM.setStack f.stackDepth
  some <$> label

/-- start the next case body of switch `index` -/
def caseLabel (index : Nat) : EmitM Unit := do
  let some address ← switchLabel index | return
  onMethod fun _ => do
    if (← frame index).isSome then
      modifyFrame index fun f => { f with cases := f.cases ++ [address] }

/-- start the default body of switch `index` -/
def defaultLabel (index : Nat) : EmitM Unit := do
  let some address ← switchLabel index | return
  onMethod fun _ => do
    if (← frame index).isSome then
      modifyFrame index fun f => { f with defaultCase := some address }

/-- land the switch's entry jump here, where the case index is computed -/
def switchTable (index : Nat) : EmitM Unit := onMethod fun _ => do
  let some f ← frame index | return
  modifyFrame index fun f => { f with entry := none }
  MethodM.setStack f.stackDepth
  match f.entry with
  | some entry => MethodM.patchHere entry
  | none => MethodM.violation "switch table emitted twice"

/-- Jump on the case index on the stack: index `n` goes to the `n`th case label, any other value
to the default label, or past the dispatch when there is none. A switch without cases has one
case, the default. -/
def switchDispatch (index : Nat) : EmitM Unit := do
  flushPosition
  let site ← position
  let some f ← onMethod fun _ => frame index | return
  let placeholder := Instruction.lookupSwitch 0 (List.replicate (Nat.max f.cases.length 1) 0)
  let stop := site + placeholder.encodedLen
  let dflt := f.defaultCase.getD stop
  let cases := if f.cases.isEmpty then [dflt] else f.cases
  let relative := fun (t : Nat) => Int32.ofInt ((t : Int) - site)
  discard (emitRaw (.lookupSwitch (relative dflt) (cases.map relative)))

end Emitter

end AbcKit.Emit
