import AbcKit.Emit.Ops
/-!
Try regions with catch handlers and finally bodies.

Regions nest and close in reverse order. Each catch handler adds an entry to the method's
exception table, covering the protected range. A finally body is written once: every path that
must run it pushes a small resume index and jumps in, and the end of the body jumps back on that
index with a jump table (or a plain jump when only one path enters). An exception that escapes
the protected range or a handler reaches the body through a catch-all entry that rethrows it
afterwards. A handler starts with the exception on the stack and with the scopes of the region's
entry pushed again from their registers.
-/
namespace AbcKit.Emit

namespace Emitter

/-- the region at `index` of the open method -/
def handler (index : Nat) : EmitM HandlerBlock := do
  pure (((← current).handlers[index]?).getD default)

/-- change the region at `index` of the open method -/
def modifyHandler (index : Nat) (f : HandlerBlock → HandlerBlock) : EmitM Unit :=
  onMethod fun _ => modify fun m => { m with handlers := m.handlers.modify index f }

/-- the innermost region, when it is in one of the `expected` states; otherwise the call `what`
is out of order -/
def openBlock (expected : List BlockState) (what : String) : EmitM (Option Nat) := do
  let m ← current
  match m.handlers.getLast? with
  | none =>
    violation (what ++ " without an open try")
    pure none
  | some b =>
    if expected.contains b.state then pure (some (m.handlers.length - 1))
    else
      violation (what ++ " in state " ++ b.state.name)
      pure none

/-- the current code address of the open method -/
def position : EmitM Nat := do pure (← current).code.size

/-- a jump table to absolute addresses, from the instruction's own address -/
def dispatch (dflt : Nat) (cases : List Nat) : EmitM Unit := do
  flushPosition
  let site ← position
  let relative := fun (t : Nat) => Int32.ofInt ((t : Int) - site)
  discard (emitRaw (.lookupSwitch (relative dflt) (cases.map relative)))

/-- enter the finally body of region `index` and come back here afterwards: push the resume
index, jump in (the index is off the stack on this path), and mark the return address -/
def callSite (index : Nat) : EmitM Unit := do
  let resumeIndex := (← handler index).resumes.length
  pushInt (Int32.ofNat resumeIndex)
  let site ← reserve BranchOp.jump
  onMethod fun _ => MethodM.adjustStack (-1)
  let resume ← label
  modifyHandler index fun b => { b with callSites := b.callSites ++ [site],
                                        resumes := b.resumes ++ [resume] }

/-- push again the scopes live at entry, from their registers, all of which must be known -/
def pushEntryScopes (init : Nat) : Nat → List (Option SavedScope) → EmitM Unit
  | _, [] => pure ()
  | depth, none :: _ =>
    throw (.internal ("scope " ++ toString (init + depth) ++
      " live at try entry was not pushed from a register"))
  | depth, some s :: rest => do
    pushSaved s.register s.isWith
    pushEntryScopes init (depth + 1) rest

/-- the start of a handler: the exception is the only operand, and the scopes are those of the
method's entry followed by those of the region's entry -/
def enterHandler (index : Nat) : EmitM Unit := do
  let entry := (← handler index).entry
  let init := (← current).initScopeDepth.toNat
  onMethod fun _ => modify fun m => { m with
    depth := { m.depth.setStack 1 with scope := init }
    scopes := [] }
  pushEntryScopes init 0 entry.scopes

/-- Leave regions from the innermost outward, popping the scopes each opened and running each
finally body passed, at most `limit` of them; with a loop index, only regions opened inside
that loop are left. The number of finally bodies run. -/
def unwindFrom (loopIndex : Option Nat) (limit : Nat) : List Nat → Nat → EmitM Nat
  | [], called => pure called
  | index :: rest, called => do
    if called ≥ limit then return called
    let block ← handler index
    if loopIndex.any (block.loopDepth ≤ ·) then return called
    popScopesTo block.entry.depth.scope
    if block.runsFinally then
      callSite index
      unwindFrom loopIndex limit rest (called + 1)
    else unwindFrom loopIndex limit rest called

/-- leave the open regions, innermost first -/
def unwind (loopIndex : Option Nat) (limit : Nat) : EmitM Nat := do
  let count := (← current).handlers.length
  unwindFrom loopIndex limit (List.range count).reverse 0

/-- open a try region; one with a finally body gets a register for the resume index -/
def tryBegin (hasFinally : Bool) : EmitM Unit := do
  flushPosition
  onMethod fun _ => do
    let selector ← if hasFinally then some <$> MethodM.allocTemp else pure none
    let m ← get
    let start := m.code.size
    let block : HandlerBlock := {
      state := .protectedBody, tryStart := start, tryEnd := start, entry := ⟨m.depth, m.scopes⟩,
      loopDepth := m.flow.loops.length, hasFinally, selector }
    set { m with handlers := m.handlers ++ [block] }

/-- end the protected range and jump over the handlers -/
def catchClausesBegin : EmitM Unit := do
  let some index ← openBlock [.protectedBody] "catch_clauses_begin" | return
  flushPosition
  let stop ← position
  modifyHandler index fun b => { b with tryEnd := stop, state := .catches }
  let skip ← reserve BranchOp.jump
  modifyHandler index fun b => { b with skip := some skip }

/-- Start a handler for `excType` (any exception when absent); its position in the exception
table. The handler before it, if any, first jumps to the end of the handlers. -/
def catchClause (excType varName : Option Name) : EmitM Nat := do
  let some index ← openBlock [.catches] "catch_clause" | return 0
  if (← handler index).clauses > 0 then
    let stop ← reserve BranchOp.jump
    modifyHandler index fun b => { b with handlerEnds := b.handlerEnds ++ [stop] }
  let intern := fun (n : Option Name) => match n with
    | some n => onPool (Pool.name n)
    | none => pure 0
  let excType ← intern excType
  let varName ← intern varName
  flushPosition
  let target ← position
  let b ← handler index
  modifyHandler index fun b => { b with clauses := b.clauses + 1 }
  let entry : ExceptionEntry :=
    ⟨b.tryStart.toUInt32, b.tryEnd.toUInt32, target.toUInt32, excType, varName⟩
  onMethod fun _ => modify fun m => { m with exceptions := m.exceptions ++ [entry] }
  let pos := (← current).exceptions.length - 1
  enterHandler index
  pure pos

/-- close the handlers: land the jumps over and out of them here, and return to the region's
entry state; a region without a finally body closes -/
def catchClausesEnd : EmitM Unit := do
  let some index ← openBlock [.catches] "catch_clauses_end" | return
  let b ← handler index
  modifyHandler index fun b => { b with skip := none, handlerEnds := [] }
  onMethod fun _ => do
    (b.skip.toList ++ b.handlerEnds).forM MethodM.patchHere
    MethodM.restore b.entry
    unless b.hasFinally do modify fun m => { m with handlers := m.handlers.dropLast }

/-- Start the finally body. The normal path enters it and then jumps past the catch-all handler
that follows; that handler saves the exception, enters the body, and rethrows. The body starts
with the resume index stored in the region's register. -/
def finallyClauseBegin : EmitM Unit := do
  let some index ← openBlock [.protectedBody, .catches] "finally_clause_begin" | return
  flushPosition
  let rangeEnd ← position
  let b ← handler index
  if !b.hasFinally then
    violation "finally on a try declared without one"
    return
  if b.state = .protectedBody then modifyHandler index fun b => { b with tryEnd := rangeEnd }
  callSite index
  let done ← reserve BranchOp.jump
  let target ← position
  onMethod fun _ => modify fun m => { m with
    exceptions :=
      m.exceptions ++ [⟨b.tryStart.toUInt32, rangeEnd.toUInt32, target.toUInt32, 0, 0⟩] }
  enterHandler index
  let exception ← allocTemp
  setLocal exception
  callSite index
  getLocal exception
  freeTemp exception
  throwValue
  let b ← handler index
  modifyHandler index fun b => { b with done := some done, state := .finallyBody, callSites := [] }
  onMethod fun _ => do
    b.callSites.forM MethodM.patchHere
    MethodM.restore b.entry
    MethodM.adjustStack 1
  if let some selector := b.selector then setLocal selector

/-- end the finally body: return to the path that entered it, and close the region -/
def finallyClauseEnd : EmitM Unit := do
  let some index ← openBlock [.finallyBody] "finally_clause_end" | return
  let b ← handler index
  let some selector := b.selector
    | throw (.internal "finally block has no selector register")
  match b.resumes with
  | [] => throw (.internal "finally body has no resume points")
  | [only] => do
    kill selector
    branchBack BranchOp.jump only
  | first :: _ => do
    getLocal selector
    kill selector
    dispatch first b.resumes
  onMethod fun _ => do
    let some last := (← get).handlers.getLast? | return
    modify fun m => { m with handlers := m.handlers.dropLast }
    if let some done := b.done then MethodM.patchHere done
    MethodM.freeTemp selector
    MethodM.restore last.entry

/-- run up to `limit` enclosing finally bodies, innermost first; how many ran -/
def callFinallies (limit : Nat) : EmitM Nat := unwind none limit

/-- whether leaving the method runs a finally body -/
def hasPendingFinally : EmitM Bool := do
  pure ((← current).handlers.any HandlerBlock.runsFinally)

/-- return the value on the stack, after the enclosing finally bodies, which see it saved in a
temporary -/
def returnValue : EmitM Unit := do
  if !(← hasPendingFinally) then
    simple ⟨.returnValue, rfl⟩
    return
  let saved ← onMethod fun _ => MethodM.snapshot
  let value ← allocTemp
  setLocal value
  discard (unwind none (← current).handlers.length)
  getLocal value
  kill value
  simple ⟨.returnValue, rfl⟩
  onMethod fun _ => do
    MethodM.freeTemp value
    MethodM.restore saved
    MethodM.adjustStack (-1)

/-- return from a method without a value, after the enclosing finally bodies -/
def returnVoid : EmitM Unit := do
  if !(← hasPendingFinally) then
    simple ⟨.returnVoid, rfl⟩
    return
  let saved ← onMethod fun _ => MethodM.snapshot
  discard (unwind none (← current).handlers.length)
  simple ⟨.returnVoid, rfl⟩
  onMethod fun _ => MethodM.restore saved

end Emitter

end AbcKit.Emit
