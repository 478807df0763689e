import AbcKit.Emit.Call
/-!
Where each jump of a method body is meant to go, read off the calls that wrote it.

A call on a method writes a stretch of its code, its `Span`: from the address current before
the call to the address current after it. The jump that a structured-control-flow call writes is
the last branch or jump table of its span (`Span.lastJump`), and the call that closes the
construct says where it must go:

* the branch of `if_branch` goes to the address after the jump of the matching `else_branch`,
  or to the address current at the matching `patch_if`; the jump of `else_branch` goes to the
  address current at the matching `patch_else`;
* the entry jump of `loop_begin` goes to the address current at `patch_loop_begin`, and the
  branch of `loop_back` to the label that `loop_begin` or `do_loop_begin` wrote;
* the jumps of `break_loop` and `continue_loop` go to the address current at `patch_break`
  and `patch_continue` of their frame;
* the entry jump of `switch_begin` goes to the address current at `switch_table`, and the jump
  table of `switch_dispatch` goes to the case labels in order and by default to the default
  label, or past the table when there is none;
* the jump over the handlers, written by `catch_clauses_begin`, and the jump that ends each
  handler but the last, written by the next `catch_clause`, go to the address current at
  `catch_clauses_end`.

Matching is by nesting: ifs and elses pair innermost first, a frame is named by the index its
opening call returned, and catch clauses belong to the innermost try region. `MethodIntent`
follows one method through the calls on it; `Intent.run` follows a run of calls, in which
method bodies nest, and keeps each finished body with the jumps and labels meant for it.
-/
namespace AbcKit

/-- whether control can go elsewhere from the instruction: a branch or a jump table -/
def Instruction.isJump : Instruction → Bool
  | .branch .. | .lookupSwitch .. => true
  | _ => false

namespace Emit

/-- the code one call wrote into the open method: from `lo`, the address current before the
call, up to `hi`, the address current after it -/
structure Span where
  lo : Nat
  hi : Nat
deriving DecidableEq, Repr

/-- the last branch or jump table of a layout that starts inside the span -/
def Span.lastJump (sp : Span) (L : List (Nat × Instruction)) : Option (Nat × Instruction) :=
  (L.filter fun p => sp.lo ≤ p.1 && p.1 < sp.hi && p.2.isJump).getLast?

/-- the jump that the call of `span` wrote last, and the addresses it is meant to reach -/
structure Jump where
  span : Span
  targets : List Nat
deriving DecidableEq, Repr

/-- in the layout that jump exists and goes to exactly its targets, in order -/
def Jump.LandsIn (j : Jump) (L : List (Nat × Instruction)) : Prop :=
  ∃ s i, j.span.lastJump L = some (s, i) ∧ i.targets s = j.targets.map Nat.cast

/-- the jumps of `spans`, each meant for `t` -/
def Jump.toAll (spans : List Span) (t : Nat) : List Jump := spans.map fun sp => ⟨sp, [t]⟩

/-- an open loop, labelled block or switch: the jumps pending on it and its labels -/
structure FrameIntent where
  kind : FrameKind
  /-- the call whose jump enters the loop's condition or the switch's dispatch -/
  entry : Option Span := none
  /-- the address of the loop's label -/
  top : Option Nat := none
  breaks : List Span := []
  continues : List Span := []
  /-- the addresses of the case labels, in order -/
  cases : List Nat := []
  defaultCase : Option Nat := none
deriving Repr

/-- an open try region: its pending jumps over and out of the handlers -/
structure RegionIntent where
  hasFinally : Bool
  /-- the call whose jump skips the handlers -/
  skip : Option Span := none
  /-- the calls whose jumps end a handler -/
  ends : List Span := []
  /-- how many handlers have started -/
  clauses : Nat := 0
deriving Repr

/-- what the calls on one method have set up: pending ifs and elses (innermost first), open
frames (by index) and try regions (innermost last), the jumps whose targets are known, and the
addresses of the labels written for loops and cases -/
structure MethodIntent where
  ifs : List Span := []
  elses : List Span := []
  frames : List FrameIntent := []
  regions : List RegionIntent := []
  jumps : List Jump := []
  labels : List Nat := []
deriving Repr

namespace MethodIntent

/-- close the entry jump of frame `index` on `t` -/
def landEntry (lm : MethodIntent) (index t : Nat) : MethodIntent :=
  match lm.frames[index]? with
  | some { entry := some sp, .. } =>
    { lm with frames := lm.frames.modify index fun f => { f with entry := none }
              jumps := lm.jumps ++ [⟨sp, [t]⟩] }
  | _ => lm

/-- change the innermost try region -/
def modifyRegion (lm : MethodIntent) (f : RegionIntent → RegionIntent) : MethodIntent :=
  { lm with regions := lm.regions.modify (lm.regions.length - 1) f }

/-- a label ending span `sp` -/
def addLabel (lm : MethodIntent) (sp : Span) : MethodIntent :=
  { lm with labels := lm.labels ++ [sp.hi - 1] }

/-- open a frame -/
def addFrame (lm : MethodIntent) (f : FrameIntent) : MethodIntent :=
  { lm with frames := lm.frames ++ [f] }

/-- change frame `index` -/
def modifyFrame (lm : MethodIntent) (index : Nat) (f : FrameIntent → FrameIntent) :
    MethodIntent :=
  { lm with frames := lm.frames.modify index f }

/-- the intent after call `c`, which wrote the span `sp` -/
def step (lm : MethodIntent) (sp : Span) : Call → MethodIntent
  | .ifBranch _ => { lm with ifs := sp :: lm.ifs }
  | .elseBranch =>
    match lm.ifs with
    | s :: rest =>
      { lm with ifs := rest, elses := sp :: lm.elses, jumps := lm.jumps ++ [⟨s, [sp.hi]⟩] }
    | [] => lm
  | .patchIf =>
    match lm.ifs with
    | s :: rest => { lm with ifs := rest, jumps := lm.jumps ++ [⟨s, [sp.lo]⟩] }
    | [] => lm
  | .patchElse =>
    match lm.elses with
    | s :: rest => { lm with elses := rest, jumps := lm.jumps ++ [⟨s, [sp.lo]⟩] }
    | [] => lm
  | .loopBegin =>
    (lm.addFrame { kind := .loop, entry := some sp, top := some (sp.hi - 1) }).addLabel sp
  | .doLoopBegin => (lm.addFrame { kind := .loop, top := some (sp.hi - 1) }).addLabel sp
  | .labelBegin => lm.addFrame { kind := .label }
  | .switchBegin => lm.addFrame { kind := .switch, entry := some sp }
  | .patchLoopBegin index | .switchTable index => lm.landEntry index sp.lo
  | .loopBack index _ =>
    match lm.frames[index]? with
    | some { top := some t, .. } => { lm with jumps := lm.jumps ++ [⟨sp, [t]⟩] }
    | _ => lm
  | .continueLoop index =>
    lm.modifyFrame index fun f => { f with continues := f.continues ++ [sp] }
  | .breakLoop index => lm.modifyFrame index fun f => { f with breaks := f.breaks ++ [sp] }
  | .patchContinue index =>
    match lm.frames[index]? with
    | some f =>
      { lm.modifyFrame index (fun f => { f with continues := [] }) with
        jumps := lm.jumps ++ Jump.toAll f.continues sp.lo }
    | none => lm
  | .patchBreak index =>
    match lm.frames[index]? with
    | some f =>
      { lm with frames := lm.frames.take index
                jumps := lm.jumps ++ Jump.toAll (f.breaks ++ f.continues) sp.lo }
    | none => lm
  | .caseLabel index =>
    (lm.modifyFrame index fun f => { f with cases := f.cases ++ [sp.hi - 1] }).addLabel sp
  | .defaultLabel index =>
    (lm.modifyFrame index fun f => { f with defaultCase := some (sp.hi - 1) }).addLabel sp
  | .switchDispatch index =>
    match lm.frames[index]? with
    | some f =>
      -- a switch without cases has one case, the default
      let dflt := f.defaultCase.getD sp.hi
      { lm with jumps := lm.jumps ++ [⟨sp, dflt :: if f.cases.isEmpty then [dflt] else f.cases⟩] }
    | none => lm
  | .tryBegin hasFinally => { lm with regions := lm.regions ++ [{ hasFinally }] }
  | .catchClausesBegin => lm.modifyRegion fun r => { r with skip := some sp }
  | .catchClause _ _ =>
    lm.modifyRegion fun r =>
      if r.clauses > 0 then { r with ends := r.ends ++ [sp], clauses := r.clauses + 1 }
      else { r with clauses := r.clauses + 1 }
  | .catchClausesEnd =>
    match lm.regions.getLast? with
    | some r =>
      { lm with
        regions := if r.hasFinally then (lm.modifyRegion fun r => { r with skip := none, ends := [] }).regions
          else lm.regions.dropLast
        jumps := lm.jumps ++ Jump.toAll (r.skip.toList ++ r.ends) sp.lo }
    | none => lm
  | .finallyClauseEnd => { lm with regions := lm.regions.dropLast }
  | _ => lm

end MethodIntent

/-- a finished method body, with the jumps and labels its calls meant -/
structure Finished where
  body : List UInt8
  jumps : List Jump
  labels : List Nat

/-- the intents of the methods open during a run, innermost first, and the finished bodies -/
structure Intent where
  methods : List MethodIntent := []
  finished : List Finished := []

namespace Intent

/-- the code size of an open method, zero for none -/
def position (m : Option MethodState) : Nat := (m.map fun m => m.code.size).getD 0

/-- the intent after call `c`, with the innermost open method `before` and `after` it -/
def step (I : Intent) (before after : Option MethodState) (c : Call) : Intent :=
  match c, I.methods with
  | .startMethod _, ms => { I with methods := {} :: ms }
  | .finishMethod _, lm :: rest =>
    { methods := rest
      finished := I.finished ++
        [⟨(before.map fun m => m.code.toList).getD [], lm.jumps, lm.labels⟩] }
  | c, lm :: rest => { I with methods := lm.step ⟨position before, position after⟩ c :: rest }
  | _, [] => I

/-- follow the calls of a run through its steps, from the innermost open method `before` -/
def run (I : Intent) (before : Option MethodState) : List Call → List Step → Intent
  | c :: cs, st :: sts => (I.step before st.state c).run st.state cs sts
  | _, _ => I

end Intent

/-- the intent of a run of `calls` from `e` -/
def Emitter.intent (e : Emitter) (calls : List Call) : Intent :=
  Intent.run {} e.methods.head? calls (e.runCalls calls).1

end Emit

end AbcKit
