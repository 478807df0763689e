import AbcKit.Proofs.Constructs
/-!
Calls made out of order on the open method: a branch landed with none pending, a frame named by
an index with no frame, a try region in the wrong state, a depth popped from an empty stack.

Each such call is refused before it touches anything. Under strict ordering it aborts with a
message naming the call; otherwise it returns at once. Either way the emitter is left exactly
as the call found it: code, depths, scopes, registers, frames, regions and exception table.
`Emitter.RefusesOutOfOrder` lists the refusals and `Emitter.refusesOutOfOrder` proves them of
every emitter with an open method.

The guards look at what the call needs and at nothing more. The frame operations share one list
of frames and check no frame's kind, so `patch_loop_begin` on a switch lands the switch's entry
jump without a report (`Emitter.patchLoopBegin_lands_switch_entry`).
-/
namespace AbcKit.Emit

/-- The answer to a call refused as out of order, on state `s`: an abort with `msg` under strict
ordering, and otherwise the value `a`; the state is left as it was. -/
def Refusal {σ α : Type} (strict : Bool) (msg : String) (a : α) (s : σ) :
    EStateM.Result Halt σ α :=
  if strict then .error (.abort msg) s else .ok a s

/-- the report of a frame operation on an index with no frame -/
def noFrame (index : Nat) : String := "no loop, label or switch with index " ++ toString index

section Binds

variable {σ α β : Type} {strict : Bool} {msg : String}

/-- a refusal followed by a step that returns at once is the same refusal -/
theorem refusal_bind {x : EStateM Halt σ α} {f : α → EStateM Halt σ β} {s : σ} {a : α} {b : β}
    (hx : x s = Refusal strict msg a s) (hf : f a s = .ok b s) :
    (x >>= f) s = Refusal strict msg b s := by
  show EStateM.bind x f s = _
  unfold EStateM.bind
  cases strict
  · simp only [Refusal, Bool.false_eq_true, if_false] at hx ⊢
    rw [hx]
    exact hf
  · simp only [Refusal, if_true] at hx ⊢
    rw [hx]

end Binds

namespace MethodM

variable {m : MethodState} {msg : String}

theorem violation_refusal : MethodM.violation msg m = Refusal m.strict msg () m := by
  unfold MethodM.violation
  refine (EStateM.bind_of_ok rfl).trans ?_
  unfold Refusal
  cases m.strict <;> rfl

theorem frame_missing {index : Nat} (h : m.flow.loops.length ≤ index) :
    Emitter.frame index m = Refusal m.strict (noFrame index) none m := by
  unfold Emitter.frame
  refine (EStateM.bind_of_ok rfl).trans ?_
  simp only [List.getElem?_eq_none h]
  exact refusal_bind violation_refusal rfl

theorem frame_found {index : Nat} {f : LoopFrame} (h : m.flow.loops[index]? = some f) :
    Emitter.frame index m = .ok (some f) m := by
  unfold Emitter.frame
  refine (EStateM.bind_of_ok rfl).trans ?_
  simp only [h]
  rfl

/-- changing a frame by a function that leaves it as it is changes nothing -/
theorem modifyFrame_fixed {index : Nat} {f : LoopFrame} {g : LoopFrame → LoopFrame}
    (h : m.flow.loops[index]? = some f) (hg : g f = f) :
    Emitter.modifyFrame index g m = .ok () m := by
  have hloops : m.flow.loops.modify index g = m.flow.loops := by
    apply List.ext_getElem?
    intro j
    rw [List.getElem?_modify]
    by_cases hj : index = j
    · subst hj
      simp [h, hg]
    · simp [hj]
  unfold Emitter.modifyFrame
  show EStateM.Result.ok () { m with flow := { m.flow with loops := m.flow.loops.modify index g } } = _
  rw [hloops]

theorem popDepth_empty (h : m.depthStack = []) :
    MethodM.popDepth m = Refusal m.strict "depth stack is empty" () m := by
  unfold MethodM.popDepth
  refine (EStateM.bind_of_ok rfl).trans ?_
  simp only [h]
  exact violation_refusal

end MethodM

namespace Emitter

variable {e : Emitter} {m : MethodState} {rest : List MethodState} {α : Type} {msg : String}

theorem with_methods_self (hm : e.methods = m :: rest) : { e with methods := m :: rest } = e := by
  cases e
  cases hm
  rfl

/-- a step on the innermost method that it refuses is refused by the emitter -/
theorem onMethod_refusal {act : Pool → MethodM α} {a : α} (hm : e.methods = m :: rest)
    (h : act e.assembler.pool m = Refusal m.strict msg a m) :
    onMethod act e = Refusal m.strict msg a e := by
  unfold onMethod
  unfold Refusal at h ⊢
  cases hs : m.strict <;>
    simp only [hm, h, hs, with_methods_self hm, if_true, Bool.false_eq_true, if_false]

theorem onMethod_unchanged {act : Pool → MethodM α} {a : α} (hm : e.methods = m :: rest)
    (h : act e.assembler.pool m = .ok a m) : onMethod act e = .ok a e := by
  unfold onMethod
  simp only [hm, h]
  rw [with_methods_self hm]

theorem violation_refusal (hm : e.methods = m :: rest) :
    violation msg e = Refusal m.strict msg () e :=
  onMethod_refusal hm MethodM.violation_refusal

theorem current_eq (hm : e.methods = m :: rest) : current e = .ok m e := by
  unfold current
  refine (EStateM.bind_of_ok rfl).trans ?_
  simp only [hm]
  rfl

/-! ## Branches and frames -/

theorem patchIf_unpending (hm : e.methods = m :: rest) (h : m.flow.ifs = []) :
    patchIf e = Refusal m.strict "patch_if without a pending if" () e := by
  refine onMethod_refusal hm ((EStateM.bind_of_ok rfl).trans ?_)
  simp only [h]
  exact MethodM.violation_refusal

theorem patchElse_unpending (hm : e.methods = m :: rest) (h : m.flow.elses = []) :
    patchElse e = Refusal m.strict "patch_else without a pending else" () e := by
  refine onMethod_refusal hm ((EStateM.bind_of_ok rfl).trans ?_)
  simp only [h]
  exact MethodM.violation_refusal

section Missing

variable {index : Nat} (hm : e.methods = m :: rest) (h : m.flow.loops.length ≤ index)
include hm h

theorem patchLoopBegin_missing : patchLoopBegin index e = Refusal m.strict (noFrame index) () e :=
  onMethod_refusal hm (refusal_bind (MethodM.frame_missing h) rfl)

theorem loopBack_missing (op : BranchOp) :
    loopBack index op e = Refusal m.strict (noFrame index) () e :=
  refusal_bind (onMethod_refusal hm (MethodM.frame_missing h)) rfl

theorem continueLoop_missing : continueLoop index e = Refusal m.strict (noFrame index) () e :=
  refusal_bind (onMethod_refusal hm (MethodM.frame_missing h)) rfl

theorem breakLoop_missing : breakLoop index e = Refusal m.strict (noFrame index) () e :=
  refusal_bind (onMethod_refusal hm (MethodM.frame_missing h)) rfl

theorem patchContinue_missing : patchContinue index e = Refusal m.strict (noFrame index) () e :=
  onMethod_refusal hm (refusal_bind (MethodM.frame_missing h) rfl)

theorem patchBreak_missing : patchBreak index e = Refusal m.strict (noFrame index) () e :=
  onMethod_refusal hm (refusal_bind (MethodM.frame_missing h) rfl)

theorem switchLabel_missing : switchLabel index e = Refusal m.strict (noFrame index) none e :=
  refusal_bind (onMethod_refusal hm (MethodM.frame_missing h)) rfl

theorem caseLabel_missing : caseLabel index e = Refusal m.strict (noFrame index) () e :=
  refusal_bind (switchLabel_missing hm h) rfl

theorem defaultLabel_missing : defaultLabel index e = Refusal m.strict (noFrame index) () e :=
  refusal_bind (switchLabel_missing hm h) rfl

theorem switchTable_missing : switchTable index e = Refusal m.strict (noFrame index) () e :=
  onMethod_refusal hm (refusal_bind (MethodM.frame_missing h) rfl)

end Missing

section Found

variable {index : Nat} {f : LoopFrame} (hm : e.methods = m :: rest)
  (hf : m.flow.loops[index]? = some f)
include hm hf

theorem continueLoop_offLoop (hk : f.kind ≠ .loop) :
    continueLoop index e = Refusal m.strict "continue targets a label or switch" () e := by
  refine (EStateM.bind_of_ok (onMethod_unchanged hm (MethodM.frame_found hf))).trans ?_
  dsimp only
  rw [if_pos hk]
  exact refusal_bind (violation_refusal hm) rfl

theorem loopBack_withoutTop (ht : f.top = none) (op : BranchOp) :
    loopBack index op e = Refusal m.strict "loop_back on a frame without a loop top" () e := by
  refine (EStateM.bind_of_ok (onMethod_unchanged hm (MethodM.frame_found hf))).trans ?_
  simp only [ht]
  exact violation_refusal hm

theorem patchLoopBegin_withoutEntry (hentry : f.entry = none) :
    patchLoopBegin index e = Refusal m.strict "loop has no pending entry jump" () e := by
  have hkept : { f with entry := none } = f := by
    cases f
    cases hentry
    rfl
  refine onMethod_refusal hm ((EStateM.bind_of_ok (MethodM.frame_found hf)).trans ?_)
  refine (EStateM.bind_of_ok (MethodM.modifyFrame_fixed hf hkept)).trans ?_
  simp only [hentry]
  exact MethodM.violation_refusal

end Found

/-! ## Try regions and the depth stack -/

theorem openBlock_noTry {expected : List BlockState} {what : String} (hm : e.methods = m :: rest)
    (h : m.handlers = []) :
    openBlock expected what e = Refusal m.strict (what ++ " without an open try") none e := by
  refine (EStateM.bind_of_ok (current_eq hm)).trans ?_
  simp only [h, List.getLast?_nil]
  exact refusal_bind (violation_refusal hm) rfl

theorem openBlock_misplaced {expected : List BlockState} {what : String} {b : HandlerBlock}
    (hm : e.methods = m :: rest) (h : m.handlers.getLast? = some b)
    (hs : expected.contains b.state = false) :
    openBlock expected what e = Refusal m.strict (what ++ " in state " ++ b.state.name) none e := by
  refine (EStateM.bind_of_ok (current_eq hm)).trans ?_
  simp only [h, hs, Bool.false_eq_true, if_false]
  exact refusal_bind (violation_refusal hm) rfl

section Regions

variable {strict : Bool}

theorem catchClausesBegin_refused
    (h : openBlock [.protectedBody] "catch_clauses_begin" e = Refusal strict msg none e) :
    catchClausesBegin e = Refusal strict msg () e :=
  refusal_bind h rfl

theorem catchClause_refused {excType varName : Option Name}
    (h : openBlock [.catches] "catch_clause" e = Refusal strict msg none e) :
    catchClause excType varName e = Refusal strict msg 0 e :=
  refusal_bind h rfl

theorem catchClausesEnd_refused
    (h : openBlock [.catches] "catch_clauses_end" e = Refusal strict msg none e) :
    catchClausesEnd e = Refusal strict msg () e :=
  refusal_bind h rfl

theorem finallyClauseBegin_refused
    (h : openBlock [.protectedBody, .catches] "finally_clause_begin" e = Refusal strict msg none e) :
    finallyClauseBegin e = Refusal strict msg () e :=
  refusal_bind h rfl

theorem finallyClauseEnd_refused
    (h : openBlock [.finallyBody] "finally_clause_end" e = Refusal strict msg none e) :
    finallyClauseEnd e = Refusal strict msg () e :=
  refusal_bind h rfl

end Regions

theorem popDepth_empty (hm : e.methods = m :: rest) (h : m.depthStack = []) :
    popDepth e = Refusal m.strict "depth stack is empty" () e :=
  onMethod_refusal hm (MethodM.popDepth_empty h)

/-! ## Every out-of-order call is refused -/

/-- The calls that an emitter whose innermost method is `m` refuses as out of order, each with
its report and the value it returns when ordering is not strict. -/
structure RefusesOutOfOrder (e : Emitter) (m : MethodState) : Prop where
  ifUnpending : m.flow.ifs = [] →
    patchIf e = Refusal m.strict "patch_if without a pending if" () e
  elseUnpending : m.flow.elses = [] →
    patchElse e = Refusal m.strict "patch_else without a pending else" () e
  /-- every frame operation but `switch_dispatch`, on an index with no frame -/
  frameMissing : ∀ index, m.flow.loops.length ≤ index →
    patchLoopBegin index e = Refusal m.strict (noFrame index) () e ∧
    (∀ op, loopBack index op e = Refusal m.strict (noFrame index) () e) ∧
    continueLoop index e = Refusal m.strict (noFrame index) () e ∧
    breakLoop index e = Refusal m.strict (noFrame index) () e ∧
    patchContinue index e = Refusal m.strict (noFrame index) () e ∧
    patchBreak index e = Refusal m.strict (noFrame index) () e ∧
    caseLabel index e = Refusal m.strict (noFrame index) () e ∧
    defaultLabel index e = Refusal m.strict (noFrame index) () e ∧
    switchTable index e = Refusal m.strict (noFrame index) () e
  continueOffLoop : ∀ index f, m.flow.loops[index]? = some f → f.kind ≠ .loop →
    continueLoop index e = Refusal m.strict "continue targets a label or switch" () e
  /-- label and switch frames are opened without a top -/
  loopBackWithoutTop : ∀ index f, m.flow.loops[index]? = some f → f.top = none → ∀ op,
    loopBack index op e = Refusal m.strict "loop_back on a frame without a loop top" () e
  loopEntryLanded : ∀ index f, m.flow.loops[index]? = some f → f.entry = none →
    patchLoopBegin index e = Refusal m.strict "loop has no pending entry jump" () e
  tryMissing : m.handlers = [] →
    catchClausesBegin e = Refusal m.strict "catch_clauses_begin without an open try" () e ∧
    (∀ t v, catchClause t v e = Refusal m.strict "catch_clause without an open try" 0 e) ∧
    catchClausesEnd e = Refusal m.strict "catch_clauses_end without an open try" () e ∧
    finallyClauseBegin e = Refusal m.strict "finally_clause_begin without an open try" () e ∧
    finallyClauseEnd e = Refusal m.strict "finally_clause_end without an open try" () e
  /-- the innermost region `b` is in a state the call does not expect -/
  tryMisplaced : ∀ b, m.handlers.getLast? = some b →
    (b.state ≠ .protectedBody → catchClausesBegin e =
      Refusal m.strict ("catch_clauses_begin in state " ++ b.state.name) () e) ∧
    (b.state ≠ .catches →
      (∀ t v, catchClause t v e = Refusal m.strict ("catch_clause in state " ++ b.state.name) 0 e) ∧
      catchClausesEnd e = Refusal m.strict ("catch_clauses_end in state " ++ b.state.name) () e) ∧
    (b.state = .finallyBody →
      finallyClauseBegin e = Refusal m.strict "finally_clause_begin in state Finally" () e) ∧
    (b.state ≠ .finallyBody → finallyClauseEnd e =
      Refusal m.strict ("finally_clause_end in state " ++ b.state.name) () e)
  depthStackEmpty : m.depthStack = [] →
    popDepth e = Refusal m.strict "depth stack is empty" () e

theorem refusesOutOfOrder (hm : e.methods = m :: rest) : e.RefusesOutOfOrder m where
  ifUnpending := patchIf_unpending hm
  elseUnpending := patchElse_unpending hm
  frameMissing _ h := ⟨patchLoopBegin_missing hm h, loopBack_missing hm h,
    continueLoop_missing hm h, breakLoop_missing hm h, patchContinue_missing hm h,
    patchBreak_missing hm h, caseLabel_missing hm h, defaultLabel_missing hm h,
    switchTable_missing hm h⟩
  continueOffLoop _ _ hf hk := continueLoop_offLoop hm hf hk
  loopBackWithoutTop _ _ hf ht := loopBack_withoutTop hm hf ht
  loopEntryLanded _ _ hf hentry := patchLoopBegin_withoutEntry hm hf hentry
  tryMissing h := ⟨catchClausesBegin_refused (openBlock_noTry hm h),
    fun _ _ => catchClause_refused (openBlock_noTry hm h),
    catchClausesEnd_refused (openBlock_noTry hm h),
    finallyClauseBegin_refused (openBlock_noTry hm h),
    finallyClauseEnd_refused (openBlock_noTry hm h)⟩
  tryMisplaced b hb := by
    -- each call expects the region in states that `b.state` is not among
    refine ⟨fun hs => ?_, fun hs => ⟨fun _ _ => ?_, ?_⟩, fun hs => ?_, fun hs => ?_⟩
    · exact catchClausesBegin_refused (openBlock_misplaced hm hb (by simpa using hs))
    · exact catchClause_refused (openBlock_misplaced hm hb (by simpa using hs))
    · exact catchClausesEnd_refused (openBlock_misplaced hm hb (by simpa using hs))
    · have h := finallyClauseBegin_refused (openBlock_misplaced hm hb (by rw [hs]; rfl))
      rwa [hs] at h
    · exact finallyClauseEnd_refused (openBlock_misplaced hm hb (by simpa using hs))
  depthStackEmpty := popDepth_empty hm

end Emitter

/-- a strict method inside a label frame and a switch frame whose entry jump is landed, with a
region among its catch clauses -/
def MethodState.sampleOutOfOrder : MethodState :=
  { (default : MethodState) with
    strict := true
    flow := { loops := [
      { kind := .label, entry := none, top := none, stackDepth := 0, scopeDepth := 0 },
      { kind := .switch, entry := none, top := none, stackDepth := 0, scopeDepth := 0 }] }
    handlers := [{
      state := .catches, tryStart := 0, tryEnd := 0, entry := ⟨⟨0, 0, 0, 0⟩, []⟩
      loopDepth := 2, hasFinally := false, selector := none }] }

/-- the emitter with `MethodState.sampleOutOfOrder` open -/
def Emitter.sampleOutOfOrder : Emitter := { methods := [MethodState.sampleOutOfOrder] }

namespace Emitter

/-- In the sample, continuing the label, looping back to it, landing the switch's entry again,
and opening the catch clauses or ending a finally body while the region is among its catch
clauses are each refused with its report; so are patching an if with none pending, breaking out
of a frame past the two open ones, and popping the empty depth stack. -/
theorem refusesOutOfOrder_inFrames :
    sampleOutOfOrder.methods = [MethodState.sampleOutOfOrder] ∧
    continueLoop 0 sampleOutOfOrder =
      Refusal true "continue targets a label or switch" () sampleOutOfOrder ∧
    (∀ op, loopBack 0 op sampleOutOfOrder =
      Refusal true "loop_back on a frame without a loop top" () sampleOutOfOrder) ∧
    patchLoopBegin 1 sampleOutOfOrder =
      Refusal true "loop has no pending entry jump" () sampleOutOfOrder ∧
    catchClausesBegin sampleOutOfOrder =
      Refusal true ("catch_clauses_begin in state " ++ BlockState.catches.name) () sampleOutOfOrder ∧
    finallyClauseEnd sampleOutOfOrder =
      Refusal true ("finally_clause_end in state " ++ BlockState.catches.name) () sampleOutOfOrder ∧
    patchIf sampleOutOfOrder = Refusal true "patch_if without a pending if" () sampleOutOfOrder ∧
    breakLoop 2 sampleOutOfOrder = Refusal true (noFrame 2) () sampleOutOfOrder ∧
    popDepth sampleOutOfOrder = Refusal true "depth stack is empty" () sampleOutOfOrder := by
  have h : sampleOutOfOrder.RefusesOutOfOrder MethodState.sampleOutOfOrder := refusesOutOfOrder rfl
  have hmisplaced := h.tryMisplaced _ rfl
  exact ⟨rfl, h.continueOffLoop 0 _ rfl (by decide), h.loopBackWithoutTop 0 _ rfl rfl,
    h.loopEntryLanded 1 _ rfl rfl, hmisplaced.1 (by decide), hmisplaced.2.2.2 (by decide),
    h.ifUnpending rfl, (h.frameMissing 2 (by decide)).2.2.2.1, h.depthStackEmpty rfl⟩

/-- A switch's entry jump is landed by `patch_loop_begin` on the switch's frame, under strict
ordering and without a report: the frame operations do not look at a frame's kind. -/
theorem patchLoopBegin_lands_switch_entry :
    let switch : LoopFrame :=
      { kind := .switch, entry := some 0, top := none, stackDepth := 0, scopeDepth := 0 }
    let m : MethodState :=
      { (default : MethodState) with
        strict := true, code := ⟨#[0x10, 0, 0, 0, 0x02]⟩, flow := { loops := [switch] } }
    patchLoopBegin 0 { methods := [m] } =
      .ok () { methods := [{ m with
        code := ⟨#[0x10, 1, 0, 0, 0x02]⟩, flow := { loops := [{ switch with entry := none }] } }] } := by
  rfl

end Emitter

end AbcKit.Emit
