import AbcKit.Proofs.Frame
/-!
An open method keeps the name it was opened with.

Opening and finishing a method push and pop the stack of open methods; every other call changes
at most the innermost open method, and no step on a method touches its name
(`MethodM.KeepsName`). So every other call, whether it succeeds or fails, leaves the names of
the open methods as they were (`Emitter.perform_keepsNames`).
-/
namespace AbcKit.Emit

/-- the name as it was -/
def MethodState.SameName (m m' : MethodState) : Prop := m'.name = m.name

instance : IsPreorder MethodState MethodState.SameName where
  refl _ := rfl
  trans _ _ _ h h' := h'.trans h

namespace MethodM

/-- a step on a method that leaves its name, whether it succeeds or fails -/
def KeepsName {α : Type} (act : MethodM α) : Prop :=
  Triple MethodState.SameName (fun _ => True) act fun _ _ => True

namespace KeepsName

variable {α β : Type}

theorem pure (x : α) : KeepsName (Pure.pure x : MethodM α) := Triple.pure fun _ _ => trivial

theorem bind {x : MethodM α} {f : α → MethodM β} (hx : KeepsName x) (hf : ∀ a, KeepsName (f a)) :
    KeepsName (x >>= f) := Triple.bind hx hf

theorem get : KeepsName (MonadState.get : MethodM MethodState) :=
  Triple.get.consequence (fun _ h => h) fun _ _ _ => trivial

theorem throw (h : Halt) : KeepsName (throw h : MethodM α) := Triple.throw

theorem modify {f : MethodState → MethodState} (h : ∀ m, (f m).name = m.name) :
    KeepsName (modify f : MethodM PUnit) := Triple.modify fun m _ => ⟨h m, trivial⟩

theorem discard {x : MethodM α} (hx : KeepsName x) : KeepsName (Functor.discard x) :=
  Triple.discard (hx.consequence (fun _ h => h) fun _ _ _ => trivial)

theorem map {x : MethodM α} {f : α → β} (hx : KeepsName x) : KeepsName (f <$> x) :=
  (Triple.map hx).consequence (fun _ h => h) fun _ _ _ => trivial

theorem forM {f : α → MethodM PUnit} (hf : ∀ x, KeepsName (f x)) :
    ∀ l : List α, KeepsName (l.forM f)
  | [] => pure _
  | x :: l => (hf x).bind fun _ => forM hf l

theorem of_read {act : MethodM α} {m : MethodState} (h : KeepsName act) :
    Triple MethodState.SameName (fun s => m = s ∧ True) act fun _ _ => True :=
  h.consequence (fun _ _ => trivial) fun _ _ h => h

/-- writing back the state just read, changed in other fields than its name -/
theorem set_read {m m₀ : MethodState} (h : m₀.name = m.name) :
    Triple MethodState.SameName (fun s => m = s ∧ True) (set m₀ : MethodM PUnit)
      fun _ _ => True :=
  Triple.set fun _ ⟨hs, _⟩ => ⟨hs ▸ h, trivial⟩

end KeepsName

theorem violation_keepsName (msg : String) : KeepsName (violation msg) := by
  unfold violation
  refine KeepsName.get.bind fun m => ?_
  split
  · exact KeepsName.throw _
  · exact KeepsName.pure _

theorem position_keepsName : KeepsName position :=
  KeepsName.get.bind fun _ => KeepsName.pure _

theorem displacement_keepsName (v : Int) : KeepsName (displacement v) := by
  unfold displacement
  split
  · exact KeepsName.pure _
  · exact KeepsName.throw _

theorem emit_keepsName (pool : Pool) (i : Instruction) : KeepsName (emit pool i) := by
  unfold emit
  refine Triple.get.bind fun m => ?_
  dsimp only
  refine (KeepsName.set_read (by rfl)).bind fun _ => ?_
  show KeepsName _
  repeat' with_reducible first
    | exact KeepsName.pure _
    | exact KeepsName.get
    | exact KeepsName.throw _
    | exact KeepsName.modify fun _ => rfl
    | exact violation_keepsName _
    | apply KeepsName.bind
    | split
    | (intro _)

theorem reserveBranch_keepsName (pool : Pool) (op : BranchOp) :
    KeepsName (reserveBranch pool op) := emit_keepsName _ _

theorem branchTo_keepsName (pool : Pool) (op : BranchOp) (target : Nat) :
    KeepsName (branchTo pool op target) :=
  position_keepsName.bind fun _ => (displacement_keepsName _).bind fun _ =>
    (emit_keepsName _ _).discard

theorem patch_keepsName (site target : Nat) : KeepsName (patch site target) := by
  unfold patch
  refine (displacement_keepsName _).bind fun _ => KeepsName.get.bind fun _ => ?_
  split
  · exact KeepsName.throw _
  · exact KeepsName.throw _
  · exact KeepsName.modify fun _ => rfl

theorem patchHere_keepsName (site : Nat) : KeepsName (patchHere site) :=
  position_keepsName.bind fun _ => patch_keepsName _ _

theorem adjustStack_keepsName (delta : Int) : KeepsName (adjustStack delta) := by
  unfold adjustStack
  refine KeepsName.get.bind fun _ => ?_
  split
  refine (KeepsName.modify fun _ => by rfl).bind fun _ => ?_
  split
  · exact KeepsName.pure _
  · exact violation_keepsName _

theorem setStack_keepsName (n : Nat) : KeepsName (setStack n) := KeepsName.modify fun _ => rfl

theorem pushDepth_keepsName : KeepsName pushDepth := KeepsName.modify fun _ => rfl

theorem popDepth_keepsName : KeepsName popDepth := by
  unfold popDepth
  refine KeepsName.get.bind fun _ => ?_
  split
  · exact KeepsName.modify fun _ => rfl
  · exact violation_keepsName _

theorem allocTemp_keepsName : KeepsName allocTemp := by
  unfold allocTemp
  refine KeepsName.get.bind fun _ => ?_
  split
  · exact (KeepsName.modify fun _ => by rfl).bind fun _ => KeepsName.pure _
  · exact KeepsName.throw _

theorem freeTemp_keepsName (reg : UInt32) : KeepsName (freeTemp reg) := by
  unfold freeTemp
  refine KeepsName.get.bind fun _ => ?_
  split
  refine (KeepsName.modify fun _ => by rfl).bind fun _ => ?_
  split
  · exact KeepsName.pure _
  · exact violation_keepsName _

theorem snapshot_keepsName : KeepsName snapshot := KeepsName.get.bind fun _ => KeepsName.pure _

theorem restore_keepsName (s : Snapshot) : KeepsName (restore s) := KeepsName.modify fun _ => rfl

end MethodM

namespace Emitter

open MethodM

theorem reconcile_keepsName (branchDepth : Nat) : KeepsName (reconcile branchDepth) := by
  unfold reconcile
  refine KeepsName.get.bind fun _ => ?_
  dsimp only
  split
  · exact (violation_keepsName _).bind fun _ => setStack_keepsName _
  · exact KeepsName.pure _

theorem frame_keepsName (index : Nat) : KeepsName (frame index) := by
  unfold frame
  refine KeepsName.get.bind fun _ => ?_
  split
  · exact KeepsName.pure _
  · exact (violation_keepsName _).bind fun _ => KeepsName.pure _

theorem modifyFrame_keepsName (index : Nat) (f : LoopFrame → LoopFrame) :
    KeepsName (modifyFrame index f) := KeepsName.modify fun _ => rfl

end Emitter

/-! ## Calls on the emitter -/

/-- the names of the open methods, innermost first, as they were -/
def Emitter.SameNames (e e' : Emitter) : Prop :=
  e'.methods.map MethodState.name = e.methods.map MethodState.name

instance : IsPreorder Emitter Emitter.SameNames where
  refl _ := rfl
  trans _ _ _ h h' := h'.trans h

/-- a call that leaves the names of the open methods, whether it succeeds or fails -/
def KeepsNames {α : Type} (act : EmitM α) : Prop :=
  Triple Emitter.SameNames (fun _ => True) act fun _ _ => True

namespace KeepsNames

variable {α β : Type}

theorem pure (x : α) : KeepsNames (Pure.pure x : EmitM α) := Triple.pure fun _ _ => trivial

theorem bind {x : EmitM α} {f : α → EmitM β} (hx : KeepsNames x) (hf : ∀ a, KeepsNames (f a)) :
    KeepsNames (x >>= f) := Triple.bind hx hf

theorem get : KeepsNames (MonadState.get : EmitM Emitter) :=
  Triple.get.consequence (fun _ h => h) fun _ _ _ => trivial

theorem throw (h : Halt) : KeepsNames (throw h : EmitM α) := Triple.throw

theorem modify {f : Emitter → Emitter} (h : ∀ e, (f e).methods = e.methods) :
    KeepsNames (modify f : EmitM PUnit) :=
  Triple.modify fun e _ => ⟨by simp only [Emitter.SameNames, h], trivial⟩

theorem discard {x : EmitM α} (hx : KeepsNames x) : KeepsNames (Functor.discard x) :=
  Triple.discard (hx.consequence (fun _ h => h) fun _ _ _ => trivial)

theorem map {x : EmitM α} {f : α → β} (hx : KeepsNames x) : KeepsNames (f <$> x) :=
  (Triple.map hx).consequence (fun _ h => h) fun _ _ _ => trivial

theorem mapM {f : α → EmitM β} (hf : ∀ x, KeepsNames (f x)) : ∀ l : List α, KeepsNames (l.mapM f)
  | [] => pure _
  | x :: l => by
    rw [List.mapM_cons]
    exact (hf x).bind fun _ => (mapM hf l).bind fun _ => pure _

end KeepsNames

namespace Emitter

open MethodM

variable {α : Type}

theorem onMethod_keepsNames {act : Pool → MethodM α} (h : ∀ pool, (act pool).KeepsName) :
    KeepsNames (onMethod act) := by
  intro e _
  refine ⟨?_, fun _ _ _ => trivial⟩
  unfold onMethod
  split
  · exact refl_of Emitter.SameNames e
  · next m rest hm =>
    have hname := (h e.assembler.pool m trivial).1
    split <;> rename_i heq <;> rw [heq] at hname <;>
      simp only [endState_ok, endState_error, MethodState.SameName] at hname <;>
      simp only [endState_ok, endState_error, Emitter.SameNames, hm, List.map_cons, hname]

theorem onAssembler_keepsNames {act : AssemblerM α} : KeepsNames (onAssembler act) := by
  intro e _
  refine ⟨?_, fun _ _ _ => trivial⟩
  unfold onAssembler
  split <;> exact refl_of Emitter.SameNames e

theorem onPool_keepsNames {act : StateM Pool α} : KeepsNames (onPool act) :=
  onAssembler_keepsNames

theorem current_keepsNames : KeepsNames current := by
  unfold current
  refine KeepsNames.get.bind fun _ => ?_
  split
  · exact KeepsNames.pure _
  · exact KeepsNames.throw _

theorem emitRaw_keepsNames (i : Instruction) : KeepsNames (emitRaw i) :=
  onMethod_keepsNames fun pool => emit_keepsName pool i

theorem flushPosition_keepsNames : KeepsNames flushPosition := by
  unfold flushPosition
  repeat' with_reducible first
    | exact KeepsNames.pure _
    | exact KeepsNames.get
    | exact emitRaw_keepsNames _
    | exact onPool_keepsNames
    | exact KeepsNames.modify fun _ => rfl
    | apply KeepsNames.discard
    | apply KeepsNames.bind
    | (intro _)
    | split

theorem emit_keepsNames (i : Instruction) : KeepsNames (emit i) :=
  flushPosition_keepsNames.bind fun _ => emitRaw_keepsNames i

theorem simple_keepsNames (op : SimpleOp) : KeepsNames (simple op) := (emit_keepsNames _).discard

theorem reserve_keepsNames (op : BranchOp) : KeepsNames (reserve op) :=
  flushPosition_keepsNames.bind fun _ => onMethod_keepsNames fun pool => reserveBranch_keepsName pool op

theorem branchBack_keepsNames (op : BranchOp) (target : Nat) : KeepsNames (branchBack op target) :=
  flushPosition_keepsNames.bind fun _ =>
    onMethod_keepsNames fun pool => branchTo_keepsName pool op target

theorem patchHere_keepsNames (site : Nat) : KeepsNames (patchHere site) :=
  onMethod_keepsNames fun _ => patchHere_keepsName site

theorem label_keepsNames : KeepsNames label := emit_keepsNames _

theorem violation_keepsNames (msg : String) : KeepsNames (violation msg) :=
  onMethod_keepsNames fun _ => violation_keepsName msg

theorem setPosition_keepsNames (file : String) (line : UInt32) :
    KeepsNames (setPosition file line) := KeepsNames.modify fun _ => rfl

theorem setLine_keepsNames (line : UInt32) : KeepsNames (setLine line) :=
  KeepsNames.modify fun _ => rfl

theorem debugRegister_keepsNames (name : String) (reg : UInt32) :
    KeepsNames (debugRegister name reg) := by
  unfold debugRegister
  refine KeepsNames.get.bind fun e => ?_
  split
  · exact KeepsNames.pure _
  · split
    · exact violation_keepsNames _
    · exact onPool_keepsNames.bind fun _ => (emit_keepsNames _).discard

theorem coverageRecord_keepsNames (taken : Bool) : KeepsNames (coverageRecord taken) := by
  unfold coverageRecord
  repeat' with_reducible first
    | exact KeepsNames.pure _
    | exact KeepsNames.get
    | exact emitRaw_keepsNames _
    | exact onPool_keepsNames
    | exact KeepsNames.modify fun _ => rfl
    | apply KeepsNames.discard
    | apply KeepsNames.bind
    | (intro _)
    | split

/-! ### The instruction catalogue -/

theorem nameOp_keepsNames (op : NameOp) (n : Name) : KeepsNames (nameOp op n) :=
  onPool_keepsNames.bind fun _ => (emit_keepsNames _).discard

theorem callNameOp_keepsNames (op : CallNameOp) (n : Name) (argCount : UInt32) :
    KeepsNames (callNameOp op n argCount) :=
  onPool_keepsNames.bind fun _ => (emit_keepsNames _).discard

theorem registerOp_keepsNames (op : RegisterOp) (reg : UInt32) : KeepsNames (registerOp op reg) :=
  (emit_keepsNames _).discard

theorem staticName_keepsNames (n : Name) (what : String) : KeepsNames (staticName n what) := by
  unfold staticName
  refine onPool_keepsNames.bind fun i => KeepsNames.get.bind fun e => ?_
  split
  · exact KeepsNames.throw _
  · exact KeepsNames.pure _

theorem getLocal_keepsNames (reg : UInt32) : KeepsNames (getLocal reg) := by
  unfold getLocal
  split
  · exact simple_keepsNames _
  · exact simple_keepsNames _
  · exact simple_keepsNames _
  · exact simple_keepsNames _
  · exact registerOp_keepsNames _ _

theorem setLocal_keepsNames (reg : UInt32) : KeepsNames (setLocal reg) := by
  unfold setLocal
  split
  · exact simple_keepsNames _
  · exact simple_keepsNames _
  · exact simple_keepsNames _
  · exact simple_keepsNames _
  · exact registerOp_keepsNames _ _

theorem kill_keepsNames (reg : UInt32) : KeepsNames (kill reg) := registerOp_keepsNames _ _

theorem allocTemp_keepsNames : KeepsNames allocTemp :=
  onMethod_keepsNames fun _ => allocTemp_keepsName

theorem freeTemp_keepsNames (reg : UInt32) : KeepsNames (freeTemp reg) :=
  (kill_keepsNames reg).bind fun _ => onMethod_keepsNames fun _ => freeTemp_keepsName reg

theorem pushInt_keepsNames (v : Int32) : KeepsNames (pushInt v) :=
  onPool_keepsNames.bind fun _ => (emit_keepsNames _).discard

theorem pushUint_keepsNames (v : UInt32) : KeepsNames (pushUint v) :=
  onPool_keepsNames.bind fun _ => (emit_keepsNames _).discard

theorem pushDouble_keepsNames (bits : UInt64) : KeepsNames (pushDouble bits) := by
  unfold pushDouble
  split
  · exact simple_keepsNames _
  · exact onPool_keepsNames.bind fun _ => (emit_keepsNames _).discard

theorem pushString_keepsNames (str : String) : KeepsNames (pushString str) :=
  onPool_keepsNames.bind fun _ => (emit_keepsNames _).discard

theorem pushBool_keepsNames (b : Bool) : KeepsNames (pushBool b) := simple_keepsNames _

theorem pushNamespace_keepsNames (space : Namespace) : KeepsNames (pushNamespace space) :=
  onPool_keepsNames.bind fun _ => (emit_keepsNames _).discard

theorem getSuper_keepsNames (n : Name) : KeepsNames (getSuper n) :=
  (staticName_keepsNames n _).bind fun _ => (emit_keepsNames _).discard

theorem setSuper_keepsNames (n : Name) : KeepsNames (setSuper n) :=
  (staticName_keepsNames n _).bind fun _ => (emit_keepsNames _).discard

theorem callSuper_keepsNames (op : CallNameOp) (n : Name) (argCount : UInt32) :
    KeepsNames (callSuper op n argCount) :=
  (staticName_keepsNames n _).discard.bind fun _ => callNameOp_keepsNames op n argCount

theorem pushSaved_keepsNames (reg : UInt32) (isWith : Bool) : KeepsNames (pushSaved reg isWith) :=
  (getLocal_keepsNames reg).bind fun _ => (simple_keepsNames _).bind fun _ =>
    onMethod_keepsNames fun _ => KeepsName.modify fun _ => by rfl

theorem popScope_keepsNames : KeepsNames popScope := simple_keepsNames _

theorem throwValue_keepsNames : KeepsNames throwValue := simple_keepsNames _

theorem unary_keepsNames (o : UnaryOperator) : KeepsNames (unary o) := simple_keepsNames _

theorem binary_keepsNames (o : BinaryOperator) : KeepsNames (binary o) := by
  unfold binary
  generalize o.ops = ops
  obtain ⟨op, negated⟩ := ops
  refine (simple_keepsNames op).bind fun _ => ?_
  cases negated
  · exact KeepsNames.pure _
  · exact simple_keepsNames _

theorem dxns_keepsNames (uri : String) : KeepsNames (dxns uri) :=
  onPool_keepsNames.bind fun _ => (emit_keepsNames _).discard.bind fun _ =>
    onMethod_keepsNames fun _ => KeepsName.modify fun _ => by rfl

theorem dxnsLate_keepsNames : KeepsNames dxnsLate :=
  (simple_keepsNames _).bind fun _ => onMethod_keepsNames fun _ => KeepsName.modify fun _ => by rfl

theorem popScopesWithin_keepsNames (depth : Nat) :
    ∀ fuel, KeepsNames (popScopesWithin depth fuel)
  | 0 => KeepsNames.pure _
  | fuel + 1 => by
    unfold popScopesWithin
    refine current_keepsNames.bind fun m => ?_
    split
    · exact popScope_keepsNames.bind fun _ => popScopesWithin_keepsNames depth fuel
    · exact KeepsNames.pure _

theorem popScopesTo_keepsNames (depth : Nat) : KeepsNames (popScopesTo depth) :=
  current_keepsNames.bind fun _ => popScopesWithin_keepsNames depth _

/-! ### Try regions -/

theorem handler_keepsNames (index : Nat) : KeepsNames (handler index) :=
  current_keepsNames.bind fun _ => KeepsNames.pure _

theorem modifyHandler_keepsNames (index : Nat) (f : HandlerBlock → HandlerBlock) :
    KeepsNames (modifyHandler index f) := onMethod_keepsNames fun _ => KeepsName.modify fun _ => by rfl

theorem openBlock_keepsNames (expected : List BlockState) (what : String) :
    KeepsNames (openBlock expected what) := by
  unfold openBlock
  refine current_keepsNames.bind fun m => ?_
  split
  · exact (violation_keepsNames _).bind fun _ => KeepsNames.pure _
  · split
    · exact KeepsNames.pure _
    · exact (violation_keepsNames _).bind fun _ => KeepsNames.pure _

theorem position_keepsNames : KeepsNames position :=
  current_keepsNames.bind fun _ => KeepsNames.pure _

theorem dispatch_keepsNames (dflt : Nat) (cases : List Nat) : KeepsNames (dispatch dflt cases) :=
  flushPosition_keepsNames.bind fun _ => position_keepsNames.bind fun _ =>
    (emitRaw_keepsNames _).discard

theorem callSite_keepsNames (index : Nat) : KeepsNames (callSite index) :=
  (handler_keepsNames index).bind fun _ => (pushInt_keepsNames _).bind fun _ =>
    (reserve_keepsNames _).bind fun _ =>
      (onMethod_keepsNames fun _ => adjustStack_keepsName _).bind fun _ =>
        label_keepsNames.bind fun _ => modifyHandler_keepsNames _ _

theorem pushEntryScopes_keepsNames (init : Nat) :
    ∀ depth scopes, KeepsNames (pushEntryScopes init depth scopes)
  | _, [] => KeepsNames.pure _
  | _, none :: _ => KeepsNames.throw _
  | depth, some sc :: rest =>
    (pushSaved_keepsNames sc.register sc.isWith).bind fun _ =>
      pushEntryScopes_keepsNames init (depth + 1) rest

theorem enterHandler_keepsNames (index : Nat) : KeepsNames (enterHandler index) :=
  (handler_keepsNames index).bind fun _ => current_keepsNames.bind fun _ =>
    (onMethod_keepsNames fun _ => KeepsName.modify fun _ => by rfl).bind fun _ =>
      pushEntryScopes_keepsNames _ _ _

theorem unwindFrom_keepsNames (loopIndex : Option Nat) (limit : Nat) :
    ∀ indices called, KeepsNames (unwindFrom loopIndex limit indices called)
  | [], _ => KeepsNames.pure _
  | index :: rest, called => by
    unfold unwindFrom
    split
    · exact KeepsNames.pure _
    · refine (handler_keepsNames index).bind fun block => ?_
      split
      · exact KeepsNames.pure _
      · refine (popScopesTo_keepsNames _).bind fun _ => ?_
        split
        · exact (callSite_keepsNames index).bind fun _ =>
            unwindFrom_keepsNames loopIndex limit rest _
        · exact unwindFrom_keepsNames loopIndex limit rest _

theorem unwind_keepsNames (loopIndex : Option Nat) (limit : Nat) :
    KeepsNames (unwind loopIndex limit) :=
  current_keepsNames.bind fun _ => unwindFrom_keepsNames loopIndex limit _ _

theorem tryBegin_keepsNames (hasFinally : Bool) : KeepsNames (tryBegin hasFinally) := by
  refine flushPosition_keepsNames.bind fun _ => onMethod_keepsNames fun _ => ?_
  dsimp only
  split <;> refine KeepsName.bind ?_ fun _ => Triple.get.bind fun m => KeepsName.set_read (by rfl)
  · exact allocTemp_keepsName.map
  · exact KeepsName.pure _

theorem catchClausesBegin_keepsNames : KeepsNames catchClausesBegin := by
  unfold catchClausesBegin
  refine (openBlock_keepsNames _ _).bind fun r => ?_
  split
  · exact flushPosition_keepsNames.bind fun _ => position_keepsNames.bind fun _ =>
      (modifyHandler_keepsNames _ _).bind fun _ => (reserve_keepsNames _).bind fun _ =>
        modifyHandler_keepsNames _ _
  · exact KeepsNames.pure _

theorem catchClause_keepsNames (excType varName : Option Name) :
    KeepsNames (catchClause excType varName) := by
  unfold catchClause
  repeat' with_reducible first
    | exact KeepsNames.pure _
    | exact KeepsNames.get
    | exact openBlock_keepsNames _ _
    | exact handler_keepsNames _
    | exact reserve_keepsNames _
    | exact modifyHandler_keepsNames _ _
    | exact onPool_keepsNames
    | exact flushPosition_keepsNames
    | exact position_keepsNames
    | exact onMethod_keepsNames fun _ => KeepsName.modify fun _ => by rfl
    | exact current_keepsNames
    | exact enterHandler_keepsNames _
    | apply KeepsNames.bind
    | (intro _)
    | split
    | dsimp only

theorem catchClausesEnd_keepsNames : KeepsNames catchClausesEnd := by
  unfold catchClausesEnd
  refine (openBlock_keepsNames _ _).bind fun r => ?_
  split
  · refine (handler_keepsNames _).bind fun _ => (modifyHandler_keepsNames _ _).bind fun _ =>
      onMethod_keepsNames fun _ => ?_
    refine (KeepsName.forM patchHere_keepsName _).bind fun _ =>
      (restore_keepsName _).bind fun _ => ?_
    split
    · exact KeepsName.pure _
    · exact KeepsName.modify fun _ => by rfl
  · exact KeepsNames.pure _

theorem finallyClauseBegin_keepsNames : KeepsNames finallyClauseBegin := by
  unfold finallyClauseBegin
  repeat' with_reducible first
    | exact KeepsNames.pure _
    | exact openBlock_keepsNames _ _
    | exact flushPosition_keepsNames
    | exact position_keepsNames
    | exact handler_keepsNames _
    | exact violation_keepsNames _
    | exact modifyHandler_keepsNames _ _
    | exact callSite_keepsNames _
    | exact reserve_keepsNames _
    | exact onMethod_keepsNames fun _ => KeepsName.modify fun _ => by rfl
    | exact onMethod_keepsNames fun _ => (KeepsName.forM patchHere_keepsName _).bind fun _ =>
        (restore_keepsName _).bind fun _ => adjustStack_keepsName _
    | exact enterHandler_keepsNames _
    | exact allocTemp_keepsNames
    | exact setLocal_keepsNames _
    | exact getLocal_keepsNames _
    | exact freeTemp_keepsNames _
    | exact throwValue_keepsNames
    | apply KeepsNames.bind
    | (intro _)
    | split

theorem finallyClauseEnd_keepsNames : KeepsNames finallyClauseEnd := by
  unfold finallyClauseEnd
  repeat' with_reducible first
    | exact KeepsNames.pure _
    | exact KeepsNames.throw _
    | exact openBlock_keepsNames _ _
    | exact handler_keepsNames _
    | exact kill_keepsNames _
    | exact branchBack_keepsNames _ _
    | exact getLocal_keepsNames _
    | exact dispatch_keepsNames _ _
    | exact KeepsName.pure _
    | exact KeepsName.get
    | exact KeepsName.modify fun _ => rfl
    | exact patchHere_keepsName _
    | exact freeTemp_keepsName _
    | exact restore_keepsName _
    | apply KeepsNames.bind
    | apply KeepsName.bind
    | apply onMethod_keepsNames
    | (intro _)
    | split

theorem callFinallies_keepsNames (limit : Nat) : KeepsNames (callFinallies limit) :=
  unwind_keepsNames none limit

theorem hasPendingFinally_keepsNames : KeepsNames hasPendingFinally :=
  current_keepsNames.bind fun _ => KeepsNames.pure _

theorem returnValue_keepsNames : KeepsNames returnValue := by
  unfold returnValue
  refine hasPendingFinally_keepsNames.bind fun pending => ?_
  split
  · exact (simple_keepsNames _).bind fun _ => KeepsNames.pure _
  · exact (onMethod_keepsNames fun _ => snapshot_keepsName).bind fun _ =>
      allocTemp_keepsNames.bind fun _ => (setLocal_keepsNames _).bind fun _ =>
        current_keepsNames.bind fun _ => (unwind_keepsNames _ _).discard.bind fun _ =>
          (getLocal_keepsNames _).bind fun _ => (kill_keepsNames _).bind fun _ =>
            (simple_keepsNames _).bind fun _ => onMethod_keepsNames fun _ =>
              (freeTemp_keepsName _).bind fun _ => (restore_keepsName _).bind fun _ =>
                adjustStack_keepsName _

theorem returnVoid_keepsNames : KeepsNames returnVoid := by
  unfold returnVoid
  refine hasPendingFinally_keepsNames.bind fun pending => ?_
  split
  · exact (simple_keepsNames _).bind fun _ => KeepsNames.pure _
  · exact (onMethod_keepsNames fun _ => snapshot_keepsName).bind fun _ =>
      current_keepsNames.bind fun _ => (unwind_keepsNames _ _).discard.bind fun _ =>
        (simple_keepsNames _).bind fun _ => onMethod_keepsNames fun _ => restore_keepsName _

/-! ### Structured control flow -/

theorem conditional_keepsNames (op : BranchOp) : KeepsNames (conditional op) := by
  unfold conditional
  refine KeepsNames.get.bind fun e => ?_
  split
  · exact reserve_keepsNames op
  · exact (reserve_keepsNames op).bind fun _ => (coverageRecord_keepsNames _).bind fun _ =>
      (reserve_keepsNames _).bind fun _ => (patchHere_keepsNames _).bind fun _ =>
        label_keepsNames.discard.bind fun _ => (coverageRecord_keepsNames _).bind fun _ =>
          (reserve_keepsNames _).bind fun _ => (patchHere_keepsNames _).bind fun _ =>
            label_keepsNames.discard.bind fun _ => KeepsNames.pure _

theorem pushDepth_keepsNames : KeepsNames pushDepth :=
  onMethod_keepsNames fun _ => pushDepth_keepsName

theorem popDepth_keepsNames : KeepsNames popDepth :=
  onMethod_keepsNames fun _ => popDepth_keepsName

theorem ifBranch_keepsNames (op : BranchOp) : KeepsNames (ifBranch op) :=
  (conditional_keepsNames op).bind fun _ => onMethod_keepsNames fun _ => KeepsName.modify fun _ => by rfl

/-- landing a pending if-branch or else-jump: the frame is dropped from the state read, with only
its control flow changed -/
theorem elseBranch_keepsNames : KeepsNames elseBranch := by
  refine (reserve_keepsNames _).bind fun _ => onMethod_keepsNames fun _ => ?_
  refine Triple.get.bind fun m => ?_
  split
  · exact (violation_keepsName _).of_read
  · refine (KeepsName.set_read (by rfl)).bind fun _ => ?_
    exact (patchHere_keepsName _).bind fun _ => (setStack_keepsName _).bind fun _ =>
      KeepsName.modify fun _ => by rfl

theorem patchIf_keepsNames : KeepsNames patchIf := by
  refine onMethod_keepsNames fun _ => Triple.get.bind fun m => ?_
  split
  · exact (violation_keepsName _).of_read
  · exact (KeepsName.set_read (by rfl)).bind fun _ =>
      (patchHere_keepsName _).bind fun _ => reconcile_keepsName _

theorem patchElse_keepsNames : KeepsNames patchElse := by
  refine onMethod_keepsNames fun _ => Triple.get.bind fun m => ?_
  split
  · exact (violation_keepsName _).of_read
  · exact (KeepsName.set_read (by rfl)).bind fun _ =>
      (patchHere_keepsName _).bind fun _ => reconcile_keepsName _

theorem pushFrame_keepsNames (kind : FrameKind) (entry top : Option Nat) :
    KeepsNames (pushFrame kind entry top) :=
  onMethod_keepsNames fun _ => Triple.get.bind fun _ =>
    (KeepsName.set_read (by rfl)).bind fun _ => KeepsName.pure _

theorem loopBegin_keepsNames : KeepsNames loopBegin :=
  (reserve_keepsNames _).bind fun _ => label_keepsNames.bind fun _ => pushFrame_keepsNames _ _ _

theorem doLoopBegin_keepsNames : KeepsNames doLoopBegin :=
  label_keepsNames.bind fun _ => pushFrame_keepsNames _ _ _

theorem labelBegin_keepsNames : KeepsNames labelBegin := pushFrame_keepsNames _ _ _

theorem patchLoopBegin_keepsNames (index : Nat) : KeepsNames (patchLoopBegin index) := by
  refine onMethod_keepsNames fun _ => (frame_keepsName index).bind fun f => ?_
  split
  · refine (modifyFrame_keepsName _ _).bind fun _ => ?_
    split
    · exact patchHere_keepsName _
    · exact violation_keepsName _
  · exact KeepsName.pure _

theorem loopBack_keepsNames (index : Nat) (op : BranchOp) : KeepsNames (loopBack index op) := by
  unfold loopBack
  repeat' with_reducible first
    | exact KeepsNames.pure _
    | exact KeepsNames.get
    | exact onMethod_keepsNames fun _ => frame_keepsName _
    | exact violation_keepsNames _
    | exact branchBack_keepsNames _ _
    | exact reserve_keepsNames _
    | exact coverageRecord_keepsNames _
    | exact patchHere_keepsNames _
    | exact label_keepsNames
    | apply KeepsNames.discard
    | apply KeepsNames.bind
    | (intro _)
    | split

theorem exitTo_keepsNames (index : Nat) (isBreak : Bool) : KeepsNames (exitTo index isBreak) :=
  current_keepsNames.bind fun _ => (unwind_keepsNames _ _).discard.bind fun _ =>
    (popScopesTo_keepsNames _).bind fun _ => (reserve_keepsNames _).bind fun _ =>
      onMethod_keepsNames fun _ => (modifyFrame_keepsName _ _).bind fun _ => restore_keepsName _

theorem continueLoop_keepsNames (index : Nat) : KeepsNames (continueLoop index) := by
  unfold continueLoop
  refine (onMethod_keepsNames fun _ => frame_keepsName index).bind fun f => ?_
  split
  · split
    · exact (violation_keepsNames _).bind fun _ => KeepsNames.pure _
    · exact exitTo_keepsNames index false
  · exact KeepsNames.pure _

theorem breakLoop_keepsNames (index : Nat) : KeepsNames (breakLoop index) := by
  unfold breakLoop
  refine (onMethod_keepsNames fun _ => frame_keepsName index).bind fun f => ?_
  split
  · exact exitTo_keepsNames index true
  · exact KeepsNames.pure _

theorem patchContinue_keepsNames (index : Nat) : KeepsNames (patchContinue index) := by
  refine onMethod_keepsNames fun _ => (frame_keepsName index).bind fun f => ?_
  split
  · exact (modifyFrame_keepsName _ _).bind fun _ => KeepsName.forM patchHere_keepsName _
  · exact KeepsName.pure _

theorem patchBreak_keepsNames (index : Nat) : KeepsNames (patchBreak index) := by
  refine onMethod_keepsNames fun _ => ?_
  repeat' with_reducible first
    | exact KeepsName.pure _
    | exact KeepsName.get
    | exact KeepsName.modify fun _ => by rfl
    | exact frame_keepsName _
    | exact violation_keepsName _
    | exact setStack_keepsName _
    | exact KeepsName.forM patchHere_keepsName _
    | apply KeepsName.bind
    | (intro _)
    | split
    | dsimp only

theorem switchBegin_keepsNames : KeepsNames switchBegin :=
  (reserve_keepsNames _).bind fun _ => pushFrame_keepsNames _ _ _

theorem switchLabel_keepsNames (index : Nat) : KeepsNames (switchLabel index) := by
  unfold switchLabel
  refine (onMethod_keepsNames fun _ => frame_keepsName index).bind fun f => ?_
  split
  · exact (onMethod_keepsNames fun _ => setStack_keepsName _).bind fun _ => label_keepsNames.map
  · exact KeepsNames.pure _

theorem caseLabel_keepsNames (index : Nat) : KeepsNames (caseLabel index) := by
  unfold caseLabel
  refine (switchLabel_keepsNames index).bind fun a => ?_
  split
  · refine onMethod_keepsNames fun _ => (frame_keepsName index).bind fun _ => ?_
    split
    · exact modifyFrame_keepsName _ _
    · exact KeepsName.pure _
  · exact KeepsNames.pure _

theorem defaultLabel_keepsNames (index : Nat) : KeepsNames (defaultLabel index) := by
  unfold defaultLabel
  refine (switchLabel_keepsNames index).bind fun a => ?_
  split
  · refine onMethod_keepsNames fun _ => (frame_keepsName index).bind fun _ => ?_
    split
    · exact modifyFrame_keepsName _ _
    · exact KeepsName.pure _
  · exact KeepsNames.pure _

theorem switchTable_keepsNames (index : Nat) : KeepsNames (switchTable index) := by
  refine onMethod_keepsNames fun _ => (frame_keepsName index).bind fun f => ?_
  split
  · refine (modifyFrame_keepsName _ _).bind fun _ => (setStack_keepsName _).bind fun _ => ?_
    split
    · exact patchHere_keepsName _
    · exact violation_keepsName _
  · exact KeepsName.pure _

theorem switchDispatch_keepsNames (index : Nat) : KeepsNames (switchDispatch index) := by
  unfold switchDispatch
  refine flushPosition_keepsNames.bind fun _ => position_keepsNames.bind fun site =>
    (onMethod_keepsNames fun _ => frame_keepsName index).bind fun f => ?_
  split
  · exact (emitRaw_keepsNames _).discard
  · exact KeepsNames.pure _

/-! ### The order of calls -/

theorem violationHere_keepsNames (msg : String) : KeepsNames (violationHere msg) := by
  unfold violationHere
  refine KeepsNames.get.bind fun e => ?_
  split
  · exact KeepsNames.throw _
  · exact KeepsNames.pure _

theorem startProgram_keepsNames : KeepsNames startProgram :=
  KeepsNames.get.bind fun _ => KeepsNames.pure _

theorem code_keepsNames : KeepsNames code := current_keepsNames.bind fun _ => KeepsNames.pure _

theorem finishClass_keepsNames (d : ClassDefinition) : KeepsNames (finishClass d) := by
  unfold finishClass
  repeat' with_reducible first
    | exact KeepsNames.pure _
    | exact onAssembler_keepsNames
    | exact onPool_keepsNames
    | exact KeepsNames.mapM (fun _ => onPool_keepsNames) _
    | apply KeepsNames.map
    | apply KeepsNames.bind
    | (intro _)
    | split

end Emitter

/-- **Every call but opening and finishing a method keeps the names of the open methods**,
whether it succeeds or fails. -/
theorem Emitter.perform_keepsNames (c : Call) (hs : ∀ s, c ≠ .startMethod s)
    (hf : ∀ f, c ≠ .finishMethod f) : KeepsNames (Emitter.perform c) := by
  open Emitter in
  cases c with
  | startMethod s => exact absurd rfl (hs s)
  | finishMethod f => exact absurd rfl (hf f)
  | startClass n => exact onAssembler_keepsNames.bind fun _ => KeepsNames.pure _
  | finishClass d => exact (finishClass_keepsNames d).bind fun _ => KeepsNames.pure _
  | startProgram => exact startProgram_keepsNames.map
  | finishProgram init traits =>
    exact (onAssembler_keepsNames.bind fun _ => onAssembler_keepsNames).map
  | addMetadata n items => exact onAssembler_keepsNames.bind fun _ => KeepsNames.pure _
  | multiname n => exact onPool_keepsNames.bind fun _ => KeepsNames.pure _
  | methodIndex n => exact onAssembler_keepsNames.bind fun _ => KeepsNames.pure _
  | code => exact code_keepsNames.map
  | emit i => exact (emit_keepsNames i).map
  | simple op => exact (simple_keepsNames op).bind fun _ => KeepsNames.pure _
  | getLocal reg => exact (getLocal_keepsNames reg).bind fun _ => KeepsNames.pure _
  | setLocal reg => exact (setLocal_keepsNames reg).bind fun _ => KeepsNames.pure _
  | register op reg => exact (registerOp_keepsNames op reg).bind fun _ => KeepsNames.pure _
  | allocTemp => exact allocTemp_keepsNames.bind fun _ => KeepsNames.pure _
  | freeTemp reg => exact (freeTemp_keepsNames reg).bind fun _ => KeepsNames.pure _
  | pushInt v => exact (pushInt_keepsNames v).bind fun _ => KeepsNames.pure _
  | pushUint v => exact (pushUint_keepsNames v).bind fun _ => KeepsNames.pure _
  | pushDouble bits => exact (pushDouble_keepsNames bits).bind fun _ => KeepsNames.pure _
  | pushString str => exact (pushString_keepsNames str).bind fun _ => KeepsNames.pure _
  | pushBool b => exact (pushBool_keepsNames b).bind fun _ => KeepsNames.pure _
  | pushNamespace space =>
    exact (pushNamespace_keepsNames space).bind fun _ => KeepsNames.pure _
  | property op n => exact (nameOp_keepsNames op n).bind fun _ => KeepsNames.pure _
  | getSuper n => exact (getSuper_keepsNames n).bind fun _ => KeepsNames.pure _
  | setSuper n => exact (setSuper_keepsNames n).bind fun _ => KeepsNames.pure _
  | callName op n argc => exact (callNameOp_keepsNames op n argc).bind fun _ => KeepsNames.pure _
  | callSuper op n argc => exact (callSuper_keepsNames op n argc).bind fun _ => KeepsNames.pure _
  | args | callMethod | callStatic | slot | getScopeObject | newFunction | newClass | newCatch
  | hasNext2 => exact (emit_keepsNames _).discard.bind fun _ => KeepsNames.pure _
  | pushSaved reg isWith =>
    exact (pushSaved_keepsNames reg isWith).bind fun _ => KeepsNames.pure _
  | unary o => exact (unary_keepsNames o).bind fun _ => KeepsNames.pure _
  | binary o => exact (binary_keepsNames o).bind fun _ => KeepsNames.pure _
  | coerceTo | convert => exact (simple_keepsNames _).bind fun _ => KeepsNames.pure _
  | dxns uri => exact (dxns_keepsNames uri).bind fun _ => KeepsNames.pure _
  | dxnsLate => exact dxnsLate_keepsNames.bind fun _ => KeepsNames.pure _
  | pushDepth => exact pushDepth_keepsNames.bind fun _ => KeepsNames.pure _
  | popDepth => exact popDepth_keepsNames.bind fun _ => KeepsNames.pure _
  | ifBranch op => exact (ifBranch_keepsNames op).bind fun _ => KeepsNames.pure _
  | elseBranch => exact elseBranch_keepsNames.bind fun _ => KeepsNames.pure _
  | patchIf => exact patchIf_keepsNames.bind fun _ => KeepsNames.pure _
  | patchElse => exact patchElse_keepsNames.bind fun _ => KeepsNames.pure _
  | loopBegin => exact loopBegin_keepsNames.map
  | doLoopBegin => exact doLoopBegin_keepsNames.map
  | labelBegin => exact labelBegin_keepsNames.map
  | patchLoopBegin i => exact (patchLoopBegin_keepsNames i).bind fun _ => KeepsNames.pure _
  | loopBack i op => exact (loopBack_keepsNames i op).bind fun _ => KeepsNames.pure _
  | continueLoop i => exact (continueLoop_keepsNames i).bind fun _ => KeepsNames.pure _
  | breakLoop i => exact (breakLoop_keepsNames i).bind fun _ => KeepsNames.pure _
  | patchContinue i => exact (patchContinue_keepsNames i).bind fun _ => KeepsNames.pure _
  | patchBreak i => exact (patchBreak_keepsNames i).bind fun _ => KeepsNames.pure _
  | switchBegin => exact switchBegin_keepsNames.map
  | caseLabel i => exact (caseLabel_keepsNames i).bind fun _ => KeepsNames.pure _
  | defaultLabel i => exact (defaultLabel_keepsNames i).bind fun _ => KeepsNames.pure _
  | switchTable i => exact (switchTable_keepsNames i).bind fun _ => KeepsNames.pure _
  | switchDispatch i => exact (switchDispatch_keepsNames i).bind fun _ => KeepsNames.pure _
  | tryBegin f => exact (tryBegin_keepsNames f).bind fun _ => KeepsNames.pure _
  | catchClausesBegin => exact catchClausesBegin_keepsNames.bind fun _ => KeepsNames.pure _
  | catchClause t v => exact (catchClause_keepsNames t v).map
  | catchClausesEnd => exact catchClausesEnd_keepsNames.bind fun _ => KeepsNames.pure _
  | finallyClauseBegin => exact finallyClauseBegin_keepsNames.bind fun _ => KeepsNames.pure _
  | finallyClauseEnd => exact finallyClauseEnd_keepsNames.bind fun _ => KeepsNames.pure _
  | callFinallies limit => exact (callFinallies_keepsNames limit).map
  | returnValue => exact returnValue_keepsNames.bind fun _ => KeepsNames.pure _
  | returnVoid => exact returnVoid_keepsNames.bind fun _ => KeepsNames.pure _
  | setPosition file line =>
    exact (setPosition_keepsNames file line).bind fun _ => KeepsNames.pure _
  | setLine line => exact (setLine_keepsNames line).bind fun _ => KeepsNames.pure _
  | debugRegister n reg => exact (debugRegister_keepsNames n reg).bind fun _ => KeepsNames.pure _

end AbcKit.Emit
