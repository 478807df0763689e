import AbcKit.Emit.Call
import AbcKit.Proofs.Triple
import AbcKit.Proofs.Interning
/-!
What a call on the emitter may change in the module tables.

Most calls write code into the open method and intern constants: the method, class, script and
body tables stay as they were, the pool only grows, and metadata records are only appended
(`Assembler.Interns`). The calls that define or index methods, classes and scripts are the
exceptions (`Call.definesRecords`).

Main result: `Emitter.perform_interns`: every other call, whether it succeeds or fails, changes
the module tables only by interning and leaves the options as they were.
-/
namespace AbcKit.Emit

/-- `a'` is `a` with more constants and metadata records: every other table is as it was -/
structure Assembler.Interns (a a' : Assembler) : Prop where
  tables : a' = { a with
    pool := a'.pool
    metadata := a'.metadata
    metadataLookup := a'.metadataLookup
    metadataLookup_indexes := a'.metadataLookup_indexes }
  pool : a.pool.Extends a'.pool
  metadata : a.metadata <+: a'.metadata

namespace Assembler.Interns

theorem refl (a : Assembler) : a.Interns a := ⟨rfl, .refl _, List.prefix_refl _⟩

theorem trans {a b c : Assembler} (h : a.Interns b) (h' : b.Interns c) : a.Interns c where
  tables := by rw [h'.tables, h.tables]
  pool := h.pool.trans h'.pool
  metadata := h.metadata.trans h'.metadata

instance : IsPreorder Assembler Assembler.Interns where
  refl := refl
  trans _ _ _ := trans

theorem of_pool {a : Assembler} {p : Pool} (h : a.pool.Extends p) : a.Interns { a with pool := p } :=
  ⟨rfl, h, List.prefix_refl _⟩

end Assembler.Interns

/-- the options are as they were, and the module tables changed only by interning -/
structure Emitter.Interns (e e' : Emitter) : Prop where
  config : e'.config = e.config
  assembler : e.assembler.Interns e'.assembler

instance : IsPreorder Emitter Emitter.Interns where
  refl _ := ⟨rfl, .refl _⟩
  trans _ _ _ h h' := ⟨h'.config.trans h.config, h.assembler.trans h'.assembler⟩

/-- a step on the emitter that only interns, whether it succeeds or fails -/
structure OnlyInterns {α : Type} (act : EmitM α) : Prop where
  triple : Triple Emitter.Interns (fun _ => True) act fun _ _ => True

namespace OnlyInterns

variable {α β : Type}

theorem pure (x : α) : OnlyInterns (Pure.pure x : EmitM α) := ⟨Triple.pure fun _ _ => trivial⟩

theorem bind {x : EmitM α} {f : α → EmitM β} (hx : OnlyInterns x) (hf : ∀ a, OnlyInterns (f a)) :
    OnlyInterns (x >>= f) := ⟨Triple.bind hx.triple fun a => (hf a).triple⟩

theorem map {x : EmitM α} {f : α → β} (hx : OnlyInterns x) : OnlyInterns (f <$> x) :=
  ⟨(Triple.map hx.triple).consequence (fun _ h => h) fun _ _ _ => trivial⟩

theorem discard {x : EmitM α} (hx : OnlyInterns x) : OnlyInterns (Functor.discard x) :=
  ⟨Triple.discard hx.triple⟩

theorem throw (h : Halt) : OnlyInterns (throw h : EmitM α) := ⟨Triple.throw⟩

theorem get : OnlyInterns (MonadState.get : EmitM Emitter) :=
  ⟨Triple.get.consequence (fun _ h => h) fun _ _ _ => trivial⟩

/-- a change of the emitter that leaves its options and module tables alone -/
theorem modify {f : Emitter → Emitter}
    (h : ∀ e, (f e).config = e.config ∧ (f e).assembler = e.assembler) :
    OnlyInterns (modify f : EmitM PUnit) :=
  ⟨Triple.modify fun e _ => ⟨⟨(h e).1, (h e).2 ▸ .refl _⟩, trivial⟩⟩

end OnlyInterns

namespace Assembler

/-- a step on the module tables that only interns, whether it succeeds or fails -/
def OnlyInterns {α : Type} (act : AssemblerM α) : Prop :=
  Triple Assembler.Interns (fun _ => True) act fun _ _ => True

theorem OnlyInterns.pure {α : Type} (x : α) : OnlyInterns (Pure.pure x : AssemblerM α) :=
  Triple.pure fun _ _ => trivial

theorem OnlyInterns.bind {α β : Type} {x : AssemblerM α} {f : α → AssemblerM β}
    (hx : OnlyInterns x) (hf : ∀ a, OnlyInterns (f a)) : OnlyInterns (x >>= f) :=
  Triple.bind hx hf

theorem onPool_onlyInterns {α : Type} {act : StateM Pool α} (h : Pool.Grows act) :
    OnlyInterns (Assembler.onPool act) := fun a _ =>
  ⟨Interns.of_pool (h a.pool), fun _ _ _ => trivial⟩

theorem addMetadata_onlyInterns (name : String) (items : List (Option String × String)) :
    OnlyInterns (addMetadata name items) := by
  unfold addMetadata
  refine (onPool_onlyInterns (Pool.string_grows name)).bind fun nameIndex => ?_
  refine (Triple.mapM (I := fun _ => True) (Q := fun _ _ => True) (fun _ _ _ _ _ => trivial)
    (fun kv => ?_) items).bind fun entries => ?_
  · obtain ⟨key, value⟩ := kv
    refine Triple.consequence (Q := fun _ _ => True) ?_ (fun _ h => h) fun _ _ _ => ⟨trivial, trivial⟩
    cases key
    · exact OnlyInterns.pure _ |>.bind fun k => (onPool_onlyInterns (Pool.string_grows value)).bind
        fun v => OnlyInterns.pure _
    · exact (onPool_onlyInterns (Pool.string_grows _)).bind fun k =>
        (onPool_onlyInterns (Pool.string_grows value)).bind fun v => OnlyInterns.pure _
  refine Triple.get.bind fun a => ?_
  split
  · exact Triple.pure fun _ _ => trivial
  · -- a new record goes at the end of the metadata table
    refine (Triple.set (Q := fun _ _ => True) fun s hs => ⟨?_, trivial⟩).bind fun _ =>
      Triple.pure fun _ _ => trivial
    obtain ⟨rfl, -⟩ := hs
    exact ⟨rfl, .refl _, List.prefix_append _ _⟩

end Assembler

namespace Emitter

theorem onMethod_interns {α : Type} (act : Pool → MethodM α) : OnlyInterns (onMethod act) := by
  refine ⟨fun e _ => ?_⟩
  refine ⟨?_, fun _ _ _ => trivial⟩
  unfold onMethod
  split
  · exact refl_of Emitter.Interns e
  · split <;> exact ⟨rfl, .refl _⟩

theorem onAssembler_interns {α : Type} {act : AssemblerM α}
    (h : ∀ a : Assembler, a.Interns (endState (act a))) : OnlyInterns (onAssembler act) := by
  refine ⟨fun e _ => ?_⟩
  refine ⟨?_, fun _ _ _ => trivial⟩
  have ha := h e.assembler
  unfold onAssembler
  split <;> rename_i heq <;> rw [heq] at ha <;> exact ⟨rfl, ha⟩

theorem onAssembler_onlyInterns {α : Type} {act : AssemblerM α} (h : Assembler.OnlyInterns act) :
    OnlyInterns (onAssembler act) :=
  onAssembler_interns fun a => (h a trivial).1

theorem onPool_interns {α : Type} {act : StateM Pool α} (h : Pool.Grows act) :
    OnlyInterns (onPool act) :=
  onAssembler_onlyInterns (Assembler.onPool_onlyInterns h)

theorem current_interns : OnlyInterns current := by
  unfold current
  refine OnlyInterns.get.bind fun e => ?_
  split
  · exact OnlyInterns.pure _
  · exact OnlyInterns.throw _

theorem emitRaw_interns (i : Instruction) : OnlyInterns (emitRaw i) := onMethod_interns _

theorem flushPosition_interns : OnlyInterns flushPosition := by
  unfold flushPosition
  -- each early exit is `pure ()`; the file record interns the file name before it is written
  repeat' with_reducible first
    | exact OnlyInterns.pure _
    | exact OnlyInterns.get
    | exact emitRaw_interns _
    | exact onPool_interns (Pool.string_grows _)
    | exact OnlyInterns.modify fun _ => ⟨rfl, rfl⟩
    | apply OnlyInterns.discard
    | apply OnlyInterns.bind
    | (intro _)
    | split

theorem emit_interns (i : Instruction) : OnlyInterns (emit i) :=
  flushPosition_interns.bind fun _ => emitRaw_interns i

theorem simple_interns (op : SimpleOp) : OnlyInterns (simple op) := (emit_interns _).discard

theorem reserve_interns (op : BranchOp) : OnlyInterns (reserve op) :=
  flushPosition_interns.bind fun _ => onMethod_interns _

theorem branchBack_interns (op : BranchOp) (target : Nat) : OnlyInterns (branchBack op target) :=
  flushPosition_interns.bind fun _ => onMethod_interns _

theorem patchHere_interns (site : Nat) : OnlyInterns (patchHere site) := onMethod_interns _

theorem label_interns : OnlyInterns label := emit_interns _

theorem violation_interns (msg : String) : OnlyInterns (violation msg) := onMethod_interns _

theorem setPosition_interns (file : String) (line : UInt32) :
    OnlyInterns (setPosition file line) := OnlyInterns.modify fun _ => ⟨rfl, rfl⟩

theorem setLine_interns (line : UInt32) : OnlyInterns (setLine line) :=
  OnlyInterns.modify fun _ => ⟨rfl, rfl⟩

theorem debugRegister_interns (name : String) (reg : UInt32) :
    OnlyInterns (debugRegister name reg) := by
  unfold debugRegister
  refine OnlyInterns.get.bind fun e => ?_
  split
  · exact OnlyInterns.pure _
  · split
    · exact violation_interns _
    · exact (onPool_interns (Pool.string_grows _)).bind fun _ => (emit_interns _).discard

theorem intInstruction_grows (v : Int32) : Pool.Grows (intInstruction v) := by
  unfold intInstruction
  split
  · exact Pool.Grows.pure _
  · split
    · exact Pool.Grows.pure _
    · exact (Pool.int_grows v).bind fun _ => Pool.Grows.pure _

theorem coverageRecord_interns (taken : Bool) : OnlyInterns (coverageRecord taken) := by
  unfold coverageRecord
  repeat' with_reducible first
    | exact OnlyInterns.pure _
    | exact OnlyInterns.get
    | exact emitRaw_interns _
    | exact onPool_interns (Pool.string_grows _)
    | exact onPool_interns (Pool.name_grows _)
    | exact onPool_interns (intInstruction_grows _)
    | exact OnlyInterns.modify fun _ => ⟨rfl, rfl⟩
    | apply OnlyInterns.discard
    | apply OnlyInterns.bind
    | (intro _)
    | split

/-! ### The instruction catalogue -/

theorem nameOp_interns (op : NameOp) (n : Name) : OnlyInterns (nameOp op n) :=
  (onPool_interns (Pool.name_grows n)).bind fun _ => (emit_interns _).discard

theorem callNameOp_interns (op : CallNameOp) (n : Name) (argCount : UInt32) :
    OnlyInterns (callNameOp op n argCount) :=
  (onPool_interns (Pool.name_grows n)).bind fun _ => (emit_interns _).discard

theorem registerOp_interns (op : RegisterOp) (reg : UInt32) : OnlyInterns (registerOp op reg) :=
  (emit_interns _).discard

theorem staticName_interns (n : Name) (what : String) : OnlyInterns (staticName n what) := by
  unfold staticName
  refine (onPool_interns (Pool.name_grows n)).bind fun i => OnlyInterns.get.bind fun e => ?_
  split
  · exact OnlyInterns.throw _
  · exact OnlyInterns.pure _

theorem getLocal_interns (reg : UInt32) : OnlyInterns (getLocal reg) := by
  unfold getLocal
  split
  · exact simple_interns _
  · exact simple_interns _
  · exact simple_interns _
  · exact simple_interns _
  · exact registerOp_interns _ _

theorem setLocal_interns (reg : UInt32) : OnlyInterns (setLocal reg) := by
  unfold setLocal
  split
  · exact simple_interns _
  · exact simple_interns _
  · exact simple_interns _
  · exact simple_interns _
  · exact registerOp_interns _ _

theorem kill_interns (reg : UInt32) : OnlyInterns (kill reg) := registerOp_interns _ _

theorem allocTemp_interns : OnlyInterns allocTemp := onMethod_interns _

theorem freeTemp_interns (reg : UInt32) : OnlyInterns (freeTemp reg) :=
  (kill_interns reg).bind fun _ => onMethod_interns _

theorem pushInt_interns (v : Int32) : OnlyInterns (pushInt v) :=
  (onPool_interns (intInstruction_grows v)).bind fun _ => (emit_interns _).discard

theorem pushUint_interns (v : UInt32) : OnlyInterns (pushUint v) :=
  (onPool_interns (Pool.uint_grows v)).bind fun _ => (emit_interns _).discard

theorem pushDouble_interns (bits : UInt64) : OnlyInterns (pushDouble bits) := by
  unfold pushDouble
  split
  · exact simple_interns _
  · exact (onPool_interns (Pool.double_grows bits)).bind fun _ => (emit_interns _).discard

theorem pushString_interns (str : String) : OnlyInterns (pushString str) :=
  (onPool_interns (Pool.string_grows str)).bind fun _ => (emit_interns _).discard

theorem pushBool_interns (b : Bool) : OnlyInterns (pushBool b) := simple_interns _

theorem pushNamespace_interns (space : Namespace) : OnlyInterns (pushNamespace space) :=
  (onPool_interns (Pool.ns_grows space)).bind fun _ => (emit_interns _).discard

theorem getSuper_interns (n : Name) : OnlyInterns (getSuper n) :=
  (staticName_interns n _).bind fun _ => (emit_interns _).discard

theorem setSuper_interns (n : Name) : OnlyInterns (setSuper n) :=
  (staticName_interns n _).bind fun _ => (emit_interns _).discard

theorem callSuper_interns (op : CallNameOp) (n : Name) (argCount : UInt32) :
    OnlyInterns (callSuper op n argCount) :=
  (staticName_interns n _).discard.bind fun _ => callNameOp_interns op n argCount

theorem pushSaved_interns (reg : UInt32) (isWith : Bool) : OnlyInterns (pushSaved reg isWith) :=
  (getLocal_interns reg).bind fun _ => (simple_interns _).bind fun _ => onMethod_interns _

theorem popScope_interns : OnlyInterns popScope := simple_interns _

theorem throwValue_interns : OnlyInterns throwValue := simple_interns _

theorem unary_interns (o : UnaryOperator) : OnlyInterns (unary o) := simple_interns _

theorem binary_interns (o : BinaryOperator) : OnlyInterns (binary o) := by
  unfold binary
  generalize o.ops = ops
  obtain ⟨op, negated⟩ := ops
  refine (simple_interns op).bind fun _ => ?_
  cases negated
  · exact OnlyInterns.pure _
  · exact simple_interns _

theorem dxns_interns (uri : String) : OnlyInterns (dxns uri) :=
  (onPool_interns (Pool.string_grows uri)).bind fun _ => (emit_interns _).discard.bind fun _ =>
    onMethod_interns _

theorem dxnsLate_interns : OnlyInterns dxnsLate :=
  (simple_interns _).bind fun _ => onMethod_interns _

theorem popScopesWithin_interns (depth : Nat) : ∀ fuel, OnlyInterns (popScopesWithin depth fuel)
  | 0 => OnlyInterns.pure _
  | fuel + 1 => by
    unfold popScopesWithin
    refine current_interns.bind fun m => ?_
    split
    · exact popScope_interns.bind fun _ => popScopesWithin_interns depth fuel
    · exact OnlyInterns.pure _

theorem popScopesTo_interns (depth : Nat) : OnlyInterns (popScopesTo depth) :=
  current_interns.bind fun _ => popScopesWithin_interns depth _

/-! ### Try regions -/

theorem handler_interns (index : Nat) : OnlyInterns (handler index) :=
  current_interns.bind fun _ => OnlyInterns.pure _

theorem modifyHandler_interns (index : Nat) (f : HandlerBlock → HandlerBlock) :
    OnlyInterns (modifyHandler index f) := onMethod_interns _

theorem openBlock_interns (expected : List BlockState) (what : String) :
    OnlyInterns (openBlock expected what) := by
  unfold openBlock
  refine current_interns.bind fun m => ?_
  split
  · exact (violation_interns _).bind fun _ => OnlyInterns.pure _
  · split
    · exact OnlyInterns.pure _
    · exact (violation_interns _).bind fun _ => OnlyInterns.pure _

theorem position_interns : OnlyInterns position := current_interns.bind fun _ => OnlyInterns.pure _

theorem dispatch_interns (dflt : Nat) (cases : List Nat) : OnlyInterns (dispatch dflt cases) :=
  flushPosition_interns.bind fun _ => position_interns.bind fun _ => (emitRaw_interns _).discard

theorem callSite_interns (index : Nat) : OnlyInterns (callSite index) :=
  (handler_interns index).bind fun _ => (pushInt_interns _).bind fun _ =>
    (reserve_interns _).bind fun _ => (onMethod_interns _).bind fun _ =>
      label_interns.bind fun _ => modifyHandler_interns _ _

theorem pushEntryScopes_interns (init : Nat) :
    ∀ depth scopes, OnlyInterns (pushEntryScopes init depth scopes)
  | _, [] => OnlyInterns.pure _
  | _, none :: _ => OnlyInterns.throw _
  | depth, some sc :: rest =>
    (pushSaved_interns sc.register sc.isWith).bind fun _ => pushEntryScopes_interns init (depth + 1) rest

theorem enterHandler_interns (index : Nat) : OnlyInterns (enterHandler index) :=
  (handler_interns index).bind fun _ => current_interns.bind fun _ =>
    (onMethod_interns _).bind fun _ => pushEntryScopes_interns _ _ _

theorem unwindFrom_interns (loopIndex : Option Nat) (limit : Nat) :
    ∀ indices called, OnlyInterns (unwindFrom loopIndex limit indices called)
  | [], _ => OnlyInterns.pure _
  | index :: rest, called => by
    unfold unwindFrom
    split
    · exact OnlyInterns.pure _
    · refine (handler_interns index).bind fun block => ?_
      split
      · exact OnlyInterns.pure _
      · refine (popScopesTo_interns _).bind fun _ => ?_
        split
        · exact (callSite_interns index).bind fun _ => unwindFrom_interns loopIndex limit rest _
        · exact unwindFrom_interns loopIndex limit rest _

theorem unwind_interns (loopIndex : Option Nat) (limit : Nat) : OnlyInterns (unwind loopIndex limit) :=
  current_interns.bind fun _ => unwindFrom_interns loopIndex limit _ _

theorem tryBegin_interns (hasFinally : Bool) : OnlyInterns (tryBegin hasFinally) :=
  flushPosition_interns.bind fun _ => onMethod_interns _

theorem catchClausesBegin_interns : OnlyInterns catchClausesBegin := by
  unfold catchClausesBegin
  refine (openBlock_interns _ _).bind fun r => ?_
  split
  · exact flushPosition_interns.bind fun _ => position_interns.bind fun _ =>
      (modifyHandler_interns _ _).bind fun _ => (reserve_interns _).bind fun _ =>
        modifyHandler_interns _ _
  · exact OnlyInterns.pure _

theorem catchClause_interns (excType varName : Option Name) :
    OnlyInterns (catchClause excType varName) := by
  unfold catchClause
  repeat' with_reducible first
    | exact OnlyInterns.pure _
    | exact OnlyInterns.get
    | exact openBlock_interns _ _
    | exact handler_interns _
    | exact reserve_interns _
    | exact modifyHandler_interns _ _
    | exact onPool_interns (Pool.name_grows _)
    | exact flushPosition_interns
    | exact position_interns
    | exact onMethod_interns _
    | exact current_interns
    | exact enterHandler_interns _
    | apply OnlyInterns.bind
    | (intro _)
    | split
    | dsimp only

theorem catchClausesEnd_interns : OnlyInterns catchClausesEnd := by
  unfold catchClausesEnd
  refine (openBlock_interns _ _).bind fun r => ?_
  split
  · exact (handler_interns _).bind fun _ => (modifyHandler_interns _ _).bind fun _ =>
      onMethod_interns _
  · exact OnlyInterns.pure _

theorem finallyClauseBegin_interns : OnlyInterns finallyClauseBegin := by
  unfold finallyClauseBegin
  repeat' with_reducible first
    | exact OnlyInterns.pure _
    | exact openBlock_interns _ _
    | exact flushPosition_interns
    | exact position_interns
    | exact handler_interns _
    | exact violation_interns _
    | exact modifyHandler_interns _ _
    | exact callSite_interns _
    | exact reserve_interns _
    | exact onMethod_interns _
    | exact enterHandler_interns _
    | exact allocTemp_interns
    | exact setLocal_interns _
    | exact getLocal_interns _
    | exact freeTemp_interns _
    | exact throwValue_interns
    | apply OnlyInterns.bind
    | (intro _)
    | split

theorem finallyClauseEnd_interns : OnlyInterns finallyClauseEnd := by
  unfold finallyClauseEnd
  repeat' with_reducible first
    | exact OnlyInterns.pure _
    | exact OnlyInterns.throw _
    | exact openBlock_interns _ _
    | exact handler_interns _
    | exact kill_interns _
    | exact branchBack_interns _ _
    | exact getLocal_interns _
    | exact dispatch_interns _ _
    | exact onMethod_interns _
    | apply OnlyInterns.bind
    | (intro _)
    | split

theorem callFinallies_interns (limit : Nat) : OnlyInterns (callFinallies limit) :=
  unwind_interns none limit

theorem hasPendingFinally_interns : OnlyInterns hasPendingFinally :=
  current_interns.bind fun _ => OnlyInterns.pure _

theorem returnValue_interns : OnlyInterns returnValue := by
  unfold returnValue
  refine hasPendingFinally_interns.bind fun pending => ?_
  split
  · exact (simple_interns _).bind fun _ => OnlyInterns.pure _
  · exact (onMethod_interns _).bind fun _ => allocTemp_interns.bind fun _ =>
      (setLocal_interns _).bind fun _ => current_interns.bind fun _ =>
        (unwind_interns _ _).discard.bind fun _ => (getLocal_interns _).bind fun _ =>
          (kill_interns _).bind fun _ => (simple_interns _).bind fun _ => onMethod_interns _

theorem returnVoid_interns : OnlyInterns returnVoid := by
  unfold returnVoid
  refine hasPendingFinally_interns.bind fun pending => ?_
  split
  · exact (simple_interns _).bind fun _ => OnlyInterns.pure _
  · exact (onMethod_interns _).bind fun _ => current_interns.bind fun _ =>
      (unwind_interns _ _).discard.bind fun _ => (simple_interns _).bind fun _ => onMethod_interns _

/-! ### Structured control flow -/

theorem conditional_interns (op : BranchOp) : OnlyInterns (conditional op) := by
  unfold conditional
  refine OnlyInterns.get.bind fun e => ?_
  split
  · exact reserve_interns op
  · exact (reserve_interns op).bind fun _ => (coverageRecord_interns _).bind fun _ =>
      (reserve_interns _).bind fun _ => (patchHere_interns _).bind fun _ =>
        label_interns.discard.bind fun _ => (coverageRecord_interns _).bind fun _ =>
          (reserve_interns _).bind fun _ => (patchHere_interns _).bind fun _ =>
            label_interns.discard.bind fun _ => OnlyInterns.pure _

theorem pushDepth_interns : OnlyInterns pushDepth := onMethod_interns _

theorem popDepth_interns : OnlyInterns popDepth := onMethod_interns _

theorem ifBranch_interns (op : BranchOp) : OnlyInterns (ifBranch op) :=
  (conditional_interns op).bind fun _ => onMethod_interns _

theorem elseBranch_interns : OnlyInterns elseBranch :=
  (reserve_interns _).bind fun _ => onMethod_interns _

theorem patchIf_interns : OnlyInterns patchIf := onMethod_interns _

theorem patchElse_interns : OnlyInterns patchElse := onMethod_interns _

theorem pushFrame_interns (kind : FrameKind) (entry top : Option Nat) :
    OnlyInterns (pushFrame kind entry top) := onMethod_interns _

theorem loopBegin_interns : OnlyInterns loopBegin :=
  (reserve_interns _).bind fun _ => label_interns.bind fun _ => pushFrame_interns _ _ _

theorem doLoopBegin_interns : OnlyInterns doLoopBegin :=
  label_interns.bind fun _ => pushFrame_interns _ _ _

theorem labelBegin_interns : OnlyInterns labelBegin := pushFrame_interns _ _ _

theorem patchLoopBegin_interns (index : Nat) : OnlyInterns (patchLoopBegin index) :=
  onMethod_interns _

theorem loopBack_interns (index : Nat) (op : BranchOp) : OnlyInterns (loopBack index op) := by
  unfold loopBack
  repeat' with_reducible first
    | exact OnlyInterns.pure _
    | exact OnlyInterns.get
    | exact onMethod_interns _
    | exact violation_interns _
    | exact branchBack_interns _ _
    | exact reserve_interns _
    | exact coverageRecord_interns _
    | exact patchHere_interns _
    | exact label_interns
    | apply OnlyInterns.discard
    | apply OnlyInterns.bind
    | (intro _)
    | split

theorem exitTo_interns (index : Nat) (isBreak : Bool) : OnlyInterns (exitTo index isBreak) :=
  current_interns.bind fun _ => (unwind_interns _ _).discard.bind fun _ =>
    (popScopesTo_interns _).bind fun _ => (reserve_interns _).bind fun _ => onMethod_interns _

theorem continueLoop_interns (index : Nat) : OnlyInterns (continueLoop index) := by
  unfold continueLoop
  refine (onMethod_interns _).bind fun f => ?_
  split
  · split
    · exact (violation_interns _).bind fun _ => OnlyInterns.pure _
    · exact exitTo_interns index false
  · exact OnlyInterns.pure _

theorem breakLoop_interns (index : Nat) : OnlyInterns (breakLoop index) := by
  unfold breakLoop
  refine (onMethod_interns _).bind fun f => ?_
  split
  · exact exitTo_interns index true
  · exact OnlyInterns.pure _

theorem patchContinue_interns (index : Nat) : OnlyInterns (patchContinue index) :=
  onMethod_interns _

theorem patchBreak_interns (index : Nat) : OnlyInterns (patchBreak index) := onMethod_interns _

theorem switchBegin_interns : OnlyInterns switchBegin :=
  (reserve_interns _).bind fun _ => pushFrame_interns _ _ _

theorem switchLabel_interns (index : Nat) : OnlyInterns (switchLabel index) := by
  unfold switchLabel
  refine (onMethod_interns _).bind fun f => ?_
  split
  · exact (onMethod_interns _).bind fun _ => label_interns.map
  · exact OnlyInterns.pure _

theorem caseLabel_interns (index : Nat) : OnlyInterns (caseLabel index) := by
  unfold caseLabel
  refine (switchLabel_interns index).bind fun a => ?_
  split
  · exact onMethod_interns _
  · exact OnlyInterns.pure _

theorem defaultLabel_interns (index : Nat) : OnlyInterns (defaultLabel index) := by
  unfold defaultLabel
  refine (switchLabel_interns index).bind fun a => ?_
  split
  · exact onMethod_interns _
  · exact OnlyInterns.pure _

theorem switchTable_interns (index : Nat) : OnlyInterns (switchTable index) := onMethod_interns _

theorem switchDispatch_interns (index : Nat) : OnlyInterns (switchDispatch index) := by
  unfold switchDispatch
  refine flushPosition_interns.bind fun _ => position_interns.bind fun site =>
    (onMethod_interns _).bind fun f => ?_
  split
  · exact (emitRaw_interns _).discard
  · exact OnlyInterns.pure _

/-! ### The order of calls -/

theorem violationHere_interns (msg : String) : OnlyInterns (violationHere msg) := by
  unfold violationHere
  refine OnlyInterns.get.bind fun e => ?_
  split
  · exact OnlyInterns.throw _
  · exact OnlyInterns.pure _

theorem startProgram_interns : OnlyInterns startProgram :=
  OnlyInterns.get.bind fun _ => OnlyInterns.pure _

theorem code_interns : OnlyInterns code := current_interns.bind fun _ => OnlyInterns.pure _

end Emitter

/-- the calls that define or index methods, classes and scripts -/
def Call.definesRecords : Call → Bool
  | .startMethod _ | .finishMethod _ | .startClass _ | .finishClass _ | .finishProgram _ _
  | .methodIndex _ => true
  | _ => false

/-- **Every other call only interns**: whether it succeeds or fails, it leaves the options, and
the method, class, script and body tables, as they were. -/
theorem Emitter.perform_interns (c : Call) (hc : c.definesRecords = false) :
    OnlyInterns (Emitter.perform c) := by
  open Emitter in
  cases c with
  | startMethod | finishMethod | startClass | finishClass | finishProgram | methodIndex =>
    simp [Call.definesRecords] at hc
  | startProgram => exact startProgram_interns.map
  | addMetadata n items =>
    exact (onAssembler_onlyInterns (Assembler.addMetadata_onlyInterns n items)).bind fun _ =>
      OnlyInterns.pure _
  | multiname n => exact (onPool_interns (Pool.name_grows n)).bind fun _ => OnlyInterns.pure _
  | code => exact code_interns.map
  | emit i => exact (emit_interns i).map
  | simple op => exact (simple_interns op).bind fun _ => OnlyInterns.pure _
  | getLocal reg => exact (getLocal_interns reg).bind fun _ => OnlyInterns.pure _
  | setLocal reg => exact (setLocal_interns reg).bind fun _ => OnlyInterns.pure _
  | register op reg => exact (registerOp_interns op reg).bind fun _ => OnlyInterns.pure _
  | allocTemp => exact allocTemp_interns.bind fun _ => OnlyInterns.pure _
  | freeTemp reg => exact (freeTemp_interns reg).bind fun _ => OnlyInterns.pure _
  | pushInt v => exact (pushInt_interns v).bind fun _ => OnlyInterns.pure _
  | pushUint v => exact (pushUint_interns v).bind fun _ => OnlyInterns.pure _
  | pushDouble bits => exact (pushDouble_interns bits).bind fun _ => OnlyInterns.pure _
  | pushString str => exact (pushString_interns str).bind fun _ => OnlyInterns.pure _
  | pushBool b => exact (pushBool_interns b).bind fun _ => OnlyInterns.pure _
  | pushNamespace space => exact (pushNamespace_interns space).bind fun _ => OnlyInterns.pure _
  | property op n => exact (nameOp_interns op n).bind fun _ => OnlyInterns.pure _
  | getSuper n => exact (getSuper_interns n).bind fun _ => OnlyInterns.pure _
  | setSuper n => exact (setSuper_interns n).bind fun _ => OnlyInterns.pure _
  | callName op n argc => exact (callNameOp_interns op n argc).bind fun _ => OnlyInterns.pure _
  | callSuper op n argc => exact (callSuper_interns op n argc).bind fun _ => OnlyInterns.pure _
  | args | callMethod | callStatic | slot | getScopeObject | newFunction | newClass | newCatch
  | hasNext2 => exact (emit_interns _).discard.bind fun _ => OnlyInterns.pure _
  | pushSaved reg isWith => exact (pushSaved_interns reg isWith).bind fun _ => OnlyInterns.pure _
  | unary o => exact (unary_interns o).bind fun _ => OnlyInterns.pure _
  | binary o => exact (binary_interns o).bind fun _ => OnlyInterns.pure _
  | coerceTo | convert => exact (simple_interns _).bind fun _ => OnlyInterns.pure _
  | dxns uri => exact (dxns_interns uri).bind fun _ => OnlyInterns.pure _
  | dxnsLate => exact dxnsLate_interns.bind fun _ => OnlyInterns.pure _
  | pushDepth => exact pushDepth_interns.bind fun _ => OnlyInterns.pure _
  | popDepth => exact popDepth_interns.bind fun _ => OnlyInterns.pure _
  | ifBranch op => exact (ifBranch_interns op).bind fun _ => OnlyInterns.pure _
  | elseBranch => exact elseBranch_interns.bind fun _ => OnlyInterns.pure _
  | patchIf => exact patchIf_interns.bind fun _ => OnlyInterns.pure _
  | patchElse => exact patchElse_interns.bind fun _ => OnlyInterns.pure _
  | loopBegin => exact loopBegin_interns.map
  | doLoopBegin => exact doLoopBegin_interns.map
  | labelBegin => exact labelBegin_interns.map
  | patchLoopBegin i => exact (patchLoopBegin_interns i).bind fun _ => OnlyInterns.pure _
  | loopBack i op => exact (loopBack_interns i op).bind fun _ => OnlyInterns.pure _
  | continueLoop i => exact (continueLoop_interns i).bind fun _ => OnlyInterns.pure _
  | breakLoop i => exact (breakLoop_interns i).bind fun _ => OnlyInterns.pure _
  | patchContinue i => exact (patchContinue_interns i).bind fun _ => OnlyInterns.pure _
  | patchBreak i => exact (patchBreak_interns i).bind fun _ => OnlyInterns.pure _
  | switchBegin => exact switchBegin_interns.map
  | caseLabel i => exact (caseLabel_interns i).bind fun _ => OnlyInterns.pure _
  | defaultLabel i => exact (defaultLabel_interns i).bind fun _ => OnlyInterns.pure _
  | switchTable i => exact (switchTable_interns i).bind fun _ => OnlyInterns.pure _
  | switchDispatch i => exact (switchDispatch_interns i).bind fun _ => OnlyInterns.pure _
  | tryBegin f => exact (tryBegin_interns f).bind fun _ => OnlyInterns.pure _
  | catchClausesBegin => exact catchClausesBegin_interns.bind fun _ => OnlyInterns.pure _
  | catchClause t v => exact (catchClause_interns t v).map
  | catchClausesEnd => exact catchClausesEnd_interns.bind fun _ => OnlyInterns.pure _
  | finallyClauseBegin => exact finallyClauseBegin_interns.bind fun _ => OnlyInterns.pure _
  | finallyClauseEnd => exact finallyClauseEnd_interns.bind fun _ => OnlyInterns.pure _
  | callFinallies limit => exact (callFinallies_interns limit).map
  | returnValue => exact returnValue_interns.bind fun _ => OnlyInterns.pure _
  | returnVoid => exact returnVoid_interns.bind fun _ => OnlyInterns.pure _
  | setPosition file line => exact (setPosition_interns file line).bind fun _ => OnlyInterns.pure _
  | setLine line => exact (setLine_interns line).bind fun _ => OnlyInterns.pure _
  | debugRegister n reg => exact (debugRegister_interns n reg).bind fun _ => OnlyInterns.pure _


end AbcKit.Emit
