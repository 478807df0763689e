import AbcKit.Proofs.Registers
/-!
Every call keeps the register count of the innermost method above the registers its code names.

`Emitter.KeepsCover`: the options are as they were, and only the innermost method moved, keeping
the base of its temporaries, raising its count at most, and staying covered if it was. The calls
that write instructions and handle temporaries do so outright (`Emitter.perform_keepsCover`): each
instruction goes through the one write that raises the count. The calls that land branches do so
on a method whose pending branches are branches of its code (`Ready`): they land only branches,
which name no register; the proofs follow the landing proofs, branch by branch
(`Emitter.perform_covered`). The calls on try regions keep the innermost method `Ready` too, under
either ordering option.
-/
namespace AbcKit.Emit

/-- the options are as they were and only the innermost method moved, keeping its cover -/
structure Emitter.KeepsCover (e e' : Emitter) : Prop where
  config : e'.config = e.config
  methods : Innermost MethodState.KeepsCover e.methods e'.methods

instance : IsPreorder Emitter Emitter.KeepsCover where
  refl _ := ⟨rfl, Innermost.refl _⟩
  trans _ _ _ h h' := ⟨h'.config.trans h.config, h.methods.trans h'.methods⟩

namespace MethodM

theorem branchTo_keepsCover (pool : Pool) (op : BranchOp) (target : Nat) :
    OnSuccess MethodState.KeepsCover (branchTo pool op target) :=
  (OnSuccess.get.bind fun _ => OnSuccess.pure _).bind fun _ =>
    (OnSuccess.bind (by
      unfold displacement
      split
      · exact OnSuccess.pure _
      · exact OnSuccess.throw _) fun _ => (emit_keepsCover pool _).discard)

end MethodM

/-! ## Steps on the emitter -/

namespace Emitter

variable {α : Type}

theorem onMethod_keepsCover {act : Pool → MethodM α}
    (h : ∀ pool, OnSuccess MethodState.KeepsCover (act pool)) :
    OnSuccess Emitter.KeepsCover (onMethod act) :=
  fun _ _ _ he => let ⟨hc, hm⟩ := onMethod_innermost h he; ⟨hc, hm⟩

theorem keepsCover_of_onTables {act : EmitM α} (h : OnSuccess Emitter.OnTables act) :
    OnSuccess Emitter.KeepsCover act := fun e x e' he => by
  obtain ⟨hc, hm⟩ := h e x e' he
  exact ⟨hc, hm ▸ Innermost.refl _⟩

theorem onAssembler_keepsCover {act : AssemblerM α} : OnSuccess Emitter.KeepsCover (onAssembler act) :=
  keepsCover_of_onTables onAssembler_onTables

theorem onPool_keepsCover {act : StateM Pool α} : OnSuccess Emitter.KeepsCover (onPool act) :=
  onAssembler_keepsCover

theorem modify_keepsCover {f : Emitter → Emitter}
    (h : ∀ e, (f e).config = e.config ∧ (f e).methods = e.methods) :
    OnSuccess Emitter.KeepsCover (modify f : EmitM PUnit) :=
  OnSuccess.modify fun e => ⟨(h e).1, (h e).2 ▸ Innermost.refl _⟩

theorem current_keepsCover : OnSuccess Emitter.KeepsCover current := by
  unfold current
  refine OnSuccess.get.bind fun e => ?_
  split
  · exact OnSuccess.pure _
  · exact OnSuccess.throw _

theorem emitRaw_keepsCover (i : Instruction) : OnSuccess Emitter.KeepsCover (emitRaw i) :=
  onMethod_keepsCover fun pool => MethodM.emit_keepsCover pool i

theorem flushPosition_keepsCover : OnSuccess Emitter.KeepsCover flushPosition := by
  unfold flushPosition
  repeat' first
    | exact OnSuccess.pure _
    | exact OnSuccess.get
    | exact emitRaw_keepsCover _
    | exact onPool_keepsCover
    | exact modify_keepsCover fun _ => ⟨rfl, rfl⟩
    | apply OnSuccess.discard
    | apply OnSuccess.bind
    | split
    | (intro _)

theorem emit_keepsCover (i : Instruction) : OnSuccess Emitter.KeepsCover (emit i) :=
  flushPosition_keepsCover.bind fun _ => emitRaw_keepsCover i

theorem simple_keepsCover (op : SimpleOp) : OnSuccess Emitter.KeepsCover (simple op) :=
  (emit_keepsCover _).discard

theorem label_keepsCover : OnSuccess Emitter.KeepsCover label := emit_keepsCover _

theorem reserve_keepsCover (op : BranchOp) : OnSuccess Emitter.KeepsCover (reserve op) :=
  emit_keepsCover _

theorem branchBack_keepsCover (op : BranchOp) (target : Nat) :
    OnSuccess Emitter.KeepsCover (branchBack op target) :=
  flushPosition_keepsCover.bind fun _ => onMethod_keepsCover fun pool =>
    MethodM.branchTo_keepsCover pool op target

theorem registerOp_keepsCover (op : RegisterOp) (reg : UInt32) :
    OnSuccess Emitter.KeepsCover (registerOp op reg) :=
  (emit_keepsCover _).discard

theorem violation_keepsCover (msg : String) : OnSuccess Emitter.KeepsCover (violation msg) :=
  onMethod_keepsCover fun _ => MethodM.violation_keepsCover msg

theorem nameOp_keepsCover (op : NameOp) (n : Name) : OnSuccess Emitter.KeepsCover (nameOp op n) :=
  onPool_keepsCover.bind fun _ => (emit_keepsCover _).discard

theorem callNameOp_keepsCover (op : CallNameOp) (n : Name) (argCount : UInt32) :
    OnSuccess Emitter.KeepsCover (callNameOp op n argCount) :=
  onPool_keepsCover.bind fun _ => (emit_keepsCover _).discard

theorem staticName_keepsCover (n : Name) (what : String) :
    OnSuccess Emitter.KeepsCover (staticName n what) := by
  unfold staticName
  refine onPool_keepsCover.bind fun i => OnSuccess.get.bind fun e => ?_
  split
  · exact OnSuccess.throw _
  · exact OnSuccess.pure _

theorem getLocal_keepsCover (reg : UInt32) : OnSuccess Emitter.KeepsCover (getLocal reg) := by
  unfold getLocal
  split
  · exact simple_keepsCover _
  · exact simple_keepsCover _
  · exact simple_keepsCover _
  · exact simple_keepsCover _
  · exact registerOp_keepsCover _ _

theorem setLocal_keepsCover (reg : UInt32) : OnSuccess Emitter.KeepsCover (setLocal reg) := by
  unfold setLocal
  split
  · exact simple_keepsCover _
  · exact simple_keepsCover _
  · exact simple_keepsCover _
  · exact simple_keepsCover _
  · exact registerOp_keepsCover _ _

theorem kill_keepsCover (reg : UInt32) : OnSuccess Emitter.KeepsCover (kill reg) :=
  registerOp_keepsCover _ _

theorem allocTemp_keepsCover : OnSuccess Emitter.KeepsCover allocTemp :=
  onMethod_keepsCover fun _ => MethodM.allocTemp_keepsCover

theorem freeTemp_keepsCover (reg : UInt32) : OnSuccess Emitter.KeepsCover (freeTemp reg) :=
  (kill_keepsCover reg).bind fun _ => onMethod_keepsCover fun _ => MethodM.freeTemp_keepsCover reg

theorem pushInt_keepsCover (v : Int32) : OnSuccess Emitter.KeepsCover (pushInt v) :=
  onPool_keepsCover.bind fun _ => (emit_keepsCover _).discard

theorem pushUint_keepsCover (v : UInt32) : OnSuccess Emitter.KeepsCover (pushUint v) :=
  onPool_keepsCover.bind fun _ => (emit_keepsCover _).discard

theorem pushDouble_keepsCover (bits : UInt64) : OnSuccess Emitter.KeepsCover (pushDouble bits) := by
  unfold pushDouble
  split
  · exact simple_keepsCover _
  · exact onPool_keepsCover.bind fun _ => (emit_keepsCover _).discard

theorem pushString_keepsCover (str : String) : OnSuccess Emitter.KeepsCover (pushString str) :=
  onPool_keepsCover.bind fun _ => (emit_keepsCover _).discard

theorem pushNamespace_keepsCover (space : Namespace) :
    OnSuccess Emitter.KeepsCover (pushNamespace space) :=
  onPool_keepsCover.bind fun _ => (emit_keepsCover _).discard

theorem getSuper_keepsCover (n : Name) : OnSuccess Emitter.KeepsCover (getSuper n) :=
  (staticName_keepsCover n _).bind fun _ => (emit_keepsCover _).discard

theorem setSuper_keepsCover (n : Name) : OnSuccess Emitter.KeepsCover (setSuper n) :=
  (staticName_keepsCover n _).bind fun _ => (emit_keepsCover _).discard

theorem callSuper_keepsCover (op : CallNameOp) (n : Name) (argCount : UInt32) :
    OnSuccess Emitter.KeepsCover (callSuper op n argCount) :=
  (staticName_keepsCover n _).discard.bind fun _ => callNameOp_keepsCover op n argCount

theorem pushSaved_keepsCover (reg : UInt32) (isWith : Bool) :
    OnSuccess Emitter.KeepsCover (pushSaved reg isWith) :=
  (getLocal_keepsCover reg).bind fun _ => (simple_keepsCover _).bind fun _ =>
    onMethod_keepsCover fun _ => MethodM.modify_keepsCover (fun _ => rfl) fun _ => rfl

theorem popScope_keepsCover : OnSuccess Emitter.KeepsCover popScope := simple_keepsCover _

theorem binary_keepsCover (o : BinaryOperator) : OnSuccess Emitter.KeepsCover (binary o) := by
  unfold binary
  generalize o.ops = ops
  obtain ⟨op, negated⟩ := ops
  refine (simple_keepsCover op).bind fun _ => ?_
  cases negated
  · exact OnSuccess.pure _
  · exact simple_keepsCover _

theorem dxns_keepsCover (uri : String) : OnSuccess Emitter.KeepsCover (dxns uri) :=
  onPool_keepsCover.bind fun _ => (emit_keepsCover _).discard.bind fun _ =>
    onMethod_keepsCover fun _ => MethodM.modify_keepsCover (fun _ => rfl) fun _ => rfl

theorem dxnsLate_keepsCover : OnSuccess Emitter.KeepsCover dxnsLate :=
  (simple_keepsCover _).bind fun _ =>
    onMethod_keepsCover fun _ => MethodM.modify_keepsCover (fun _ => rfl) fun _ => rfl

theorem popScopesWithin_keepsCover (depth : Nat) :
    ∀ fuel, OnSuccess Emitter.KeepsCover (popScopesWithin depth fuel)
  | 0 => OnSuccess.pure _
  | fuel + 1 => by
    unfold popScopesWithin
    refine current_keepsCover.bind fun m => ?_
    split
    · exact popScope_keepsCover.bind fun _ => popScopesWithin_keepsCover depth fuel
    · exact OnSuccess.pure _

theorem popScopesTo_keepsCover (depth : Nat) : OnSuccess Emitter.KeepsCover (popScopesTo depth) :=
  current_keepsCover.bind fun _ => popScopesWithin_keepsCover depth _

theorem debugRegister_keepsCover (name : String) (reg : UInt32) :
    OnSuccess Emitter.KeepsCover (debugRegister name reg) := by
  unfold debugRegister
  refine OnSuccess.get.bind fun e => ?_
  split
  · exact OnSuccess.pure _
  · split
    · exact violation_keepsCover _
    · exact onPool_keepsCover.bind fun _ => (emit_keepsCover _).discard

theorem handler_keepsCover (index : Nat) : OnSuccess Emitter.KeepsCover (handler index) :=
  current_keepsCover.bind fun _ => OnSuccess.pure _

theorem position_keepsCover : OnSuccess Emitter.KeepsCover position :=
  current_keepsCover.bind fun _ => OnSuccess.pure _

theorem pushEntryScopes_keepsCover (init : Nat) :
    ∀ depth scopes, OnSuccess Emitter.KeepsCover (pushEntryScopes init depth scopes)
  | _, [] => OnSuccess.pure _
  | _, none :: _ => OnSuccess.throw _
  | depth, some sc :: rest =>
    (pushSaved_keepsCover sc.register sc.isWith).bind fun _ =>
      pushEntryScopes_keepsCover init (depth + 1) rest

theorem enterHandler_keepsCover (index : Nat) : OnSuccess Emitter.KeepsCover (enterHandler index) :=
  (handler_keepsCover index).bind fun _ => current_keepsCover.bind fun _ =>
    (onMethod_keepsCover fun _ => MethodM.modify_keepsCover (fun _ => by exact rfl)
      fun _ => by exact rfl).bind fun _ => pushEntryScopes_keepsCover _ _ _

theorem modifyHandler_keepsCover (index : Nat) (f : HandlerBlock → HandlerBlock) :
    OnSuccess Emitter.KeepsCover (modifyHandler index f) :=
  onMethod_keepsCover fun _ => MethodM.modify_keepsCover (fun _ => rfl) fun _ => rfl

theorem callSite_keepsCover (index : Nat) : OnSuccess Emitter.KeepsCover (callSite index) :=
  (handler_keepsCover index).bind fun _ => (pushInt_keepsCover _).bind fun _ =>
    (reserve_keepsCover _).bind fun _ =>
      (onMethod_keepsCover fun _ => MethodM.adjustStack_keepsCover _).bind fun _ =>
        label_keepsCover.bind fun _ => modifyHandler_keepsCover _ _

theorem unwindFrom_keepsCover (loopIndex : Option Nat) (limit : Nat) :
    ∀ indices called, OnSuccess Emitter.KeepsCover (unwindFrom loopIndex limit indices called)
  | [], _ => OnSuccess.pure _
  | index :: rest, called => by
    unfold unwindFrom
    split
    · exact OnSuccess.pure _
    · refine (handler_keepsCover index).bind fun block => ?_
      split
      · exact OnSuccess.pure _
      · refine (popScopesTo_keepsCover _).bind fun _ => ?_
        split
        · exact (callSite_keepsCover index).bind fun _ => unwindFrom_keepsCover loopIndex limit rest _
        · exact unwindFrom_keepsCover loopIndex limit rest _

theorem unwind_keepsCover (loopIndex : Option Nat) (limit : Nat) :
    OnSuccess Emitter.KeepsCover (unwind loopIndex limit) :=
  current_keepsCover.bind fun _ => unwindFrom_keepsCover loopIndex limit _ _

theorem hasPendingFinally_keepsCover : OnSuccess Emitter.KeepsCover hasPendingFinally :=
  current_keepsCover.bind fun _ => OnSuccess.pure _

theorem returnValue_keepsCover : OnSuccess Emitter.KeepsCover returnValue := by
  unfold returnValue
  refine hasPendingFinally_keepsCover.bind fun pending => ?_
  split
  · exact (simple_keepsCover _).bind fun _ => OnSuccess.pure _
  -- the value waits in a temporary while the finally bodies run
  refine (onMethod_keepsCover fun _ => MethodM.snapshot_keepsCover).bind fun saved => ?_
  refine allocTemp_keepsCover.bind fun value => (setLocal_keepsCover _).bind fun _ => ?_
  refine current_keepsCover.bind fun _ => (unwind_keepsCover _ _).discard.bind fun _ => ?_
  refine (getLocal_keepsCover _).bind fun _ => (kill_keepsCover _).bind fun _ =>
    (simple_keepsCover _).bind fun _ => onMethod_keepsCover fun _ => ?_
  exact (MethodM.freeTemp_keepsCover _).bind fun _ => (MethodM.restore_keepsCover _).bind fun _ =>
    MethodM.adjustStack_keepsCover _

theorem returnVoid_keepsCover : OnSuccess Emitter.KeepsCover returnVoid := by
  unfold returnVoid
  refine hasPendingFinally_keepsCover.bind fun pending => ?_
  split
  · exact (simple_keepsCover _).bind fun _ => OnSuccess.pure _
  refine (onMethod_keepsCover fun _ => MethodM.snapshot_keepsCover).bind fun saved => ?_
  refine current_keepsCover.bind fun _ => (unwind_keepsCover _ _).discard.bind fun _ => ?_
  exact (simple_keepsCover _).bind fun _ => onMethod_keepsCover fun _ => MethodM.restore_keepsCover _

theorem finishClass_keepsCover (d : ClassDefinition) :
    OnSuccess Emitter.KeepsCover (finishClass d) := by
  unfold finishClass
  repeat' first
    | exact OnSuccess.pure _
    | exact onAssembler_keepsCover
    | exact OnSuccess.mapM (fun _ => onPool_keepsCover) _
    | apply OnSuccess.map
    | apply OnSuccess.bind
    | split
    | (intro _)

end Emitter

/-- **Every call that writes without shaping control flow keeps the cover**: it writes
instructions through the one write that raises the count, and allocates and releases
temporaries only from the base up. -/
theorem Emitter.perform_keepsCover (c : Call) (hc : c.shapesFlow = false) :
    OnSuccess Emitter.KeepsCover (Emitter.perform c) := by
  open Emitter in
  have hnone {act : EmitM Unit} (h : OnSuccess Emitter.KeepsCover act) :
      OnSuccess Emitter.KeepsCover (act >>= fun _ => pure Reply.none) :=
    h.bind fun _ => OnSuccess.pure _
  have hnum {β : Type} {act : EmitM β} {f : β → Nat} (h : OnSuccess Emitter.KeepsCover act) :
      OnSuccess Emitter.KeepsCover (act >>= fun x => pure (Reply.number (f x))) :=
    h.bind fun _ => OnSuccess.pure _
  cases c with
  | startMethod | finishMethod | ifBranch | elseBranch | patchIf | patchElse | loopBegin
  | doLoopBegin | labelBegin | patchLoopBegin | loopBack | continueLoop | breakLoop | patchContinue
  | patchBreak | switchBegin | caseLabel | defaultLabel | switchTable | switchDispatch | tryBegin
  | catchClausesBegin | catchClause | catchClausesEnd | finallyClauseBegin | finallyClauseEnd =>
    simp [Call.shapesFlow] at hc
  | emit i => exact (emit_keepsCover i).map
  | callFinallies limit => exact (unwind_keepsCover none limit).map
  | returnValue => exact hnone returnValue_keepsCover
  | returnVoid => exact hnone returnVoid_keepsCover
  | startClass n => exact hnum onAssembler_keepsCover
  | finishClass d => exact hnum (finishClass_keepsCover d)
  | startProgram => exact (OnSuccess.get.bind fun _ => OnSuccess.pure _).map
  | finishProgram init traits =>
    exact (onAssembler_keepsCover.bind fun _ => onAssembler_keepsCover).map
  | addMetadata n items => exact hnum onAssembler_keepsCover
  | multiname n => exact hnum onPool_keepsCover
  | methodIndex n => exact hnum onAssembler_keepsCover
  | code => exact (current_keepsCover.bind fun _ => OnSuccess.pure _).map
  | simple op => exact hnone (simple_keepsCover op)
  | getLocal reg => exact hnone (getLocal_keepsCover reg)
  | setLocal reg => exact hnone (setLocal_keepsCover reg)
  | register op reg => exact hnone (registerOp_keepsCover op reg)
  | allocTemp => exact hnum allocTemp_keepsCover
  | freeTemp reg => exact hnone (freeTemp_keepsCover reg)
  | pushInt v => exact hnone (pushInt_keepsCover v)
  | pushUint v => exact hnone (pushUint_keepsCover v)
  | pushDouble bits => exact hnone (pushDouble_keepsCover bits)
  | pushString str => exact hnone (pushString_keepsCover str)
  | pushBool b => exact hnone (simple_keepsCover _)
  | pushNamespace space => exact hnone (pushNamespace_keepsCover space)
  | property op n => exact hnone (nameOp_keepsCover op n)
  | getSuper n => exact hnone (getSuper_keepsCover n)
  | setSuper n => exact hnone (setSuper_keepsCover n)
  | callName op n argc => exact hnone (callNameOp_keepsCover op n argc)
  | callSuper op n argc => exact hnone (callSuper_keepsCover op n argc)
  | args | callMethod | callStatic | slot | getScopeObject | newFunction | newClass | newCatch
  | hasNext2 => exact hnone (emit_keepsCover _).discard
  | pushSaved reg isWith => exact hnone (pushSaved_keepsCover reg isWith)
  | unary o => exact hnone (simple_keepsCover _)
  | binary o => exact hnone (binary_keepsCover o)
  | coerceTo | convert => exact hnone (simple_keepsCover _)
  | dxns uri => exact hnone (dxns_keepsCover uri)
  | dxnsLate => exact hnone dxnsLate_keepsCover
  | pushDepth => exact hnone (onMethod_keepsCover fun _ => MethodM.pushDepth_keepsCover)
  | popDepth => exact hnone (onMethod_keepsCover fun _ => MethodM.popDepth_keepsCover)
  | setPosition file line => exact hnone (modify_keepsCover fun _ => ⟨rfl, rfl⟩)
  | setLine line => exact hnone (modify_keepsCover fun _ => ⟨rfl, rfl⟩)
  | debugRegister n reg => exact hnone (debugRegister_keepsCover n reg)

/-! ## Landing branches

A call that lands a branch keeps the cover when a branch starts at the site it lands. The proofs
below follow the landing proofs step by step, tracking in `Ready` the branches taken off the
pending ones until they land; each step also keeps the cover, outright or by landing a tracked
branch. -/

open MethodState

namespace MethodM

variable {S : List Nat}

theorem reconcile_keepsCover (depth : Nat) :
    OnSuccess MethodState.KeepsCover (Emitter.reconcile depth) := by
  unfold Emitter.reconcile
  refine OnSuccess.get.bind fun m => ?_
  show OnSuccess _ (if m.depth.stack ≠ depth then _ else _)
  split
  · exact (violation_keepsCover _).bind fun _ => setStack_keepsCover _
  · exact OnSuccess.pure _

theorem frame_keepsCover (index : Nat) : OnSuccess MethodState.KeepsCover (Emitter.frame index) := by
  unfold Emitter.frame
  refine OnSuccess.get.bind fun _ => ?_
  split
  · exact OnSuccess.pure _
  · exact (violation_keepsCover _).bind fun _ => OnSuccess.pure _

theorem modifyFrame_keepsCover (index : Nat) (g : LoopFrame → LoopFrame) :
    OnSuccess MethodState.KeepsCover (Emitter.modifyFrame index g) :=
  modify_keepsCover (fun _ => rfl) fun _ => rfl

/-- a step that leaves the layout and keeps the cover keeps the method ready and covered -/
theorem Keeps.covered {α : Type} {act : MethodM α} (h : Keeps act)
    (h' : OnSuccess MethodState.KeepsCover act) :
    OkTriple MethodState.KeepsCover (Ready S) act fun _ => Ready S :=
  h.ready.relate h'

theorem violation_covered (msg : String) :
    OkTriple MethodState.KeepsCover (Ready S) (violation msg) fun _ => Ready S :=
  (violation_ready msg).relate (violation_keepsCover msg)

theorem setStack_covered (n : Nat) :
    OkTriple MethodState.KeepsCover (Ready S) (setStack n) fun _ => Ready S :=
  (setStack_ready n).relate (setStack_keepsCover n)

theorem restore_covered (s : Snapshot) :
    OkTriple MethodState.KeepsCover (Ready S) (restore s) fun _ => Ready S :=
  (restore_ready s).relate (restore_keepsCover s)

theorem reconcile_covered (depth : Nat) :
    OkTriple MethodState.KeepsCover (Ready S) (Emitter.reconcile depth) fun _ => Ready S :=
  (reconcile_ready depth).relate (reconcile_keepsCover depth)

/-- the frame at `index`, whose pending branches are tracked from then on -/
theorem frame_covered (index : Nat) :
    OkTriple MethodState.KeepsCover (Ready S) (Emitter.frame index)
      fun r m => m.Ready S ∧ ∀ f ∈ r, m.Ready (f.pending ++ S) :=
  (frame_ready index).relate (frame_keepsCover index)

/-- a frame changed so that it pends only what it pended or what is tracked -/
theorem modifyFrame_covered {index : Nat} {g : LoopFrame → LoopFrame}
    (hg : ∀ f, ∀ s ∈ (g f).pending, s ∈ f.pending ∨ s ∈ S) :
    OkTriple MethodState.KeepsCover (Ready S) (Emitter.modifyFrame index g) fun _ => Ready S :=
  (modifyFrame_ready hg).relate (modifyFrame_keepsCover index g)

/-- a reported violation, when the method goes on, is followed by the rest of the step -/
theorem report_covered {β : Type} {c : Prop} [Decidable c] {msg : String} {k : Unit → MethodM β}
    {Q : β → MethodState → Prop} (hk : ∀ u, OkTriple MethodState.KeepsCover (Ready S) (k u) Q) :
    OkTriple MethodState.KeepsCover (Ready S) (if c then violation msg >>= k else k ()) Q := by
  split
  · exact (violation_covered msg).bind hk
  · exact hk ()

/-- the entry jump of a tracked frame lands here, and the method stays ready and covered -/
theorem landEntry_covered {f : LoopFrame} {index : Nat} {msg : String} :
    OkTriple MethodState.KeepsCover (Ready (f.pending ++ S))
      (do
        Emitter.modifyFrame index fun f => { f with entry := none }
        match f.entry with
        | some entry => patchHere entry
        | none => violation msg)
      fun _ => Ready S := by
  refine (modifyFrame_covered fun f' s hs => .inl ?_).bind fun _ => ?_
  · simp only [LoopFrame.pending, List.mem_append] at hs ⊢
    tauto
  split
  · next entry hentry =>
    refine (patchHere_keepsCover (List.mem_append_left _ ?_)).consequence (fun _ h => h)
      fun _ _ h => h.sub fun _ hs => List.mem_append_right _ hs
    simp [LoopFrame.pending, hentry]
  · exact (violation_covered msg).consequence (fun _ h => h)
      fun _ _ h => h.sub fun _ hs => List.mem_append_right _ hs

end MethodM

namespace Emitter

variable {α : Type} {S : List Nat} {P : MethodState → Prop}

theorem onMethod_covered {act : Pool → MethodM α} {Q' : α → MethodState → Prop}
    (h : ∀ pool, OkTriple MethodState.KeepsCover P (act pool) Q') :
    OkTriple Emitter.KeepsCover (Inner P) (onMethod act) fun x => Inner (Q' x) := by
  intro e x e' hp hact
  obtain ⟨m, rest, m', hm, hact', rfl⟩ := onMethod_ok hact
  obtain ⟨hg, hq⟩ := h _ m x m' (hp m (by simp [hm])) hact'
  refine ⟨⟨rfl, ?_⟩, fun m₁ hm₁ => ?_⟩
  · rw [hm]
    exact .head hg
  · simp only [List.head?_cons, Option.mem_def, Option.some.injEq] at hm₁
    exact hm₁ ▸ hq

theorem covered_of_adds {act : EmitM α} (h : OnSuccess Emitter.Adds act)
    (h' : OnSuccess Emitter.KeepsCover act) :
    OkTriple Emitter.KeepsCover (Inner (Ready S)) act fun _ => Inner (Ready S) :=
  (okTriple_of_adds h).relate h'

theorem covered_of_writes {act : EmitM α} (h : OnSuccess Emitter.Writes act)
    (h' : OnSuccess Emitter.KeepsCover act) :
    OkTriple Emitter.KeepsCover (Inner (Ready S)) act fun _ => Inner (Ready S) :=
  (okTriple_of_writes h).relate h'

theorem coverageRecord_keepsCover (taken : Bool) :
    OnSuccess Emitter.KeepsCover (coverageRecord taken) := by
  unfold coverageRecord
  repeat' first
    | exact OnSuccess.pure _
    | exact OnSuccess.get
    | exact emitRaw_keepsCover _
    | exact onPool_keepsCover
    | exact modify_keepsCover fun _ => ⟨rfl, rfl⟩
    | apply OnSuccess.discard
    | apply OnSuccess.bind
    | split
    | (intro _)

theorem reserve_covered (op : BranchOp) :
    OkTriple Emitter.KeepsCover (Inner (Ready S)) (reserve op) fun site => Inner (Ready (site :: S)) :=
  (reserve_ready op).relate (reserve_keepsCover op)

theorem label_covered : OkTriple Emitter.KeepsCover (Inner (Ready S)) label
    fun _ => Inner (Ready S) :=
  label_ready.relate label_keepsCover

theorem coverageRecord_covered (taken : Bool) :
    OkTriple Emitter.KeepsCover (Inner (Ready S)) (coverageRecord taken) fun _ => Inner (Ready S) :=
  (coverageRecord_ready taken).relate (coverageRecord_keepsCover taken)

theorem patchHere_covered {site : Nat} (hs : site ∈ S) :
    OkTriple Emitter.KeepsCover (Inner (Ready S)) (patchHere site) fun _ => Inner (Ready S) :=
  onMethod_covered fun _ => MethodM.patchHere_keepsCover hs

/-- With coverage on, the two jumps a conditional branch writes for the hook calls are landed
where the hook calls end. -/
theorem conditional_covered (op : BranchOp) :
    OkTriple Emitter.KeepsCover (Inner (Ready S)) (conditional op)
      fun site => Inner (Ready (site :: S)) := by
  unfold conditional
  refine OkTriple.get.bind fun e => ?_
  split
  · exact (reserve_covered op).consequence (fun _ h => h.2) fun _ _ h => h
  · refine ((reserve_covered op).consequence (fun _ h => h.2) fun _ _ h => h).bind fun taken => ?_
    refine (coverageRecord_covered false).bind fun _ => (reserve_covered .jump).bind fun skip => ?_
    refine (patchHere_covered (List.mem_cons_of_mem _ List.mem_cons_self)).bind fun _ =>
      label_covered.discard.bind fun _ => (coverageRecord_covered true).bind fun _ => ?_
    refine (reserve_covered .jump).bind fun target => ?_
    refine ((patchHere_covered (List.mem_cons_of_mem _ List.mem_cons_self)).consequence
      (fun _ h => h) fun _ _ h => h.sub ?_).bind fun _ =>
        label_covered.discard.bind fun _ => OkTriple.pure fun _ h => h
    intro s hs
    rcases List.mem_cons.mp hs with rfl | hs
    · exact List.mem_cons_self
    · exact List.mem_cons_of_mem _ (List.mem_cons_of_mem _ (List.mem_cons_of_mem _ hs))

theorem ifBranch_covered (op : BranchOp) :
    OkTriple Emitter.KeepsCover (Inner (Ready S)) (ifBranch op) fun _ => Inner (Ready S) :=
  (conditional_covered op).bind fun _ => onMethod_covered fun _ => OkTriple.modify fun _ hr =>
    ⟨.of_eq rfl rfl, (hr.pushIf List.mem_cons_self).sub fun _ hs => List.mem_cons_of_mem _ hs⟩

theorem elseBranch_covered : OkTriple Emitter.KeepsCover (Inner (Ready S)) elseBranch
    fun _ => Inner (Ready S) := by
  unfold elseBranch
  refine (reserve_covered .jump).bind fun jump => onMethod_covered fun _ =>
    OkTriple.get.bind fun m => ?_
  split
  · exact (MethodM.violation_covered _).consequence
      (fun _ h => h.2) fun _ _ h => h.sub fun _ hs => List.mem_cons_of_mem _ hs
  · next frame rest hifs =>
    refine (OkTriple.set (Q := fun _ => Ready (frame.site :: jump :: S)) fun _ ⟨hm, hr⟩ => by
      subst hm
      exact ⟨.of_eq rfl rfl, hr.popIf hifs⟩).bind fun _ => ?_
    refine (MethodM.patchHere_keepsCover List.mem_cons_self).bind fun _ =>
      (MethodM.setStack_covered _).bind fun _ =>
        OkTriple.modify fun _ hr => ⟨.of_eq rfl rfl, (hr.pushElse ?_).sub ?_⟩
    · exact List.mem_cons_of_mem _ List.mem_cons_self
    · exact fun _ hs => List.mem_cons_of_mem _ (List.mem_cons_of_mem _ hs)

theorem patchIf_covered : OkTriple Emitter.KeepsCover (Inner (Ready S)) patchIf
    fun _ => Inner (Ready S) := by
  unfold patchIf
  refine onMethod_covered fun _ => OkTriple.get.bind fun m => ?_
  split
  · exact (MethodM.violation_covered _).consequence
      (fun _ h => h.2) fun _ _ h => h
  · next frame rest hifs =>
    refine (OkTriple.set (Q := fun _ => Ready (frame.site :: S)) fun _ ⟨hm, hr⟩ => by
      subst hm
      exact ⟨.of_eq rfl rfl, hr.popIf hifs⟩).bind fun _ => ?_
    exact (MethodM.patchHere_keepsCover List.mem_cons_self).bind fun _ =>
      (MethodM.reconcile_covered _).consequence
        (fun _ h => h) fun _ _ h => h.sub fun _ hs => List.mem_cons_of_mem _ hs

theorem patchElse_covered : OkTriple Emitter.KeepsCover (Inner (Ready S)) patchElse
    fun _ => Inner (Ready S) := by
  unfold patchElse
  refine onMethod_covered fun _ => OkTriple.get.bind fun m => ?_
  split
  · exact (MethodM.violation_covered _).consequence
      (fun _ h => h.2) fun _ _ h => h
  · next frame rest helses =>
    refine (OkTriple.set (Q := fun _ => Ready (frame.site :: S)) fun _ ⟨hm, hr⟩ => by
      subst hm
      exact ⟨.of_eq rfl rfl, hr.popElse helses⟩).bind fun _ => ?_
    exact (MethodM.patchHere_keepsCover List.mem_cons_self).bind fun _ =>
      (MethodM.reconcile_covered _).consequence
        (fun _ h => h) fun _ _ h => h.sub fun _ hs => List.mem_cons_of_mem _ hs

theorem pushFrame_keepsCover (kind : FrameKind) (entry top : Option Nat) :
    OnSuccess Emitter.KeepsCover (pushFrame kind entry top) :=
  onMethod_keepsCover fun _ _ _ _ h => by
    cases h
    exact .of_eq rfl rfl

theorem loopBegin_covered : OkTriple Emitter.KeepsCover (Inner (Ready S)) loopBegin
    fun _ => Inner (Ready S) :=
  loopBegin_ready.relate ((reserve_keepsCover _).bind fun _ => label_keepsCover.bind fun _ =>
    pushFrame_keepsCover _ _ _)

theorem doLoopBegin_covered : OkTriple Emitter.KeepsCover (Inner (Ready S)) doLoopBegin
    fun _ => Inner (Ready S) :=
  doLoopBegin_ready.relate (label_keepsCover.bind fun _ => pushFrame_keepsCover _ _ _)

theorem labelBegin_covered : OkTriple Emitter.KeepsCover (Inner (Ready S)) labelBegin
    fun _ => Inner (Ready S) :=
  labelBegin_ready.relate (pushFrame_keepsCover _ _ _)

theorem switchBegin_covered : OkTriple Emitter.KeepsCover (Inner (Ready S)) switchBegin
    fun _ => Inner (Ready S) :=
  switchBegin_ready.relate ((reserve_keepsCover _).bind fun _ => pushFrame_keepsCover _ _ _)

theorem patchLoopBegin_covered (index : Nat) :
    OkTriple Emitter.KeepsCover (Inner (Ready S)) (patchLoopBegin index) fun _ => Inner (Ready S) := by
  unfold patchLoopBegin
  refine onMethod_covered fun _ =>
    (MethodM.frame_covered index).bind fun r => ?_
  split
  · next f => exact MethodM.landEntry_covered.consequence (fun _ h => h.2 f rfl) fun _ _ h => h
  · exact OkTriple.pure fun _ h => h.1

theorem switchTable_covered (index : Nat) :
    OkTriple Emitter.KeepsCover (Inner (Ready S)) (switchTable index) fun _ => Inner (Ready S) := by
  unfold switchTable
  refine onMethod_covered fun _ =>
    (MethodM.frame_covered index).bind fun r => ?_
  split
  · next f =>
    refine (MethodM.modifyFrame_covered fun f' s hs => .inl ?_).consequence (fun _ h => h.2 f rfl) (fun _ _ h => h)
      |>.bind fun _ => (MethodM.setStack_covered _).bind
        fun _ => ?_
    · simp only [LoopFrame.pending, List.mem_append] at hs ⊢
      tauto
    split
    · next entry hentry =>
      refine (MethodM.patchHere_keepsCover (List.mem_append_left _ ?_)).consequence (fun _ h => h)
        fun _ _ h => h.sub fun _ hs => List.mem_append_right _ hs
      simp [LoopFrame.pending, hentry]
    · exact (MethodM.violation_covered _).consequence
        (fun _ h => h) fun _ _ h => h.sub fun _ hs => List.mem_append_right _ hs
  · exact OkTriple.pure fun _ h => h.1

/-- With coverage on, the jump over the hook call on the path that falls out of the loop lands
past the jump back. -/
theorem loopBack_covered (index : Nat) (op : BranchOp) :
    OkTriple Emitter.KeepsCover (Inner (Ready S)) (loopBack index op) fun _ => Inner (Ready S) := by
  unfold loopBack
  refine (((onFrame_ready index).relate (onMethod_keepsCover fun _ =>
    MethodM.frame_keepsCover index)).consequence (fun _ h => h) fun _ _ h =>
      h.mono fun _ hr => hr.1).bind fun r => ?_
  split
  · next f =>
    split
    · next top htop =>
      refine OkTriple.get.bind fun e => ?_
      split
      · exact (covered_of_adds (branchBack_adds op top) (branchBack_keepsCover op top)).consequence
          (fun _ h => h.2) fun _ _ h => h
      · refine ((reserve_covered op).consequence (fun _ h => h.2) fun _ _ h => h).bind
          fun taken => ?_
        refine (coverageRecord_covered false).bind fun _ => (reserve_covered .jump).bind
          fun skip => ?_
        refine (patchHere_covered (List.mem_cons_of_mem _ List.mem_cons_self)).bind fun _ =>
          label_covered.discard.bind fun _ => (coverageRecord_covered true).bind fun _ => ?_
        refine (covered_of_adds (branchBack_adds .jump top) (branchBack_keepsCover .jump top)).bind
          fun _ => ?_
        exact ((patchHere_covered List.mem_cons_self).consequence (fun _ h => h) fun _ _ h =>
          h.sub fun _ hs => List.mem_cons_of_mem _ (List.mem_cons_of_mem _ hs)).bind fun _ =>
            label_covered.discard
    · exact covered_of_writes (violation_writes _) (violation_keepsCover _)
  · exact OkTriple.pure fun _ h => h

theorem exitTo_keepsCover (index : Nat) (isBreak : Bool) :
    OnSuccess Emitter.KeepsCover (exitTo index isBreak) := by
  unfold exitTo
  exact current_keepsCover.bind fun _ => (unwind_keepsCover _ _).discard.bind fun _ =>
    (popScopesTo_keepsCover _).bind fun _ => (reserve_keepsCover _).bind fun _ =>
      onMethod_keepsCover fun _ => (MethodM.modifyFrame_keepsCover _ _).bind fun _ =>
        MethodM.restore_keepsCover _

theorem continueLoop_covered (index : Nat) :
    OkTriple Emitter.KeepsCover (Inner (Ready S)) (continueLoop index) fun _ => Inner (Ready S) := by
  refine (continueLoop_ready index).relate ?_
  unfold continueLoop
  refine (onMethod_keepsCover fun _ => MethodM.frame_keepsCover index).bind fun r => ?_
  split
  · split
    · exact (violation_keepsCover _).bind fun _ => OnSuccess.pure _
    · exact exitTo_keepsCover index false
  · exact OnSuccess.pure _

theorem breakLoop_covered (index : Nat) :
    OkTriple Emitter.KeepsCover (Inner (Ready S)) (breakLoop index) fun _ => Inner (Ready S) := by
  refine (breakLoop_ready index).relate ?_
  unfold breakLoop
  refine (onMethod_keepsCover fun _ => MethodM.frame_keepsCover index).bind fun r => ?_
  split
  · exact exitTo_keepsCover index true
  · exact OnSuccess.pure _

theorem patchContinue_covered (index : Nat) :
    OkTriple Emitter.KeepsCover (Inner (Ready S)) (patchContinue index) fun _ => Inner (Ready S) := by
  unfold patchContinue
  refine onMethod_covered fun _ =>
    (MethodM.frame_covered index).bind fun r => ?_
  split
  · next f =>
    refine (MethodM.modifyFrame_covered fun f' s hs => .inl ?_).consequence (fun _ h => h.2 f rfl) (fun _ _ h => h)
      |>.bind fun _ => ?_
    · simp only [LoopFrame.pending, List.mem_append, List.not_mem_nil] at hs ⊢
      tauto
    refine (MethodM.forM_patchHere_keepsCover fun s hs => ?_).consequence (fun _ h => h)
      fun _ _ h => h.sub fun _ hs => List.mem_append_right _ hs
    exact List.mem_append_left _ (by simp [LoopFrame.pending, hs])
  · exact OkTriple.pure fun _ h => h.1

theorem patchBreak_covered (index : Nat) :
    OkTriple Emitter.KeepsCover (Inner (Ready S)) (patchBreak index) fun _ => Inner (Ready S) := by
  unfold patchBreak
  refine onMethod_covered fun _ =>
    (MethodM.frame_covered index).bind fun r => ?_
  split
  · refine OkTriple.get.bind fun _ => ?_
    extract_lets -underBinder +onlyGivenNames close
    refine (MethodM.report_covered fun _ => ?_).consequence (fun _ h => h.2.1) fun _ _ h => h
    dsimp -zeta only [close]
    refine OkTriple.get.bind fun m => ?_
    dsimp only
    split
    · next f hlast =>
      have hf : f ∈ m.flow.loops := List.mem_of_mem_take (List.mem_of_getLast? hlast)
      refine (OkTriple.modify (Q := fun _ => Ready (f.pending ++ S)) fun _ ⟨hm, hr⟩ => by
        subst hm
        exact ⟨.of_eq rfl rfl, (hr.trackFrame hf).sublistLoops
          ((List.dropLast_sublist _).trans (List.take_sublist _ _))⟩).bind fun _ => ?_
      refine MethodM.report_covered fun _ => MethodM.report_covered fun _ => ?_
      refine (MethodM.forM_patchHere_keepsCover fun s hs => ?_).bind fun _ =>
        (MethodM.setStack_covered _).consequence
          (fun _ h => h) fun _ _ h => h.sub fun _ hs => List.mem_append_right _ hs
      exact List.mem_append_left _ (by simp only [LoopFrame.pending, List.mem_append] at hs ⊢; tauto)
    · exact OkTriple.pure fun _ h => h.2
  · exact OkTriple.pure fun _ h => h.1

theorem switchLabel_keepsCover (index : Nat) : OnSuccess Emitter.KeepsCover (switchLabel index) := by
  unfold switchLabel
  refine (onMethod_keepsCover fun _ => MethodM.frame_keepsCover index).bind fun r => ?_
  split
  · exact (onMethod_keepsCover fun _ => MethodM.setStack_keepsCover _).bind fun _ =>
      label_keepsCover.map
  · exact OnSuccess.pure _

theorem recordLabel_keepsCover (index : Nat) (g : LoopFrame → LoopFrame) :
    OnSuccess MethodState.KeepsCover
      (do if (← Emitter.frame index).isSome then Emitter.modifyFrame index g) :=
  (MethodM.frame_keepsCover index).bind fun _ => by
    split
    · exact MethodM.modifyFrame_keepsCover index g
    · exact OnSuccess.pure _

theorem caseLabel_covered (index : Nat) :
    OkTriple Emitter.KeepsCover (Inner (Ready S)) (caseLabel index) fun _ => Inner (Ready S) := by
  refine (caseLabel_ready index).relate ?_
  unfold caseLabel
  refine (switchLabel_keepsCover index).bind fun r => ?_
  split
  · exact onMethod_keepsCover fun _ => recordLabel_keepsCover index _
  · exact OnSuccess.pure _

theorem defaultLabel_covered (index : Nat) :
    OkTriple Emitter.KeepsCover (Inner (Ready S)) (defaultLabel index) fun _ => Inner (Ready S) := by
  refine (defaultLabel_ready index).relate ?_
  unfold defaultLabel
  refine (switchLabel_keepsCover index).bind fun r => ?_
  split
  · exact onMethod_keepsCover fun _ => recordLabel_keepsCover index _
  · exact OnSuccess.pure _

end Emitter

/-! ## Try regions

The calls on try regions land the jumps their regions keep pending: over the handlers, out of
each handler, into the finally body and past the rethrowing handler. A region read by its index
has its pending jumps tracked (`Ready.trackHandler`), so that once they are taken off the region
they still start branches when they land; a region that is out of range reads as the empty one,
which pends nothing. This holds whatever the ordering option: an out-of-order call that goes on
lands only jumps its method wrote. -/

namespace MethodState

variable {m : MethodState} {S : List Nat}

/-- the regions change, each new one pending only branches that were pending or are tracked -/
theorem Ready.setHandlers (h : m.Ready S) {hs : List HandlerBlock}
    (hl : ∀ b ∈ hs, ∀ s ∈ b.pending, s ∈ m.handlers.flatMap HandlerBlock.pending ∨ s ∈ S) :
    ({ m with handlers := hs } : MethodState).Ready S := by
  refine h.repend rfl (fun s hs' => ?_) fun _ hs' => .inr hs'
  simp only [pending, List.mem_append] at hs' ⊢
  rcases hs' with ((h₁ | h₂) | h₃) | h₄
  · exact .inl (.inl (.inl (.inl h₁)))
  · exact .inl (.inl (.inl (.inr h₂)))
  · exact .inl (.inl (.inr h₃))
  · obtain ⟨b, hb, hsb⟩ := List.mem_flatMap.mp h₄
    exact (hl b hb s hsb).imp_left .inr

/-- one region changed, pending only what it pended or what is tracked -/
theorem Ready.modifyHandler (h : m.Ready S) {index : Nat} {f : HandlerBlock → HandlerBlock}
    (hf : ∀ b, ∀ s ∈ (f b).pending, s ∈ b.pending ∨ s ∈ S) :
    ({ m with handlers := m.handlers.modify index f } : MethodState).Ready S :=
  h.setHandlers fun b' hb' s hs => by
    rcases List.mem_modify_cases hb' with hb' | ⟨b, hb, rfl⟩
    · exact .inl (List.mem_flatMap.mpr ⟨b', hb', hs⟩)
    · exact (hf b s hs).imp_left fun hs => List.mem_flatMap.mpr ⟨b, hb, hs⟩

theorem Ready.pushHandler (h : m.Ready S) {b : HandlerBlock} (hb : b.pending = []) :
    ({ m with handlers := m.handlers ++ [b] } : MethodState).Ready S :=
  h.setHandlers fun b' hb' s hs => by
    rcases List.mem_append.mp hb' with hb' | hb'
    · exact .inl (List.mem_flatMap.mpr ⟨b', hb', hs⟩)
    · rw [List.mem_singleton.mp hb', hb] at hs
      cases hs

theorem Ready.dropLastHandler (h : m.Ready S) :
    ({ m with handlers := m.handlers.dropLast } : MethodState).Ready S :=
  h.setHandlers fun b hb _ hs => .inl (List.mem_flatMap.mpr ⟨b, List.dropLast_subset _ hb, hs⟩)

theorem Ready.trackHandler (h : m.Ready S) (index : Nat) :
    m.Ready ((m.handlers[index]?.getD default).pending ++ S) := by
  refine h.add fun s hs => ?_
  cases hb : m.handlers[index]? with
  | none =>
    have hnil : (default : HandlerBlock).pending = [] := rfl
    rw [hb, Option.getD_none, hnil] at hs
    cases hs
  | some b =>
    rw [hb, Option.getD_some] at hs
    simp only [pending, List.mem_append]
    exact .inr (List.mem_flatMap.mpr ⟨b, List.mem_of_getElem? hb, hs⟩)

end MethodState

namespace Emitter

variable {α : Type} {S : List Nat}

theorem openBlock_keepsCover (expected : List BlockState) (what : String) :
    OnSuccess Emitter.KeepsCover (openBlock expected what) := by
  unfold openBlock
  refine current_keepsCover.bind fun m => ?_
  split
  · exact (violation_keepsCover _).bind fun _ => OnSuccess.pure _
  · split
    · exact OnSuccess.pure _
    · exact (violation_keepsCover _).bind fun _ => OnSuccess.pure _

theorem openBlock_covered (expected : List BlockState) (what : String) :
    OkTriple Emitter.KeepsCover (Inner (Ready S)) (openBlock expected what) fun _ => Inner (Ready S) :=
  covered_of_writes (openBlock_writes expected what) (openBlock_keepsCover expected what)

theorem dispatch_keepsCover (dflt : Nat) (cases : List Nat) :
    OnSuccess Emitter.KeepsCover (dispatch dflt cases) :=
  flushPosition_keepsCover.bind fun _ => position_keepsCover.bind fun _ =>
    (emitRaw_keepsCover _).discard

/-- the region read by its index, whose pending branches are tracked from then on -/
theorem handler_covered (index : Nat) :
    OkTriple Emitter.KeepsCover (Inner (Ready S)) (handler index)
      fun b => Inner (Ready (b.pending ++ S)) := by
  intro e b e' hr h
  obtain ⟨rfl, m, rest, hm, rfl⟩ := handler_ok h
  refine ⟨refl_of _ _, fun m' hm' => ?_⟩
  simp only [hm, List.head?_cons, Option.mem_def, Option.some.injEq] at hm'
  rw [← hm']
  exact (hr m (by simp [hm])).trackHandler index

theorem modifyHandler_covered {index : Nat} {f : HandlerBlock → HandlerBlock}
    (hf : ∀ b, ∀ s ∈ (f b).pending, s ∈ b.pending ∨ s ∈ S) :
    OkTriple Emitter.KeepsCover (Inner (Ready S)) (modifyHandler index f) fun _ => Inner (Ready S) :=
  onMethod_covered fun _ => OkTriple.modify fun _ hr => ⟨.of_eq rfl rfl, hr.modifyHandler hf⟩

theorem appendEntry_covered (x : ExceptionEntry) :
    OkTriple Emitter.KeepsCover (Inner (Ready S))
      (onMethod fun _ => (modify fun m => { m with exceptions := m.exceptions ++ [x] } : MethodM PUnit))
      fun _ => Inner (Ready S) :=
  onMethod_covered fun _ => OkTriple.modify fun _ hr =>
    ⟨.of_eq rfl rfl, hr.repend rfl (fun _ hs => .inl hs) fun _ hs => .inr hs⟩

theorem tryBegin_covered (hasFinally : Bool) :
    OkTriple Emitter.KeepsCover (Inner (Ready S)) (tryBegin hasFinally) fun _ => Inner (Ready S) := by
  unfold tryBegin
  refine (covered_of_writes flushPosition_writes flushPosition_keepsCover).bind fun _ =>
    onMethod_covered fun _ => ?_
  -- the register of the finally body is bookkeeping; the new region pends nothing
  extract_lets -underBinder +onlyGivenNames push
  have hpush : ∀ sel, OkTriple MethodState.KeepsCover (Ready S) (push sel) fun _ => Ready S := by
    intro sel
    dsimp only [push]
    refine OkTriple.get.bind fun m => OkTriple.set fun _ ⟨hm, hr⟩ => ?_
    subst hm
    exact ⟨.of_eq rfl rfl, hr.pushHandler rfl⟩
  split
  · exact (MethodM.allocTemp_keeps.covered MethodM.allocTemp_keepsCover).map.bind
      fun sel => (hpush sel).consequence (fun _ ⟨_, _, h⟩ => h) fun _ _ h => h
  · exact (OkTriple.pure fun _ h => h).bind hpush

theorem catchClausesBegin_covered :
    OkTriple Emitter.KeepsCover (Inner (Ready S)) catchClausesBegin fun _ => Inner (Ready S) := by
  unfold catchClausesBegin
  refine (openBlock_covered _ _).bind fun r => ?_
  split
  · refine (covered_of_writes flushPosition_writes flushPosition_keepsCover).bind fun _ =>
      (covered_of_writes position_writes position_keepsCover).bind fun _ =>
        (modifyHandler_covered (by exact fun _ _ hs => .inl hs)).bind fun _ =>
          (reserve_covered .jump).bind fun skip => ?_
    refine (modifyHandler_covered fun b s hs => ?_).consequence (fun _ h => h) fun _ _ h =>
      h.sub fun _ hs => List.mem_cons_of_mem _ hs
    simp only [HandlerBlock.pending, Option.toList_some, List.mem_append, List.mem_cons] at hs ⊢
    tauto
  · exact OkTriple.pure fun _ h => h

/-- A clause after the first lands nothing: the jump out of the handler before it is left pending
on the region. -/
theorem catchClause_covered (excType varName : Option Name) :
    OkTriple Emitter.KeepsCover (Inner (Ready S)) (catchClause excType varName)
      fun _ => Inner (Ready S) := by
  unfold catchClause
  refine (openBlock_covered _ _).bind fun r => ?_
  split
  · next index =>
    refine (covered_of_writes (handler_writes index) (handler_keepsCover index)).bind fun b => ?_
    extract_lets -underBinder +onlyGivenNames rest
    have hrest : ∀ u, OkTriple Emitter.KeepsCover (Inner (Ready S)) (rest u)
        fun _ => Inner (Ready S) := by
      intro u
      dsimp -zeta only [rest]
      extract_lets -underBinder +onlyGivenNames intern
      have hintern : ∀ n, OkTriple Emitter.KeepsCover (Inner (Ready S)) (intern n)
          fun _ => Inner (Ready S) := by
        intro n
        dsimp only [intern]
        split
        · exact covered_of_writes onPool_writes onPool_keepsCover
        · exact OkTriple.pure fun _ h => h
      exact (hintern excType).bind fun _ => (hintern varName).bind fun _ =>
        (covered_of_writes flushPosition_writes flushPosition_keepsCover).bind fun _ =>
        (covered_of_writes position_writes position_keepsCover).bind fun _ =>
        (covered_of_writes (handler_writes index) (handler_keepsCover index)).bind fun _ =>
        (modifyHandler_covered (by exact fun _ _ hs => .inl hs)).bind fun _ =>
        (appendEntry_covered _).bind fun _ =>
        (covered_of_writes current_writes current_keepsCover).bind fun _ =>
        (covered_of_writes (enterHandler_writes index) (enterHandler_keepsCover index)).bind fun _ =>
        OkTriple.pure fun _ h => h
    split
    · refine (reserve_covered .jump).bind fun stop =>
        ((modifyHandler_covered fun b s hs => ?_).consequence (fun _ h => h) fun _ _ h =>
          h.sub fun _ hs => List.mem_cons_of_mem _ hs).bind hrest
      simp only [HandlerBlock.pending, List.mem_append, List.mem_cons] at hs ⊢
      tauto
    · exact hrest ()
  · exact OkTriple.pure fun _ h => h

theorem catchClausesEnd_covered :
    OkTriple Emitter.KeepsCover (Inner (Ready S)) catchClausesEnd fun _ => Inner (Ready S) := by
  unfold catchClausesEnd
  refine (openBlock_covered _ _).bind fun r => ?_
  split
  · next index =>
    refine (handler_covered index).bind fun b => ?_
    refine (modifyHandler_covered fun b' s hs => .inl ?_).bind fun _ => onMethod_covered fun _ => ?_
    · simp [HandlerBlock.pending] at hs ⊢
      tauto
    refine (MethodM.forM_patchHere_keepsCover fun s hs => List.mem_append_left _ ?_).bind fun _ =>
      (MethodM.restore_covered _).bind fun _ => ?_
    · simp only [HandlerBlock.pending, List.mem_append] at hs ⊢
      tauto
    split
    · exact OkTriple.pure fun _ h => h.sub fun _ hs => List.mem_append_right _ hs
    · exact OkTriple.modify fun _ hr =>
        ⟨.of_eq rfl rfl, hr.dropLastHandler.sub fun _ hs => List.mem_append_right _ hs⟩
  · exact OkTriple.pure fun _ h => h

/-- The jumps into the finally body from the range and from the rethrowing handler land at the
body's start, and the jump past that handler is pending on the region from then on. -/
theorem finallyClauseBegin_covered :
    OkTriple Emitter.KeepsCover (Inner (Ready S)) finallyClauseBegin fun _ => Inner (Ready S) := by
  unfold finallyClauseBegin
  refine (openBlock_covered _ _).bind fun r => ?_
  split
  · next index =>
    refine (covered_of_writes flushPosition_writes flushPosition_keepsCover).bind fun _ =>
      (covered_of_writes position_writes position_keepsCover).bind fun rangeEnd =>
        (covered_of_writes (handler_writes index) (handler_keepsCover index)).bind fun b => ?_
    extract_lets -underBinder +onlyGivenNames body
    have hbody : ∀ u, OkTriple Emitter.KeepsCover (Inner (Ready S)) (body u)
        fun _ => Inner (Ready S) := by
      intro u
      dsimp -zeta only [body]
      refine (covered_of_adds (callSite_adds index) (callSite_keepsCover index)).bind fun _ =>
        (reserve_covered .jump).bind fun done => ?_
      refine (covered_of_writes position_writes position_keepsCover).bind fun _ =>
        (appendEntry_covered _).bind fun _ =>
        (covered_of_writes (enterHandler_writes index) (enterHandler_keepsCover index)).bind fun _ =>
        (covered_of_writes allocTemp_writes allocTemp_keepsCover).bind fun exception =>
        (covered_of_writes (setLocal_writes _) (setLocal_keepsCover _)).bind fun _ =>
        (covered_of_adds (callSite_adds index) (callSite_keepsCover index)).bind fun _ =>
        (covered_of_writes (getLocal_writes _) (getLocal_keepsCover _)).bind fun _ =>
        (covered_of_writes (freeTemp_writes _) (freeTemp_keepsCover _)).bind fun _ =>
        (covered_of_writes throwValue_writes (simple_keepsCover _)).bind fun _ =>
        (handler_covered index).bind fun b' => ?_
      refine (modifyHandler_covered fun b'' s hs => ?_).bind fun _ => ?_
      · simp [HandlerBlock.pending] at hs ⊢
        tauto
      refine OkTriple.bind (M := fun _ => Inner (Ready S)) (onMethod_covered fun _ => ?_) fun _ => ?_
      · exact (MethodM.forM_patchHere_keepsCover fun s hs =>
          List.mem_append_left _ (by simp [HandlerBlock.pending, hs])).bind fun _ =>
            (MethodM.restore_covered _).bind fun _ =>
              ((MethodM.adjustStack_keeps _).covered (MethodM.adjustStack_keepsCover _)).consequence
                (fun _ h => h) fun _ _ h => h.sub fun _ hs =>
                  List.mem_append_right _ (List.mem_cons_of_mem _ hs)
      split
      · exact covered_of_writes (setLocal_writes _) (setLocal_keepsCover _)
      · exact OkTriple.pure fun _ h => h
    split
    · exact (covered_of_writes (violation_writes _) (violation_keepsCover _)).bind fun _ =>
        OkTriple.pure fun _ h => h
    · split
      · exact (modifyHandler_covered (by exact fun _ _ hs => .inl hs)).bind hbody
      · exact hbody ()
  · exact OkTriple.pure fun _ h => h

/-- Closing the finally body lands the jump past the rethrowing handler, which the region
closed kept pending. -/
theorem finallyClauseEnd_covered :
    OkTriple Emitter.KeepsCover (Inner (Ready S)) finallyClauseEnd fun _ => Inner (Ready S) := by
  unfold finallyClauseEnd
  refine (openBlock_covered _ _).bind fun r => ?_
  split
  · next index =>
    refine (handler_covered index).bind fun b => ?_
    split
    · extract_lets -underBinder +onlyGivenNames close
      have hclose : ∀ u, OkTriple Emitter.KeepsCover (Inner (Ready (b.pending ++ S))) (close u)
          fun _ => Inner (Ready S) := by
        intro u
        dsimp -zeta only [close]
        refine onMethod_covered fun _ => OkTriple.get.bind fun m => ?_
        split
        · refine (OkTriple.modify (Q := fun _ => Ready (b.pending ++ S)) fun _ ⟨hm, hr⟩ => by
            subst hm
            exact ⟨.of_eq rfl rfl, hr.dropLastHandler⟩).bind fun _ => ?_
          extract_lets -underBinder +onlyGivenNames release
          have hrelease : ∀ u, OkTriple MethodState.KeepsCover (Ready (b.pending ++ S)) (release u)
              fun _ => Ready S := fun _ =>
            ((MethodM.freeTemp_keeps _).covered (MethodM.freeTemp_keepsCover _)).bind fun _ =>
              (MethodM.restore_covered _).consequence
                (fun _ h => h) fun _ _ h => h.sub fun _ hs => List.mem_append_right _ hs
          split
          · next done hdone =>
            exact (MethodM.patchHere_keepsCover
              (List.mem_append_left _ (by simp [HandlerBlock.pending, hdone]))).bind hrelease
          · exact hrelease ()
        · exact OkTriple.pure fun _ h => h.2.sub fun _ hs => List.mem_append_right _ hs
      split
      · exact OkTriple.throw _
      · exact (covered_of_writes (kill_writes _) (kill_keepsCover _)).bind fun _ =>
          (covered_of_adds (branchBack_adds _ _) (branchBack_keepsCover _ _)).bind hclose
      · exact (covered_of_writes (getLocal_writes _) (getLocal_keepsCover _)).bind fun _ =>
          (covered_of_writes (kill_writes _) (kill_keepsCover _)).bind fun _ =>
            (covered_of_adds (dispatch_adds _ _) (dispatch_keepsCover _ _)).bind hclose
    · exact OkTriple.throw _
  · exact OkTriple.pure fun _ h => h

theorem switchDispatch_keepsCover (index : Nat) :
    OnSuccess Emitter.KeepsCover (switchDispatch index) := by
  unfold switchDispatch
  refine flushPosition_keepsCover.bind fun _ => position_keepsCover.bind fun _ =>
    (onMethod_keepsCover fun _ => MethodM.frame_keepsCover index).bind fun r => ?_
  split
  · exact (emitRaw_keepsCover _).discard
  · exact OnSuccess.pure _

end Emitter

/-- **Every call but opening and finishing a method keeps the innermost method ready and
covered**: on success the branches it lands start where a branch was written, and every register
its code names stays below the count. -/
theorem Emitter.perform_covered {S : List Nat} (c : Call) (hs : ∀ s, c ≠ .startMethod s)
    (hf : ∀ f, c ≠ .finishMethod f) :
    OkTriple Emitter.KeepsCover (Inner (Ready S)) (Emitter.perform c) fun _ => Inner (Ready S) := by
  open Emitter in
  cases hc : c.shapesFlow
  · exact covered_of_adds (perform_adds c hc) (perform_keepsCover c hc)
  have hnum {act : EmitM Nat} (h : OkTriple Emitter.KeepsCover (Inner (Ready S)) act
      fun _ => Inner (Ready S)) :
      OkTriple Emitter.KeepsCover (Inner (Ready S)) (Reply.number <$> act) fun _ => Inner (Ready S) :=
    h.map.consequence (fun _ h => h) fun _ _ ⟨_, _, h⟩ => h
  have hnone {act : EmitM Unit} (h : OkTriple Emitter.KeepsCover (Inner (Ready S)) act
      fun _ => Inner (Ready S)) :
      OkTriple Emitter.KeepsCover (Inner (Ready S)) (act >>= fun _ => pure Reply.none)
        fun _ => Inner (Ready S) :=
    h.bind fun _ => OkTriple.pure fun _ h => h
  cases c with
  | startMethod s => exact absurd rfl (hs s)
  | finishMethod f => exact absurd rfl (hf f)
  | ifBranch op => exact hnone (ifBranch_covered op)
  | elseBranch => exact hnone elseBranch_covered
  | patchIf => exact hnone patchIf_covered
  | patchElse => exact hnone patchElse_covered
  | loopBegin => exact hnum loopBegin_covered
  | doLoopBegin => exact hnum doLoopBegin_covered
  | labelBegin => exact hnum labelBegin_covered
  | patchLoopBegin i => exact hnone (patchLoopBegin_covered i)
  | loopBack i op => exact hnone (loopBack_covered i op)
  | continueLoop i => exact hnone (continueLoop_covered i)
  | breakLoop i => exact hnone (breakLoop_covered i)
  | patchContinue i => exact hnone (patchContinue_covered i)
  | patchBreak i => exact hnone (patchBreak_covered i)
  | switchBegin => exact hnum switchBegin_covered
  | caseLabel i => exact hnone (caseLabel_covered i)
  | defaultLabel i => exact hnone (defaultLabel_covered i)
  | switchTable i => exact hnone (switchTable_covered i)
  | switchDispatch i => exact hnone (covered_of_adds (switchDispatch_adds i) (switchDispatch_keepsCover i))
  | tryBegin f => exact hnone (tryBegin_covered f)
  | catchClausesBegin => exact hnone catchClausesBegin_covered
  | catchClause t v => exact hnum (catchClause_covered t v)
  | catchClausesEnd => exact hnone catchClausesEnd_covered
  | finallyClauseBegin => exact hnone finallyClauseBegin_covered
  | finallyClauseEnd => exact hnone finallyClauseEnd_covered
  | _ => simp [Call.shapesFlow] at hc

end AbcKit.Emit
