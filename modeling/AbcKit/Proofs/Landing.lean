import AbcKit.Proofs.Layout
import AbcKit.Proofs.Constructs
/-!
The calls on structured control flow keep a method's code laid out.

A forward branch stays pending in an if, an else or a frame until the call that knows its target
lands it. Each call on if, else, loops, labels and switches keeps the innermost method `Ready`
(its code laid out, every pending branch a branch of it), so each landing only rewrites a
displacement; none of them touches the exception table or a try region. With coverage on, a
conditional branch also writes two hook calls and two jumps of its own, which it lands before it
returns.

The branches a call lands are pending when it starts, or written by the call itself: the proofs
track them in the list of `Ready`, from the step that writes them or takes them off the pending
ones to the step that lands them.
-/
namespace AbcKit

/-- a member of a list with one place changed was there, or is the change of one that was -/
theorem List.mem_modify_cases {α : Type} {f : α → α} {x : α} :
    ∀ {l : List α} {i : Nat}, x ∈ l.modify i f → x ∈ l ∨ ∃ y ∈ l, x = f y
  | [], _, h => by simp at h
  | a :: l, 0, h => by
    rw [List.modify_zero_cons, List.mem_cons] at h
    rcases h with rfl | h
    · exact .inr ⟨a, List.mem_cons_self, rfl⟩
    · exact .inl (List.mem_cons_of_mem a h)
  | a :: l, i + 1, h => by
    rw [List.modify_succ_cons, List.mem_cons] at h
    rcases h with rfl | h
    · exact .inl List.mem_cons_self
    · rcases mem_modify_cases h with h | ⟨y, hy, rfl⟩
      · exact .inl (List.mem_cons_of_mem a h)
      · exact .inr ⟨y, List.mem_cons_of_mem a hy, rfl⟩

end AbcKit

namespace AbcKit.Emit

/-! ## The pending branches of ifs, elses and frames -/

namespace MethodState

variable {m : MethodState} {S : List Nat} {s : Nat}

theorem mem_pending_pushIf {f : BranchFrame} :
    s ∈ ({ m with flow := { m.flow with ifs := f :: m.flow.ifs } } : MethodState).pending ↔
      s = f.site ∨ s ∈ m.pending := by
  simp only [pending, List.map_cons, List.mem_append, List.mem_cons]
  tauto

theorem mem_pending_pushElse {f : BranchFrame} :
    s ∈ ({ m with flow := { m.flow with elses := f :: m.flow.elses } } : MethodState).pending ↔
      s = f.site ∨ s ∈ m.pending := by
  simp only [pending, List.map_cons, List.mem_append, List.mem_cons]
  tauto

theorem mem_pending_popIf {f : BranchFrame} {rest : List BranchFrame} (h : m.flow.ifs = f :: rest) :
    s ∈ m.pending ↔
      s = f.site ∨ s ∈ ({ m with flow := { m.flow with ifs := rest } } : MethodState).pending := by
  simp only [pending, h, List.map_cons, List.mem_append, List.mem_cons]
  tauto

theorem mem_pending_popElse {f : BranchFrame} {rest : List BranchFrame}
    (h : m.flow.elses = f :: rest) :
    s ∈ m.pending ↔
      s = f.site ∨ s ∈ ({ m with flow := { m.flow with elses := rest } } : MethodState).pending := by
  simp only [pending, h, List.map_cons, List.mem_append, List.mem_cons]
  tauto

theorem mem_pending_setLoops {loops : List LoopFrame} :
    s ∈ ({ m with flow := { m.flow with loops } } : MethodState).pending ↔
      s ∈ m.flow.ifs.map BranchFrame.site ∨ s ∈ m.flow.elses.map BranchFrame.site ∨
        s ∈ loops.flatMap LoopFrame.pending ∨ s ∈ m.handlers.flatMap HandlerBlock.pending := by
  simp only [pending, List.mem_append]
  tauto

theorem Ready.pushIf (h : m.Ready S) {f : BranchFrame} (hs : f.site ∈ S) :
    ({ m with flow := { m.flow with ifs := f :: m.flow.ifs } } : MethodState).Ready S :=
  h.repend rfl (fun _ hs' => (mem_pending_pushIf.mp hs').elim (fun h => .inr (h ▸ hs)) .inl)
    fun _ hs' => .inr hs'

theorem Ready.pushElse (h : m.Ready S) {f : BranchFrame} (hs : f.site ∈ S) :
    ({ m with flow := { m.flow with elses := f :: m.flow.elses } } : MethodState).Ready S :=
  h.repend rfl (fun _ hs' => (mem_pending_pushElse.mp hs').elim (fun h => .inr (h ▸ hs)) .inl)
    fun _ hs' => .inr hs'

/-- the innermost if-branch, taken off the pending ones, is tracked until it lands -/
theorem Ready.popIf (h : m.Ready S) {f : BranchFrame} {rest : List BranchFrame}
    (hifs : m.flow.ifs = f :: rest) :
    ({ m with flow := { m.flow with ifs := rest } } : MethodState).Ready (f.site :: S) :=
  h.repend rfl (fun _ hs' => .inl ((mem_pending_popIf hifs).mpr (.inr hs'))) fun _ hs' =>
    (List.mem_cons.mp hs').elim (fun h => .inl ((mem_pending_popIf hifs).mpr (.inl h))) .inr

theorem Ready.popElse (h : m.Ready S) {f : BranchFrame} {rest : List BranchFrame}
    (helses : m.flow.elses = f :: rest) :
    ({ m with flow := { m.flow with elses := rest } } : MethodState).Ready (f.site :: S) :=
  h.repend rfl (fun _ hs' => .inl ((mem_pending_popElse helses).mpr (.inr hs'))) fun _ hs' =>
    (List.mem_cons.mp hs').elim (fun h => .inl ((mem_pending_popElse helses).mpr (.inl h))) .inr

/-- frames change, each new one pending only branches that were pending or are tracked -/
theorem Ready.setLoops (h : m.Ready S) {loops : List LoopFrame}
    (hl : ∀ f ∈ loops, ∀ s ∈ f.pending, s ∈ m.flow.loops.flatMap LoopFrame.pending ∨ s ∈ S) :
    ({ m with flow := { m.flow with loops } } : MethodState).Ready S := by
  have hwas : ∀ s, s ∈ m.flow.ifs.map BranchFrame.site ∨ s ∈ m.flow.elses.map BranchFrame.site ∨
      s ∈ m.flow.loops.flatMap LoopFrame.pending ∨ s ∈ m.handlers.flatMap HandlerBlock.pending →
      s ∈ m.pending := fun s hs => by
    simp only [pending, List.mem_append]
    tauto
  refine h.repend rfl (fun s hs' => ?_) fun _ hs' => .inr hs'
  rcases mem_pending_setLoops.mp hs' with hs' | hs' | hs' | hs'
  · exact .inl (hwas s (.inl hs'))
  · exact .inl (hwas s (.inr (.inl hs')))
  · obtain ⟨f, hf, hs'⟩ := List.mem_flatMap.mp hs'
    exact (hl f hf s hs').imp_left fun h => hwas s (.inr (.inr (.inl h)))
  · exact .inl (hwas s (.inr (.inr (.inr hs'))))

theorem Ready.pushFrame (h : m.Ready S) {f : LoopFrame} (hf : ∀ s ∈ f.pending, s ∈ S) :
    ({ m with flow := { m.flow with loops := m.flow.loops ++ [f] } } : MethodState).Ready S := by
  refine h.setLoops fun f' hf' s hs => ?_
  rcases List.mem_append.mp hf' with hf' | hf'
  · exact .inl (List.mem_flatMap.mpr ⟨f', hf', hs⟩)
  · rw [List.mem_singleton.mp hf'] at hs
    exact .inr (hf s hs)

/-- one frame changed, pending only what it pended or what is tracked -/
theorem Ready.modifyFrame (h : m.Ready S) {index : Nat} {g : LoopFrame → LoopFrame}
    (hg : ∀ f, ∀ s ∈ (g f).pending, s ∈ f.pending ∨ s ∈ S) :
    ({ m with flow := { m.flow with loops := m.flow.loops.modify index g } } : MethodState).Ready S := by
  refine h.setLoops fun f' hf' s hs => ?_
  rcases List.mem_modify_cases hf' with hf' | ⟨f, hf, rfl⟩
  · exact .inl (List.mem_flatMap.mpr ⟨f', hf', hs⟩)
  · exact (hg f s hs).imp_left fun hs => List.mem_flatMap.mpr ⟨f, hf, hs⟩

theorem Ready.sublistLoops (h : m.Ready S) {loops : List LoopFrame}
    (hl : List.Sublist loops m.flow.loops) :
    ({ m with flow := { m.flow with loops } } : MethodState).Ready S :=
  h.setLoops fun f hf _ hs => .inl (List.mem_flatMap.mpr ⟨f, hl.subset hf, hs⟩)

theorem Ready.trackFrame (h : m.Ready S) {f : LoopFrame} (hf : f ∈ m.flow.loops) :
    m.Ready (f.pending ++ S) :=
  h.add fun s hs => by
    simp only [pending, List.mem_append]
    exact .inl (.inr (List.mem_flatMap.mpr ⟨f, hf, hs⟩))

end MethodState

open MethodState

/-! ## Steps on the open method -/

namespace MethodM

variable {S : List Nat}

theorem violation_ready (msg : String) :
    OkTriple MethodState.Grows (Ready S) (violation msg) fun _ => Ready S :=
  (violation_keeps msg).ready

theorem setStack_ready (n : Nat) : OkTriple MethodState.Grows (Ready S) (setStack n) fun _ => Ready S :=
  (setStack_keeps n).ready

theorem restore_ready (s : Snapshot) :
    OkTriple MethodState.Grows (Ready S) (restore s) fun _ => Ready S :=
  (restore_keeps s).ready

theorem reconcile_ready (depth : Nat) :
    OkTriple MethodState.Grows (Ready S) (Emitter.reconcile depth) fun _ => Ready S :=
  (reconcile_keeps depth).ready

theorem frame_keeps (index : Nat) : Keeps (Emitter.frame index) := by
  unfold Emitter.frame
  refine Keeps.get.bind fun _ => ?_
  split
  · exact Keeps.pure _
  · exact (violation_keeps _).bind fun _ => Keeps.pure _

/-- the frame at `index`, whose pending branches are tracked from then on -/
theorem frame_ready (index : Nat) :
    OkTriple MethodState.Grows (Ready S) (Emitter.frame index)
      fun r m => m.Ready S ∧ ∀ f ∈ r, m.Ready (f.pending ++ S) := by
  unfold Emitter.frame
  refine OkTriple.get.bind fun m => ?_
  split
  · next f hf =>
    exact OkTriple.pure fun m' ⟨hm, hr⟩ => ⟨hr, fun f' hf' => by
      cases hf'
      exact hr.trackFrame (hm ▸ List.mem_of_getElem? hf)⟩
  · exact ((violation_ready _).consequence (fun _ h => h.2) fun _ _ h => h).bind fun _ =>
      OkTriple.pure fun _ hr => ⟨hr, fun _ h => by cases h⟩

/-- a frame changed so that it pends only what it pended or what is tracked -/
theorem modifyFrame_ready {index : Nat} {g : LoopFrame → LoopFrame}
    (hg : ∀ f, ∀ s ∈ (g f).pending, s ∈ f.pending ∨ s ∈ S) :
    OkTriple MethodState.Grows (Ready S) (Emitter.modifyFrame index g) fun _ => Ready S :=
  OkTriple.modify fun _ hr => ⟨grows_of_code rfl rfl rfl rfl, hr.modifyFrame hg⟩

/-- a reported violation, when the method goes on, is followed by the rest of the step -/
theorem report_ready {β : Type} {c : Prop} [Decidable c] {msg : String} {k : Unit → MethodM β}
    {Q : β → MethodState → Prop} (hk : ∀ u, OkTriple MethodState.Grows (Ready S) (k u) Q) :
    OkTriple MethodState.Grows (Ready S) (if c then violation msg >>= k else k ()) Q := by
  split
  · exact (violation_ready msg).bind hk
  · exact hk ()

/-- The entry jump of the frame whose pending branches are tracked is taken off the frame and
lands here, or the frame had none. -/
theorem landEntry_ready {f : LoopFrame} {index : Nat} {msg : String} :
    OkTriple MethodState.Grows (Ready (f.pending ++ S))
      (do
        Emitter.modifyFrame index fun f => { f with entry := none }
        match f.entry with
        | some entry => patchHere entry
        | none => violation msg)
      fun _ => Ready S := by
  refine (modifyFrame_ready fun f' s hs => .inl ?_).bind fun _ => ?_
  · simp only [LoopFrame.pending, List.mem_append] at hs ⊢
    tauto
  split
  · next entry hentry =>
    refine (patchHere_ready (List.mem_append_left _ ?_)).consequence (fun _ h => h) fun _ _ h =>
      h.sub fun _ hs => List.mem_append_right _ hs
    simp [LoopFrame.pending, hentry]
  · exact (violation_ready msg).consequence (fun _ h => h) fun _ _ h =>
      h.sub fun _ hs => List.mem_append_right _ hs

theorem branchTo_adds (pool : Pool) (op : BranchOp) (target : Nat) :
    OnSuccess MethodState.Adds (branchTo pool op target) := by
  unfold branchTo displacement position
  refine ((Keeps.get.bind fun _ => Keeps.pure _).writes.mono fun _ _ => Adds.of_writes).bind
    fun _ => ?_
  refine OnSuccess.bind ?_ fun _ => OnSuccess.discard fun _ _ _ h => (emit_emits h).adds
  split
  · exact OnSuccess.pure _
  · exact OnSuccess.throw _

end MethodM

/-! ## Calls on the emitter -/

namespace Emitter

variable {S : List Nat}

theorem onMethod_adds {α : Type} {act : Pool → MethodM α}
    (h : ∀ pool, OnSuccess MethodState.Adds (act pool)) : OnSuccess Emitter.Adds (onMethod act) :=
  fun _ _ _ he => let ⟨hc, hm⟩ := onMethod_innermost h he; ⟨hc, hm⟩

theorem emitRaw_adds (i : Instruction) : OnSuccess Emitter.Adds (emitRaw i) :=
  onMethod_adds fun _ _ _ _ h => (MethodM.emit_emits h).adds

theorem branchBack_adds (op : BranchOp) (target : Nat) : OnSuccess Emitter.Adds (branchBack op target) :=
  (writes_adds flushPosition_writes).bind fun _ => onMethod_adds fun pool =>
    MethodM.branchTo_adds pool op target

theorem onPool_intInstruction_isJump {v : Int32} {e e' : Emitter} {i : Instruction}
    (h : onPool (intInstruction v) e = .ok i e') : i.isJump = false :=
  (onPool_value h) ▸ intInstruction_isJump v _

theorem coverageRecord_writes (taken : Bool) : OnSuccess Emitter.Writes (coverageRecord taken) := by
  unfold coverageRecord
  refine OnSuccess.get.bind fun e => ?_
  dsimp only
  split
  on_goal 1 => refine OnSuccess.bind (modify_writes fun _ => ⟨rfl, rfl⟩) fun _ => ?_
  all_goals exact OnSuccess.get.bind fun _ => OnSuccess.get.bind fun _ =>
    OnSuccess.bind (modify_writes fun _ => ⟨rfl, rfl⟩) fun _ => OnSuccess.get.bind fun _ =>
      onPool_writes.bind fun _ => onPool_writes.bind fun _ =>
        onPool_writes.bind_of (fun _ _ _ => onPool_intInstruction_isJump) fun _ hline =>
          onPool_writes.bind_of (fun _ _ _ => onPool_intInstruction_isJump) fun _ hid =>
            (emitRaw_writes rfl).discard.bind fun _ => (emitRaw_writes rfl).discard.bind fun _ =>
              (emitRaw_writes hline).discard.bind fun _ => (emitRaw_writes hid).discard.bind fun _ =>
                (emitRaw_writes rfl).discard

theorem Inner.sub {e : Emitter} {S' : List Nat} (h : Inner (Ready S) e) (hS : ∀ s ∈ S', s ∈ S) :
    Inner (Ready S') e :=
  h.mono fun _ hr => hr.sub hS

theorem violation_ready (msg : String) :
    OkTriple Emitter.Grows (Inner (Ready S)) (violation msg) fun _ => Inner (Ready S) :=
  onMethod_okTriple fun _ => MethodM.violation_ready msg

theorem onFrame_ready (index : Nat) :
    OkTriple Emitter.Grows (Inner (Ready S)) (onMethod fun _ => frame index)
      fun r => Inner fun m => m.Ready S ∧ ∀ f ∈ r, m.Ready (f.pending ++ S) :=
  onMethod_okTriple fun _ => MethodM.frame_ready index

theorem coverageRecord_ready (taken : Bool) :
    OkTriple Emitter.Grows (Inner (Ready S)) (coverageRecord taken) fun _ => Inner (Ready S) :=
  okTriple_of_writes (coverageRecord_writes taken)

/-- With coverage on, the branch is taken to a hook call and a jump, and falls through to a jump
over both: the two jumps of its own are landed, and the one returned goes to the target. -/
theorem conditional_ready (op : BranchOp) :
    OkTriple Emitter.Grows (Inner (Ready S)) (conditional op)
      fun site => Inner (Ready (site :: S)) := by
  unfold conditional
  refine OkTriple.get.bind fun e => ?_
  split
  · exact (reserve_ready op).consequence (fun _ h => h.2) fun _ _ h => h
  · refine ((reserve_ready op).consequence (fun _ h => h.2) fun _ _ h => h).bind fun taken => ?_
    refine (coverageRecord_ready false).bind fun _ => (reserve_ready .jump).bind fun skip => ?_
    refine (patchHere_ready (List.mem_cons_of_mem _ List.mem_cons_self)).bind fun _ =>
      label_ready.discard.bind fun _ => (coverageRecord_ready true).bind fun _ => ?_
    refine (reserve_ready .jump).bind fun target => ?_
    refine ((patchHere_ready (List.mem_cons_of_mem _ List.mem_cons_self)).consequence (fun _ h => h)
      fun _ _ h => h.sub ?_).bind fun _ => label_ready.discard.bind fun _ => OkTriple.pure fun _ h => h
    intro s hs
    rcases List.mem_cons.mp hs with rfl | hs
    · exact List.mem_cons_self
    · exact List.mem_cons_of_mem _ (List.mem_cons_of_mem _ (List.mem_cons_of_mem _ hs))

theorem ifBranch_ready (op : BranchOp) :
    OkTriple Emitter.Grows (Inner (Ready S)) (ifBranch op) fun _ => Inner (Ready S) :=
  (conditional_ready op).bind fun _ => onMethod_okTriple fun _ => OkTriple.modify fun _ hr =>
    ⟨grows_of_code rfl rfl rfl rfl,
      (hr.pushIf List.mem_cons_self).sub fun _ hs => List.mem_cons_of_mem _ hs⟩

theorem elseBranch_ready : OkTriple Emitter.Grows (Inner (Ready S)) elseBranch
    fun _ => Inner (Ready S) := by
  unfold elseBranch
  refine (reserve_ready .jump).bind fun jump => onMethod_okTriple fun _ =>
    OkTriple.get.bind fun m => ?_
  split
  · exact (MethodM.violation_ready _).consequence (fun _ h => h.2) fun _ _ h =>
      h.sub fun _ hs => List.mem_cons_of_mem _ hs
  · next frame rest hifs =>
    refine (OkTriple.set (Q := fun _ => Ready (frame.site :: jump :: S)) fun _ ⟨hm, hr⟩ => by
      subst hm
      exact ⟨grows_of_code rfl rfl rfl rfl, hr.popIf hifs⟩).bind fun _ => ?_
    refine (MethodM.patchHere_ready List.mem_cons_self).bind fun _ =>
      (MethodM.setStack_ready _).bind fun _ => OkTriple.modify fun _ hr =>
        ⟨grows_of_code rfl rfl rfl rfl, (hr.pushElse ?_).sub ?_⟩
    · exact List.mem_cons_of_mem _ List.mem_cons_self
    · exact fun _ hs => List.mem_cons_of_mem _ (List.mem_cons_of_mem _ hs)

theorem patchIf_ready : OkTriple Emitter.Grows (Inner (Ready S)) patchIf fun _ => Inner (Ready S) := by
  unfold patchIf
  refine onMethod_okTriple fun _ => OkTriple.get.bind fun m => ?_
  split
  · exact (MethodM.violation_ready _).consequence (fun _ h => h.2) fun _ _ h => h
  · next frame rest hifs =>
    refine (OkTriple.set (Q := fun _ => Ready (frame.site :: S)) fun _ ⟨hm, hr⟩ => by
      subst hm
      exact ⟨grows_of_code rfl rfl rfl rfl, hr.popIf hifs⟩).bind fun _ => ?_
    exact (MethodM.patchHere_ready List.mem_cons_self).bind fun _ =>
      (MethodM.reconcile_ready _).consequence (fun _ h => h) fun _ _ h =>
        h.sub fun _ hs => List.mem_cons_of_mem _ hs

theorem patchElse_ready : OkTriple Emitter.Grows (Inner (Ready S)) patchElse
    fun _ => Inner (Ready S) := by
  unfold patchElse
  refine onMethod_okTriple fun _ => OkTriple.get.bind fun m => ?_
  split
  · exact (MethodM.violation_ready _).consequence (fun _ h => h.2) fun _ _ h => h
  · next frame rest helses =>
    refine (OkTriple.set (Q := fun _ => Ready (frame.site :: S)) fun _ ⟨hm, hr⟩ => by
      subst hm
      exact ⟨grows_of_code rfl rfl rfl rfl, hr.popElse helses⟩).bind fun _ => ?_
    exact (MethodM.patchHere_ready List.mem_cons_self).bind fun _ =>
      (MethodM.reconcile_ready _).consequence (fun _ h => h) fun _ _ h =>
        h.sub fun _ hs => List.mem_cons_of_mem _ hs

theorem pushFrame_ready {kind : FrameKind} {entry top : Option Nat} (he : ∀ s ∈ entry, s ∈ S) :
    OkTriple Emitter.Grows (Inner (Ready S)) (pushFrame kind entry top) fun _ => Inner (Ready S) := by
  unfold pushFrame
  refine onMethod_okTriple fun _ => OkTriple.get.bind fun m => ?_
  refine (OkTriple.set (Q := fun _ => Ready S) fun _ ⟨hm, hr⟩ => by
    subst hm
    exact ⟨grows_of_code rfl rfl rfl rfl, hr.pushFrame fun s hs => he s (by simpa [LoopFrame.pending] using hs)⟩).bind fun _ => OkTriple.pure fun _ h => h

theorem loopBegin_ready : OkTriple Emitter.Grows (Inner (Ready S)) loopBegin
    fun _ => Inner (Ready S) :=
  (reserve_ready .jump).bind fun _ => label_ready.bind fun _ =>
    (pushFrame_ready fun _ hs => by cases hs; exact List.mem_cons_self).consequence (fun _ h => h)
      fun _ _ h => h.sub fun _ hs => List.mem_cons_of_mem _ hs

theorem doLoopBegin_ready : OkTriple Emitter.Grows (Inner (Ready S)) doLoopBegin
    fun _ => Inner (Ready S) :=
  label_ready.bind fun _ => pushFrame_ready fun _ hs => by cases hs

theorem labelBegin_ready : OkTriple Emitter.Grows (Inner (Ready S)) labelBegin
    fun _ => Inner (Ready S) :=
  pushFrame_ready fun _ hs => by cases hs

theorem switchBegin_ready : OkTriple Emitter.Grows (Inner (Ready S)) switchBegin
    fun _ => Inner (Ready S) :=
  (reserve_ready .jump).bind fun _ =>
    (pushFrame_ready fun _ hs => by cases hs; exact List.mem_cons_self).consequence (fun _ h => h)
      fun _ _ h => h.sub fun _ hs => List.mem_cons_of_mem _ hs

theorem patchLoopBegin_ready (index : Nat) :
    OkTriple Emitter.Grows (Inner (Ready S)) (patchLoopBegin index) fun _ => Inner (Ready S) := by
  unfold patchLoopBegin
  refine onMethod_okTriple fun _ => (MethodM.frame_ready index).bind fun r => ?_
  split
  · next f => exact MethodM.landEntry_ready.consequence (fun _ h => h.2 f rfl) fun _ _ h => h
  · exact OkTriple.pure fun _ h => h.1

theorem switchTable_ready (index : Nat) :
    OkTriple Emitter.Grows (Inner (Ready S)) (switchTable index) fun _ => Inner (Ready S) := by
  unfold switchTable
  refine onMethod_okTriple fun _ => (MethodM.frame_ready index).bind fun r => ?_
  split
  · next f =>
    refine (MethodM.modifyFrame_ready fun f' s hs => .inl ?_).consequence (fun _ h => h.2 f rfl)
      (fun _ _ h => h) |>.bind fun _ => (MethodM.setStack_ready _).bind fun _ => ?_
    · simp only [LoopFrame.pending, List.mem_append] at hs ⊢
      tauto
    split
    · next entry hentry =>
      refine (MethodM.patchHere_ready (List.mem_append_left _ ?_)).consequence (fun _ h => h)
        fun _ _ h => h.sub fun _ hs => List.mem_append_right _ hs
      simp [LoopFrame.pending, hentry]
    · exact (MethodM.violation_ready _).consequence (fun _ h => h) fun _ _ h =>
        h.sub fun _ hs => List.mem_append_right _ hs
  · exact OkTriple.pure fun _ h => h.1

/-- With coverage on, a conditional branch back is taken to a hook call and a jump back, and
falls through to a jump over both, which lands past them. -/
theorem loopBack_ready (index : Nat) (op : BranchOp) :
    OkTriple Emitter.Grows (Inner (Ready S)) (loopBack index op) fun _ => Inner (Ready S) := by
  unfold loopBack
  refine ((onFrame_ready index).consequence (fun _ h => h) fun _ _ h => h.mono fun _ hr => hr.1).bind
    fun r => ?_
  split
  · next f =>
    split
    · next top htop =>
      refine OkTriple.get.bind fun e => ?_
      split
      · exact (okTriple_of_adds (branchBack_adds op top)).consequence (fun _ h => h.2) fun _ _ h => h
      · refine ((reserve_ready op).consequence (fun _ h => h.2) fun _ _ h => h).bind fun taken => ?_
        refine (coverageRecord_ready false).bind fun _ => (reserve_ready .jump).bind fun skip => ?_
        refine (patchHere_ready (List.mem_cons_of_mem _ List.mem_cons_self)).bind fun _ =>
          label_ready.discard.bind fun _ => (coverageRecord_ready true).bind fun _ => ?_
        refine (okTriple_of_adds (branchBack_adds .jump top)).bind fun _ => ?_
        exact ((patchHere_ready List.mem_cons_self).consequence (fun _ h => h) fun _ _ h =>
          h.sub fun _ hs => List.mem_cons_of_mem _ (List.mem_cons_of_mem _ hs)).bind fun _ =>
            label_ready.discard
    · exact violation_ready _
  · exact OkTriple.pure fun _ h => h

/-- Leaving a frame: the finally bodies passed are entered, the scopes popped, and the jump out is
left pending on the frame. -/
theorem exitTo_ready (index : Nat) (isBreak : Bool) :
    OkTriple Emitter.Grows (Inner (Ready S)) (exitTo index isBreak) fun _ => Inner (Ready S) := by
  unfold exitTo
  refine (okTriple_of_writes current_writes).bind fun _ => ?_
  refine (okTriple_of_adds (unwind_adds _ _)).discard.bind fun _ =>
    (okTriple_of_writes (popScopesTo_writes _)).bind fun _ => (reserve_ready .jump).bind fun site => ?_
  refine onMethod_okTriple fun _ => ((MethodM.modifyFrame_ready fun f s hs => ?_).bind fun _ =>
    MethodM.restore_ready _).consequence (fun _ h => h) fun _ _ h =>
      h.sub fun _ hs => List.mem_cons_of_mem _ hs
  split at hs <;> simp only [LoopFrame.pending, List.mem_append, List.mem_cons,
    List.not_mem_nil] at hs ⊢ <;> tauto

theorem continueLoop_ready (index : Nat) :
    OkTriple Emitter.Grows (Inner (Ready S)) (continueLoop index) fun _ => Inner (Ready S) := by
  unfold continueLoop
  refine ((onFrame_ready index).consequence (fun _ h => h) fun _ _ h => h.mono fun _ hr => hr.1).bind
    fun r => ?_
  split
  · split
    · exact (violation_ready _).bind fun _ => OkTriple.pure fun _ h => h
    · exact exitTo_ready index false
  · exact OkTriple.pure fun _ h => h

theorem breakLoop_ready (index : Nat) :
    OkTriple Emitter.Grows (Inner (Ready S)) (breakLoop index) fun _ => Inner (Ready S) := by
  unfold breakLoop
  refine ((onFrame_ready index).consequence (fun _ h => h) fun _ _ h => h.mono fun _ hr => hr.1).bind
    fun r => ?_
  split
  · exact exitTo_ready index true
  · exact OkTriple.pure fun _ h => h

theorem patchContinue_ready (index : Nat) :
    OkTriple Emitter.Grows (Inner (Ready S)) (patchContinue index) fun _ => Inner (Ready S) := by
  unfold patchContinue
  refine onMethod_okTriple fun _ => (MethodM.frame_ready index).bind fun r => ?_
  split
  · next f =>
    refine (MethodM.modifyFrame_ready fun f' s hs => .inl ?_).consequence (fun _ h => h.2 f rfl)
      (fun _ _ h => h) |>.bind fun _ => ?_
    · simp only [LoopFrame.pending, List.mem_append, List.not_mem_nil] at hs ⊢
      tauto
    refine (MethodM.forM_patchHere_ready fun s hs => ?_).consequence (fun _ h => h) fun _ _ h =>
      h.sub fun _ hs => List.mem_append_right _ hs
    exact List.mem_append_left _ (by simp [LoopFrame.pending, hs])
  · exact OkTriple.pure fun _ h => h.1

/-- Closing a frame: it and the frames inside it are dropped, and its breaks and continues land
here. -/
theorem patchBreak_ready (index : Nat) :
    OkTriple Emitter.Grows (Inner (Ready S)) (patchBreak index) fun _ => Inner (Ready S) := by
  unfold patchBreak
  refine onMethod_okTriple fun _ => (MethodM.frame_ready index).bind fun r => ?_
  split
  · refine OkTriple.get.bind fun _ => ?_
    extract_lets -underBinder +onlyGivenNames close
    refine (MethodM.report_ready fun _ => ?_).consequence (fun _ h => h.2.1) fun _ _ h => h
    dsimp -zeta only [close]
    refine OkTriple.get.bind fun m => ?_
    dsimp only
    split
    · next f hlast =>
      -- the breaks and continues of the frame closed are tracked while the frames are cut back
      have hf : f ∈ m.flow.loops := List.mem_of_mem_take (List.mem_of_getLast? hlast)
      refine (OkTriple.modify (Q := fun _ => Ready (f.pending ++ S)) fun _ ⟨hm, hr⟩ => by
        subst hm
        exact ⟨grows_of_code rfl rfl rfl rfl, (hr.trackFrame hf).sublistLoops
          ((List.dropLast_sublist _).trans (List.take_sublist _ _))⟩).bind fun _ => ?_
      refine MethodM.report_ready fun _ => MethodM.report_ready fun _ => ?_
      refine (MethodM.forM_patchHere_ready fun s hs => ?_).bind fun _ =>
        (MethodM.setStack_ready _).consequence (fun _ h => h) fun _ _ h =>
          h.sub fun _ hs => List.mem_append_right _ hs
      exact List.mem_append_left _ (by simp only [LoopFrame.pending, List.mem_append] at hs ⊢; tauto)
    · exact OkTriple.pure fun _ h => h.2
  · exact OkTriple.pure fun _ h => h.1

theorem switchLabel_ready (index : Nat) :
    OkTriple Emitter.Grows (Inner (Ready S)) (switchLabel index) fun _ => Inner (Ready S) := by
  unfold switchLabel
  refine ((onFrame_ready index).consequence (fun _ h => h) fun _ _ h => h.mono fun _ hr => hr.1).bind
    fun r => ?_
  split
  · exact (onMethod_okTriple fun _ => MethodM.setStack_ready _).bind fun _ =>
      label_ready.map.consequence (fun _ h => h) fun _ _ ⟨_, _, h⟩ => h
  · exact OkTriple.pure fun _ h => h

/-- a case or default label is recorded on its frame, which pends no more than before -/
theorem recordLabel_ready {index : Nat} {g : LoopFrame → LoopFrame}
    (hg : ∀ f, (g f).pending = f.pending) :
    OkTriple MethodState.Grows (Ready S)
      (do if (← Emitter.frame index).isSome then Emitter.modifyFrame index g) fun _ => Ready S := by
  refine ((MethodM.frame_ready index).consequence (fun _ h => h) fun _ _ h => h.1).bind fun _ => ?_
  split
  · exact MethodM.modifyFrame_ready fun f s hs => .inl (hg f ▸ hs)
  · exact OkTriple.pure fun _ h => h

theorem caseLabel_ready (index : Nat) :
    OkTriple Emitter.Grows (Inner (Ready S)) (caseLabel index) fun _ => Inner (Ready S) := by
  unfold caseLabel
  refine (switchLabel_ready index).bind fun r => ?_
  split
  · exact onMethod_okTriple fun _ => recordLabel_ready fun _ => rfl
  · exact OkTriple.pure fun _ h => h

theorem defaultLabel_ready (index : Nat) :
    OkTriple Emitter.Grows (Inner (Ready S)) (defaultLabel index) fun _ => Inner (Ready S) := by
  unfold defaultLabel
  refine (switchLabel_ready index).bind fun r => ?_
  split
  · exact onMethod_okTriple fun _ => recordLabel_ready fun _ => rfl
  · exact OkTriple.pure fun _ h => h

theorem switchDispatch_adds (index : Nat) : OnSuccess Emitter.Adds (switchDispatch index) := by
  unfold switchDispatch
  refine (writes_adds flushPosition_writes).bind fun _ => (writes_adds position_writes).bind fun _ =>
    (writes_adds (onMethod_keeps fun _ => MethodM.frame_keeps index)).bind fun r => ?_
  split
  · exact (emitRaw_adds _).discard
  · exact OnSuccess.pure _

end Emitter

/-- the calls on try regions, and those that open or finish a method -/
def Call.onRegions : Call → Bool
  | .startMethod _ | .finishMethod _ | .tryBegin _ | .catchClausesBegin | .catchClause _ _
  | .catchClausesEnd | .finallyClauseBegin | .finallyClauseEnd => true
  | _ => false

/-- **Every other call keeps the innermost method ready**: on success it grows the code keeping
its layout, leaves pending only branches of it, and leaves the exception table and the try
regions as they were. -/
theorem Emitter.perform_ready {S : List Nat} (c : Call) (hc : c.onRegions = false) :
    OkTriple Emitter.Grows (Inner (Ready S)) (Emitter.perform c) fun _ => Inner (Ready S) := by
  open Emitter in
  cases hf : c.shapesFlow
  · exact okTriple_of_adds (perform_adds c hf)
  have hnum {act : EmitM Nat} (h : OkTriple Emitter.Grows (Inner (Ready S)) act
      fun _ => Inner (Ready S)) :
      OkTriple Emitter.Grows (Inner (Ready S)) (Reply.number <$> act) fun _ => Inner (Ready S) :=
    h.map.consequence (fun _ h => h) fun _ _ ⟨_, _, h⟩ => h
  have hnone {act : EmitM Unit} (h : OkTriple Emitter.Grows (Inner (Ready S)) act
      fun _ => Inner (Ready S)) :
      OkTriple Emitter.Grows (Inner (Ready S)) (act >>= fun _ => pure Reply.none)
        fun _ => Inner (Ready S) :=
    h.bind fun _ => OkTriple.pure fun _ h => h
  cases c with
  | ifBranch op => exact hnone (ifBranch_ready op)
  | elseBranch => exact hnone elseBranch_ready
  | patchIf => exact hnone patchIf_ready
  | patchElse => exact hnone patchElse_ready
  | loopBegin => exact hnum loopBegin_ready
  | doLoopBegin => exact hnum doLoopBegin_ready
  | labelBegin => exact hnum labelBegin_ready
  | patchLoopBegin i => exact hnone (patchLoopBegin_ready i)
  | loopBack i op => exact hnone (loopBack_ready i op)
  | continueLoop i => exact hnone (continueLoop_ready i)
  | breakLoop i => exact hnone (breakLoop_ready i)
  | patchContinue i => exact hnone (patchContinue_ready i)
  | patchBreak i => exact hnone (patchBreak_ready i)
  | switchBegin => exact hnum switchBegin_ready
  | caseLabel i => exact hnone (caseLabel_ready i)
  | defaultLabel i => exact hnone (defaultLabel_ready i)
  | switchTable i => exact hnone (switchTable_ready i)
  | switchDispatch i => exact hnone (okTriple_of_adds (switchDispatch_adds i))
  | _ => simp [Call.shapesFlow, Call.onRegions] at hf hc

end AbcKit.Emit
