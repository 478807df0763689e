import AbcKit.Proofs.Writing
import AbcKit.Proofs.Intent
import Mathlib.Data.List.Forall2
/-!
What a call does to the code of the open method and to the branches it leaves pending.

`MethodState.pending` lists the sites of the branches written and not yet landed: pending if
and else branches, the entry, break and continue jumps of frames, and the jumps over, out of,
into and past try regions. Most calls only write instructions without jumps and leave every
pending branch alone (`MethodState.Writes`). Calls that leave a finally body through its
entries also add the branches into it (`MethodState.Adds`): each a branch among the
instructions the call wrote. `Innermost` lifts such a relation to the stack of open methods,
where only the innermost one moves.

Main results: every call that neither opens, closes nor lands a construct is `Adds` on
success (`Emitter.perform_adds`), and the calls that build constructs out of these steps are
analysed in the next module.
-/
namespace AbcKit.Emit

/-! ## Pending branches -/

/-- the pending entry, break and continue jumps of a frame -/
def LoopFrame.pending (f : LoopFrame) : List Nat := f.entry.toList ++ f.breaks ++ f.continues

/-- the pending jumps of a try region: over the handlers, out of each handler, into the finally
body, and past the rethrowing handler -/
def HandlerBlock.pending (b : HandlerBlock) : List Nat :=
  b.skip.toList ++ b.handlerEnds ++ b.callSites ++ b.done.toList

/-- the sites of the branches a method has written and not landed yet -/
def MethodState.pending (m : MethodState) : List Nat :=
  m.flow.ifs.map BranchFrame.site ++ m.flow.elses.map BranchFrame.site ++
    m.flow.loops.flatMap LoopFrame.pending ++ m.handlers.flatMap HandlerBlock.pending

/-- the same region as far as its protected range, its state and its catch handlers go -/
structure HandlerBlock.SameRegion (b b' : HandlerBlock) : Prop where
  state : b'.state = b.state
  tryStart : b'.tryStart = b.tryStart
  tryEnd : b'.tryEnd = b.tryEnd
  hasFinally : b'.hasFinally = b.hasFinally
  skip : b'.skip = b.skip
  handlerEnds : b'.handlerEnds = b.handlerEnds
  clauses : b'.clauses = b.clauses

theorem HandlerBlock.SameRegion.refl (b : HandlerBlock) : b.SameRegion b :=
  ⟨rfl, rfl, rfl, rfl, rfl, rfl, rfl⟩

theorem HandlerBlock.SameRegion.trans {b b' b'' : HandlerBlock} (h : b.SameRegion b')
    (h' : b'.SameRegion b'') : b.SameRegion b'' :=
  ⟨h'.1.trans h.1, h'.2.trans h.2, h'.3.trans h.3, h'.4.trans h.4, h'.5.trans h.5, h'.6.trans h.6,
    h'.7.trans h.7⟩

theorem HandlerBlock.SameRegion.forall₂_trans {l l' l'' : List HandlerBlock}
    (h : List.Forall₂ SameRegion l l') (h' : List.Forall₂ SameRegion l' l'') :
    List.Forall₂ SameRegion l l'' := by
  induction h generalizing l'' with
  | nil => exact h'
  | cons hb _ ih =>
    cases h' with
    | cons hb' h' => exact .cons (hb.trans hb') (ih h')

/-! ## Writing and adding -/

/-- `m'` is `m` with instructions written after its code, none of them a jump; nothing pending
and no exception entry changed -/
structure MethodState.Writes (m m' : MethodState) : Prop where
  strict : m'.strict = m.strict
  flow : m'.flow = m.flow
  handlers : m'.handlers = m.handlers
  exceptions : m'.exceptions = m.exceptions
  written : ∃ A : List Instruction, (∀ i ∈ A, i.Fits ∧ i.isJump = false) ∧
    m'.code = m.code.append (A.flatMap Instruction.bytes)

/-- `m'` is `m` with instructions `A` written after its code; the branches added to the pending
ones are branches of `A`, and the exception entries are as they were -/
structure MethodState.Adds (m m' : MethodState) : Prop where
  strict : m'.strict = m.strict
  flow : m'.flow = m.flow
  regions : List.Forall₂ HandlerBlock.SameRegion m.handlers m'.handlers
  exceptions : m'.exceptions = m.exceptions
  written : ∃ A : List Instruction, (∀ i ∈ A, i.Fits) ∧
    m'.code = m.code.append (A.flatMap Instruction.bytes) ∧
    ∃ N : List Nat, m'.pending.Perm (m.pending ++ N) ∧ N.Nodup ∧
      ∀ s ∈ N, ∃ op d, (s, .branch op d) ∈ Instruction.place m.code.size A

namespace MethodState

theorem Writes.refl (m : MethodState) : m.Writes m := ⟨rfl, rfl, rfl, rfl, [], by simp, by simp⟩

theorem Writes.trans {m m' m'' : MethodState} (h : m.Writes m') (h' : m'.Writes m'') :
    m.Writes m'' := by
  obtain ⟨hs, hf, hh, he, A, hA, hc⟩ := h
  obtain ⟨hs', hf', hh', he', A', hA', hc'⟩ := h'
  refine ⟨hs'.trans hs, hf'.trans hf, hh'.trans hh, he'.trans he, A ++ A', ?_, ?_⟩
  · intro i hi
    rcases List.mem_append.mp hi with hi | hi
    · exact hA i hi
    · exact hA' i hi
  · rw [hc', hc, Buffer.append_append, List.flatMap_append]

instance : IsPreorder MethodState Writes where
  refl := Writes.refl
  trans _ _ _ := Writes.trans

theorem Writes.of_sameJumps {m m' : MethodState} (h : m.SameJumps m') : m.Writes m' :=
  ⟨h.strict, h.flow, h.handlers, h.exceptions, [], by simp, by simp [h.code]⟩

theorem pending_eq_of_eq {m m' : MethodState} (hf : m'.flow = m.flow)
    (hh : m'.handlers = m.handlers) : m'.pending = m.pending := by
  simp [pending, hf, hh]

theorem Adds.of_writes {m m' : MethodState} (h : m.Writes m') : m.Adds m' := by
  obtain ⟨hs, hf, hh, he, A, hA, hc⟩ := h
  refine ⟨hs, hf, ?_, he, A, fun i hi => (hA i hi).1, hc, [], ?_, List.nodup_nil, by simp⟩
  · rw [hh]
    exact List.forall₂_same.mpr fun b _ => HandlerBlock.SameRegion.refl b
  · rw [pending_eq_of_eq hf hh, List.append_nil]

theorem Adds.refl (m : MethodState) : m.Adds m := Adds.of_writes (Writes.refl m)

theorem le_of_mem_place {m : MethodState} {A : List Instruction} (hA : ∀ i ∈ A, i.Fits)
    {s : Nat} {i : Instruction} (h : (s, i) ∈ Instruction.place m.code.size A) :
    m.code.size ≤ s ∧ s < m.code.size + (A.flatMap Instruction.bytes).length :=
  Instruction.offset_lt_of_mem_place hA h

theorem Adds.trans {m m' m'' : MethodState} (h : m.Adds m') (h' : m'.Adds m'') : m.Adds m'' := by
  obtain ⟨hs, hf, hr, he, A, hA, hc, N, hN, hnd, hmem⟩ := h
  obtain ⟨hs', hf', hr', he', A', hA', hc', N', hN', hnd', hmem'⟩ := h'
  have hsize : m'.code.size = m.code.size + (A.flatMap Instruction.bytes).length := by
    simp [hc]
  have hAll : ∀ i ∈ A ++ A', i.Fits := by
    intro i hi
    rcases List.mem_append.mp hi with hi | hi
    · exact hA i hi
    · exact hA' i hi
  refine ⟨hs'.trans hs, hf'.trans hf, HandlerBlock.SameRegion.forall₂_trans hr hr', he'.trans he,
    A ++ A', hAll,
    by rw [hc', hc, Buffer.append_append, List.flatMap_append], N ++ N', ?_, ?_, ?_⟩
  · rw [← List.append_assoc]
    exact hN'.trans (hN.append_right N')
  · -- the branches added first lie before the code the second step wrote
    refine List.nodup_append.mpr ⟨hnd, hnd', fun a ha b hb hab => ?_⟩
    obtain ⟨_, _, ha⟩ := hmem a ha
    obtain ⟨_, _, hb⟩ := hmem' b hb
    have := (le_of_mem_place hA ha).2
    have := (le_of_mem_place hA' hb).1
    omega
  · intro s hs
    rw [Instruction.place_append]
    rcases List.mem_append.mp hs with hs | hs
    · obtain ⟨op, d, h⟩ := hmem s hs
      exact ⟨op, d, List.mem_append_left _ h⟩
    · obtain ⟨op, d, h⟩ := hmem' s hs
      rw [hsize] at h
      exact ⟨op, d, List.mem_append_right _ h⟩

instance : IsPreorder MethodState Adds where
  refl := Adds.refl
  trans _ _ _ := Adds.trans

end MethodState

/-- the innermost open method moves by `r`; the methods around it stay -/
inductive Innermost (r : MethodState → MethodState → Prop) :
    List MethodState → List MethodState → Prop where
  | none : Innermost r [] []
  | head {m m' : MethodState} {rest : List MethodState} (h : r m m') :
    Innermost r (m :: rest) (m' :: rest)

namespace Innermost

variable {r : MethodState → MethodState → Prop}

theorem refl [IsPreorder MethodState r] : ∀ ms : List MethodState, Innermost r ms ms
  | [] => .none
  | m :: _ => .head (refl_of r m)

theorem trans [IsPreorder MethodState r] {ms ms' ms'' : List MethodState} (h : Innermost r ms ms')
    (h' : Innermost r ms' ms'') : Innermost r ms ms'' := by
  cases h with
  | none => exact h'
  | head hm => cases h' with
    | head hm' => exact .head (trans_of r hm hm')

theorem mono {r' : MethodState → MethodState → Prop} (hr : ∀ m m', r m m' → r' m m')
    {ms ms' : List MethodState} (h : Innermost r ms ms') : Innermost r' ms ms' := by
  cases h with
  | none => exact .none
  | head hm => exact .head (hr _ _ hm)

end Innermost

/-- the options are as they were and only the innermost method moved, by writing -/
structure Emitter.Writes (e e' : Emitter) : Prop where
  config : e'.config = e.config
  methods : Innermost MethodState.Writes e.methods e'.methods

/-- the options are as they were and only the innermost method moved, by writing and adding
branches into finally bodies -/
structure Emitter.Adds (e e' : Emitter) : Prop where
  config : e'.config = e.config
  methods : Innermost MethodState.Adds e.methods e'.methods

instance : IsPreorder Emitter Emitter.Writes where
  refl _ := ⟨rfl, Innermost.refl _⟩
  trans _ _ _ h h' := ⟨h'.config.trans h.config, h.methods.trans h'.methods⟩

instance : IsPreorder Emitter Emitter.Adds where
  refl _ := ⟨rfl, Innermost.refl _⟩
  trans _ _ _ h h' := ⟨h'.config.trans h.config, h.methods.trans h'.methods⟩

theorem Emitter.Writes.adds {e e' : Emitter} (h : e.Writes e') : e.Adds e' :=
  ⟨h.config, h.methods.mono fun _ _ => MethodState.Adds.of_writes⟩

namespace Innermost

variable {r : MethodState → MethodState → Prop}

theorem of_cons_left {m : MethodState} {rest ms' : List MethodState}
    (h : Innermost r (m :: rest) ms') : ∃ m', ms' = m' :: rest ∧ r m m' := by
  cases h with
  | head hm => exact ⟨_, rfl, hm⟩

theorem of_cons_right {m' : MethodState} {rest ms : List MethodState}
    (h : Innermost r ms (m' :: rest)) : ∃ m, ms = m :: rest ∧ r m m' := by
  cases h with
  | head hm => exact ⟨_, rfl, hm⟩

end Innermost

/-! ## One instruction after the position records -/

/-- `m'` is `m` with instructions written that are not jumps, then `i` at `site`; nothing
pending and no exception entry changed -/
structure MethodState.Emits (m : MethodState) (i : Instruction) (site : Nat) (m' : MethodState) :
    Prop where
  strict : m'.strict = m.strict
  flow : m'.flow = m.flow
  handlers : m'.handlers = m.handlers
  exceptions : m'.exceptions = m.exceptions
  written : ∃ A : List Instruction, (∀ j ∈ A, j.Fits ∧ j.isJump = false) ∧ i.Fits ∧
    site = m.code.size + (A.flatMap Instruction.bytes).length ∧
    m'.code = m.code.append ((A ++ [i]).flatMap Instruction.bytes)

namespace MethodState

variable {m m₁ m' : MethodState} {i : Instruction} {site : Nat}

theorem Writes.emits (h : m.Writes m₁) (h' : m₁.Emits i site m') : m.Emits i site m' := by
  obtain ⟨hs, hf, hh, he, A, hA, hc⟩ := h
  obtain ⟨hs', hf', hh', he', A', hA', hi, rfl, hc'⟩ := h'
  refine ⟨hs'.trans hs, hf'.trans hf, hh'.trans hh, he'.trans he, A ++ A', ?_, hi, ?_, ?_⟩
  · intro j hj
    rcases List.mem_append.mp hj with hj | hj
    · exact hA j hj
    · exact hA' j hj
  · simp [hc, Nat.add_assoc]
  · rw [hc', hc, Buffer.append_append]
    simp

theorem Emits.adds (h : m.Emits i site m') : m.Adds m' := by
  obtain ⟨hs, hf, hh, he, A, hA, hi, -, hc⟩ := h
  refine ⟨hs, hf, ?_, he, A ++ [i], ?_, hc, [], ?_, List.nodup_nil, by simp⟩
  · rw [hh]
    exact List.forall₂_same.mpr fun b _ => HandlerBlock.SameRegion.refl b
  · intro j hj
    rcases List.mem_append.mp hj with hj | hj
    · exact (hA j hj).1
    · rw [List.mem_singleton.mp hj]
      exact hi
  · rw [pending_eq_of_eq hf hh, List.append_nil]

theorem Emits.writes (h : m.Emits i site m') (hi : i.isJump = false) : m.Writes m' := by
  obtain ⟨hs, hf, hh, he, A, hA, hfit, -, hc⟩ := h
  refine ⟨hs, hf, hh, he, A ++ [i], ?_, hc⟩
  intro j hj
  rcases List.mem_append.mp hj with hj | hj
  · exact hA j hj
  · rw [List.mem_singleton.mp hj]
    exact ⟨hfit, hi⟩

theorem Emits.size (h : m.Emits i site m') : m'.code.size = site + i.bytes.length := by
  obtain ⟨-, -, -, -, A, -, -, rfl, hc⟩ := h
  simp [hc, Nat.add_assoc]

end MethodState

namespace MethodM

variable {α : Type}

theorem Keeps.writes {act : MethodM α} (h : Keeps act) : OnSuccess MethodState.Writes act :=
  fun _ _ _ hs => MethodState.Writes.of_sameJumps (h.ok hs)

theorem emit_emits {pool : Pool} {i : Instruction} {m m' : MethodState} {site : Nat}
    (h : emit pool i m = .ok site m') : m.Emits i site m' := by
  obtain ⟨rfl, hi, hc, hf, hh, he, hs⟩ := emit_ok h
  exact ⟨hs, hf, hh, he, [], by simp, hi, by simp, by simp [hc]⟩

end MethodM

/-! ## Steps on the emitter that only write -/

namespace Emitter

variable {α : Type}

theorem onMethod_ok {act : Pool → MethodM α} {e e' : Emitter} {a : α}
    (h : onMethod act e = .ok a e') :
    ∃ m rest m', e.methods = m :: rest ∧ act e.assembler.pool m = .ok a m' ∧
      e' = { e with methods := m' :: rest } := by
  unfold onMethod at h
  split at h
  · cases h
  · rename_i m rest hms
    split at h
    · rename_i a' m' hact
      cases h
      exact ⟨m, rest, m', hms, hact, rfl⟩
    · cases h

theorem onMethod_innermost {r : MethodState → MethodState → Prop} {act : Pool → MethodM α}
    (h : ∀ pool, OnSuccess r (act pool)) {e e' : Emitter} {a : α} (he : onMethod act e = .ok a e') :
    e'.config = e.config ∧ Innermost r e.methods e'.methods := by
  obtain ⟨m, rest, m', hms, hact, rfl⟩ := onMethod_ok he
  rw [hms]
  exact ⟨rfl, .head (h _ m a m' hact)⟩

theorem onMethod_writes {act : Pool → MethodM α}
    (h : ∀ pool, OnSuccess MethodState.Writes (act pool)) : OnSuccess Emitter.Writes (onMethod act) :=
  fun _ _ _ he => let ⟨hc, hm⟩ := onMethod_innermost h he; ⟨hc, hm⟩

theorem onMethod_keeps {act : Pool → MethodM α} (h : ∀ pool, MethodM.Keeps (act pool)) :
    OnSuccess Emitter.Writes (onMethod act) :=
  onMethod_writes fun pool => (h pool).writes

theorem onAssembler_writes {act : AssemblerM α} : OnSuccess Emitter.Writes (onAssembler act) := by
  intro e a e' he
  unfold onAssembler at he
  split at he
  · cases he
    exact ⟨rfl, Innermost.refl _⟩
  · cases he

theorem onPool_writes {act : StateM Pool α} : OnSuccess Emitter.Writes (onPool act) :=
  onAssembler_writes

theorem onPool_value {act : StateM Pool α} {e e' : Emitter} {a : α} (h : onPool act e = .ok a e') :
    a = (act e.assembler.pool).1 := by
  unfold onPool onAssembler Assembler.onPool at h
  cases h
  rfl

/-- a change of the options-free parts of the emitter: debug records and coverage points -/
theorem modify_writes {f : Emitter → Emitter}
    (h : ∀ e, (f e).config = e.config ∧ (f e).methods = e.methods) :
    OnSuccess Emitter.Writes (modify f : EmitM PUnit) :=
  OnSuccess.modify fun e => ⟨(h e).1, (h e).2 ▸ Innermost.refl _⟩

theorem current_writes : OnSuccess Emitter.Writes current := by
  unfold current
  refine OnSuccess.get.bind fun e => ?_
  split
  · exact OnSuccess.pure _
  · exact OnSuccess.throw _

theorem emitRaw_writes {i : Instruction} (hi : i.isJump = false) :
    OnSuccess Emitter.Writes (emitRaw i) :=
  onMethod_writes fun _ _ _ _ h => (MethodM.emit_emits h).writes hi

theorem flushPosition_writes : OnSuccess Emitter.Writes flushPosition := by
  unfold flushPosition
  repeat' first
    | exact OnSuccess.pure _
    | exact OnSuccess.get
    | exact emitRaw_writes rfl
    | exact onPool_writes
    | exact modify_writes fun _ => ⟨rfl, rfl⟩
    | apply OnSuccess.discard
    | apply OnSuccess.bind
    | split
    | (intro _)

theorem emit_emits {i : Instruction} {e e' : Emitter} {site : Nat} (h : emit i e = .ok site e') :
    e'.config = e.config ∧
      ∃ m rest m', e.methods = m :: rest ∧ e'.methods = m' :: rest ∧ m.Emits i site m' := by
  obtain ⟨_, e₁, h₁, h₂⟩ := EStateM.bind_eq_ok.mp h
  obtain ⟨hc, hw⟩ := flushPosition_writes e () e₁ h₁
  obtain ⟨m₁, rest, m', hm₁, hemit, rfl⟩ := onMethod_ok h₂
  rw [hm₁] at hw
  obtain ⟨m, hm, hmw⟩ := hw.of_cons_right
  exact ⟨hc, m, rest, m', hm, rfl, hmw.emits (MethodM.emit_emits hemit)⟩

theorem emit_writes {i : Instruction} (hi : i.isJump = false) : OnSuccess Emitter.Writes (emit i) := by
  intro e site e' h
  obtain ⟨hc, m, rest, m', hm, hm', hme⟩ := emit_emits h
  refine ⟨hc, ?_⟩
  rw [hm, hm']
  exact .head (hme.writes hi)

theorem emit_adds (i : Instruction) : OnSuccess Emitter.Adds (emit i) := by
  intro e site e' h
  obtain ⟨hc, m, rest, m', hm, hm', hme⟩ := emit_emits h
  refine ⟨hc, ?_⟩
  rw [hm, hm']
  exact .head hme.adds

theorem simple_writes (op : SimpleOp) : OnSuccess Emitter.Writes (simple op) :=
  (emit_writes rfl).discard

theorem label_writes : OnSuccess Emitter.Writes label := emit_writes rfl

theorem registerOp_writes (op : RegisterOp) (reg : UInt32) : OnSuccess Emitter.Writes (registerOp op reg) :=
  (emit_writes rfl).discard

theorem violation_writes (msg : String) : OnSuccess Emitter.Writes (violation msg) :=
  onMethod_keeps fun _ => MethodM.violation_keeps msg

theorem reserve_eq (op : BranchOp) : reserve op = emit (.branch op 0) := rfl

/-! ### The instruction catalogue -/

theorem nameOp_writes (op : NameOp) (n : Name) : OnSuccess Emitter.Writes (nameOp op n) :=
  onPool_writes.bind fun _ => (emit_writes rfl).discard

theorem callNameOp_writes (op : CallNameOp) (n : Name) (argCount : UInt32) :
    OnSuccess Emitter.Writes (callNameOp op n argCount) :=
  onPool_writes.bind fun _ => (emit_writes rfl).discard

theorem staticName_writes (n : Name) (what : String) :
    OnSuccess Emitter.Writes (staticName n what) := by
  unfold staticName
  refine onPool_writes.bind fun i => OnSuccess.get.bind fun e => ?_
  split
  · exact OnSuccess.throw _
  · exact OnSuccess.pure _

theorem getLocal_writes (reg : UInt32) : OnSuccess Emitter.Writes (getLocal reg) := by
  unfold getLocal
  split
  · exact simple_writes _
  · exact simple_writes _
  · exact simple_writes _
  · exact simple_writes _
  · exact registerOp_writes _ _

theorem setLocal_writes (reg : UInt32) : OnSuccess Emitter.Writes (setLocal reg) := by
  unfold setLocal
  split
  · exact simple_writes _
  · exact simple_writes _
  · exact simple_writes _
  · exact simple_writes _
  · exact registerOp_writes _ _

theorem kill_writes (reg : UInt32) : OnSuccess Emitter.Writes (kill reg) := registerOp_writes _ _

theorem allocTemp_writes : OnSuccess Emitter.Writes allocTemp :=
  onMethod_keeps fun _ => MethodM.allocTemp_keeps

theorem freeTemp_writes (reg : UInt32) : OnSuccess Emitter.Writes (freeTemp reg) :=
  (kill_writes reg).bind fun _ => onMethod_keeps fun _ => MethodM.freeTemp_keeps reg

theorem intInstruction_isJump (v : Int32) (p : Pool) : ((intInstruction v) p).1.isJump = false := by
  unfold intInstruction
  split
  · rfl
  · split
    · rfl
    · rfl

theorem pushInt_writes (v : Int32) : OnSuccess Emitter.Writes (pushInt v) :=
  onPool_writes.bind_of (fun _ _ _ h => (onPool_value h) ▸ intInstruction_isJump v _)
    fun _ hi => (emit_writes hi).discard

theorem pushUint_writes (v : UInt32) : OnSuccess Emitter.Writes (pushUint v) :=
  onPool_writes.bind fun _ => (emit_writes rfl).discard

theorem pushDouble_writes (bits : UInt64) : OnSuccess Emitter.Writes (pushDouble bits) := by
  unfold pushDouble
  split
  · exact simple_writes _
  · exact onPool_writes.bind fun _ => (emit_writes rfl).discard

theorem pushString_writes (str : String) : OnSuccess Emitter.Writes (pushString str) :=
  onPool_writes.bind fun _ => (emit_writes rfl).discard

theorem pushBool_writes (b : Bool) : OnSuccess Emitter.Writes (pushBool b) := simple_writes _

theorem pushNamespace_writes (space : Namespace) : OnSuccess Emitter.Writes (pushNamespace space) :=
  onPool_writes.bind fun _ => (emit_writes rfl).discard

theorem getSuper_writes (n : Name) : OnSuccess Emitter.Writes (getSuper n) :=
  (staticName_writes n _).bind fun _ => (emit_writes rfl).discard

theorem setSuper_writes (n : Name) : OnSuccess Emitter.Writes (setSuper n) :=
  (staticName_writes n _).bind fun _ => (emit_writes rfl).discard

theorem callSuper_writes (op : CallNameOp) (n : Name) (argCount : UInt32) :
    OnSuccess Emitter.Writes (callSuper op n argCount) :=
  (staticName_writes n _).discard.bind fun _ => callNameOp_writes op n argCount

theorem pushSaved_writes (reg : UInt32) (isWith : Bool) :
    OnSuccess Emitter.Writes (pushSaved reg isWith) :=
  (getLocal_writes reg).bind fun _ => (simple_writes _).bind fun _ =>
    onMethod_keeps fun _ => MethodM.Keeps.modify fun _ => by exact ⟨rfl, rfl, rfl, rfl, rfl⟩

theorem popScope_writes : OnSuccess Emitter.Writes popScope := simple_writes _

theorem throwValue_writes : OnSuccess Emitter.Writes throwValue := simple_writes _

theorem unary_writes (o : UnaryOperator) : OnSuccess Emitter.Writes (unary o) := simple_writes _

theorem binary_writes (o : BinaryOperator) : OnSuccess Emitter.Writes (binary o) := by
  unfold binary
  generalize o.ops = ops
  obtain ⟨op, negated⟩ := ops
  refine (simple_writes op).bind fun _ => ?_
  cases negated
  · exact OnSuccess.pure _
  · exact simple_writes _

theorem dxns_writes (uri : String) : OnSuccess Emitter.Writes (dxns uri) :=
  onPool_writes.bind fun _ => (emit_writes rfl).discard.bind fun _ =>
    onMethod_keeps fun _ => MethodM.Keeps.modify fun _ => by exact ⟨rfl, rfl, rfl, rfl, rfl⟩

theorem dxnsLate_writes : OnSuccess Emitter.Writes dxnsLate :=
  (simple_writes _).bind fun _ =>
    onMethod_keeps fun _ => MethodM.Keeps.modify fun _ => by exact ⟨rfl, rfl, rfl, rfl, rfl⟩

theorem popScopesWithin_writes (depth : Nat) :
    ∀ fuel, OnSuccess Emitter.Writes (popScopesWithin depth fuel)
  | 0 => OnSuccess.pure _
  | fuel + 1 => by
    unfold popScopesWithin
    refine current_writes.bind fun m => ?_
    split
    · exact popScope_writes.bind fun _ => popScopesWithin_writes depth fuel
    · exact OnSuccess.pure _

theorem popScopesTo_writes (depth : Nat) : OnSuccess Emitter.Writes (popScopesTo depth) :=
  current_writes.bind fun _ => popScopesWithin_writes depth _

theorem setPosition_writes (file : String) (line : UInt32) :
    OnSuccess Emitter.Writes (setPosition file line) := modify_writes fun _ => ⟨rfl, rfl⟩

theorem setLine_writes (line : UInt32) : OnSuccess Emitter.Writes (setLine line) :=
  modify_writes fun _ => ⟨rfl, rfl⟩

theorem debugRegister_writes (name : String) (reg : UInt32) :
    OnSuccess Emitter.Writes (debugRegister name reg) := by
  unfold debugRegister
  refine OnSuccess.get.bind fun e => ?_
  split
  · exact OnSuccess.pure _
  · split
    · exact violation_writes _
    · exact onPool_writes.bind fun _ => (emit_writes rfl).discard

theorem pushDepth_writes : OnSuccess Emitter.Writes pushDepth :=
  onMethod_keeps fun _ => MethodM.Keeps.modify fun _ => by exact ⟨rfl, rfl, rfl, rfl, rfl⟩

theorem popDepth_writes : OnSuccess Emitter.Writes popDepth := by
  refine onMethod_keeps fun _ => ?_
  unfold MethodM.popDepth
  refine MethodM.Keeps.get.bind fun m => ?_
  split
  · exact MethodM.Keeps.modify fun _ => by exact ⟨rfl, rfl, rfl, rfl, rfl⟩
  · exact MethodM.violation_keeps _

theorem startProgram_writes : OnSuccess Emitter.Writes startProgram :=
  OnSuccess.get.bind fun _ => OnSuccess.pure _

theorem code_writes : OnSuccess Emitter.Writes code := current_writes.bind fun _ => OnSuccess.pure _

/-! ### Try regions, as far as they only write -/

theorem handler_writes (index : Nat) : OnSuccess Emitter.Writes (handler index) :=
  current_writes.bind fun _ => OnSuccess.pure _

theorem position_writes : OnSuccess Emitter.Writes position :=
  current_writes.bind fun _ => OnSuccess.pure _

theorem openBlock_writes (expected : List BlockState) (what : String) :
    OnSuccess Emitter.Writes (openBlock expected what) := by
  unfold openBlock
  refine current_writes.bind fun m => ?_
  split
  · exact (violation_writes _).bind fun _ => OnSuccess.pure _
  · split
    · exact OnSuccess.pure _
    · exact (violation_writes _).bind fun _ => OnSuccess.pure _

theorem pushEntryScopes_writes (init : Nat) :
    ∀ depth scopes, OnSuccess Emitter.Writes (pushEntryScopes init depth scopes)
  | _, [] => OnSuccess.pure _
  | _, none :: _ => OnSuccess.throw _
  | depth, some sc :: rest =>
    (pushSaved_writes sc.register sc.isWith).bind fun _ => pushEntryScopes_writes init (depth + 1) rest

theorem enterHandler_writes (index : Nat) : OnSuccess Emitter.Writes (enterHandler index) :=
  (handler_writes index).bind fun _ => current_writes.bind fun _ =>
    (onMethod_keeps fun _ => MethodM.Keeps.modify fun _ => by exact ⟨rfl, rfl, rfl, rfl, rfl⟩).bind
      fun _ => pushEntryScopes_writes _ _ _

theorem hasPendingFinally_writes : OnSuccess Emitter.Writes hasPendingFinally :=
  current_writes.bind fun _ => OnSuccess.pure _

end Emitter

/-! ## Entering finally bodies -/

namespace HandlerBlock

/-- changing one region of a list changes the pending jumps by what it changes in that region -/
theorem pending_modify {f : HandlerBlock → HandlerBlock} {X : List Nat}
    (hf : ∀ b, (f b).pending.Perm (b.pending ++ X)) :
    ∀ (l : List HandlerBlock) (index : Nat), ((l.modify index f).flatMap pending).Perm
      (l.flatMap pending ++ if index < l.length then X else [])
  | [], _ => by simp
  | b :: l, 0 => by
    simp only [List.modify_zero_cons, List.flatMap_cons, List.length_cons, Nat.zero_lt_succ,
      ↓reduceIte]
    refine ((hf b).append_right _).trans ?_
    rw [List.append_assoc, List.append_assoc]
    exact List.perm_append_comm.append_left _
  | b :: l, index + 1 => by
    simp only [List.modify_succ_cons, List.flatMap_cons, List.length_cons, Nat.add_lt_add_iff_right,
      List.append_assoc]
    exact (pending_modify hf l index).append_left _

theorem sameRegion_modify {f : HandlerBlock → HandlerBlock} (hf : ∀ b, SameRegion b (f b)) :
    ∀ (l : List HandlerBlock) (index : Nat), List.Forall₂ SameRegion l (l.modify index f)
  | [], _ => by simp
  | b :: l, 0 => by
    rw [List.modify_zero_cons]
    exact .cons (hf b) (List.forall₂_same.mpr fun b _ => SameRegion.refl b)
  | b :: l, index + 1 => by
    rw [List.modify_succ_cons]
    exact .cons (SameRegion.refl b) (sameRegion_modify hf l index)

end HandlerBlock

/-- a branch written at `site`, instructions without jumps after it, and then the branch left
pending: together they add that one branch -/
theorem MethodState.Emits.adds_pending {op : BranchOp} {d : Int32} {m m₁ m₂ m' : MethodState}
    {site : Nat} (h₁ : m.Emits (.branch op d) site m₁) (h₂ : m₁.Writes m₂)
    (hs : m'.strict = m₂.strict) (hf : m'.flow = m₂.flow) (hc : m'.code = m₂.code)
    (hr : List.Forall₂ HandlerBlock.SameRegion m₂.handlers m'.handlers)
    (he : m'.exceptions = m₂.exceptions) {N : List Nat}
    (hN : ∀ s ∈ N, s = site) (hnd : N.Nodup) (hp : m'.pending.Perm (m₂.pending ++ N)) :
    m.Adds m' := by
  obtain ⟨hs₁, hf₁, hh₁, he₁, A, hA, hbr, rfl, hc₁⟩ := h₁
  obtain ⟨hs₂, hf₂, hh₂, he₂, B, hB, hc₂⟩ := h₂
  have hfits : ∀ i ∈ A ++ [.branch op d] ++ B, i.Fits := by
    intro i hi
    simp only [List.mem_append, List.mem_singleton] at hi
    rcases hi with (hi | rfl) | hi
    · exact (hA i hi).1
    · exact hbr
    · exact (hB i hi).1
  have hpend : m₂.pending = m.pending := pending_eq_of_eq (hf₂.trans hf₁) (hh₂.trans hh₁)
  refine ⟨hs.trans (hs₂.trans hs₁), hf.trans (hf₂.trans hf₁), (hh₂.trans hh₁) ▸ hr,
    he.trans (he₂.trans he₁), A ++ [.branch op d] ++ B, hfits, ?_, N, hpend ▸ hp, hnd,
    fun s hs => ⟨op, d, ?_⟩⟩
  · rw [hc, hc₂, hc₁, Buffer.append_append]
    simp only [List.flatMap_append]
  · rw [hN s hs, List.append_assoc]
    exact Instruction.mem_place_iff.mpr ⟨A, B, rfl, rfl⟩

namespace Emitter

theorem callSite_adds (index : Nat) : OnSuccess Emitter.Adds (callSite index) := by
  intro e u e' h
  unfold callSite at h
  obtain ⟨b, e₁, h₁, h⟩ := EStateM.bind_eq_ok.mp h
  obtain ⟨_, e₂, h₂, h⟩ := EStateM.bind_eq_ok.mp h
  obtain ⟨site, e₃, h₃, h⟩ := EStateM.bind_eq_ok.mp h
  obtain ⟨_, e₄, h₄, h⟩ := EStateM.bind_eq_ok.mp h
  obtain ⟨resume, e₅, h₅, h⟩ := EStateM.bind_eq_ok.mp h
  have hw : Emitter.Writes e e₂ :=
    trans_of Emitter.Writes (handler_writes index e b e₁ h₁) (pushInt_writes _ e₁ _ e₂ h₂)
  rw [reserve_eq] at h₃
  obtain ⟨hc₃, m₂, rest, m₃, hm₂, hm₃, hemit⟩ := emit_emits h₃
  have hw' : Emitter.Writes e₃ e₅ := trans_of Emitter.Writes
    (onMethod_keeps (fun _ => MethodM.adjustStack_keeps _) e₃ _ e₄ h₄) (label_writes e₄ resume e₅ h₅)
  obtain ⟨m₅, rest', m₆, hm₅, hmod, rfl⟩ := onMethod_ok h
  cases hmod
  have hw₁ := hw.methods
  rw [hm₂] at hw₁
  obtain ⟨m, hm, hmw⟩ := hw₁.of_cons_right
  have hw₂ := hw'.methods
  rw [hm₃, hm₅] at hw₂
  obtain ⟨_, hrest, hmw'⟩ := hw₂.of_cons_left
  cases hrest
  refine ⟨hw'.config.trans (hc₃.trans hw.config), ?_⟩
  rw [hm]
  refine .head ((hmw.emits hemit).adds_pending hmw' rfl rfl rfl
    (HandlerBlock.sameRegion_modify (fun b => by exact ⟨rfl, rfl, rfl, rfl, rfl, rfl, rfl⟩) _ _) rfl
    (N := if index < m₅.handlers.length then [site] else []) ?_ ?_ ?_)
  · intro s hs
    split at hs
    · exact List.mem_singleton.mp hs
    · cases hs
  · split
    · simp
    · exact List.nodup_nil
  · simp only [MethodState.pending, List.append_assoc]
    refine ((HandlerBlock.pending_modify (fun b => ?_) _ _).append_left _).append_left _
      |>.append_left _
    simp only [HandlerBlock.pending, List.append_assoc]
    exact ((List.perm_append_comm.append_left _).append_left _).append_left _

theorem unwindFrom_adds (loopIndex : Option Nat) (limit : Nat) :
    ∀ indices called, OnSuccess Emitter.Adds (unwindFrom loopIndex limit indices called)
  | [], _ => OnSuccess.pure _
  | index :: rest, called => by
    unfold unwindFrom
    split
    · exact OnSuccess.pure _
    · refine ((handler_writes index).mono fun _ _ h => h.adds).bind fun block => ?_
      split
      · exact OnSuccess.pure _
      · refine ((popScopesTo_writes _).mono fun _ _ h => h.adds).bind fun _ => ?_
        split
        · exact (callSite_adds index).bind fun _ => unwindFrom_adds loopIndex limit rest _
        · exact unwindFrom_adds loopIndex limit rest _

theorem unwind_adds (loopIndex : Option Nat) (limit : Nat) : OnSuccess Emitter.Adds (unwind loopIndex limit) :=
  (current_writes.mono fun _ _ h => h.adds).bind fun _ => unwindFrom_adds loopIndex limit _ _

theorem callFinallies_adds (limit : Nat) : OnSuccess Emitter.Adds (callFinallies limit) :=
  unwind_adds none limit

theorem writes_adds {α : Type} {act : EmitM α} (h : OnSuccess Emitter.Writes act) :
    OnSuccess Emitter.Adds act :=
  h.mono fun _ _ h => h.adds

theorem snapshot_keeps : MethodM.Keeps MethodM.snapshot :=
  MethodM.Keeps.get.bind fun _ => MethodM.Keeps.pure _

theorem returnValue_adds : OnSuccess Emitter.Adds returnValue := by
  unfold returnValue
  refine (writes_adds hasPendingFinally_writes).bind fun pending => ?_
  split
  · exact writes_adds ((simple_writes _).bind fun _ => OnSuccess.pure _)
  refine (writes_adds (onMethod_keeps fun _ => snapshot_keeps)).bind fun saved => ?_
  refine (writes_adds allocTemp_writes).bind fun value => ?_
  refine (writes_adds (setLocal_writes _)).bind fun _ => ?_
  refine (writes_adds current_writes).bind fun _ => ?_
  refine (unwind_adds _ _).discard.bind fun _ => writes_adds ?_
  refine (getLocal_writes _).bind fun _ => (kill_writes _).bind fun _ =>
    (simple_writes _).bind fun _ => onMethod_keeps fun _ => ?_
  exact (MethodM.freeTemp_keeps _).bind fun _ => (MethodM.restore_keeps _).bind fun _ =>
    MethodM.adjustStack_keeps _

theorem returnVoid_adds : OnSuccess Emitter.Adds returnVoid := by
  unfold returnVoid
  refine (writes_adds hasPendingFinally_writes).bind fun pending => ?_
  split
  · exact writes_adds ((simple_writes _).bind fun _ => OnSuccess.pure _)
  refine (writes_adds (onMethod_keeps fun _ => snapshot_keeps)).bind fun saved => ?_
  refine (writes_adds current_writes).bind fun _ => ?_
  refine (unwind_adds _ _).discard.bind fun _ => writes_adds ?_
  exact (simple_writes _).bind fun _ => onMethod_keeps fun _ => MethodM.restore_keeps _

theorem finishClass_writes (d : ClassDefinition) : OnSuccess Emitter.Writes (finishClass d) := by
  unfold finishClass
  repeat' first
    | exact OnSuccess.pure _
    | exact onAssembler_writes
    | exact OnSuccess.mapM (fun _ => onPool_writes) _
    | apply OnSuccess.map
    | apply OnSuccess.bind
    | split
    | (intro _)

theorem finishProgram_writes (init : UInt32) (traits : ObjectDescriptor) :
    OnSuccess Emitter.Writes (finishProgram init traits) :=
  onAssembler_writes.bind fun _ => onAssembler_writes

end Emitter

/-- the calls that open or close a method, or open, close, land or jump within a construct -/
def Call.shapesFlow : Call → Bool
  | .startMethod _ | .finishMethod _ | .ifBranch _ | .elseBranch | .patchIf | .patchElse
  | .loopBegin | .doLoopBegin | .labelBegin | .patchLoopBegin _ | .loopBack _ _ | .continueLoop _
  | .breakLoop _ | .patchContinue _ | .patchBreak _ | .switchBegin | .caseLabel _ | .defaultLabel _
  | .switchTable _ | .switchDispatch _ | .tryBegin _ | .catchClausesBegin | .catchClause _ _
  | .catchClausesEnd | .finallyClauseBegin | .finallyClauseEnd => true
  | _ => false

/-- the calls that shape no flow, write no jump and enter no finally body -/
def Call.onlyWrites : Call → Bool
  | .emit _ | .callFinallies _ | .returnValue | .returnVoid => false
  | c => !c.shapesFlow

/-- **Every call that only writes does so**: on success it writes instructions without jumps into
the innermost method and leaves its flow and regions as they were. -/
theorem Emitter.perform_writes (c : Call) (hc : c.onlyWrites = true) :
    OnSuccess Emitter.Writes (Emitter.perform c) := by
  open Emitter in
  cases c with
  | startMethod | finishMethod | ifBranch | elseBranch | patchIf | patchElse | loopBegin
  | doLoopBegin | labelBegin | patchLoopBegin | loopBack | continueLoop | breakLoop | patchContinue
  | patchBreak | switchBegin | caseLabel | defaultLabel | switchTable | switchDispatch | tryBegin
  | catchClausesBegin | catchClause | catchClausesEnd | finallyClauseBegin | finallyClauseEnd
  | emit | callFinallies | returnValue | returnVoid =>
    simp [Call.onlyWrites, Call.shapesFlow] at hc
  | startClass n => exact onAssembler_writes.map
  | finishClass d => exact (finishClass_writes d).map
  | startProgram => exact startProgram_writes.map
  | finishProgram init traits => exact (finishProgram_writes init traits).map
  | addMetadata n items => exact onAssembler_writes.bind fun _ => OnSuccess.pure _
  | multiname n => exact onPool_writes.bind fun _ => OnSuccess.pure _
  | methodIndex n => exact onAssembler_writes.bind fun _ => OnSuccess.pure _
  | code => exact code_writes.map
  | simple op => exact (simple_writes op).bind fun _ => OnSuccess.pure _
  | getLocal reg => exact (getLocal_writes reg).bind fun _ => OnSuccess.pure _
  | setLocal reg => exact (setLocal_writes reg).bind fun _ => OnSuccess.pure _
  | register op reg => exact (registerOp_writes op reg).bind fun _ => OnSuccess.pure _
  | allocTemp => exact allocTemp_writes.bind fun _ => OnSuccess.pure _
  | freeTemp reg => exact (freeTemp_writes reg).bind fun _ => OnSuccess.pure _
  | pushInt v => exact (pushInt_writes v).bind fun _ => OnSuccess.pure _
  | pushUint v => exact (pushUint_writes v).bind fun _ => OnSuccess.pure _
  | pushDouble bits => exact (pushDouble_writes bits).bind fun _ => OnSuccess.pure _
  | pushString str => exact (pushString_writes str).bind fun _ => OnSuccess.pure _
  | pushBool b => exact (pushBool_writes b).bind fun _ => OnSuccess.pure _
  | pushNamespace space =>
    exact (pushNamespace_writes space).bind fun _ => OnSuccess.pure _
  | property op n => exact (nameOp_writes op n).bind fun _ => OnSuccess.pure _
  | getSuper n => exact (getSuper_writes n).bind fun _ => OnSuccess.pure _
  | setSuper n => exact (setSuper_writes n).bind fun _ => OnSuccess.pure _
  | callName op n argc =>
    exact (callNameOp_writes op n argc).bind fun _ => OnSuccess.pure _
  | callSuper op n argc =>
    exact (callSuper_writes op n argc).bind fun _ => OnSuccess.pure _
  | args | callMethod | callStatic | slot | getScopeObject | newFunction | newClass | newCatch
  | hasNext2 => exact (emit_writes rfl).discard.bind fun _ => OnSuccess.pure _
  | pushSaved reg isWith =>
    exact (pushSaved_writes reg isWith).bind fun _ => OnSuccess.pure _
  | unary o => exact (unary_writes o).bind fun _ => OnSuccess.pure _
  | binary o => exact (binary_writes o).bind fun _ => OnSuccess.pure _
  | coerceTo | convert => exact (simple_writes _).bind fun _ => OnSuccess.pure _
  | dxns uri => exact (dxns_writes uri).bind fun _ => OnSuccess.pure _
  | dxnsLate => exact dxnsLate_writes.bind fun _ => OnSuccess.pure _
  | pushDepth => exact pushDepth_writes.bind fun _ => OnSuccess.pure _
  | popDepth => exact popDepth_writes.bind fun _ => OnSuccess.pure _
  | setPosition file line =>
    exact (setPosition_writes file line).bind fun _ => OnSuccess.pure _
  | setLine line => exact (setLine_writes line).bind fun _ => OnSuccess.pure _
  | debugRegister n reg =>
    exact (debugRegister_writes n reg).bind fun _ => OnSuccess.pure _

/-- **Every other call only writes**: on success it writes instructions into the innermost
method and adds no pending branch but those into finally bodies. -/
theorem Emitter.perform_adds (c : Call) (hc : c.shapesFlow = false) :
    OnSuccess Emitter.Adds (Emitter.perform c) := by
  open Emitter in
  cases hw : c.onlyWrites
  · cases c with
    | emit i => exact (emit_adds i).map
    | callFinallies limit => exact (callFinallies_adds limit).map
    | returnValue => exact returnValue_adds.bind fun _ => OnSuccess.pure _
    | returnVoid => exact returnVoid_adds.bind fun _ => OnSuccess.pure _
    | _ => simp [Call.onlyWrites, hc] at hw
  · exact writes_adds (perform_writes c hw)

end AbcKit.Emit
