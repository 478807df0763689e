import AbcKit.Proofs.Registers
import AbcKit.Proofs.OutOfOrder
/-!
The walk that leaves try regions, instruction by instruction.

Leaving a construct early (a `break`, a `continue`, a `return`) passes the try regions opened
inside it, innermost first. For each region the walk pops the scopes pushed since the region was
entered; if the region's finally body has not started, it then writes a call site into the body:
the push of the region's next resume index, a jump that the region records among its call sites,
and the label the body returns to, which the region records among its resumes.

`leaveRegions` is that walk as a function of the regions passed: the code it writes, the call
sites it records and the scope depth it ends at. `Emitter.unwindFrom_wrote` proves that the
emitter's walk writes exactly that code after the pending position records and records exactly
those call sites, and `MethodState.regionsLeft` names the regions passed: those opened inside the
frame left (all of them when the method returns), which, when the regions are nested inside the
frames, is where the emitter's walk stops. Along the walk the highest depths and the highest
register only grow and the depths stay 32-bit counts (`Emitter.Climbs`).
-/
namespace AbcKit

namespace Table

variable {α : Type} [BEq α] [LawfulBEq α]

/-- interning again into a table that extends the first result hands out the same index and
adds nothing -/
theorem intern_of_intern_extends {t t' : Table α} {v : α} (h : (t.intern v).1.Extends t') :
    t'.intern v = (t', (t.intern v).2) := by
  obtain ⟨k, hk, hi⟩ := intern_firstIndex? t v
  rw [intern_of_firstIndex? (h.firstIndex? hk), hi]

end Table

/-- walking from the end of a list while `p` holds, where `p` only gets truer along the list,
takes exactly the members that satisfy it -/
theorem List.takeWhile_reverse_eq_filter {α : Type} {p : α → Bool} :
    ∀ {l : List α}, l.Pairwise (fun a b => p a = true → p b = true) →
      l.reverse.takeWhile p = (l.filter p).reverse
  | [], _ => rfl
  | a :: l, h => by
    obtain ⟨ha, hl⟩ := List.pairwise_cons.mp h
    rw [List.reverse_cons, List.takeWhile_append, takeWhile_reverse_eq_filter hl]
    by_cases hpa : p a = true
    · -- every later member satisfies `p` too: nothing is dropped
      have hall : l.filter p = l := List.filter_eq_self.mpr fun b hb => ha b hb hpa
      simp [hall, hpa]
    · -- `a` is dropped, and the walk ends with it
      have hpa' : p a = false := by simpa using hpa
      simp only [hpa', List.filter_cons, List.length_reverse, List.takeWhile_cons, List.takeWhile_nil,
        List.append_nil, Bool.false_eq_true, if_false]
      split
      · next hlen => rw [List.filter_eq_self.mpr (List.length_filter_eq_length_iff.mp hlen)]
      · rfl

end AbcKit

namespace AbcKit.Emit

/-- the instruction that pushes an integer does not depend on values interned after it, and
spelling it again interns nothing -/
theorem intInstruction_of_extends (v : Int32) {p q : Pool} (h : (intInstruction v p).2.Extends q) :
    intInstruction v q = ((intInstruction v p).1, q) := by
  unfold intInstruction at h ⊢
  split
  · rfl
  · split
    · rfl
    · -- a wide integer is interned, and found again where it was put
      rename_i hbyte hshort
      rw [if_neg hbyte, if_neg hshort] at h
      have hq : q.ints.intern v = (q.ints, (p.ints.intern v).2) :=
        Table.intern_of_intern_extends h.ints
      show (Instruction.pushInt (Pool.int v q).1, (Pool.int v q).2) =
        (Instruction.pushInt (Pool.int v p).1, q)
      simp [Pool.int, hq]

/-! ## The walk as a function of the regions it passes -/

/-- the instruction that pushes resume index `k`, as the pool `pool` spells it -/
def pushResume (pool : Pool) (k : Nat) : Instruction := (intInstruction (Int32.ofNat k) pool).1

/-- one `popscope` for each scope above depth `depth`, from depth `scope` -/
def popsTo (scope depth : Nat) : List Instruction :=
  List.replicate (scope - depth) (.simple SimpleOp.popScope)

/-- a call site into a finally body: the push of the resume index, the jump into the body, and
the label the body returns to -/
def callCode (push : Instruction) : List Instruction :=
  [push, .branch BranchOp.jump 0, .simple SimpleOp.label]

/-- a region entered from the call site whose jump is at `site`: the jump is one more call site,
and the label after it, four bytes on, one more resume -/
def HandlerBlock.enter (site : Nat) (b : HandlerBlock) : HandlerBlock :=
  { b with callSites := b.callSites ++ [site], resumes := b.resumes ++ [site + 4] }

/-- the regions after the call sites `calls`, each a region index and the address of its jump -/
def enterAll (calls : List (Nat × Nat)) (hs : List HandlerBlock) : List HandlerBlock :=
  calls.foldl (fun hs c => hs.modify c.1 (HandlerBlock.enter c.2)) hs

/-- what a walk out of regions writes: the code, the call sites (the region entered and the
address of the jump), and the scope depth it ends at -/
structure Exit where
  code : List Instruction
  calls : List (Nat × Nat)
  scope : Nat

/-- Leaving the regions `rs`, innermost first with their indices, from address `pc` and scope
depth `scope`: each region's own scopes are popped, down to the depth it was entered at, and a
region whose finally body has not started is entered through a call site that pushes its count
of resumes. -/
def leaveRegions (pool : Pool) : Nat → Nat → List (HandlerBlock × Nat) → Exit
  | _, scope, [] => ⟨[], [], scope⟩
  | pc, scope, r :: rs =>
    let pops := popsTo scope r.1.entry.depth.scope
    let below := min scope r.1.entry.depth.scope
    if r.1.runsFinally then
      let push := pushResume pool r.1.resumes.length
      let site := pc + ((pops ++ [push]).flatMap Instruction.bytes).length
      let w := leaveRegions pool (pc + ((pops ++ callCode push).flatMap Instruction.bytes).length)
        below rs
      ⟨pops ++ callCode push ++ w.code, (r.2, site) :: w.calls, w.scope⟩
    else
      let w := leaveRegions pool (pc + (pops.flatMap Instruction.bytes).length) below rs
      ⟨pops ++ w.code, w.calls, w.scope⟩

/-- the walk out of regions `rs` from method `m`, starting after the position records `P` -/
def MethodState.leave (pool : Pool) (P : List Instruction) (m : MethodState)
    (rs : List (HandlerBlock × Nat)) : Exit :=
  leaveRegions pool (m.code.size + (P.flatMap Instruction.bytes).length) m.depth.scope rs

/-- the first regions of `rs` up to the `n`-th whose finally body has not started: a walk that
enters at most `n` finally bodies stops before the next region once it has entered `n` -/
def takeEntering : Nat → List (HandlerBlock × Nat) → List (HandlerBlock × Nat)
  | 0, _ => []
  | _, [] => []
  | n + 1, r :: rs => r :: takeEntering (if r.1.runsFinally then n else n + 1) rs

@[simp] theorem takeEntering_nil (n : Nat) : takeEntering n [] = [] := by
  cases n <;> rfl

@[simp] theorem takeEntering_zero (rs : List (HandlerBlock × Nat)) : takeEntering 0 rs = [] := by
  cases rs <;> rfl

@[simp] theorem leaveRegions_nil (pool : Pool) (pc scope : Nat) :
    leaveRegions pool pc scope [] = ⟨[], [], scope⟩ := rfl

@[simp] theorem enterAll_nil (hs : List HandlerBlock) : enterAll [] hs = hs := rfl

theorem enterAll_cons (c : Nat × Nat) (calls : List (Nat × Nat)) (hs : List HandlerBlock) :
    enterAll (c :: calls) hs = enterAll calls (hs.modify c.1 (HandlerBlock.enter c.2)) := rfl

theorem takeEntering_succ_cons (n : Nat) (r : HandlerBlock × Nat) (rs : List (HandlerBlock × Nat)) :
    takeEntering (n + 1) (r :: rs) = r :: takeEntering (if r.1.runsFinally then n else n + 1) rs :=
  rfl

/-- a region whose finally body has not started: its pops, then a call site into it -/
theorem leaveRegions_enter {pool : Pool} {pc scope : Nat} {r : HandlerBlock × Nat}
    {rs : List (HandlerBlock × Nat)} (hr : r.1.runsFinally = true) :
    leaveRegions pool pc scope (r :: rs) =
      let pops := popsTo scope r.1.entry.depth.scope
      let push := pushResume pool r.1.resumes.length
      let w := leaveRegions pool (pc + ((pops ++ callCode push).flatMap Instruction.bytes).length)
        (min scope r.1.entry.depth.scope) rs
      ⟨pops ++ callCode push ++ w.code,
        (r.2, pc + ((pops ++ [push]).flatMap Instruction.bytes).length) :: w.calls, w.scope⟩ := by
  simp only [leaveRegions, hr, if_true]

/-- a region whose finally body has started, or that has none: only its pops -/
theorem leaveRegions_pass {pool : Pool} {pc scope : Nat} {r : HandlerBlock × Nat}
    {rs : List (HandlerBlock × Nat)} (hr : r.1.runsFinally = false) :
    leaveRegions pool pc scope (r :: rs) =
      let pops := popsTo scope r.1.entry.depth.scope
      let w := leaveRegions pool (pc + (pops.flatMap Instruction.bytes).length)
        (min scope r.1.entry.depth.scope) rs
      ⟨pops ++ w.code, w.calls, w.scope⟩ := by
  simp only [leaveRegions, hr, Bool.false_eq_true, if_false]

/-- the open regions that leaving frame `frame` passes, innermost first with their indices: those
opened inside the frame, or all of them when the method is left -/
def MethodState.regionsLeft (m : MethodState) (frame : Option Nat) : List (HandlerBlock × Nat) :=
  (m.handlers.zipIdx.filter fun r => frame.all (· < r.1.loopDepth)).reverse

/-- the regions are nested inside the frames: a region opened later sits inside every frame that
an earlier one sits inside -/
def MethodState.RegionsNested (m : MethodState) : Prop :=
  m.handlers.Pairwise fun b b' => b.loopDepth ≤ b'.loopDepth

/-! ### Which regions the walk passes, and how many bodies it enters -/

/-- **Nested regions are left exactly as far as they were opened inside the frame**: walking
from the innermost region to the first one opened outside frame `frame` passes the regions opened
inside it -/
theorem MethodState.takeWhile_regions {m : MethodState} (hn : m.RegionsNested) (frame : Option Nat) :
    (m.handlers.zipIdx.reverse.takeWhile fun r => frame.all (· < r.1.loopDepth)) =
      m.regionsLeft frame := by
  apply List.takeWhile_reverse_eq_filter
  -- the regions with their indices are nested as the regions are
  have hz : m.handlers.zipIdx.Pairwise fun a b => a.1.loopDepth ≤ b.1.loopDepth := by
    have h := hn
    rw [RegionsNested, ← List.zipIdx_map_fst 0 m.handlers, List.pairwise_map] at h
    exact h
  refine hz.imp fun {a b} hab ha => ?_
  cases frame with
  | none => rfl
  | some l =>
    simp only [Option.all_some, decide_eq_true_eq] at ha ⊢
    omega

theorem MethodState.regionsLeft_none (m : MethodState) : m.regionsLeft none = m.handlers.zipIdx.reverse := by
  simp [regionsLeft]

/-- a walk allowed as many bodies as there are regions is not cut short -/
theorem takeEntering_of_length_le :
    ∀ {n : Nat} {rs : List (HandlerBlock × Nat)}, rs.length ≤ n → takeEntering n rs = rs
  | 0, [], _ => rfl
  | n + 1, [], _ => rfl
  | 0, _ :: _, h => absurd h (by simp)
  | n + 1, r :: rs, h => by
    rw [takeEntering_succ_cons]
    congr 1
    simp only [List.length_cons] at h
    split
    · exact takeEntering_of_length_le (by omega)
    · exact takeEntering_of_length_le (by omega)

/-- the regions entered are those passed whose finally body has not started, in walk order -/
theorem leaveRegions_entered (pool : Pool) :
    ∀ (pc scope : Nat) (rs : List (HandlerBlock × Nat)),
      (leaveRegions pool pc scope rs).calls.map Prod.fst =
        (rs.filter fun r => r.1.runsFinally).map Prod.snd
  | _, _, [] => rfl
  | pc, scope, r :: rs => by
    cases hr : r.1.runsFinally with
    | true =>
      simp only [leaveRegions_enter hr, List.map_cons, List.filter_cons, hr, if_true]
      rw [leaveRegions_entered]
    | false =>
      simp only [leaveRegions_pass hr, List.filter_cons, hr, Bool.false_eq_true, if_false]
      rw [leaveRegions_entered]

/-- a walk cut after `n` bodies passes exactly the first `n` regions with a body to enter -/
theorem takeEntering_filter :
    ∀ (n : Nat) (rs : List (HandlerBlock × Nat)),
      (takeEntering n rs).filter (fun r => r.1.runsFinally) =
        (rs.filter fun r => r.1.runsFinally).take n
  | 0, rs => by simp
  | n + 1, [] => rfl
  | n + 1, r :: rs => by
    rw [takeEntering_succ_cons]
    cases hr : r.1.runsFinally with
    | true =>
      simp only [List.filter_cons, hr, if_true, List.take_succ_cons]
      rw [takeEntering_filter]
    | false =>
      simp only [List.filter_cons, hr, Bool.false_eq_true, if_false]
      exact takeEntering_filter (n + 1) rs

/-- a walk that writes nothing enters nothing, wherever it starts -/
theorem leaveRegions_of_code_nil (pool : Pool) :
    ∀ (pc pc' scope : Nat) (rs : List (HandlerBlock × Nat)),
      (leaveRegions pool pc scope rs).code = [] → leaveRegions pool pc' scope rs = leaveRegions pool pc scope rs
  | _, _, _, [], _ => rfl
  | pc, pc', scope, r :: rs, h => by
    cases hr : r.1.runsFinally with
    | true => simp [leaveRegions_enter hr, callCode] at h
    | false =>
      simp only [leaveRegions_pass hr, List.append_eq_nil_iff] at h ⊢
      obtain ⟨hpops, hrest⟩ := h
      simp only [hpops, List.flatMap_nil, List.length_nil, Nat.add_zero] at hrest ⊢
      rw [leaveRegions_of_code_nil pool pc pc' _ rs hrest]

/-- position records written after a walk that wrote nothing do not move it -/
theorem MethodState.leave_append_records {pool : Pool} {P P' : List Instruction} {m : MethodState}
    {rs : List (HandlerBlock × Nat)} (h : P' = [] ∨ (m.leave pool P rs).code = []) :
    m.leave pool (P ++ P') rs = m.leave pool P rs := by
  rcases h with rfl | h
  · rw [List.append_nil]
  · exact leaveRegions_of_code_nil pool _ _ _ rs h

/-! ## The highest depths only grow -/

/-- from `m` to `m'` the highest depths and the highest register only grow, and depths that are
32-bit counts stay so -/
structure MethodState.Climbs (m m' : MethodState) : Prop where
  maxStack : m.depth.maxStack ≤ m'.depth.maxStack
  maxScope : m.depth.maxScope ≤ m'.depth.maxScope
  maxRegister : m.registers.max ≤ m'.registers.max
  fits : m.depth.Fits → m'.depth.Fits

instance : IsPreorder MethodState MethodState.Climbs where
  refl _ := ⟨le_rfl, le_rfl, le_rfl, id⟩
  trans _ _ _ h h' := ⟨h.maxStack.trans h'.maxStack, h.maxScope.trans h'.maxScope,
    h.maxRegister.trans h'.maxRegister, fun hf => h'.fits (h.fits hf)⟩

/-- only the innermost method moved, and it climbed -/
def Emitter.Climbs (e e' : Emitter) : Prop := Innermost MethodState.Climbs e.methods e'.methods

instance : IsPreorder Emitter Emitter.Climbs where
  refl e := Innermost.refl e.methods
  trans _ _ _ h h' := Innermost.trans h h'

/-- moving the depths raises at most their highest values, and leaves 32-bit counts -/
theorem Depth.apply_climbs (d : Depth) (stackDelta scopeDelta : Int) :
    d.maxStack ≤ (d.apply stackDelta scopeDelta).1.maxStack ∧
      d.maxScope ≤ (d.apply stackDelta scopeDelta).1.maxScope ∧
      (d.apply stackDelta scopeDelta).1.Fits :=
  ⟨by simp [Depth.apply, Depth.setStack, Depth.setScope],
    by simp [Depth.apply, Depth.setStack, Depth.setScope],
    ⟨by simpa [Depth.apply, Depth.setStack, Depth.setScope] using Depth.offset_lt _ _,
      by simpa [Depth.apply, Depth.setStack, Depth.setScope] using Depth.offset_lt _ _⟩⟩

namespace MethodM

theorem emit_climbs (pool : Pool) (i : Instruction) : OnSuccess MethodState.Climbs (emit pool i) := by
  intro m site m' h
  obtain ⟨-, -, δ, -, rfl⟩ := emit_exact h
  obtain ⟨hs, hc, hf⟩ := Depth.apply_climbs m.depth δ i.scopeEffect
  refine ⟨hs, hc, ?_, fun _ => hf⟩
  cases hr : i.maxRegister with
  | none => exact le_rfl
  | some r => exact Registers.touch_base.2

theorem adjustStack_climbs (delta : Int) : OnSuccess MethodState.Climbs (adjustStack delta) := by
  intro m x m' h
  rw [adjustStack_exact h]
  obtain ⟨hs, hc, hf⟩ := Depth.apply_climbs m.depth delta 0
  exact ⟨hs, hc, le_rfl, fun _ => hf⟩

end MethodM

namespace Emitter

variable {α : Type}

theorem onMethod_climbs {act : Pool → MethodM α} (h : ∀ pool, OnSuccess MethodState.Climbs (act pool)) :
    OnSuccess Emitter.Climbs (onMethod act) :=
  fun _ _ _ he => (onMethod_innermost h he).2

theorem climbs_of_methods {act : EmitM α} (h : ∀ e x e', act e = .ok x e' → e'.methods = e.methods) :
    OnSuccess Emitter.Climbs act := fun e x e' he => by
  unfold Emitter.Climbs
  rw [h e x e' he]
  exact Innermost.refl _

theorem onPool_methods {act : StateM Pool α} {e e' : Emitter} {a : α} (he : onPool act e = .ok a e') :
    e'.methods = e.methods := by
  unfold onPool onAssembler at he
  split at he
  · cases he
    rfl
  · cases he

theorem onPool_climbs {act : StateM Pool α} : OnSuccess Emitter.Climbs (onPool act) :=
  climbs_of_methods fun _ _ _ => onPool_methods

theorem current_climbs : OnSuccess Emitter.Climbs current := by
  unfold current
  refine OnSuccess.get.bind fun e => ?_
  split
  · exact OnSuccess.pure _
  · exact OnSuccess.throw _

theorem emitRaw_climbs (i : Instruction) : OnSuccess Emitter.Climbs (emitRaw i) :=
  onMethod_climbs fun pool => MethodM.emit_climbs pool i

theorem flushPosition_climbs : OnSuccess Emitter.Climbs flushPosition := by
  unfold flushPosition
  repeat' first
    | exact OnSuccess.pure _
    | exact OnSuccess.get
    | exact emitRaw_climbs _
    | exact onPool_climbs
    | exact OnSuccess.modify fun e => Innermost.refl e.methods
    | apply OnSuccess.discard
    | apply OnSuccess.bind
    | split
    | (intro _)

theorem emit_climbs (i : Instruction) : OnSuccess Emitter.Climbs (emit i) :=
  flushPosition_climbs.bind fun _ => emitRaw_climbs i

theorem simple_climbs (op : SimpleOp) : OnSuccess Emitter.Climbs (simple op) :=
  (emit_climbs _).discard

theorem label_climbs : OnSuccess Emitter.Climbs label := emit_climbs _

theorem reserve_climbs (op : BranchOp) : OnSuccess Emitter.Climbs (reserve op) := emit_climbs _

theorem pushInt_climbs (v : Int32) : OnSuccess Emitter.Climbs (pushInt v) :=
  onPool_climbs.bind fun _ => (emit_climbs _).discard

theorem adjustStack_climbs (delta : Int) :
    OnSuccess Emitter.Climbs (onMethod fun _ => MethodM.adjustStack delta) :=
  onMethod_climbs fun _ => MethodM.adjustStack_climbs delta

theorem modifyHandler_climbs (index : Nat) (f : HandlerBlock → HandlerBlock) :
    OnSuccess Emitter.Climbs (modifyHandler index f) :=
  onMethod_climbs fun _ => OnSuccess.modify fun _ => ⟨le_rfl, le_rfl, le_rfl, id⟩

theorem handler_climbs (index : Nat) : OnSuccess Emitter.Climbs (handler index) :=
  current_climbs.bind fun _ => OnSuccess.pure _

theorem popScopesWithin_climbs (depth : Nat) :
    ∀ fuel, OnSuccess Emitter.Climbs (popScopesWithin depth fuel)
  | 0 => OnSuccess.pure _
  | fuel + 1 => by
    unfold popScopesWithin
    refine current_climbs.bind fun _ => ?_
    split
    · exact (simple_climbs _).bind fun _ => popScopesWithin_climbs depth fuel
    · exact OnSuccess.pure _

theorem popScopesTo_climbs (depth : Nat) : OnSuccess Emitter.Climbs (popScopesTo depth) :=
  current_climbs.bind fun _ => popScopesWithin_climbs depth _

theorem callSite_climbs (index : Nat) : OnSuccess Emitter.Climbs (callSite index) :=
  (handler_climbs index).bind fun _ => (pushInt_climbs _).bind fun _ =>
    (reserve_climbs _).bind fun _ => (adjustStack_climbs _).bind fun _ =>
      label_climbs.bind fun _ => modifyHandler_climbs _ _

theorem unwindFrom_climbs (loopIndex : Option Nat) (limit : Nat) :
    ∀ indices called, OnSuccess Emitter.Climbs (unwindFrom loopIndex limit indices called)
  | [], _ => OnSuccess.pure _
  | index :: rest, called => by
    unfold unwindFrom
    split
    · exact OnSuccess.pure _
    · refine (handler_climbs index).bind fun block => ?_
      split
      · exact OnSuccess.pure _
      · refine (popScopesTo_climbs _).bind fun _ => ?_
        split
        · exact (callSite_climbs index).bind fun _ => unwindFrom_climbs loopIndex limit rest _
        · exact unwindFrom_climbs loopIndex limit rest _

theorem unwind_climbs (loopIndex : Option Nat) (limit : Nat) :
    OnSuccess Emitter.Climbs (unwind loopIndex limit) :=
  current_climbs.bind fun _ => unwindFrom_climbs loopIndex limit _ _

theorem Climbs.head {e e' : Emitter} {m m' : MethodState} {rest rest' : List MethodState}
    (hc : e.Climbs e') (hm : e.methods = m :: rest) (hm' : e'.methods = m' :: rest') : m.Climbs m' := by
  unfold Emitter.Climbs at hc
  rw [hm, hm'] at hc
  cases hc with
  | head h => exact h

end Emitter

/-! ## Exact steps on the emitter -/

namespace Emitter

variable {e e' e₁ e₂ : Emitter} {m m' m₁ : MethodState} {rest : List MethodState}

theorem Wrote.methods_of {P W : List Instruction} (hw : e.Wrote m P W e' m')
    (hm : e.methods = m₁ :: rest) : e'.methods = m' :: rest := by
  rw [hw.methods, hm]
  rfl

theorem Records.nil (m : MethodState) : Records m [] m :=
  ⟨by simp, refl_of MethodState.Moves m, by simp, rfl, rfl, rfl, rfl⟩

/-- the pending position records are written, and none is pending after -/
theorem flushPosition_wrote (hm : e.methods = m :: rest) (hf : m.depth.Fits)
    (h : flushPosition e = .ok () e') :
    ∃ P m', e.Wrote m P [] e' m' ∧ Records m P m' ∧ e'.Flushed := by
  have hint := flushPosition_interns.ok h
  unfold flushPosition at h
  obtain ⟨_, _, ⟨⟩, h⟩ := EStateM.bind_eq_ok.mp h
  split at h
  · next hquiet =>
    cases h
    refine ⟨[], m, Wrote.rfl hm, Records.nil m, ?_⟩
    simp [Flushed] at hquiet ⊢
    tauto
  · split at h
    · next _ hnone =>
      cases h
      refine ⟨[], m, Wrote.rfl hm, Records.nil m, ?_⟩
      simp [Flushed] at hnone ⊢
      tauto
    · next hdirty hset =>
      have hnf : ¬ e.Flushed := by
        simp [Flushed, hm] at hdirty hset ⊢
        tauto
      have hline : ∀ {P : List Instruction} {m₁ : MethodState} {e₁ : Emitter}, Records m P m₁ →
          e₁.methods = m₁ :: rest →
          (do
            let d ← get
            discard (emitRaw (.debugLine d.debug.line))
            modify fun e : Emitter => { e with
              debug := { e.debug with fileDirty := false, lineDirty := false, functionDirty := false } } :
            EmitM Unit) e₁ = .ok () e' →
          ∃ P m', e.Wrote m P [] e' m' ∧ Records m P m' ∧ e'.Flushed := by
        intro P m₁ e₁ hr hm₁ he
        obtain ⟨m', hm', -, hdirty', hr'⟩ := lineRecord_ok hr hm₁ hf he
        refine ⟨P ++ [.debugLine e₁.debug.line], m', ⟨hint.config, hint.assembler, ?_, hr'.moves,
          hr'.positions, fun h => absurd h hnf, fun _ => .inr (.inl hdirty'), ?_⟩, hr', .inr (.inl hdirty')⟩
        · rw [hm', hm]
          rfl
        · rw [hr'.code, List.append_nil]
      dsimp only at h
      split at h
      · cases hfile : e.debug.file with
        | none =>
          rw [hfile] at h
          exact hline (Records.nil m) hm h
        | some file =>
          rw [hfile] at h
          obtain ⟨name, e₁, h₁, h⟩ := EStateM.bind_eq_ok.mp h
          obtain ⟨_, e₂, h₂, h⟩ := EStateM.bind_eq_ok.mp h
          obtain ⟨_, h₂, -⟩ := EStateM.map_eq_ok h₂
          obtain ⟨m₁, rfl, hr⟩ :=
            (Records.nil m).snoc ⟨name, .inl rfl⟩ ((onPool_methods h₁).trans hm) hf h₂
          exact hline hr rfl h
      · exact hline (Records.nil m) hm h

/-- with no record pending, the raw write puts the instruction alone at the end of the code -/
theorem emitRaw_wrote {i : Instruction} {site : Nat} (hm : e.methods = m :: rest) (hflushed : e.Flushed)
    (h : emitRaw i e = .ok site e') :
    ∃ m' δ, e.Wrote m [] [i] e' m' ∧ site = m.code.size ∧
      i.stackEffect e'.assembler.pool.runtimeArity = .ok δ ∧
      m' = { m with
        code := m.code.append i.bytes
        depth := (m.depth.apply δ i.scopeEffect).1
        scopes := MethodM.scopesAfter i.scopeEffect m.scopes
        registers := MethodM.registersAfter i.maxRegister m.registers } := by
  obtain ⟨m₀, rest₀, m', hm₀, hemit, rfl⟩ := onMethod_ok h
  rw [hm] at hm₀
  cases hm₀
  obtain ⟨hsite, -, δ, hδ, hm'⟩ := MethodM.emit_exact hemit
  refine ⟨m', δ, ⟨rfl, .refl _, ?_, MethodM.emit_moves hemit, by simp, fun _ => rfl, fun _ => ?_, ?_⟩,
    hsite, hδ, hm'⟩
  · rw [hm]
    rfl
  · exact Iff.mpr (flushed_of_same hm rfl rfl rfl) hflushed
  · rw [hm']
    simp

/-- `emit` writes the pending position records, then the instruction at the address after them -/
theorem emit_wrote {i : Instruction} {site : Nat} (hm : e.methods = m :: rest) (hf : m.depth.Fits)
    (h : emit i e = .ok site e') :
    ∃ P m₁ m' δ, e.Wrote m P [i] e' m' ∧ Records m P m₁ ∧ site = m₁.code.size ∧
      i.stackEffect e'.assembler.pool.runtimeArity = .ok δ ∧
      m' = { m₁ with
        code := m₁.code.append i.bytes
        depth := (m₁.depth.apply δ i.scopeEffect).1
        scopes := MethodM.scopesAfter i.scopeEffect m₁.scopes
        registers := MethodM.registersAfter i.maxRegister m₁.registers } := by
  obtain ⟨_, e₁, h₁, h₂⟩ := EStateM.bind_eq_ok.mp h
  obtain ⟨P, m₁, hw₁, hr, hflushed⟩ := flushPosition_wrote hm hf h₁
  obtain ⟨m', δ, hw₂, hsite, hδ, rfl⟩ := emitRaw_wrote hw₁.methods hflushed h₂
  refine ⟨P, m₁, _, δ, ?_, hr, hsite, hδ, rfl⟩
  simpa using hw₁.trans hw₂

/-- what the walk reads of one write: where the instruction lands, that the regions stay, and the
scope depth it moves -/
theorem emit_at {i : Instruction} {site : Nat} (hm : e.methods = m :: rest) (hf : m.depth.Fits)
    (h : emit i e = .ok site e') :
    ∃ P m', e.Wrote m P [i] e' m' ∧ site = m.code.size + (P.flatMap Instruction.bytes).length ∧
      m'.handlers = m.handlers ∧ m'.depth.scope = (Depth.offset m.depth.scope i.scopeEffect).1 := by
  obtain ⟨P, m₁, m', δ, hw, hr, hsite, -, rfl⟩ := emit_wrote hm hf h
  refine ⟨P, _, hw, ?_, hr.handlers, ?_⟩
  · rw [hsite, hr.code, Buffer.size_append]
  · simp [Depth.apply, Depth.setStack, Depth.setScope, hr.scope]

/-- an instruction that moves no scope keeps the scope depth -/
theorem emit_at_scope {i : Instruction} {site : Nat} (hm : e.methods = m :: rest) (hf : m.depth.Fits)
    (hi : i.scopeEffect = 0) (h : emit i e = .ok site e') :
    ∃ P m', e.Wrote m P [i] e' m' ∧ site = m.code.size + (P.flatMap Instruction.bytes).length ∧
      m'.handlers = m.handlers ∧ m'.depth.scope = m.depth.scope := by
  obtain ⟨P, m', hw, hsite, hh, hs⟩ := emit_at hm hf h
  rw [hi, Depth.offset_zero hf.scope] at hs
  exact ⟨P, m', hw, hsite, hh, hs⟩

theorem popScope_wrote (hm : e.methods = m :: rest) (hf : m.depth.Fits) (h : popScope e = .ok () e') :
    ∃ P m', e.Wrote m P [.simple SimpleOp.popScope] e' m' ∧ m'.handlers = m.handlers ∧
      m'.depth.scope = m.depth.scope - 1 := by
  obtain ⟨_, h, -⟩ := EStateM.map_eq_ok h
  obtain ⟨P, m', hw, -, hh, hs⟩ := emit_at hm hf h
  have hpop : (Instruction.simple SimpleOp.popScope).scopeEffect = -1 := rfl
  rw [hpop, Depth.offset_neg_one hf.scope.le] at hs
  exact ⟨P, m', hw, hh, hs⟩

/-- popping with fuel enough for every scope above `depth` pops exactly those -/
theorem popScopesWithin_wrote (depth : Nat) :
    ∀ (fuel : Nat) {e e' : Emitter} {m : MethodState}, e.methods = m :: rest → m.depth.Fits →
      m.depth.scope - depth ≤ fuel → popScopesWithin depth fuel e = .ok () e' →
      ∃ P m', e.Wrote m P (popsTo m.depth.scope depth) e' m' ∧ m'.handlers = m.handlers ∧
        m'.depth.scope = min m.depth.scope depth
  | 0, e, e', m, hm, _, hfuel, h => by
    unfold popScopesWithin at h
    cases h
    have hnone : popsTo m.depth.scope depth = [] := by simp [popsTo]; omega
    exact ⟨[], m, hnone ▸ Wrote.rfl hm, rfl, by omega⟩
  | fuel + 1, e, e', m, hm, hf, hfuel, h => by
    unfold popScopesWithin at h
    obtain ⟨c, e₀, hc, h⟩ := EStateM.bind_eq_ok.mp h
    obtain ⟨he₀, rest₁, hm₁⟩ := current_ok hc
    subst e₀
    rw [hm] at hm₁
    cases hm₁
    split at h
    · next habove =>
      obtain ⟨_, e₁, h₁, h₂⟩ := EStateM.bind_eq_ok.mp h
      obtain ⟨P, m₁, hw, hh, hs⟩ := popScope_wrote hm hf h₁
      have hm₁ := hw.methods_of hm
      have hf₁ : m₁.depth.Fits := ((simple_climbs _ e () e₁ h₁).head hm hm₁).fits hf
      obtain ⟨P', m', hw', hh', hs'⟩ := popScopesWithin_wrote depth fuel hm₁ hf₁ (by omega) h₂
      have hpops : popsTo m.depth.scope depth =
          [.simple SimpleOp.popScope] ++ popsTo m₁.depth.scope depth := by
        simp only [popsTo, hs, List.singleton_append, ← List.replicate_succ]
        congr 1
        omega
      refine ⟨P ++ P', m', hpops ▸ hw.trans hw', hh'.trans hh, by omega⟩
    · next hbelow =>
      cases h
      have hnone : popsTo m.depth.scope depth = [] := by simp [popsTo]; omega
      exact ⟨[], m, hnone ▸ Wrote.rfl hm, rfl, by omega⟩

/-- `popScopesTo` pops exactly the scopes above `depth` -/
theorem popScopesTo_wrote (depth : Nat) (hm : e.methods = m :: rest) (hf : m.depth.Fits)
    (h : popScopesTo depth e = .ok () e') :
    ∃ P m', e.Wrote m P (popsTo m.depth.scope depth) e' m' ∧ m'.handlers = m.handlers ∧
      m'.depth.scope = min m.depth.scope depth := by
  obtain ⟨c, e₀, hc, h⟩ := EStateM.bind_eq_ok.mp h
  obtain ⟨he₀, rest₁, hm₁⟩ := current_ok hc
  subst e₀
  rw [hm] at hm₁
  cases hm₁
  exact popScopesWithin_wrote depth _ hm hf (Nat.sub_le _ _) h

theorem wrote_of_interns {α : Type} {act : EmitM α} {a : α} (hi : OnlyInterns act)
    (hm : e.methods = m :: rest) (h : act e = .ok a e') (hms : e'.methods = e.methods)
    (hd : e'.debug = e.debug) : e.Wrote m [] [] e' m := by
  have hint := hi.ok h
  refine ⟨hint.config, hint.assembler, ?_, refl_of MethodState.Moves m, by simp, fun _ => rfl,
    fun hf => ?_, by simp⟩
  · rw [hms, hm]
    rfl
  · simp only [List.append_nil, ne_eq, not_true_eq_false, or_false] at hf
    exact Iff.mpr (flushed_of_same hm (hms.trans hm) hint.config hd) hf

/-- a step on the innermost method that moves it without writing code -/
theorem wrote_of_onMethod {α : Type} {act : Pool → MethodM α} {a : α} (hm : e.methods = m :: rest)
    (h : onMethod act e = .ok a e') :
    ∃ m', act e.assembler.pool m = .ok a m' ∧ e'.methods = m' :: rest ∧
      (m.Moves m' → m'.code = m.code → e.Wrote m [] [] e' m') := by
  obtain ⟨m₀, rest₀, m', hm₀, hact, rfl⟩ := onMethod_ok h
  rw [hm] at hm₀
  cases hm₀
  refine ⟨m', hact, rfl, fun hmv hc => ⟨rfl, .refl _, ?_, hmv, by simp, fun _ => rfl, fun hf => ?_, ?_⟩⟩
  · rw [hm]
    rfl
  · simp only [List.append_nil, ne_eq, not_true_eq_false, or_false] at hf
    exact Iff.mpr (flushed_of_same hm rfl rfl rfl) hf
  · rw [hc]
    simp

theorem intInstruction_scopeEffect (v : Int32) (p : Pool) : (intInstruction v p).1.scopeEffect = 0 := by
  unfold intInstruction
  split
  · rfl
  · split
    · rfl
    · rfl

/-- the push of an integer, spelled as the pool after it spells it, which already holds the
integer -/
theorem pushInt_wrote {v : Int32} (hm : e.methods = m :: rest) (hf : m.depth.Fits)
    (h : pushInt v e = .ok () e') :
    ∃ P m', e.Wrote m P [(intInstruction v e'.assembler.pool).1] e' m' ∧
      (intInstruction v e'.assembler.pool).2 = e'.assembler.pool ∧ m'.handlers = m.handlers ∧
      m'.depth.scope = m.depth.scope := by
  obtain ⟨i, e₁, h₁, h₂⟩ := EStateM.bind_eq_ok.mp h
  obtain ⟨_, h₂, -⟩ := EStateM.map_eq_ok h₂
  have hi : i = (intInstruction v e.assembler.pool).1 := onPool_value h₁
  have he₁ : e₁.assembler.pool = (intInstruction v e.assembler.pool).2 := by
    unfold onPool onAssembler Assembler.onPool at h₁
    cases h₁
    rfl
  have hw₁ : e.Wrote m [] [] e₁ m :=
    wrote_of_interns (onPool_interns (intInstruction_grows v)) hm h₁ (onPool_methods h₁)
      (by unfold onPool onAssembler Assembler.onPool at h₁; cases h₁; rfl)
  obtain ⟨P, m', hw₂, -, hh, hs⟩ :=
    emit_at_scope (hw₁.methods_of hm) hf (hi ▸ intInstruction_scopeEffect v _) h₂
  have hagain := intInstruction_of_extends v (he₁ ▸ hw₂.interns.pool)
  rw [hagain]
  exact ⟨P, m', by simpa [hi] using hw₁.trans hw₂, rfl, hh, hs⟩

/-- a call site into region `index`: the push of its count of resumes, the jump into its finally
body, recorded among its call sites, and the label after it, recorded among its resumes; the push
is spelled as any pool after the call spells it -/
theorem callSite_wrote {index : Nat} {b : HandlerBlock} {q : Pool} (hm : e.methods = m :: rest)
    (hf : m.depth.Fits) (hb : m.handlers[index]? = some b) (h : callSite index e = .ok () e')
    (hq : e'.assembler.pool.Extends q) :
    ∃ P m', e.Wrote m P (callCode (pushResume q b.resumes.length)) e' m' ∧
      m'.handlers = m.handlers.modify index (HandlerBlock.enter
        (m.code.size + ((P ++ [pushResume q b.resumes.length]).flatMap Instruction.bytes).length)) ∧
      m'.depth.scope = m.depth.scope := by
  unfold callSite at h
  obtain ⟨b₀, e₀, h₀, h⟩ := EStateM.bind_eq_ok.mp h
  obtain ⟨he₀, m₀, rest₀, hm₀, hb₀⟩ := handler_ok h₀
  subst e₀
  rw [hm] at hm₀
  cases hm₀
  rw [hb, Option.getD_some] at hb₀
  subst b₀
  obtain ⟨_, e₁, h₁, h⟩ := EStateM.bind_eq_ok.mp h
  obtain ⟨P, m₁, hw₁, hagain, hh₁, hs₁⟩ := pushInt_wrote hm hf h₁
  have hm₁ := hw₁.methods_of hm
  have hf₁ := ((pushInt_climbs _ e () e₁ h₁).head hm hm₁).fits hf
  have hflushed₁ := hw₁.flushed (.inr (by simp))
  obtain ⟨site, e₂, h₂, h⟩ := EStateM.bind_eq_ok.mp h
  obtain ⟨P₂, m₂, hw₂, hsite, hh₂, hs₂⟩ := emit_at_scope hm₁ hf₁ rfl h₂
  have hP₂ : P₂ = [] := hw₂.quiet hflushed₁
  subst hP₂
  have hm₂ := hw₂.methods_of hm₁
  have hf₂ := ((reserve_climbs _ e₁ site e₂ h₂).head hm₁ hm₂).fits hf₁
  obtain ⟨_, e₃, h₃, h⟩ := EStateM.bind_eq_ok.mp h
  obtain ⟨m₃, hadj, hm₃, hw₃⟩ := wrote_of_onMethod hm₂ h₃
  have hm₃eq := MethodM.adjustStack_exact hadj
  have hw₃ := hw₃ (by rw [hm₃eq]; rfl) (by rw [hm₃eq])
  have hf₃ := ((adjustStack_climbs _ e₂ () e₃ h₃).head hm₂ hm₃).fits hf₂
  obtain ⟨resume, e₄, h₄, h⟩ := EStateM.bind_eq_ok.mp h
  obtain ⟨P₄, m₄, hw₄, hresume, hh₄, hs₄⟩ := emit_at_scope hm₃ hf₃ rfl h₄
  have hP₄ : P₄ = [] := hw₄.quiet (hw₃.flushed (.inl (hw₂.flushed (.inl hflushed₁))))
  subst hP₄
  have hm₄ := hw₄.methods_of hm₃
  obtain ⟨m₅, hmod, hm₅, hw₅⟩ := wrote_of_onMethod hm₄ h
  have hm₅eq : m₅ = { m₄ with handlers := m₄.handlers.modify index fun b => { b with
      callSites := b.callSites ++ [site], resumes := b.resumes ++ [resume] } } := by
    cases hmod
    rfl
  have hw₅ := hw₅ (by rw [hm₅eq]; rfl) (by rw [hm₅eq])
  have hw := (((hw₂.trans hw₃).trans hw₄).trans hw₅)
  -- the push is spelled alike in any later pool
  have hpush : pushResume q b.resumes.length =
      (intInstruction (Int32.ofNat b.resumes.length) e₁.assembler.pool).1 := by
    unfold pushResume
    rw [intInstruction_of_extends _ (hagain ▸ hw.interns.pool.trans hq)]
  have hjump : (Instruction.branch BranchOp.jump 0).bytes.length = 4 := by decide
  refine ⟨P, m₅, ?_, ?_, ?_⟩
  · rw [hpush]
    simpa [callCode] using hw₁.trans hw
  · -- the jump sits after the push, and the label right after the jump's four bytes
    have hsite' : site = m.code.size + ((P ++ [pushResume q b.resumes.length]).flatMap
        Instruction.bytes).length := by
      rw [hsite, hw₁.code, hpush]
      simp
    have hres : resume = site + 4 := by
      rw [hresume, hm₃eq, hw₂.code, hsite]
      simp [hjump]
    rw [hm₅eq, hh₄, hm₃eq, hh₂, hh₁, hres, hsite']
    rfl
  · rw [hm₅eq, hs₄, hm₃eq]
    simp [Depth.apply, Depth.setStack, Depth.setScope, hs₂, hs₁, Depth.offset_zero hf.scope]

/-- **The walk writes and records what `leaveRegions` says.** From the innermost region of
`rs` outward, it stops when it has entered `limit` finally bodies or meets a region opened
outside the frame `loopIndex` names; each region passed has its scopes popped and, when its
finally body has not started, gets one call site. It returns the count of bodies entered. -/
theorem unwindFrom_wrote (loopIndex : Option Nat) (limit : Nat) {q : Pool} :
    ∀ (rs : List (HandlerBlock × Nat)) (called : Nat) {e e' : Emitter} {m : MethodState} {n : Nat},
      e.methods = m :: rest → m.depth.Fits → (∀ r ∈ rs, m.handlers[r.2]? = some r.1) →
      (rs.map Prod.snd).Nodup → unwindFrom loopIndex limit (rs.map Prod.snd) called e = .ok n e' →
      e'.assembler.pool.Extends q →
      ∃ P m', e.Wrote m P (m.leave q P (takeEntering (limit - called)
          (rs.takeWhile fun r => loopIndex.all (· < r.1.loopDepth)))).code e' m' ∧
        m'.handlers = enterAll (m.leave q P (takeEntering (limit - called)
          (rs.takeWhile fun r => loopIndex.all (· < r.1.loopDepth)))).calls m.handlers ∧
        m'.depth.scope = (m.leave q P (takeEntering (limit - called)
          (rs.takeWhile fun r => loopIndex.all (· < r.1.loopDepth)))).scope ∧
        n = called + (m.leave q P (takeEntering (limit - called)
          (rs.takeWhile fun r => loopIndex.all (· < r.1.loopDepth)))).calls.length
  | [], called, e, e', m, n, hm, _, _, _, h, _ => by
    simp only [List.map_nil, unwindFrom] at h
    cases h
    refine ⟨[], m, ?_⟩
    simpa [MethodState.leave] using Wrote.rfl hm
  | r :: rs, called, e, e', m, n, hm, hf, hrs, hnd, h, hq => by
    rw [List.map_cons, unwindFrom] at h
    have hr : m.handlers[r.2]? = some r.1 := hrs r List.mem_cons_self
    obtain ⟨hfresh, hnd'⟩ := List.nodup_cons.mp hnd
    split at h
    · -- the bodies allowed are entered: the walk stops
      next hlim =>
      cases h
      refine ⟨[], m, ?_⟩
      simpa [MethodState.leave, Nat.sub_eq_zero_of_le hlim] using Wrote.rfl hm
    obtain ⟨block, e₀, h₀, h⟩ := EStateM.bind_eq_ok.mp h
    obtain ⟨he₀, m₀, rest₀, hm₀, hblock⟩ := handler_ok h₀
    subst e₀
    rw [hm] at hm₀
    cases hm₀
    rw [hr, Option.getD_some] at hblock
    subst block
    obtain ⟨k, hk⟩ : ∃ k, limit - called = k + 1 := ⟨limit - called - 1, by omega⟩
    split at h
    · -- a region opened outside the frame left: the walk stops
      next hout =>
      cases h
      have hnot : (loopIndex.all fun l => decide (l < r.1.loopDepth)) = false := by
        cases loopIndex <;> simp_all
      refine ⟨[], m, ?_⟩
      simpa [MethodState.leave, List.takeWhile_cons, hnot] using Wrote.rfl hm
    next hin =>
    have hinside : (loopIndex.all fun l => decide (l < r.1.loopDepth)) = true := by
      cases loopIndex <;> simp_all
    rw [List.takeWhile_cons_of_pos (p := fun r : HandlerBlock × Nat => loopIndex.all fun l => decide (l < r.1.loopDepth))
      hinside, hk, takeEntering_succ_cons]
    obtain ⟨_, e₁, h₁, h⟩ := EStateM.bind_eq_ok.mp h
    obtain ⟨P₁, m₁, hw₁, hh₁, hs₁⟩ := popScopesTo_wrote _ hm hf h₁
    have hm₁ := hw₁.methods_of hm
    have hf₁ := ((popScopesTo_climbs _ e () e₁ h₁).head hm hm₁).fits hf
    have hrs₁ : ∀ r' ∈ rs, m₁.handlers[r'.2]? = some r'.1 := fun r' h' =>
      hh₁ ▸ hrs r' (List.mem_cons_of_mem r h')
    split at h
    · -- its finally body: one call site, then the regions outside it
      next hfin =>
      obtain ⟨_, e₂, h₂, h⟩ := EStateM.bind_eq_ok.mp h
      have hq₂ : e₂.assembler.pool.Extends q :=
        ((unwindFrom_interns loopIndex limit _ _).ok h).assembler.pool.trans hq
      obtain ⟨P₂, m₂, hw₂, hh₂, hs₂⟩ := callSite_wrote hm₁ hf₁ (hh₁ ▸ hr) h₂ hq₂
      have hm₂ := hw₂.methods_of hm₁
      have hf₂ := ((callSite_climbs _ e₁ () e₂ h₂).head hm₁ hm₂).fits hf₁
      have hrs₂ : ∀ r' ∈ rs, m₂.handlers[r'.2]? = some r'.1 := by
        intro r' h'
        have hne : r.2 ≠ r'.2 := fun heq => hfresh (heq ▸ List.mem_map_of_mem h')
        simp [hh₂, hne, hrs₁ r' h']
      obtain ⟨P', m', hw', hh', hs', hn'⟩ :=
        unwindFrom_wrote loopIndex limit rs (called + 1) hm₂ hf₂ hrs₂ hnd' h hq
      have hP' : P' = [] := hw'.quiet (hw₂.flushed (.inr (by simp [callCode])))
      subst hP'
      simp only [hfin, if_true, hk, Nat.sub_add_eq, Nat.add_sub_cancel] at hw' hh' hs' hn' ⊢
      generalize takeEntering k (rs.takeWhile fun r => loopIndex.all fun l => decide (l < r.1.loopDepth))
        = rest' at hw' hh' hs' hn' ⊢
      -- the walk of the outer regions starts where this region's call site ends
      have hleave : m₂.leave q [] rest' = leaveRegions q
          (m.code.size + ((P₁ ++ P₂).flatMap Instruction.bytes).length +
            ((popsTo m.depth.scope r.1.entry.depth.scope ++
              callCode (pushResume q r.1.resumes.length)).flatMap Instruction.bytes).length)
          (min m.depth.scope r.1.entry.depth.scope) rest' := by
        unfold MethodState.leave
        rw [hs₂, hs₁, hw₂.code, hw₁.code]
        congr 1
        simp
        omega
      have hsite : m₁.code.size + ((P₂ ++ [pushResume q r.1.resumes.length]).flatMap
          Instruction.bytes).length = m.code.size + ((P₁ ++ P₂).flatMap Instruction.bytes).length +
            ((popsTo m.depth.scope r.1.entry.depth.scope ++
              [pushResume q r.1.resumes.length]).flatMap Instruction.bytes).length := by
        rw [hw₁.code]
        simp
        omega
      rw [hleave] at hw' hh' hs' hn'
      refine ⟨P₁ ++ P₂, m', ?_, ?_, ?_, ?_⟩ <;>
        simp only [MethodState.leave, leaveRegions_enter hfin]
      · simpa only [List.append_nil, List.append_assoc] using hw₁.trans (hw₂.trans hw')
      · rw [hh', enterAll_cons, hh₂, hh₁, hsite]
      · exact hs'
      · rw [hn', List.length_cons]
        omega
    · next hpass =>
      obtain ⟨P', m', hw', hh', hs', hn'⟩ :=
        unwindFrom_wrote loopIndex limit rs called hm₁ hf₁ hrs₁ hnd' h hq
      have hfin : r.1.runsFinally = false := by simpa using hpass
      simp only [hfin, Bool.false_eq_true, if_false, hk] at hw' hh' hs' hn' ⊢
      generalize takeEntering (k + 1)
        (rs.takeWhile fun r => loopIndex.all fun l => decide (l < r.1.loopDepth)) = rest'
        at hw' hh' hs' hn' ⊢
      have hleave : m₁.leave q P' rest' = leaveRegions q
          (m.code.size + ((P₁ ++ P').flatMap Instruction.bytes).length +
            ((popsTo m.depth.scope r.1.entry.depth.scope).flatMap Instruction.bytes).length)
          (min m.depth.scope r.1.entry.depth.scope) rest' := by
        unfold MethodState.leave
        rw [hs₁, hw₁.code]
        congr 1
        simp
        omega
      rw [hleave] at hw' hh' hs' hn'
      refine ⟨P₁ ++ P', m', ?_, ?_, ?_, ?_⟩ <;>
        simp only [MethodState.leave, leaveRegions_pass hfin]
      · simpa only [List.append_assoc] using hw₁.trans hw'
      · rw [hh', hh₁]
      · exact hs'
      · exact hn'

/-- the open regions, innermost first with their indices, each the region its index names -/
theorem zipIdx_reverse_regions (m : MethodState) :
    (∀ r ∈ m.handlers.zipIdx.reverse, m.handlers[r.2]? = some r.1) ∧
      (m.handlers.zipIdx.reverse.map Prod.snd) = (List.range m.handlers.length).reverse := by
  refine ⟨fun r hr => ?_, ?_⟩
  · obtain ⟨-, hlt, hr⟩ := List.mem_zipIdx (List.mem_reverse.mp hr)
    simp only [Nat.sub_zero, Nat.zero_add] at hlt hr
    rw [List.getElem?_eq_getElem hlt, hr]
  · rw [List.map_reverse, List.zipIdx_map_snd, List.range_eq_range']

/-- **Leaving the open regions**, from the innermost: the walk over all of them, stopping at a
region opened outside the frame `loopIndex` names or once `limit` finally bodies are entered -/
theorem unwind_wrote {loopIndex : Option Nat} {limit n : Nat} {q : Pool} (hm : e.methods = m :: rest)
    (hf : m.depth.Fits) (h : unwind loopIndex limit e = .ok n e') (hq : e'.assembler.pool.Extends q) :
    ∃ P m', e.Wrote m P (m.leave q P (takeEntering limit
          (m.handlers.zipIdx.reverse.takeWhile fun r => loopIndex.all (· < r.1.loopDepth)))).code e' m' ∧
        m'.handlers = enterAll (m.leave q P (takeEntering limit
          (m.handlers.zipIdx.reverse.takeWhile fun r => loopIndex.all (· < r.1.loopDepth)))).calls
          m.handlers ∧
        m'.depth.scope = (m.leave q P (takeEntering limit
          (m.handlers.zipIdx.reverse.takeWhile fun r => loopIndex.all (· < r.1.loopDepth)))).scope ∧
        n = (m.leave q P (takeEntering limit
          (m.handlers.zipIdx.reverse.takeWhile fun r => loopIndex.all (· < r.1.loopDepth)))).calls.length := by
  obtain ⟨c, e₀, hc, h⟩ := EStateM.bind_eq_ok.mp h
  obtain ⟨he₀, rest₀, hm₀⟩ := current_ok hc
  subst e₀
  rw [hm] at hm₀
  cases hm₀
  obtain ⟨hregions, hindices⟩ := zipIdx_reverse_regions m
  have hnd : (m.handlers.zipIdx.reverse.map Prod.snd).Nodup := by
    rw [hindices]
    exact List.nodup_reverse.mpr List.nodup_range
  rw [← hindices] at h
  simpa using unwindFrom_wrote loopIndex limit _ 0 hm hf hregions hnd h hq

end Emitter

end AbcKit.Emit
