import AbcKit.Proofs.Unwinding
/-!
Leaving a construct early: `break`, `continue`, `return` and the calls into pending finally
bodies.

A break or continue out of frame `l` walks out of the try regions opened inside the frame,
innermost first, then pops the scopes down to the frame's depth and writes a jump that the frame
records among its breaks or continues (`MethodState.exitFrame`). A return walks out of every open
region in the same way when some finally body is pending, keeping a returned value in the first
free register meanwhile, and otherwise writes the return alone (`MethodState.returnedValue`,
`MethodState.returnedVoid`). Each exit then puts back the depths and scope records it started
from, and gives back the register it took: the method after the exit is the reference state with
at most its highest depths and highest register raised (`MethodState.Raised`).
`Emitter.callFinallies` enters at most `limit` pending finally bodies, innermost first, and
returns how many it entered.

Main statement: `Emitter.leaving_runsIntervening`.
-/
namespace AbcKit.Emit

/-! ## The exits as states -/

/-- the instruction that loads register `reg`, in its short form for the first four -/
def Instruction.getLocalOf (reg : UInt32) : Instruction :=
  if reg = 0 then .simple ⟨.getLocal0, by decide⟩
  else if reg = 1 then .simple ⟨.getLocal1, by decide⟩
  else if reg = 2 then .simple ⟨.getLocal2, by decide⟩
  else if reg = 3 then .simple ⟨.getLocal3, by decide⟩
  else .register ⟨.getLocal, by decide⟩ reg

/-- the instruction that stores into register `reg`, in its short form for the first four -/
def Instruction.setLocalOf (reg : UInt32) : Instruction :=
  if reg = 0 then .simple ⟨.setLocal0, by decide⟩
  else if reg = 1 then .simple ⟨.setLocal1, by decide⟩
  else if reg = 2 then .simple ⟨.setLocal2, by decide⟩
  else if reg = 3 then .simple ⟨.setLocal3, by decide⟩
  else .register ⟨.setLocal, by decide⟩ reg

theorem Instruction.getLocalOf_scopeEffect (reg : UInt32) :
    (Instruction.getLocalOf reg).scopeEffect = 0 := by
  unfold Instruction.getLocalOf
  split_ifs <;> rfl

theorem Instruction.setLocalOf_scopeEffect (reg : UInt32) :
    (Instruction.setLocalOf reg).scopeEffect = 0 := by
  unfold Instruction.setLocalOf
  split_ifs <;> rfl

/-- giving back the register just handed out puts the allocator back, but for its highest
register: `r₆` is `r₁`, the allocator after the hand-out, with only its highest register moved -/
theorem Registers.free_alloc {r r₁ r₆ : Registers} {x : Nat} (hv : r.base ≤ r.next)
    (h : r.alloc = .ok (x, r₁)) (hb : r₆.base = r₁.base) (hn : r₆.next = r₁.next) (reg : Nat) :
    (r₆.free reg).2 = { r with max := r₆.max } := by
  obtain ⟨-, -, rfl⟩ := Registers.alloc_ok h
  cases r₆
  simp only at hb hn
  subst hb hn
  have hin : r.next + 1 > r.base := by omega
  simp only [Registers.free, hin, if_true, Nat.add_sub_cancel]

namespace Emitter

theorem getLocal_eq (reg : UInt32) : getLocal reg = discard (emit (Instruction.getLocalOf reg)) := by
  unfold getLocal
  split
  · rfl
  · rfl
  · rfl
  · rfl
  · -- past the first four registers neither has a short form
    next h0 h1 h2 h3 =>
    rw [Instruction.getLocalOf, if_neg h0, if_neg h1, if_neg h2, if_neg h3]
    rfl

theorem setLocal_eq (reg : UInt32) : setLocal reg = discard (emit (Instruction.setLocalOf reg)) := by
  unfold setLocal
  split
  · rfl
  · rfl
  · rfl
  · rfl
  · -- past the first four registers neither has a short form
    next h0 h1 h2 h3 =>
    rw [Instruction.setLocalOf, if_neg h0, if_neg h1, if_neg h2, if_neg h3]
    rfl

end Emitter

theorem Depth.eq_raise {d d' : Depth} (hs : d'.stack = d.stack) (hc : d'.scope = d.scope) :
    d' = { d with maxStack := d'.maxStack, maxScope := d'.maxScope } := by
  cases d'
  cases hs
  cases hc
  rfl

namespace MethodState

/-- `m'` is `s` with at most its highest depths and its highest register raised -/
structure Raised (s m' : MethodState) : Prop where
  eq : m' = { s with
    depth := { s.depth with maxStack := m'.depth.maxStack, maxScope := m'.depth.maxScope }
    registers := { s.registers with max := m'.registers.max } }
  maxStack : s.depth.maxStack ≤ m'.depth.maxStack
  maxScope : s.depth.maxScope ≤ m'.depth.maxScope
  maxRegister : s.registers.max ≤ m'.registers.max

/-- `m` after leaving frame `index`, whose scope depth is `depth`, by a break when `isBreak` and a
continue otherwise, once the position records `P` are written: the walk out of the regions opened
inside the frame, the pops down to the frame's scope depth, and a jump that the frame records
among its breaks or continues -/
def exitFrame (pool : Pool) (P : List Instruction) (index depth : Nat) (isBreak : Bool)
    (m : MethodState) : MethodState :=
  let w := m.leave pool P (m.regionsLeft (some index))
  let W := P ++ w.code ++ popsTo w.scope depth
  let site := m.code.size + (W.flatMap Instruction.bytes).length
  { m with
    code := m.code.append ((W ++ [Instruction.branch BranchOp.jump 0]).flatMap Instruction.bytes)
    handlers := enterAll w.calls m.handlers
    flow := { m.flow with loops := m.flow.loops.modify index fun f =>
      if isBreak then { f with breaks := f.breaks ++ [site] }
      else { f with continues := f.continues ++ [site] } } }

/-- `m` after returning the value on its stack, once the position records `P` are written: with
a finally body pending, the value waits in the first free register while the walk out of every
region runs, and is loaded back, with the register killed, before the return; with none pending,
the return alone. The operand depth is one lower. -/
def returnedValue (pool : Pool) (P : List Instruction) (m : MethodState) : MethodState :=
  if m.handlers.any HandlerBlock.runsFinally then
    let reg := m.registers.next.toUInt32
    let w := m.leave pool (P ++ [Instruction.setLocalOf reg]) (m.regionsLeft none)
    { m with
      code := m.code.append ((P ++ [Instruction.setLocalOf reg] ++ w.code ++
        [Instruction.getLocalOf reg, Instruction.register ⟨.kill, by decide⟩ reg,
          Instruction.simple ⟨.returnValue, by decide⟩]).flatMap
          Instruction.bytes)
      handlers := enterAll w.calls m.handlers
      depth := { m.depth with stack := m.depth.stack - 1 } }
  else
    { m with
      code := m.code.append ((P ++ [Instruction.simple ⟨.returnValue, by decide⟩]).flatMap Instruction.bytes)
      depth := { m.depth with stack := m.depth.stack - 1 } }

/-- `m` after returning without a value, once the position records `P` are written: the walk out
of every region when a finally body is pending, then the return -/
def returnedVoid (pool : Pool) (P : List Instruction) (m : MethodState) : MethodState :=
  if m.handlers.any HandlerBlock.runsFinally then
    let w := m.leave pool P (m.regionsLeft none)
    { m with
      code := m.code.append ((P ++ w.code ++ [Instruction.simple ⟨.returnVoid, by decide⟩]).flatMap Instruction.bytes)
      handlers := enterAll w.calls m.handlers }
  else
    { m with code := m.code.append ((P ++ [Instruction.simple ⟨.returnVoid, by decide⟩]).flatMap Instruction.bytes) }

/-- the walk that calling at most `limit` pending finally bodies takes from `m`, once the position
records `P` are written: out of the open regions from the innermost, stopping before the region
after the `limit`-th body entered -/
def finallyCalls (pool : Pool) (P : List Instruction) (limit : Nat) (m : MethodState) : Exit :=
  m.leave pool P (takeEntering limit (m.regionsLeft none))

/-- the walk of `finallyCalls` enters the first `limit` open regions whose finally body has not
started, innermost first -/
theorem finallyCalls_entered (pool : Pool) (P : List Instruction) (limit : Nat) (m : MethodState) :
    (m.finallyCalls pool P limit).calls.map Prod.fst =
      (((m.regionsLeft none).filter fun r => r.1.runsFinally).map Prod.snd).take limit := by
  rw [finallyCalls, leave, leaveRegions_entered, takeEntering_filter, List.map_take]

/-- the open regions whose finally body has not started, with their indices, are as many as
without them -/
theorem length_pending (m : MethodState) :
    ((m.regionsLeft none).filter fun r => r.1.runsFinally).length =
      (m.handlers.filter HandlerBlock.runsFinally).length := by
  rw [regionsLeft_none, List.filter_reverse, List.length_reverse]
  calc (m.handlers.zipIdx.filter fun r => r.1.runsFinally).length
      = ((m.handlers.zipIdx.filter fun r => r.1.runsFinally).map Prod.fst).length :=
        (List.length_map _).symm
    _ = ((m.handlers.zipIdx.map Prod.fst).filter HandlerBlock.runsFinally).length := by
        rw [List.filter_map]
        rfl
    _ = (m.handlers.filter HandlerBlock.runsFinally).length := by rw [List.zipIdx_map_fst]

theorem length_regionsLeft_le (m : MethodState) (frame : Option Nat) :
    (m.regionsLeft frame).length ≤ m.handlers.length := by
  simpa [regionsLeft] using List.length_filter_le _ m.handlers.zipIdx

/-- putting back the depths and scope records of `m` after a run that moved only what writing
moves and climbed: `m` with the run's code and regions and the new flow, raised -/
theorem raised_restore {m m₃ : MethodState} (hmv : m.Moves m₃) (hc : m.Climbs m₃) (fl : FlowState) :
    Raised { m with code := m₃.code, handlers := m₃.handlers, flow := fl }
      { m₃ with
        flow := fl
        depth := { m₃.depth with stack := m.depth.stack, scope := m.depth.scope }
        scopes := m.scopes } := by
  refine ⟨?_, hc.maxStack, hc.maxScope, hc.maxRegister⟩
  rw [hmv.eq]

/-- a method that moved only what writing moves, and agrees with `s` on its code, regions,
depths and scope records, is `s` with its highest depths and highest register replaced -/
theorem Moves.eq_raise {s m' : MethodState} (hmv : s.Moves m') (hcode : m'.code = s.code)
    (hh : m'.handlers = s.handlers) (hstack : m'.depth.stack = s.depth.stack)
    (hscope : m'.depth.scope = s.depth.scope) (hss : m'.scopes = s.scopes) :
    m' = { s with
      depth := { s.depth with maxStack := m'.depth.maxStack, maxScope := m'.depth.maxScope }
      registers := { s.registers with max := m'.registers.max } } := by
  rw [hmv.eq, hcode, hh, hss, Depth.eq_raise hstack hscope]

/-- giving back the register handed out first and putting back the depths and scope records of
`m`, one operand lower: after a run from `m` with that register out, which moved only what writing
moves and climbed, this is `m` with the run's code and regions, one operand lower, raised -/
theorem raised_release {m m₆ : MethodState} {r : Registers} {x : Nat} (hf : m.depth.Fits)
    (hv : m.registers.base ≤ m.registers.next) (hr : m.registers.alloc = .ok (x, r))
    (hmv : Moves { m with registers := r } m₆) (hc : Climbs { m with registers := r } m₆) (reg : Nat) :
    Raised { m with
        code := m₆.code
        handlers := m₆.handlers
        depth := { m.depth with stack := m.depth.stack - 1 } }
      { m₆ with
        registers := (m₆.registers.free reg).2
        depth := ({ m₆.depth with stack := m.depth.stack, scope := m.depth.scope }.apply (-1) 0).1
        scopes := m.scopes } := by
  have hregs := Registers.free_alloc hv hr hmv.registers.1 hmv.registers.2 reg
  have hmax : m.registers.max ≤ r.max := by
    rw [(Registers.alloc_ok hr).2.2]
    exact le_max_left _ _
  have h₆ : m₆.fixed = _ := hmv
  refine ⟨Moves.eq_raise ?_ rfl rfl ?_ ?_ rfl, ?_, ?_, ?_⟩
  · -- only what writing moves has moved, and the register is back
    show { m₆.fixed with registers := { (m₆.registers.free reg).2 with max := 0 } } = m.fixed
    rw [h₆, hregs]
    rfl
  · simp [Depth.apply, Depth.setStack, Depth.setScope, Depth.offset_neg_one hf.stack.le]
  · simp [Depth.apply, Depth.setStack, Depth.setScope, Depth.offset_zero hf.scope]
  · exact hc.maxStack.trans (by simp [Depth.apply, Depth.setStack, Depth.setScope])
  · exact hc.maxScope.trans (by simp [Depth.apply, Depth.setStack, Depth.setScope])
  · show m.registers.max ≤ (m₆.registers.free reg).2.max
    rw [hregs]
    exact hmax.trans hc.maxRegister

end MethodState

namespace Emitter

/-- `e'` is `e` after an exit from its innermost method: the methods around it, `rest`, are as
they were, and the innermost one is the reference state `after pool P`, up to its highest depths
and highest register, where `P` are the position records pending in `e` and `pool` is the module
pool at the end -/
def Leaves (e : Emitter) (rest : List MethodState)
    (after : Pool → List Instruction → MethodState) (e' : Emitter) : Prop :=
  ∃ P m', e'.methods = m' :: rest ∧ (∀ i ∈ P, i.IsPosition) ∧ (e.Flushed → P = []) ∧
    (after e'.assembler.pool P).Raised m'

variable {e e' : Emitter} {m : MethodState} {rest : List MethodState}

/-- a step on the innermost method `m` ran on `m`, and the emitter after it holds its result -/
theorem onMethod_at {α : Type} {act : Pool → MethodM α} {a : α} (hm : e.methods = m :: rest)
    (h : onMethod act e = .ok a e') :
    ∃ m', act e.assembler.pool m = .ok a m' ∧ e' = { e with methods := m' :: rest } := by
  obtain ⟨m₀, rest₀, m', hm₀, hact, rfl⟩ := onMethod_ok h
  rw [hm] at hm₀
  cases hm₀
  exact ⟨m', hact, rfl⟩

theorem takeWhile_all_none (rs : List (HandlerBlock × Nat)) :
    (rs.takeWhile fun r => (none : Option Nat).all (· < r.1.loopDepth)) = rs := by
  simp

/-- position records after a walk start it where it would start without them: they are empty
unless the walk wrote nothing -/
theorem Wrote.leave_append {q : Pool} {rs : List (HandlerBlock × Nat)} {P₁ P₂ W : List Instruction}
    {e₁ e₂ : Emitter} {m₁ m₂ : MethodState} (hw₁ : e.Wrote m P₁ (m.leave q P₁ rs).code e₁ m₁)
    (hw₂ : e₁.Wrote m₁ P₂ W e₂ m₂) : m.leave q (P₁ ++ P₂) rs = m.leave q P₁ rs := by
  refine MethodState.leave_append_records ?_
  by_cases hnil : (m.leave q P₁ rs).code = []
  · exact .inr hnil
  · exact .inl (hw₂.quiet (hw₁.flushed (.inr (by simp [hnil]))))

/-- **Leaving frame `index`** writes the walk out of the regions opened inside the frame, the
pops down to the frame's scope depth and one jump that the frame records; it then puts back the
depths and scope records it started from -/
theorem exitTo_exact {index : Nat} {isBreak : Bool} {f : LoopFrame} (hm : e.methods = m :: rest)
    (hf : m.depth.Fits) (hn : m.RegionsNested) (hl : m.flow.loops[index]? = some f)
    (h : exitTo index isBreak e = .ok () e') :
    e.Leaves rest (fun pool P => m.exitFrame pool P index f.scopeDepth isBreak) e' := by
  simp only [Leaves]
  unfold exitTo at h
  rw [EStateM.bind_of_ok (current_eq hm)] at h
  simp only [hl, Option.map_some, Option.getD_some] at h
  obtain ⟨_, e₁, h₁, h⟩ := EStateM.bind_eq_ok.mp h
  obtain ⟨n, h₁, -⟩ := EStateM.map_eq_ok h₁
  obtain ⟨_, e₂, h₂, h⟩ := EStateM.bind_eq_ok.mp h
  obtain ⟨site, e₃, h₃, h⟩ := EStateM.bind_eq_ok.mp h
  have hq : e₁.assembler.pool.Extends e₃.assembler.pool :=
    (((popScopesTo_interns _).ok h₂).assembler.trans ((reserve_interns _).ok h₃).assembler).pool
  obtain ⟨P₁, m₁, hw₁, hh₁, hs₁, -⟩ := unwind_wrote hm hf h₁ hq
  rw [MethodState.takeWhile_regions hn,
    takeEntering_of_length_le (m.length_regionsLeft_le _)] at hw₁ hh₁ hs₁
  have hm₁ := hw₁.methods_of hm
  have hc₁ := (unwind_climbs _ _ e n e₁ h₁).head hm hm₁
  obtain ⟨P₂, m₂, hw₂, hh₂, hs₂⟩ := popScopesTo_wrote _ hm₁ (hc₁.fits hf) h₂
  have hm₂ := hw₂.methods_of hm₁
  have hc₂ := trans_of MethodState.Climbs hc₁ ((popScopesTo_climbs _ e₁ () e₂ h₂).head hm₁ hm₂)
  rw [reserve_eq] at h₃
  obtain ⟨P₃, m₃, hw₃, hsite, hh₃, -⟩ := emit_at_scope hm₂ (hc₂.fits hf) rfl h₃
  have hm₃ := hw₃.methods_of hm₂
  have hclimb := trans_of MethodState.Climbs hc₂ ((emit_climbs _ e₂ site e₃ h₃).head hm₂ hm₃)
  obtain ⟨m', hact, rfl⟩ := onMethod_at hm₃ h
  have hm' : m' = { m₃ with
      flow := { m₃.flow with loops := m₃.flow.loops.modify index fun f =>
        if isBreak then { f with breaks := f.breaks ++ [site] }
        else { f with continues := f.continues ++ [site] } }
      depth := { m₃.depth with stack := m.depth.stack, scope := m.depth.scope }
      scopes := m.scopes } := by
    cases hact
    rfl
  have hw := hw₁.trans (hw₂.trans hw₃)
  have hleave := hw₁.leave_append (hw₂.trans hw₃)
  have hsite' : site = m.code.size + (((P₁ ++ (P₂ ++ P₃)) ++
      (m.leave e₃.assembler.pool P₁ (m.regionsLeft (some index))).code ++
      popsTo m₁.depth.scope f.scopeDepth).flatMap Instruction.bytes).length := by
    rw [hsite, (hw₁.trans hw₂).code, Buffer.size_append]
    simp only [List.flatMap_append, List.length_append]
    omega
  refine ⟨P₁ ++ (P₂ ++ P₃), m', rfl, hw.positions, hw.quiet, ?_⟩
  have hexit : m.exitFrame e₃.assembler.pool (P₁ ++ (P₂ ++ P₃)) index f.scopeDepth isBreak =
      { m with code := m₃.code, handlers := m₃.handlers, flow := { m₃.flow with
        loops := m₃.flow.loops.modify index fun f =>
          if isBreak then { f with breaks := f.breaks ++ [site] }
          else { f with continues := f.continues ++ [site] } } } := by
    simp only [MethodState.exitFrame, hleave, hw.code, hh₃, hh₂, hh₁, hw.moves.flow, hsite', ← hs₁,
      List.append_assoc]
  rw [hm']
  exact hexit ▸ MethodState.raised_restore hw.moves hclimb _

theorem breakLoop_eq {index : Nat} {f : LoopFrame} (hm : e.methods = m :: rest)
    (hl : m.flow.loops[index]? = some f) : breakLoop index e = exitTo index true e :=
  (EStateM.bind_of_ok (onMethod_unchanged hm (MethodM.frame_found hl))).trans rfl

theorem continueLoop_eq {index : Nat} {f : LoopFrame} (hm : e.methods = m :: rest)
    (hl : m.flow.loops[index]? = some f) (hk : f.kind = .loop) :
    continueLoop index e = exitTo index false e := by
  refine (EStateM.bind_of_ok (onMethod_unchanged hm (MethodM.frame_found hl))).trans ?_
  simp [hk]

theorem hasPendingFinally_eq (hm : e.methods = m :: rest) :
    hasPendingFinally e = .ok (m.handlers.any HandlerBlock.runsFinally) e :=
  EStateM.bind_of_ok (current_eq hm)

/-- an instruction written alone, moving no scope and the operand depth by `δ`: `m` with the
instruction after the pending position records, and the operand depth moved -/
theorem emit_raised {i : Instruction} {site : Nat} (δ : Int) (hm : e.methods = m :: rest)
    (hf : m.depth.Fits) (hi : i.scopeEffect = 0) (hδ : ∀ arity, i.stackEffect arity = .ok δ)
    (h : emit i e = .ok site e') :
    ∃ P m', e'.methods = m' :: rest ∧ (∀ i ∈ P, i.IsPosition) ∧ (e.Flushed → P = []) ∧
      MethodState.Raised { m with
        code := m.code.append ((P ++ [i]).flatMap Instruction.bytes)
        depth := { m.depth with stack := (Depth.offset m.depth.stack δ).1 } } m' := by
  obtain ⟨P, m₁, m', δ', hw, hr, -, hδ', rfl⟩ := emit_wrote hm hf h
  rw [hδ] at hδ'
  cases hδ'
  have hc := (emit_climbs i e site e' h).head hm (hw.methods_of hm)
  refine ⟨P, _, hw.methods_of hm, hw.positions, hw.quiet,
    ⟨MethodState.Moves.eq_raise hw.moves hw.code hr.handlers ?_ ?_ ?_, hc.maxStack, hc.maxScope,
      hc.maxRegister⟩⟩
  · simp [Depth.apply, Depth.setStack, Depth.setScope, hr.stack]
  · simp [Depth.apply, Depth.setStack, Depth.setScope, hi, hr.scope, Depth.offset_zero hf.scope]
  · simp [MethodM.scopesAfter, hi, hr.scopes]

/-- with no record pending, an instruction that moves no scope is written alone; the regions
stay, and no record is pending after -/
theorem emit_flushed {i : Instruction} (hm : e.methods = m :: rest) (hf : m.depth.Fits)
    (hfl : e.Flushed) (hi : i.scopeEffect = 0) (h : discard (emit i) e = .ok () e') :
    ∃ m', e.Wrote m [] [i] e' m' ∧ e'.methods = m' :: rest ∧ e'.Flushed ∧
      m'.handlers = m.handlers ∧ m.Climbs m' := by
  obtain ⟨site, h, -⟩ := EStateM.map_eq_ok h
  obtain ⟨P, m', hw, -, hh, -⟩ := emit_at_scope hm hf hi h
  obtain rfl := hw.quiet hfl
  exact ⟨m', hw, hw.methods_of hm, hw.flushed (.inl hfl), hh,
    (emit_climbs i e site e' h).head hm (hw.methods_of hm)⟩

/-- **Returning without a value** writes the walk out of every open region when a finally body
is pending, then the return, and puts back the depths and scope records it started from -/
theorem returnVoid_exact (hm : e.methods = m :: rest) (hf : m.depth.Fits)
    (h : returnVoid e = .ok () e') :
    e.Leaves rest (fun pool P => m.returnedVoid pool P) e' := by
  simp only [Leaves]
  unfold returnVoid at h
  rw [EStateM.bind_of_ok (hasPendingFinally_eq hm)] at h
  split at h
  · next hnone =>
    have hpend : m.handlers.any HandlerBlock.runsFinally = false := by simpa using hnone
    obtain ⟨_, e₁, h₁, h⟩ := EStateM.bind_eq_ok.mp h
    cases h
    obtain ⟨_, h₁, -⟩ := EStateM.map_eq_ok h₁
    obtain ⟨P, m', hm', hP, hq, hr⟩ := emit_raised 0 hm hf rfl (fun _ => rfl) h₁
    refine ⟨P, m', hm', hP, hq, ?_⟩
    rw [Depth.offset_zero hf.stack] at hr
    simp only [MethodState.returnedVoid, hpend, Bool.false_eq_true, if_false]
    exact hr
  · next hsome =>
    have hpend : m.handlers.any HandlerBlock.runsFinally = true := by simpa using hsome
    have hsnap : onMethod (fun _ => MethodM.snapshot) e = .ok ⟨m.depth, m.scopes⟩ e :=
      onMethod_unchanged hm rfl
    rw [EStateM.bind_of_ok hsnap] at h
    obtain ⟨c, e₀, hc, h⟩ := EStateM.bind_eq_ok.mp h
    rw [current_eq hm] at hc
    cases hc
    obtain ⟨_, e₁, h₁, h⟩ := EStateM.bind_eq_ok.mp h
    obtain ⟨n, h₁, -⟩ := EStateM.map_eq_ok h₁
    obtain ⟨_, e₂, h₂, h⟩ := EStateM.bind_eq_ok.mp h
    have hq : e₁.assembler.pool.Extends e₂.assembler.pool := ((simple_interns _).ok h₂).assembler.pool
    obtain ⟨P₁, m₁, hw₁, hh₁, -, -⟩ := unwind_wrote hm hf h₁ hq
    rw [takeWhile_all_none, takeEntering_of_length_le (by simp), ← MethodState.regionsLeft_none]
      at hw₁ hh₁
    have hm₁ := hw₁.methods_of hm
    have hc₁ := (unwind_climbs _ _ e n e₁ h₁).head hm hm₁
    obtain ⟨_, h₂, -⟩ := EStateM.map_eq_ok h₂
    obtain ⟨P₂, m₂, hw₂, -, hh₂, -⟩ := emit_at_scope hm₁ (hc₁.fits hf) rfl h₂
    obtain ⟨m', hact, rfl⟩ := onMethod_at (hw₂.methods_of hm₁) h
    have hm' : m' = { m₂ with
        depth := { m₂.depth with stack := m.depth.stack, scope := m.depth.scope }
        scopes := m.scopes } := by
      cases hact
      rfl
    have hclimb : m.Climbs m₂ :=
      trans_of MethodState.Climbs hc₁ ((emit_climbs _ e₁ _ e₂ h₂).head hm₁ (hw₂.methods_of hm₁))
    have hw := hw₁.trans hw₂
    refine ⟨P₁ ++ P₂, m', rfl, hw.positions, hw.quiet, ?_⟩
    have hret : m.returnedVoid e₂.assembler.pool (P₁ ++ P₂) =
        { m with code := m₂.code, handlers := m₂.handlers, flow := m₂.flow } := by
      simp only [MethodState.returnedVoid, hpend, if_true, hw₁.leave_append hw₂, hw.code, hh₂, hh₁,
        hw.moves.flow, List.append_assoc]
    rw [hm', hret]
    exact MethodState.raised_restore hw.moves hclimb m₂.flow

/-- **Returning the value on the stack** writes, when a finally body is pending, the store of
the value into the first free register, the walk out of every open region, the load of the value,
the kill of the register and the return, then gives the register back and puts back the depths
and scope records it started from, one operand lower; with none pending, the return alone -/
theorem returnValue_exact (hm : e.methods = m :: rest) (hf : m.depth.Fits)
    (hv : m.registers.base ≤ m.registers.next) (h : returnValue e = .ok () e') :
    e.Leaves rest (fun pool P => m.returnedValue pool P) e' := by
  simp only [Leaves]
  unfold returnValue at h
  rw [EStateM.bind_of_ok (hasPendingFinally_eq hm)] at h
  split at h
  · next hnone =>
    have hpend : m.handlers.any HandlerBlock.runsFinally = false := by simpa using hnone
    obtain ⟨_, e₁, h₁, h⟩ := EStateM.bind_eq_ok.mp h
    cases h
    obtain ⟨_, h₁, -⟩ := EStateM.map_eq_ok h₁
    obtain ⟨P, m', hm', hP, hq, hr⟩ := emit_raised (-1) hm hf rfl (fun _ => rfl) h₁
    refine ⟨P, m', hm', hP, hq, ?_⟩
    rw [Depth.offset_neg_one hf.stack.le] at hr
    simp only [MethodState.returnedValue, hpend, Bool.false_eq_true, if_false]
    exact hr
  · next hsome =>
    have hpend : m.handlers.any HandlerBlock.runsFinally = true := by simpa using hsome
    have hsnap : onMethod (fun _ => MethodM.snapshot) e = .ok ⟨m.depth, m.scopes⟩ e :=
      onMethod_unchanged hm rfl
    rw [EStateM.bind_of_ok hsnap] at h
    obtain ⟨v, e₁, h₁, h⟩ := EStateM.bind_eq_ok.mp h
    obtain ⟨m₁, halloc, rfl⟩ := onMethod_at hm h₁
    have hm₁ : ({ e with methods := m₁ :: rest } : Emitter).methods = m₁ :: rest := rfl
    have hfl₁ := flushed_of_same hm hm₁ rfl rfl
    obtain ⟨r, hr, rfl⟩ := MethodM.allocTemp_ok halloc
    have hreg : m.registers.next.toUInt32 = v := by
      rw [← (Registers.alloc_ok hr).1]
      exact UInt32.ofNat_toNat
    obtain ⟨_, e₂, h₂, h⟩ := EStateM.bind_eq_ok.mp h
    rw [setLocal_eq] at h₂
    obtain ⟨_, h₂, -⟩ := EStateM.map_eq_ok h₂
    obtain ⟨P₁, m₂, hw₁, -, hh₁, hs₁⟩ := emit_at_scope hm₁ hf (Instruction.setLocalOf_scopeEffect v) h₂
    have hm₂ := hw₁.methods_of hm₁
    have hc₁ := (emit_climbs _ _ _ e₂ h₂).head hm₁ hm₂
    have hfl₂ : e₂.Flushed := hw₁.flushed (.inr (by simp))
    obtain ⟨c, e₀, hc, h⟩ := EStateM.bind_eq_ok.mp h
    rw [current_eq hm₂] at hc
    cases hc
    obtain ⟨_, e₃, h₃, h⟩ := EStateM.bind_eq_ok.mp h
    obtain ⟨n, h₃, -⟩ := EStateM.map_eq_ok h₃
    obtain ⟨_, e₄, h₄, h⟩ := EStateM.bind_eq_ok.mp h
    obtain ⟨_, e₅, h₅, h⟩ := EStateM.bind_eq_ok.mp h
    obtain ⟨_, e₆, h₆, h⟩ := EStateM.bind_eq_ok.mp h
    have hq : e₃.assembler.pool.Extends e₆.assembler.pool :=
      (((getLocal_interns _).ok h₄).assembler.trans
        (((kill_interns _).ok h₅).assembler.trans ((simple_interns _).ok h₆).assembler)).pool
    obtain ⟨P₂, m₃, hw₂, hh₂, -, -⟩ := unwind_wrote hm₂ (hc₁.fits hf) h₃ hq
    rw [takeWhile_all_none, takeEntering_of_length_le (by simp)] at hw₂ hh₂
    have hm₃ := hw₂.methods_of hm₂
    have hc₂ := trans_of MethodState.Climbs hc₁ ((unwind_climbs _ _ e₂ n e₃ h₃).head hm₂ hm₃)
    obtain rfl : P₂ = [] := hw₂.quiet hfl₂
    have hfl₃ : e₃.Flushed := hw₂.flushed (.inl hfl₂)
    rw [getLocal_eq] at h₄
    obtain ⟨m₄, hw₃, hm₄, hfl₄, hh₃, hup₃⟩ :=
      emit_flushed hm₃ (hc₂.fits hf) hfl₃ (Instruction.getLocalOf_scopeEffect v) h₄
    have hc₃ := trans_of MethodState.Climbs hc₂ hup₃
    obtain ⟨m₅, hw₄, hm₅, hfl₅, hh₄, hup₄⟩ := emit_flushed hm₄ (hc₃.fits hf) hfl₄ rfl h₅
    have hc₄ := trans_of MethodState.Climbs hc₃ hup₄
    obtain ⟨m₆, hw₅, hm₆, -, hh₅, hup₅⟩ := emit_flushed hm₅ (hc₄.fits hf) hfl₅ rfl h₆
    have hc := trans_of MethodState.Climbs hc₄ hup₅
    obtain ⟨m', hact, rfl⟩ := onMethod_at hm₆ h
    obtain ⟨_, m₇, hfree, hact⟩ := EStateM.bind_eq_ok.mp hact
    obtain ⟨_, m₈, hrestore, hadj⟩ := EStateM.bind_eq_ok.mp hact
    obtain ⟨rfl, -⟩ := MethodM.freeTemp_ok hfree
    cases hrestore
    have hm' := MethodM.adjustStack_exact hadj
    have hw := hw₁.trans (hw₂.trans (hw₃.trans (hw₄.trans hw₅)))
    have hwalk : m₂.leave e₆.assembler.pool [] m₂.handlers.zipIdx.reverse =
        m.leave e₆.assembler.pool (P₁ ++ [Instruction.setLocalOf v]) (m.regionsLeft none) := by
      simp only [MethodState.leave, MethodState.regionsLeft_none, hw₁.code, Buffer.size_append, hs₁,
        hh₁, List.flatMap_nil, List.length_nil, Nat.add_zero]
    refine ⟨P₁, m', rfl, fun i hi => hw₁.positions i hi, fun hfe => hw₁.quiet (hfl₁.mpr hfe), ?_⟩
    have hret : m.returnedValue e₆.assembler.pool P₁ = { m with
        code := m₆.code
        handlers := m₆.handlers
        depth := { m.depth with stack := m.depth.stack - 1 } } := by
      simp only [MethodState.returnedValue, hpend, if_true, hreg, ← hwalk, hw.code, hh₅, hh₄, hh₃,
        hh₂, hh₁, List.append_assoc, List.cons_append, List.nil_append]
    rw [hm', hret]
    exact MethodState.raised_release hf hv hr hw.moves hc v.toNat

/-- **Calling at most `limit` pending finally bodies** writes the walk out of the open regions
that stops after the `limit`-th body entered, and returns how many it entered -/
theorem callFinallies_exact {limit n : Nat} (hm : e.methods = m :: rest) (hf : m.depth.Fits)
    (h : callFinallies limit e = .ok n e') :
    ∃ P m', e.Wrote m P (m.finallyCalls e'.assembler.pool P limit).code e' m' ∧
      m'.handlers = enterAll (m.finallyCalls e'.assembler.pool P limit).calls m.handlers ∧
      n = min limit (m.handlers.filter HandlerBlock.runsFinally).length := by
  obtain ⟨P, m', hw, hh, -, hn⟩ := unwind_wrote hm hf h (Pool.Extends.refl _)
  rw [takeWhile_all_none, ← MethodState.regionsLeft_none] at hw hh hn
  refine ⟨P, m', hw, hh, ?_⟩
  have hcount := congrArg List.length (MethodState.finallyCalls_entered e'.assembler.pool P limit m)
  simp only [List.length_map, List.length_take, MethodState.length_pending] at hcount
  rw [hn, ← hcount]
  rfl

/-- **Leaving a construct runs exactly the intervening finally bodies, then restores the
tracking.** With the regions nested inside the frames, `break` out of frame `index` (and
`continue` of a loop frame) writes, from the innermost open region opened inside the frame
outward, the pops down to the region's entry depth and, when its finally body has not started, a
call site into it; then the pops down to the frame's depth and a jump that the frame records among
its breaks (or continues). A return walks out of every open region the same way, when some
finally body is pending, before the return. Each of them ends with the method as it was but for
that code, the call sites and resumes recorded, the frame's pending jump, the operand depth one
lower after returning a value, and possibly higher maxima: the current depths, the scope records
and the temporaries out are those of the start. `callFinallies limit` enters at most `limit`
pending finally bodies, innermost first, and returns how many. -/
theorem leaving_runsIntervening :
    (∀ {e e' : Emitter} {m : MethodState} {rest : List MethodState} {index : Nat} {f : LoopFrame},
      e.methods = m :: rest → m.depth.Fits → m.RegionsNested → m.flow.loops[index]? = some f →
      breakLoop index e = .ok () e' →
      e.Leaves rest (fun pool P => m.exitFrame pool P index f.scopeDepth true) e') ∧
    (∀ {e e' : Emitter} {m : MethodState} {rest : List MethodState} {index : Nat} {f : LoopFrame},
      e.methods = m :: rest → m.depth.Fits → m.RegionsNested → m.flow.loops[index]? = some f →
      f.kind = .loop → continueLoop index e = .ok () e' →
      e.Leaves rest (fun pool P => m.exitFrame pool P index f.scopeDepth false) e') ∧
    (∀ {e e' : Emitter} {m : MethodState} {rest : List MethodState},
      e.methods = m :: rest → m.depth.Fits → m.registers.base ≤ m.registers.next →
      returnValue e = .ok () e' → e.Leaves rest (fun pool P => m.returnedValue pool P) e') ∧
    (∀ {e e' : Emitter} {m : MethodState} {rest : List MethodState},
      e.methods = m :: rest → m.depth.Fits →
      returnVoid e = .ok () e' → e.Leaves rest (fun pool P => m.returnedVoid pool P) e') ∧
    (∀ {e e' : Emitter} {m : MethodState} {rest : List MethodState} {limit n : Nat},
      e.methods = m :: rest → m.depth.Fits → callFinallies limit e = .ok n e' →
      ∃ P m', e.Wrote m P (m.finallyCalls e'.assembler.pool P limit).code e' m' ∧
        m'.handlers = enterAll (m.finallyCalls e'.assembler.pool P limit).calls m.handlers ∧
        (m.finallyCalls e'.assembler.pool P limit).calls.map Prod.fst =
          (((m.regionsLeft none).filter fun r => r.1.runsFinally).map Prod.snd).take limit ∧
        n = min limit (m.handlers.filter HandlerBlock.runsFinally).length) := by
  refine ⟨fun hm hf hn hl h => exitTo_exact hm hf hn hl ((breakLoop_eq hm hl).symm.trans h),
    fun hm hf hn hl hk h => exitTo_exact hm hf hn hl ((continueLoop_eq hm hl hk).symm.trans h),
    returnValue_exact, returnVoid_exact, ?_⟩
  intro e e' m rest limit n hm hf h
  obtain ⟨P, m', hw, hh, hn⟩ := callFinallies_exact hm hf h
  exact ⟨P, m', hw, hh, MethodState.finallyCalls_entered _ _ _ _, hn⟩

end Emitter

/-- a loop entered at operand depth 1 and scope depth 0 -/
def LoopFrame.sampleInLoop : LoopFrame :=
  { kind := .loop, entry := none, top := some 0, stackDepth := 1, scopeDepth := 0 }

/-- a method inside the sample loop, frame 0, whose loop body opened a region with a finally body
and pushed one scope inside it, with one operand on the stack; register 1 holds the region's
resume index -/
def MethodState.sampleInLoop : MethodState :=
  { (default : MethodState) with
    strict := true
    depth := ⟨1, 1, 1, 1⟩
    registers := ⟨1, 2, 2⟩
    scopes := [none]
    flow := { loops := [LoopFrame.sampleInLoop] }
    handlers := [{
      state := .protectedBody, tryStart := 0, tryEnd := 0, entry := ⟨⟨1, 1, 0, 0⟩, []⟩
      loopDepth := 1, hasFinally := true, selector := some 1 }] }

/-- the emitter with `MethodState.sampleInLoop` open -/
def Emitter.sampleInLoop : Emitter := { methods := [MethodState.sampleInLoop] }

/-- every exit from the sample method succeeds, under strict ordering, through a call site of the
region's finally body, and is described by `Emitter.leaving_runsIntervening` -/
theorem Emitter.leaving_runsIntervening_inLoop :
    MethodState.sampleInLoop.depth.Fits ∧ MethodState.sampleInLoop.RegionsNested ∧
    (∃ e', breakLoop 0 sampleInLoop = .ok () e' ∧
      sampleInLoop.Leaves [] (fun pool P => MethodState.sampleInLoop.exitFrame pool P 0 0 true) e') ∧
    (∃ e', continueLoop 0 sampleInLoop = .ok () e' ∧
      sampleInLoop.Leaves [] (fun pool P => MethodState.sampleInLoop.exitFrame pool P 0 0 false) e') ∧
    (∃ e', returnValue sampleInLoop = .ok () e' ∧
      sampleInLoop.Leaves [] (fun pool P => MethodState.sampleInLoop.returnedValue pool P) e') ∧
    (∃ e', returnVoid sampleInLoop = .ok () e' ∧
      sampleInLoop.Leaves [] (fun pool P => MethodState.sampleInLoop.returnedVoid pool P) e') ∧
    (∃ e', callFinallies 1 sampleInLoop = .ok 1 e' ∧
      ∃ P m', sampleInLoop.Wrote MethodState.sampleInLoop P
          (MethodState.sampleInLoop.finallyCalls e'.assembler.pool P 1).code e' m' ∧
        m'.handlers = enterAll (MethodState.sampleInLoop.finallyCalls e'.assembler.pool P 1).calls
          MethodState.sampleInLoop.handlers ∧
        (MethodState.sampleInLoop.finallyCalls e'.assembler.pool P 1).calls.map Prod.fst =
          (((MethodState.sampleInLoop.regionsLeft none).filter fun r => r.1.runsFinally).map
            Prod.snd).take 1 ∧
        1 = min 1 (MethodState.sampleInLoop.handlers.filter HandlerBlock.runsFinally).length) := by
  have hf : MethodState.sampleInLoop.depth.Fits := ⟨by decide, by decide⟩
  have hn : MethodState.sampleInLoop.RegionsNested := List.pairwise_singleton _ _
  have hl : MethodState.sampleInLoop.flow.loops[0]? = some LoopFrame.sampleInLoop := rfl
  -- each run is computed once by the kernel; the exits' theorems then read the end states
  obtain ⟨e₁, h₁⟩ := exists_ok_of_okValue (r := breakLoop 0 sampleInLoop) (x := ())
    (by decide +kernel)
  obtain ⟨e₂, h₂⟩ := exists_ok_of_okValue (r := continueLoop 0 sampleInLoop) (x := ())
    (by decide +kernel)
  obtain ⟨e₃, h₃⟩ := exists_ok_of_okValue (r := returnValue sampleInLoop) (x := ())
    (by decide +kernel)
  obtain ⟨e₄, h₄⟩ := exists_ok_of_okValue (r := returnVoid sampleInLoop) (x := ())
    (by decide +kernel)
  obtain ⟨e₅, h₅⟩ := exists_ok_of_okValue (r := callFinallies 1 sampleInLoop) (x := 1)
    (by decide +kernel)
  have w₁ := leaving_runsIntervening.1 rfl hf hn hl h₁
  have w₂ := leaving_runsIntervening.2.1 rfl hf hn hl rfl h₂
  have w₃ := leaving_runsIntervening.2.2.1 rfl hf (by decide) h₃
  have w₄ := leaving_runsIntervening.2.2.2.1 rfl hf h₄
  have w₅ := leaving_runsIntervening.2.2.2.2 rfl hf h₅
  exact ⟨hf, hn, ⟨e₁, h₁, w₁⟩, ⟨e₂, h₂, w₂⟩, ⟨e₃, h₃, w₃⟩, ⟨e₄, h₄, w₄⟩, ⟨e₅, h₅, w₅⟩⟩

end AbcKit.Emit
