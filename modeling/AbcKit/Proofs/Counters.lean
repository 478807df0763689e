import AbcKit.Proofs.Effects
import AbcKit.Proofs.Frame
/-!
Exact steps on the open method: what writing an instruction does to its code, depth counters,
scope records and registers, and what the pending position records add in front of it.

`MethodM.emit_exact` inverts a successful write completely. On the emitter, `Emitter.Wrote`
records a run of steps on the innermost method: the position records `P` pending at its start,
then the code `W`. Position records are written at most once in a run, before anything else,
since writing them clears the mark that asks for them (`Emitter.Flushed`). Runs compose by
`Wrote.trans`, and the steps that leaving a construct takes (scope pops, the pushes, jumps and
labels of an entry into a finally body, the bookkeeping on regions) each get an exact lemma here.
-/
namespace AbcKit

/-- a position record: the source file or line of the code that follows -/
def Instruction.IsPosition (i : Instruction) : Prop := ∃ n, i = .debugFile n ∨ i = .debugLine n

end AbcKit

namespace AbcKit.Emit

/-- no position record is pending: writing an instruction writes it alone -/
def Emitter.Flushed (e : Emitter) : Prop :=
  e.config.debug = false ∨ e.debug.lineDirty = false ∨ e.methods = [] ∨
    (e.debug.file = none ∧ e.debug.line = 0)

/-- a method with its code, regions, depth counters, scope records and highest register cleared:
what a run that writes code and moves the counters leaves as it was -/
def MethodState.fixed (m : MethodState) : MethodState :=
  { m with code := {}, handlers := [], depth := {}, scopes := [],
           registers := { m.registers with max := 0 } }

/-- `m'` is `m` with at most its code, regions, depth counters, scope records and highest
register moved -/
def MethodState.Moves (m m' : MethodState) : Prop := m'.fixed = m.fixed

/-- both depths are counts that fit in 32 bits, as the emitter keeps them -/
structure Depth.Fits (d : Depth) : Prop where
  stack : d.stack < 2 ^ 32
  scope : d.scope < 2 ^ 32

namespace MethodState

instance : IsPreorder MethodState Moves where
  refl _ := rfl
  trans _ _ _ h h' := h'.trans h

theorem Moves.eq {m m' : MethodState} (h : m.Moves m') :
    m' = { m with code := m'.code, handlers := m'.handlers, depth := m'.depth, scopes := m'.scopes,
                  registers := { m.registers with max := m'.registers.max } } := by
  obtain ⟨_, _, _, _, _, _, _, _, _, ⟨_, _, _⟩, _, _, _, _, _, _⟩ := m
  obtain ⟨_, _, _, _, _, _, _, _, _, ⟨_, _, _⟩, _, _, _, _, _, _⟩ := m'
  simp only [Moves, fixed, mk.injEq, Registers.mk.injEq] at h
  simp only [h]

theorem Moves.flow {m m' : MethodState} (h : m.Moves m') : m'.flow = m.flow := by
  rw [h.eq]

theorem Moves.registers {m m' : MethodState} (h : m.Moves m') :
    m'.registers.base = m.registers.base ∧ m'.registers.next = m.registers.next := by
  rw [h.eq]
  exact ⟨rfl, rfl⟩

end MethodState

namespace Depth

theorem offset_zero {v : Nat} (h : v < 2 ^ 32) : offset v 0 = (v, true) := by
  unfold offset
  dsimp only
  rw [if_neg (by omega)]
  congr 1
  omega

theorem offset_neg_one {v : Nat} (h : v ≤ 2 ^ 32) : (offset v (-1)).1 = v - 1 := by
  unfold offset
  dsimp only
  split <;> omega

end Depth

/-! ## One write on the method -/

namespace MethodM

theorem violation_ok {msg : String} {m m' : MethodState} {x : Unit}
    (h : violation msg m = .ok x m') : m' = m := by
  unfold violation at h
  obtain ⟨_, _, ⟨⟩, h⟩ := EStateM.bind_eq_ok.mp h
  split at h
  · cases h
  · cases h
    rfl

/-- the scope records after an instruction with scope effect `delta` -/
def scopesAfter (delta : Int) (scopes : List (Option SavedScope)) : List (Option SavedScope) :=
  if delta > 0 then scopes ++ [none] else if delta < 0 then scopes.dropLast else scopes

/-- the registers after an instruction naming registers up to `r`: only the highest moves -/
def registersAfter (r : Option UInt32) (regs : Registers) : Registers :=
  match r with
  | some r => regs.touch r.toNat
  | none => regs

/-- a successful write: the bytes at the end of the code, then the depth counters moved by the
instruction's effects, a scope record pushed or popped, the highest register raised -/
theorem emit_exact {pool : Pool} {i : Instruction} {m m' : MethodState} {site : Nat}
    (h : emit pool i m = .ok site m') :
    site = m.code.size ∧ i.Fits ∧ ∃ δ, i.stackEffect pool.runtimeArity = .ok δ ∧
      m' = { m with
        code := m.code.append i.bytes
        depth := (m.depth.apply δ i.scopeEffect).1
        scopes := scopesAfter i.scopeEffect m.scopes
        registers := registersAfter i.maxRegister m.registers } := by
  unfold emit at h
  obtain ⟨_, _, ⟨⟩, h⟩ := EStateM.bind_eq_ok.mp h
  dsimp only at h
  cases hw : i.encode m.code with
  | error err b =>
    simp only [Encoder.exec, hw] at h
    obtain ⟨_, _, ⟨⟩, h⟩ := EStateM.bind_eq_ok.mp h
    cases h
  | ok _ b =>
    simp only [Encoder.exec, hw] at h
    obtain ⟨_, m₁, ⟨⟩, h⟩ := EStateM.bind_eq_ok.mp h
    have hb : b = m.code.append i.bytes := Instruction.encode_eq_ok hw
    cases hδ : Instruction.stackEffect pool.runtimeArity i with
    | error o =>
      simp only [hδ] at h
      cases h
    | ok δ =>
      simp only [hδ] at h
      obtain ⟨_, _, ⟨⟩, h⟩ := EStateM.bind_eq_ok.mp h
      obtain ⟨_, _, ⟨⟩, h⟩ := EStateM.bind_eq_ok.mp h
      obtain ⟨_, m₂, ⟨⟩, h⟩ := EStateM.bind_eq_ok.mp h
      -- an underflow is only reported; when the report does not abort, the write goes on
      split at h
      on_goal 2 =>
        obtain ⟨_, m₃, hv, h⟩ := EStateM.bind_eq_ok.mp h
        cases violation_ok hv
      all_goals
        obtain ⟨_, m₃, ⟨⟩, h⟩ := EStateM.bind_eq_ok.mp h
        refine ⟨?_, Instruction.fits_of_encode hw, δ, rfl, ?_⟩ <;>
        · cases hr : i.maxRegister with
          | none =>
            simp only [hr] at h
            cases h
            simp [hb, scopesAfter, registersAfter]
          | some r =>
            simp only [hr] at h
            obtain ⟨_, m₄, ⟨⟩, h⟩ := EStateM.bind_eq_ok.mp h
            cases h
            simp [hb, scopesAfter, registersAfter]

theorem emit_moves {pool : Pool} {i : Instruction} {m m' : MethodState} {site : Nat}
    (h : emit pool i m = .ok site m') : m.Moves m' := by
  obtain ⟨-, -, δ, -, rfl⟩ := emit_exact h
  cases hr : i.maxRegister <;> rfl

theorem adjustStack_exact {delta : Int} {m m' : MethodState} {x : Unit}
    (h : adjustStack delta m = .ok x m') : m' = { m with depth := (m.depth.apply delta 0).1 } := by
  unfold adjustStack at h
  obtain ⟨_, _, ⟨⟩, h⟩ := EStateM.bind_eq_ok.mp h
  obtain ⟨_, m₁, ⟨⟩, h⟩ := EStateM.bind_eq_ok.mp h
  split at h
  · cases h
    rfl
  · exact violation_ok h

end MethodM

theorem Depth.offset_lt (v : Nat) (delta : Int) : (Depth.offset v delta).1 < 2 ^ 32 := by
  unfold Depth.offset
  dsimp only
  split
  · exact Nat.two_pow_pos 32
  · exact Nat.mod_lt _ (Nat.two_pow_pos 32)

/-! ## Runs on the innermost method -/

theorem OnlyInterns.ok {α : Type} {act : EmitM α} (h : OnlyInterns act) {e e' : Emitter} {a : α}
    (he : act e = .ok a e') : e.Interns e' := (h.triple.ok_of trivial he).1

/-- from `e` to `e'` the innermost method went from `m` to `m'`, writing the position records `P`
pending in `e`, then the code `W`, and moving at most its regions, depth counters, scope records
and highest register besides; the other methods and the options are as they were, the module
tables only interned, and once anything is written no record is pending -/
structure Emitter.Wrote (e : Emitter) (m : MethodState) (P W : List Instruction) (e' : Emitter)
    (m' : MethodState) : Prop where
  config : e'.config = e.config
  interns : e.assembler.Interns e'.assembler
  methods : e'.methods = m' :: e.methods.tail
  moves : m.Moves m'
  positions : ∀ i ∈ P, i.IsPosition
  quiet : e.Flushed → P = []
  flushed : e.Flushed ∨ P ++ W ≠ [] → e'.Flushed
  code : m'.code = m.code.append ((P ++ W).flatMap Instruction.bytes)

namespace Emitter

variable {e e' e₁ e₂ : Emitter} {m m' m₁ m₂ : MethodState} {rest : List MethodState}
  {P P' W W' : List Instruction}

/-- with a method open, no record is pending exactly when debug records are off, the line is
unmarked, or no position was ever set -/
theorem flushed_iff (hm : e.methods = m :: rest) :
    e.Flushed ↔ e.config.debug = false ∨ e.debug.lineDirty = false ∨
      (e.debug.file = none ∧ e.debug.line = 0) := by
  simp [Flushed, hm]

theorem flushed_of_same (hm : e.methods = m :: rest) (hm' : e'.methods = m' :: rest)
    (hc : e'.config = e.config) (hd : e'.debug = e.debug) : e'.Flushed ↔ e.Flushed := by
  rw [flushed_iff hm, flushed_iff hm', hc, hd]

theorem Wrote.rfl (hm : e.methods = m :: rest) : e.Wrote m [] [] e m where
  config := Eq.refl _
  interns := .refl _
  methods := by rw [hm]; exact Eq.refl _
  moves := refl_of MethodState.Moves m
  positions := by simp
  quiet _ := Eq.refl _
  flushed h := by simpa using h
  code := by simp

theorem Wrote.trans (h : e.Wrote m P W e₁ m₁) (h' : e₁.Wrote m₁ P' W' e₂ m₂) :
    e.Wrote m (P ++ P') (W ++ W') e₂ m₂ := by
  have hcode : P ++ W ++ (P' ++ W') = (P ++ P') ++ (W ++ W') := by
    by_cases hW : W = []
    · simp [hW]
    · have hP' : P' = [] := h'.quiet (h.flushed (.inr (by simp [hW])))
      simp [hP']
  refine ⟨h'.config.trans h.config, h.interns.trans h'.interns, ?_,
    trans_of MethodState.Moves h.moves h'.moves, ?_, ?_, ?_, ?_⟩
  · rw [h'.methods, h.methods]
    rfl
  · intro i hi
    rcases List.mem_append.mp hi with hi | hi
    · exact h.positions i hi
    · exact h'.positions i hi
  · intro hf
    rw [h.quiet hf, h'.quiet (h.flushed (.inl hf))]
    rfl
  · intro hc
    by_cases h₁ : e.Flushed ∨ P ++ W ≠ []
    · exact h'.flushed (.inl (h.flushed h₁))
    · -- nothing was pending-free or written before, so the second run wrote something
      simp only [not_or, not_not, List.append_eq_nil_iff] at h₁
      obtain ⟨hnf, rfl, rfl⟩ := h₁
      refine h'.flushed (.inr ?_)
      simpa [hnf] using hc
  · rw [h'.code, h.code, Buffer.append_append, ← List.flatMap_append, hcode]

theorem flushPosition_of_flushed (h : e.Flushed) : flushPosition e = .ok () e := by
  unfold flushPosition
  rcases h with h | h | h | ⟨h, h'⟩ <;>
  simp [bind, EStateM.bind, get, getThe, MonadStateOf.get, EStateM.get, pure, EStateM.pure, *]

theorem emitRaw_record {i : Instruction} (hi : i.IsPosition) (hm : e.methods = m :: rest)
    (hf : m.depth.Fits) {site : Nat} (h : emitRaw i e = .ok site e') :
    ∃ m', e' = { e with methods := m' :: rest } ∧ m.Moves m' ∧ m'.code = m.code.append i.bytes ∧
      m'.handlers = m.handlers ∧ m'.depth.stack = m.depth.stack ∧ m'.depth.scope = m.depth.scope ∧
      m'.scopes = m.scopes := by
  obtain ⟨m₁, rest₁, m', hm₁, hemit, rfl⟩ := onMethod_ok h
  rw [hm] at hm₁
  cases hm₁
  refine ⟨m', rfl, MethodM.emit_moves hemit, ?_⟩
  obtain ⟨-, -, δ, hδ, rfl⟩ := MethodM.emit_exact hemit
  obtain ⟨n, rfl | rfl⟩ := hi <;>
  · cases hδ
    simp [Depth.apply, Depth.setStack, Depth.setScope, Depth.offset_zero hf.stack,
      Depth.offset_zero hf.scope, MethodM.scopesAfter, Instruction.scopeEffect]

/-- a run of position records moves no counter -/
structure Records (m : MethodState) (P : List Instruction) (m' : MethodState) : Prop where
  positions : ∀ i ∈ P, i.IsPosition
  moves : m.Moves m'
  code : m'.code = m.code.append (P.flatMap Instruction.bytes)
  handlers : m'.handlers = m.handlers
  stack : m'.depth.stack = m.depth.stack
  scope : m'.depth.scope = m.depth.scope
  scopes : m'.scopes = m.scopes

theorem Records.snoc {P : List Instruction} {i : Instruction} (h : Records m P m₁)
    (hi : i.IsPosition) (hm : e.methods = m₁ :: rest) (hf : m.depth.Fits) {site : Nat}
    (he : emitRaw i e = .ok site e') :
    ∃ m', e' = { e with methods := m' :: rest } ∧ Records m (P ++ [i]) m' := by
  have hf₁ : m₁.depth.Fits := ⟨h.stack ▸ hf.stack, h.scope ▸ hf.scope⟩
  obtain ⟨m', rfl, hmv, hc, hh, hs, hsc, hss⟩ := emitRaw_record hi hm hf₁ he
  refine ⟨m', rfl, ⟨?_, trans_of MethodState.Moves h.moves hmv, ?_, hh.trans h.handlers,
    hs.trans h.stack, hsc.trans h.scope, hss.trans h.scopes⟩⟩
  · intro j hj
    rcases List.mem_append.mp hj with hj | hj
    · exact h.positions j hj
    · rw [List.mem_singleton.mp hj]
      exact hi
  · rw [hc, h.code, Buffer.append_append, List.flatMap_append, List.flatMap_singleton]

/-- the line record ends a flush and clears the marks -/
theorem lineRecord_ok {P : List Instruction} (h : Records m P m₁) (hm : e₁.methods = m₁ :: rest)
    (hf : m.depth.Fits) {u : Unit}
    (he : (do
      let d ← get
      discard (emitRaw (.debugLine d.debug.line))
      modify fun e : Emitter => { e with
        debug := { e.debug with fileDirty := false, lineDirty := false, functionDirty := false } } :
        EmitM Unit) e₁ = .ok u e') :
    ∃ m', e'.methods = m' :: rest ∧ e'.config = e₁.config ∧ e'.debug.lineDirty = false ∧
      Records m (P ++ [.debugLine e₁.debug.line]) m' := by
  obtain ⟨_, _, ⟨⟩, he⟩ := EStateM.bind_eq_ok.mp he
  obtain ⟨_, e₂, h₂, he⟩ := EStateM.bind_eq_ok.mp he
  obtain ⟨_, _, h₂, ⟨⟩⟩ := EStateM.bind_eq_ok.mp h₂
  obtain ⟨m', rfl, hr⟩ := h.snoc ⟨_, .inr rfl⟩ hm hf h₂
  cases he
  exact ⟨m', rfl, rfl, rfl, hr⟩

end Emitter

end AbcKit.Emit
