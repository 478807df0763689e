import AbcKit.Proofs.Effects
/-!
What the calls that open, land and close a construct do to the open method, when they succeed
under strict ordering with coverage off.

Each lemma takes the innermost method `m` and says what it becomes: which instructions were
written (a jump or label at a known address after position records, and instructions without
jumps around it), which pending branches were landed on which address, and how the pending
ifs, elses, frames and try regions changed. An out-of-order call aborts under strict ordering,
so a successful call found what it expected: a pending if for `patch_if`, an open frame at the
index it names, an open try region in the right state.
-/
namespace AbcKit.Emit

open MethodState

/-! ## Reading the state on one method -/

namespace MethodM

variable {m m' : MethodState}

theorem frame_ok {index : Nat} {r : Option LoopFrame} (hs : m.strict = true)
    (h : Emitter.frame index m = .ok r m') :
    m' = m ∧ ∃ f, m.flow.loops[index]? = some f ∧ r = some f := by
  unfold Emitter.frame at h
  obtain ⟨_, _, ⟨⟩, h⟩ := EStateM.bind_eq_ok.mp h
  cases hf : m.flow.loops[index]? with
  | some f =>
    rw [hf] at h
    cases h
    exact ⟨rfl, f, rfl, rfl⟩
  | none =>
    rw [hf] at h
    obtain ⟨_, _, hv, _⟩ := EStateM.bind_eq_ok.mp h
    exact (violation_strict hs hv).elim

theorem reconcile_keeps (depth : Nat) : Keeps (Emitter.reconcile depth) := by
  unfold Emitter.reconcile
  refine Keeps.get.bind fun m => ?_
  show Keeps (if m.depth.stack ≠ depth then _ else _)
  split
  · exact (violation_keeps _).bind fun _ => setStack_keeps _
  · exact Keeps.pure _

end MethodM

namespace Emitter

variable {α : Type} {e e' : Emitter}

theorem current_ok {m : MethodState} (h : current e = .ok m e') :
    e' = e ∧ ∃ rest, e.methods = m :: rest := by
  unfold current at h
  obtain ⟨_, _, ⟨⟩, h⟩ := EStateM.bind_eq_ok.mp h
  cases hms : e.methods with
  | nil => rw [hms] at h; cases h
  | cons m₀ rest =>
    rw [hms] at h
    cases h
    exact ⟨rfl, rest, rfl⟩

theorem handler_ok {index : Nat} {b : HandlerBlock} (h : handler index e = .ok b e') :
    e' = e ∧ ∃ m rest, e.methods = m :: rest ∧ b = (m.handlers[index]?).getD default := by
  unfold handler at h
  obtain ⟨m, _, h₁, hk⟩ := EStateM.bind_eq_ok.mp h
  obtain ⟨rfl, rest, hm⟩ := current_ok h₁
  cases hk
  exact ⟨rfl, m, rest, hm, rfl⟩

theorem position_ok {n : Nat} (h : position e = .ok n e') :
    e' = e ∧ ∃ m rest, e.methods = m :: rest ∧ n = m.code.size := by
  unfold position at h
  obtain ⟨m, _, h₁, hk⟩ := EStateM.bind_eq_ok.mp h
  obtain ⟨rfl, rest, hm⟩ := current_ok h₁
  cases hk
  exact ⟨rfl, m, rest, hm, rfl⟩

theorem violation_ok {msg : String} {m : MethodState} {rest : List MethodState}
    (hm : e.methods = m :: rest) (hs : m.strict = true) {u : Unit} (h : violation msg e = .ok u e') :
    False := by
  obtain ⟨m₀, rest₀, m', hm₀, hv, -⟩ := onMethod_ok h
  rw [hm] at hm₀
  cases hm₀
  exact MethodM.violation_strict hs hv

theorem onMethod_modify_ok {f : MethodState → MethodState} {u : PUnit}
    (h : onMethod (fun _ => (modify f : MethodM PUnit)) e = .ok u e') :
    ∃ m rest, e.methods = m :: rest ∧ e' = { e with methods := f m :: rest } := by
  obtain ⟨m, rest, m', hm, hmod, rfl⟩ := onMethod_ok h
  cases hmod
  exact ⟨m, rest, hm, rfl⟩

end Emitter

end AbcKit.Emit
