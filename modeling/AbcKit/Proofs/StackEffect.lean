import AbcKit.Proofs.Code
import AbcKit.Emit.Method
/-!
Stack effects cannot overflow on instructions that can be written or read.

An instruction's stack effect is computed in signed 32-bit arithmetic from its opcode, its
argument count read as a signed word, and the number of name parts supplied at run time, which
is at most two for any pool (`Pool.runtimeArity_le`). When every argument count is a 30-bit
field (`Instruction.CountsFit`), every step of that arithmetic stays in the word and the effect
lies between `3 - 2 ^ 31` and 1 (`Instruction.stackEffect_range`). Writing an instruction
succeeds only when its counts fit, and reading one only returns counts that fit, so writing an
instruction into a method never aborts on its effect (`Emit.MethodM.emit_abort`). The bound on
the counts is the exact one: a construction with `2 ^ 30` named fields overflows.

Main statement: `Instruction.stackEffect_no_overflow`.
-/
namespace AbcKit

namespace Opcode

theorem simpleDelta_range (op : Opcode) : -1 ≤ op.simpleDelta ∧ op.simpleDelta ≤ 1 := by
  unfold simpleDelta
  split <;> decide

theorem branchDelta_range (op : Opcode) : -2 ≤ op.branchDelta ∧ op.branchDelta ≤ 0 := by
  unfold branchDelta
  split <;> decide

theorem registerDelta_range (op : Opcode) : -1 ≤ op.registerDelta ∧ op.registerDelta ≤ 1 := by
  unfold registerDelta
  split <;> decide

theorem nameBase_range (op : Opcode) : -2 ≤ op.nameBase ∧ op.nameBase ≤ 1 := by
  unfold nameBase
  split <;> decide

theorem slotDelta_range (op : Opcode) : -2 ≤ op.slotDelta ∧ op.slotDelta ≤ 1 := by
  unfold slotDelta
  split <;> decide

end Opcode

namespace Instruction

/-- every argument count of the instruction is a 30-bit field -/
def CountsFit : Instruction → Prop
  | .callName _ _ argc | .args _ argc | .callMethod _ argc | .callStatic _ argc =>
    argc.toNat ≤ VarInt.maxU30
  | _ => True

theorem signedOfU32_of_fits {argc : UInt32} (h : argc.toNat ≤ VarInt.maxU30) :
    signedOfU32 argc = argc.toNat := by
  unfold signedOfU32 VarInt.maxU30 at *
  rw [if_pos (by omega)]

theorem signedOfU32_range {argc : UInt32} (h : argc.toNat ≤ VarInt.maxU30) :
    0 ≤ signedOfU32 argc ∧ signedOfU32 argc ≤ VarInt.maxU30 := by
  rw [signedOfU32_of_fits h]
  exact ⟨by omega, by exact_mod_cast h⟩

theorem checkI32_bind {β : Type} {o : Overflow} {x : Int} (h : InI32 x)
    (f : Int → Except Overflow β) : (checkI32 o x >>= f) = f x := by
  simp only [checkI32, if_pos h]
  rfl

theorem checkI32_of_in {o : Overflow} {x : Int} (h : InI32 x) : checkI32 o x = .ok x := by
  simp [checkI32, h]

/-- the effect of a call by name stays in range for a 30-bit count and at most two run-time name parts -/
theorem callNameEffect_range (discards : Bool) {argc runtime : Int} (ha : 0 ≤ argc)
    (ha' : argc ≤ VarInt.maxU30) (hr : 0 ≤ runtime) (hr' : runtime ≤ 2) :
    ∃ d, callNameEffect discards argc runtime = .ok d ∧ 3 - 2 ^ 31 ≤ d ∧ d ≤ 1 := by
  unfold VarInt.maxU30 at ha'
  cases discards with
  | true =>
    refine ⟨-(argc + 1) - runtime, ?_, by omega, by omega⟩
    simp only [callNameEffect, if_true, checkI32_bind (show InI32 (argc + 1) by unfold InI32; omega),
      checkI32_bind (show InI32 (-(argc + 1)) by unfold InI32; omega),
      checkI32_of_in (show InI32 (-(argc + 1) - runtime) by unfold InI32; omega)]
  | false =>
    refine ⟨-argc - runtime, ?_, by omega, by omega⟩
    simp only [callNameEffect, Bool.false_eq_true, if_false, pure_bind,
      checkI32_bind (show InI32 (-argc) by unfold InI32; omega),
      checkI32_of_in (show InI32 (-argc - runtime) by unfold InI32; omega)]

/-- the effect of a call or construction stays in range for a 30-bit count; a construction with
named fields pops two values per field, which needs the whole range below -/
theorem argsEffect_range (op : Opcode) {argc : Int} (ha : 0 ≤ argc) (ha' : argc ≤ VarInt.maxU30) :
    ∃ d, argsEffect op argc = .ok d ∧ 3 - 2 ^ 31 ≤ d ∧ d ≤ 1 := by
  unfold VarInt.maxU30 at ha'
  -- a call and a construction of the base class pop the receiver too
  have hcall : ∃ d, (do let popped ← checkI32 .add (argc + 1); checkI32 .negate (-popped)) =
      (Except.ok d : Except Overflow Int) ∧ 3 - 2 ^ 31 ≤ d ∧ d ≤ 1 := by
    refine ⟨-(argc + 1), ?_, by omega, by omega⟩
    simp only [checkI32_bind (show InI32 (argc + 1) by unfold InI32; omega),
      checkI32_of_in (show InI32 (-(argc + 1)) by unfold InI32; omega)]
  unfold argsEffect
  split
  · exact hcall
  · exact hcall
  · refine ⟨1 - 2 * argc, ?_, by omega, by omega⟩
    simp only [checkI32_bind (show InI32 (2 * argc) by unfold InI32; omega),
      checkI32_of_in (show InI32 (1 - 2 * argc) by unfold InI32; omega)]
  · exact ⟨1 - argc, checkI32_of_in (by unfold InI32; omega), by omega, by omega⟩
  · exact ⟨-argc, checkI32_of_in (by unfold InI32; omega), by omega, by omega⟩

/-- For an instruction whose argument counts are 30-bit fields, and names with at most two
run-time parts, the stack effect is computed without leaving the signed 32-bit word and lies
between `3 - 2 ^ 31` and 1. -/
theorem stackEffect_range (arity : UInt32 → Nat) (harity : ∀ n, arity n ≤ 2) (i : Instruction)
    (hi : i.CountsFit) : ∃ d, i.stackEffect arity = .ok d ∧ 3 - 2 ^ 31 ≤ d ∧ d ≤ 1 := by
  cases i with
  | simple op =>
    have := op.1.simpleDelta_range
    exact ⟨_, rfl, by omega, by omega⟩
  | branch op d =>
    have := op.1.branchDelta_range
    exact ⟨_, rfl, by omega, by omega⟩
  | register op reg =>
    have := op.1.registerDelta_range
    exact ⟨_, rfl, by omega, by omega⟩
  | name op n =>
    have := op.1.nameBase_range
    have := harity n
    exact ⟨_, rfl, by omega, by omega⟩
  | slot op n =>
    have := op.1.slotDelta_range
    exact ⟨_, rfl, by omega, by omega⟩
  | callName op n argc =>
    obtain ⟨h0, h1⟩ := signedOfU32_range hi
    exact callNameEffect_range _ h0 h1 (by omega) (by exact_mod_cast harity n)
  | args op argc =>
    obtain ⟨h0, h1⟩ := signedOfU32_range hi
    exact argsEffect_range _ h0 h1
  | callMethod disp argc | callStatic method argc =>
    obtain ⟨h0, h1⟩ := signedOfU32_range hi
    unfold VarInt.maxU30 at h1
    exact ⟨_, checkI32_of_in (by unfold InI32; omega), by omega, by omega⟩
  | _ => exact ⟨_, rfl, by decide, by decide⟩

theorem u30_le {c c' : Cursor} {v : UInt32} (h : Decoder.u30 c = .ok v c') :
    v.toNat ≤ VarInt.maxU30 := by
  unfold Decoder.u30 at h
  obtain ⟨_, _, -, h⟩ := EStateM.bind_eq_ok.mp h
  obtain ⟨w, _, -, h⟩ := EStateM.bind_eq_ok.mp h
  split at h
  · cases h
    assumption
  · cases h

theorem decodeOther_countsFit {op : Opcode} {b : UInt8} {c c' : Cursor} {i : Instruction}
    (h : decodeOther op b c = .ok i c') : i.CountsFit := by
  unfold decodeOther at h
  split at h
  all_goals
    repeat' first
      | obtain ⟨_, _, _, h⟩ := EStateM.bind_eq_ok.mp h
      | obtain ⟨_, _, rfl⟩ := EStateM.map_eq_ok h
    try cases h
  -- only the calls by dispatch id and by method index carry a count, read as a 30-bit field
  all_goals first | trivial | exact u30_le ‹_›

theorem decode_countsFit {c c' : Cursor} {i : Instruction} (h : Instruction.decode c = .ok i c') :
    i.CountsFit := by
  unfold Instruction.decode at h
  obtain ⟨b, c₁, -, h⟩ := EStateM.bind_eq_ok.mp h
  cases hop : Opcode.ofByte? b with
  | none =>
    simp only [hop] at h
    cases h
  | some op =>
    simp only [hop] at h
    split_ifs at h with h1 h2 h3 h4 h5 h6 h7
    · cases h
      trivial
    · obtain ⟨_, _, -, h⟩ := EStateM.bind_eq_ok.mp h
      cases h
      trivial
    · obtain ⟨_, -, rfl⟩ := EStateM.map_eq_ok h
      trivial
    · obtain ⟨_, -, rfl⟩ := EStateM.map_eq_ok h
      trivial
    · obtain ⟨_, _, -, h⟩ := EStateM.bind_eq_ok.mp h
      obtain ⟨argc, _, hargc, h⟩ := EStateM.bind_eq_ok.mp h
      cases h
      exact u30_le hargc
    · obtain ⟨argc, hargc, rfl⟩ := EStateM.map_eq_ok h
      exact u30_le hargc
    · obtain ⟨_, -, rfl⟩ := EStateM.map_eq_ok h
      trivial
    · exact decodeOther_countsFit h

theorem countsFit_of_fits {i : Instruction} (h : i.Fits) : i.CountsFit := by
  cases i <;> simp_all [Fits, CountsFit, VarInt.Fits]

theorem stackEffect_newObject_overflows (arity : UInt32 → Nat) :
    (args ⟨.newObject, rfl⟩ 1073741824).stackEffect arity = .error .multiply := by
  rfl

end Instruction

theorem Pool.runtimeArity_le (p : Pool) (n : UInt32) : p.runtimeArity n ≤ 2 := by
  unfold Pool.runtimeArity
  split
  · next e _ => cases e <;> simp [NameEntry.runtimeArity]
  · omega
namespace Emit.MethodM

/-- Writing an instruction aborts only to report a stack underflow under strict ordering: the
stack effect is computed only after the instruction was encoded, and an encoded instruction's
effect never leaves the signed word. -/
theorem emit_abort {pool : Pool} {i : Instruction} {m m' : MethodState} {msg : String}
    (h : emit pool i m = .error (.abort msg) m') :
    m.strict = true ∧ msg = "stack underflow at " ++ toString m.code.size ++ " (" ++ i.opcode.mnemonic ++ ")" := by
  cases hw : i.encode m.code with
  | error err b =>
    simp [emit, hw, Encoder.exec, bind, EStateM.bind, get, getThe, MonadStateOf.get, EStateM.get,
      set, EStateM.set, throw, throwThe, MonadExceptOf.throw, EStateM.throw] at h
  | ok _ b =>
    obtain ⟨d, hd, -⟩ := Instruction.stackEffect_range pool.runtimeArity (Pool.runtimeArity_le pool) i
      (Instruction.countsFit_of_fits (Instruction.fits_of_encode hw))
    simp [emit, hw, hd, Encoder.exec, bind, EStateM.bind, get, getThe, MonadStateOf.get, EStateM.get,
      set, EStateM.set, violation, modify, modifyGet, MonadStateOf.modifyGet, EStateM.modifyGet, pure,
      EStateM.pure] at h
    -- past the effect, the only failure left is the underflow report under strict ordering
    split at h
    · cases hr : i.maxRegister <;> simp [hr, EStateM.bind, EStateM.modifyGet, EStateM.pure] at h
    · cases hs : m.strict <;> cases hr : i.maxRegister <;>
        simp [hs, hr, EStateM.bind, EStateM.modifyGet, EStateM.pure, EStateM.get, throw, throwThe,
          MonadExceptOf.throw, EStateM.throw] at h <;>
        exact ⟨rfl, h.1.symm⟩

end Emit.MethodM

namespace Instruction

/-- **Stack effects cannot overflow on encodable instructions.** For every pool and every
instruction whose argument counts are 30-bit fields, the stack effect is computed without
leaving the signed 32-bit word and lies between `3 - 2 ^ 31` and 1, the lower end reached by a
construction with `2 ^ 30 - 1` named fields. Every instruction that writing accepts, and every
instruction that reading returns, has such counts. So writing an instruction into a method
aborts only to report a stack underflow under strict ordering, never on its effect. The bound
on the counts is exact: a construction with `2 ^ 30` named fields overflows. -/
theorem stackEffect_no_overflow :
    (∀ (p : Pool) (i : Instruction), i.CountsFit →
      ∃ d, i.stackEffect p.runtimeArity = .ok d ∧ 3 - 2 ^ 31 ≤ d ∧ d ≤ 1) ∧
    (∀ p : Pool, (args ⟨.newObject, rfl⟩ 1073741823).stackEffect p.runtimeArity = .ok (3 - 2 ^ 31)) ∧
    (∀ (i : Instruction) (b b' : Buffer), i.encode b = .ok () b' → i.CountsFit) ∧
    (∀ (i : Instruction) (c c' : Cursor), Instruction.decode c = .ok i c' → i.CountsFit) ∧
    (∀ (pool : Pool) (i : Instruction) (m m' : Emit.MethodState) (msg : String),
      Emit.MethodM.emit pool i m = .error (.abort msg) m' →
        m.strict = true ∧
          msg = "stack underflow at " ++ toString m.code.size ++ " (" ++ i.opcode.mnemonic ++ ")") ∧
    (∀ p : Pool, (args ⟨.newObject, rfl⟩ 1073741824).stackEffect p.runtimeArity = .error .multiply) :=
  ⟨fun p i hi => stackEffect_range p.runtimeArity (Pool.runtimeArity_le p) i hi, fun _ => rfl,
    fun _ _ _ h => countsFit_of_fits (fits_of_encode h), fun _ _ _ h => decode_countsFit h,
    fun _ _ _ _ _ h => Emit.MethodM.emit_abort h, fun _ => stackEffect_newObject_overflows _⟩

/-- a call by dispatch id with five arguments: its counts fit, and its effect is -5 -/
theorem stackEffect_no_overflow_callMethod :
    (callMethod 0 5).CountsFit ∧
      ∃ d, (callMethod 0 5).stackEffect ({} : Pool).runtimeArity = .ok d ∧ 3 - 2 ^ 31 ≤ d ∧ d ≤ 1 := by
  have hfit : (callMethod 0 5).CountsFit := show (5 : UInt32).toNat ≤ VarInt.maxU30 by decide
  exact ⟨hfit, stackEffect_no_overflow.1 {} (callMethod 0 5) hfit⟩

end Instruction

end AbcKit
