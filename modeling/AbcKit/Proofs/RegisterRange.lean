import AbcKit.Proofs.Registers
/-!
Where register arithmetic can leave its 32-bit word.

Registers are 32-bit words, and four computations add to them. Opening a method sums the
receiver, the parameters, the `arguments` object or rest array, the declared locals and the
declared temporaries, step by step in a checked word; the partial sums only grow, so the sum
overflows exactly when the exact total does not fit (`StartMethod.firstFreeRegister_eq`). Such a
start call aborts with the add overflow before any method is pushed
(`Emitter.startMethod_overflow`); otherwise the method's temporaries start at the total
(`Emitter.startMethod_opens`). Handing out a temporary adds one to the next register, and aborts
with the add overflow exactly when that register is the last 32-bit one
(`MethodM.allocTemp_eq_error_iff`).

The two other additions cannot overflow. Raising the register count for an instruction adds one
to a register it names, and an instruction is only counted once it is written, when its
registers are 30-bit numbers (`MethodM.emit_registers_lt`). A register above the 30-bit range is
refused when it is written, with an `IndexOverflow` report and the register count left as it was
(`MethodM.emit_wideRegister`), and releasing it is refused the same way before the allocator
sees it, since the release kills the register first (`Emitter.freeTemp_wide`).

Main statement: `Emitter.registerArithmetic_range`.
-/
namespace AbcKit

/-- a checked step is the rest of the computation when the exact value fits, and the overflow
otherwise -/
theorem checkUnsigned_bind {α : Type} {bits : Nat} {o : Overflow} {x : Nat}
    {f : Nat → Except Overflow α} :
    (checkUnsigned bits o x >>= f) = if x < 2 ^ bits then f x else .error o := by
  unfold checkUnsigned
  by_cases h : x < 2 ^ bits
  · rw [if_pos (show x < Nat.pow 2 bits from h), if_pos h]
    rfl
  · rw [if_neg (show ¬x < Nat.pow 2 bits from h), if_neg h]
    rfl

/-- an instruction naming a register above the 30-bit range is refused when written, after its
opcode and any operand before that register -/
theorem Instruction.encode_wideRegister {i : Instruction} {r : UInt32} (hr : r ∈ i.registerOperands)
    (hw : VarInt.maxU30 < r.toNat) (b : Buffer) :
    ∃ v b', VarInt.maxU30 < v ∧ i.encode b = .error (.indexOverflow "u30" v) b' := by
  cases i with
  | simple op =>
    simp only [Instruction.registerOperands, Opcode.fixedRegister] at hr
    split at hr <;> simp_all [VarInt.maxU30]
  | register op reg =>
    simp only [Instruction.registerOperands, List.mem_singleton] at hr
    subst hr
    refine ⟨r.toNat, b.writeByte (Instruction.register op r).opcode.byte, hw, ?_⟩
    simp [Instruction.encode, bind, EStateM.bind, Encoder.byte, Encoder.u30, Encoder.checked,
      Buffer.writeU30, Nat.not_le.mpr hw]
  | hasNext2 object index =>
    -- the object register is written first, so it is the one reported when both are too wide
    by_cases ho : object.toNat ≤ VarInt.maxU30
    · have hx : VarInt.maxU30 < index.toNat := by
        simp only [Instruction.registerOperands, List.mem_cons, List.not_mem_nil, or_false] at hr
        rcases hr with rfl | rfl
        · omega
        · exact hw
      refine ⟨index.toNat,
        (b.writeByte (Instruction.hasNext2 object index).opcode.byte).writeU32 object, hx, ?_⟩
      simp [Instruction.encode, bind, EStateM.bind, Encoder.byte, Encoder.u30, Encoder.checked,
        Buffer.writeU30, ho, Nat.not_le.mpr hx]
    · refine ⟨object.toNat, b.writeByte (Instruction.hasNext2 object index).opcode.byte,
        Nat.lt_of_not_le ho, ?_⟩
      simp [Instruction.encode, bind, EStateM.bind, Encoder.byte, Encoder.u30, Encoder.checked,
        Buffer.writeU30, ho]
  | _ => simp [Instruction.registerOperands] at hr

namespace Emit

/-- the first free register of a start call, as an exact sum -/
def StartMethod.registerTotal (s : StartMethod) : Nat :=
  1 + s.paramCount.toNat + (if s.arguments = .none then 0 else 1) + s.localCount.toNat +
    s.tempCount.toNat

/-- **The checked sum overflows exactly when the exact total does.** -/
theorem StartMethod.firstFreeRegister_eq (s : StartMethod) :
    s.firstFreeRegister = if s.registerTotal < 2 ^ 32 then .ok s.registerTotal else .error .add := by
  unfold StartMethod.firstFreeRegister StartMethod.registerTotal
  simp only [checkUnsigned_bind]
  unfold checkUnsigned
  simp only [Nat.pow_eq]
  -- the partial sums only grow: a check fails exactly when the total's does
  split_ifs <;> first | rfl | (exfalso; omega)

theorem Registers.alloc_eq_error_iff {r : Registers} {o : Overflow} :
    r.alloc = .error o ↔ o = .add ∧ 2 ^ 32 ≤ r.next + 1 := by
  unfold Registers.alloc
  rw [checkUnsigned_bind]
  split_ifs with h
  · simp only [pure, Except.pure, reduceCtorEq, false_iff, not_and]
    intro _
    omega
  · simp only [Except.error.injEq]
    exact ⟨fun h' => ⟨h'.symm, by omega⟩, fun h' => h'.1.symm⟩

theorem MethodState.ofStart_eq_error_iff {s : StartMethod} {strict : Bool} {o : Overflow} :
    MethodState.ofStart s strict = .error o ↔ o = .add ∧ 2 ^ 32 ≤ s.registerTotal := by
  unfold MethodState.ofStart
  rw [StartMethod.firstFreeRegister_eq]
  split_ifs with h
  · simp only [bind, Except.bind, pure, Except.pure, reduceCtorEq, false_iff, not_and]
    intro _
    omega
  · simp only [bind, Except.bind, Except.error.injEq]
    exact ⟨fun h' => ⟨h'.symm, by omega⟩, fun h' => h'.1.symm⟩

theorem MethodState.ofStart_registers {s : StartMethod} {strict : Bool} {m : MethodState}
    (h : MethodState.ofStart s strict = .ok m) : m.registers = .start s.registerTotal := by
  unfold MethodState.ofStart at h
  rw [StartMethod.firstFreeRegister_eq] at h
  split_ifs at h
  · simp only [bind, Except.bind, pure, Except.pure, Except.ok.injEq] at h
    rw [← h]
  · cases h

theorem Assembler.methodIndex_succeeds (name : String) (a : Assembler) :
    ∃ i a', Assembler.methodIndex name a = .ok i a' := by
  unfold Assembler.methodIndex
  split <;> exact ⟨_, _, rfl⟩

namespace Emitter

theorem startMethod_overflow {s : StartMethod} (hs : 2 ^ 32 ≤ s.registerTotal) (e : Emitter) :
    ∃ e', startMethod s e = .error (.overflow .add) e' ∧ e'.methods = e.methods := by
  obtain ⟨i, a, hidx⟩ := Assembler.methodIndex_succeeds s.name e.assembler
  have hm : MethodState.ofStart s e.config.strictOrdering = .error .add :=
    MethodState.ofStart_eq_error_iff.mpr ⟨rfl, hs⟩
  unfold startMethod
  simp only [bind, EStateM.bind, onAssembler, hidx, get, getThe, MonadStateOf.get, EStateM.get, hm,
    throw, throwThe, MonadExceptOf.throw, EStateM.throw]
  exact ⟨_, rfl, rfl⟩

/-- a start call whose registers fit opens the method, with its temporaries from the total -/
theorem startMethod_opens {s : StartMethod} (hs : s.registerTotal < 2 ^ 32) (e : Emitter) :
    ∃ i m e', startMethod s e = .ok i e' ∧ e'.methods = m :: e.methods ∧
      m.registers = .start s.registerTotal := by
  obtain ⟨i, a, hidx⟩ := Assembler.methodIndex_succeeds s.name e.assembler
  cases hm : MethodState.ofStart s e.config.strictOrdering with
  | error o =>
    have := (MethodState.ofStart_eq_error_iff.mp hm).2
    omega
  | ok m =>
    refine ⟨i, m, { e with assembler := a, methods := m :: e.methods, debug := e.debug.enterFunction },
      ?_, rfl, MethodState.ofStart_registers hm⟩
    unfold startMethod
    simp only [bind, EStateM.bind, onAssembler, hidx, get, getThe, MonadStateOf.get, EStateM.get, hm,
      modify, modifyGet, MonadStateOf.modifyGet, EStateM.modifyGet, pure, EStateM.pure]

end Emitter

namespace MethodM

/-- **Handing out a temporary aborts exactly at the last 32-bit register**, with the add
overflow and the method as it was. -/
theorem allocTemp_eq_error_iff {m m' : MethodState} {h : Halt} :
    allocTemp m = .error h m' ↔ h = .overflow .add ∧ m' = m ∧ 2 ^ 32 ≤ m.registers.next + 1 := by
  unfold allocTemp
  simp only [bind, EStateM.bind, get, getThe, MonadStateOf.get, EStateM.get]
  cases ha : m.registers.alloc with
  | ok p =>
    have hlt := (Registers.alloc_ok ha).2.1
    refine iff_of_false (fun h' => ?_) (fun h' => by omega)
    simp [modify, modifyGet, MonadStateOf.modifyGet, EStateM.modifyGet, EStateM.bind, pure,
      EStateM.pure] at h'
  | error o =>
    obtain ⟨rfl, hn⟩ := Registers.alloc_eq_error_iff.mp ha
    simp only [throw, throwThe, MonadExceptOf.throw, EStateM.throw, EStateM.Result.error.injEq]
    exact ⟨fun h' => ⟨h'.1.symm, h'.2.symm, hn⟩, fun h' => ⟨h'.1.symm, h'.2.1.symm⟩⟩

/-- a write counts registers only up to the 30-bit range: one above any of them is a 32-bit
number -/
theorem emit_registers_lt {pool : Pool} {i : Instruction} {m m' : MethodState} {site : Nat}
    (h : emit pool i m = .ok site m') : ∀ r ∈ i.maxRegister, r.toNat + 1 ≤ 2 ^ 30 := by
  intro r hr
  have := Instruction.maxRegister_lt (emit_exact h).2.1 hr
  omega

/-- a write that the encoder refuses keeps the bytes written so far and moves nothing else -/
theorem emit_of_encode_error {pool : Pool} {i : Instruction} {m : MethodState} {err : FormatError}
    {b : Buffer} (hw : i.encode m.code = .error err b) :
    emit pool i m = .error (.error (.format err)) { m with code := b } := by
  unfold emit
  simp only [bind, EStateM.bind, get, getThe, MonadStateOf.get, EStateM.get, Encoder.exec, hw,
    set, MonadStateOf.set, EStateM.set, throw, throwThe, MonadExceptOf.throw, EStateM.throw]

/-- **A register above the 30-bit range is reported when it is written**: as an `IndexOverflow`,
not an abort, and with the register count as it was. -/
theorem emit_wideRegister {pool : Pool} {i : Instruction} {m : MethodState} {r : UInt32}
    (hr : r ∈ i.registerOperands) (hw : VarInt.maxU30 < r.toNat) :
    ∃ v m', VarInt.maxU30 < v ∧ emit pool i m = .error (.error (.format (.indexOverflow "u30" v))) m' ∧
      m'.registers = m.registers := by
  obtain ⟨v, b', hv, he⟩ := Instruction.encode_wideRegister hr hw m.code
  exact ⟨v, _, hv, emit_of_encode_error he, rfl⟩

end MethodM

namespace Emitter

/-- writing an instruction that names a register above the 30-bit range fails, whether at the
pending position records, for want of an open method, or at the register -/
theorem emit_wideRegister {i : Instruction} {r : UInt32} (hr : r ∈ i.registerOperands)
    (hw : VarInt.maxU30 < r.toNat) (e : Emitter) : ∃ err e', emit i e = .error err e' := by
  show ∃ err e', EStateM.bind flushPosition (fun _ => emitRaw i) e = _
  unfold EStateM.bind
  cases hf : flushPosition e with
  | error err e₁ => exact ⟨err, e₁, rfl⟩
  | ok u e₁ =>
    dsimp only
    unfold emitRaw onMethod
    cases hm : e₁.methods with
    | nil => exact ⟨_, _, rfl⟩
    | cons m rest =>
      obtain ⟨v, m', -, he, -⟩ := @MethodM.emit_wideRegister e₁.assembler.pool i m r hr hw
      simp only [he]
      exact ⟨_, _, rfl⟩

/-- **A release of a register above the 30-bit range never reaches the allocator**: it fails as
the kill written before it does. -/
theorem freeTemp_wide {reg : UInt32} (hw : VarInt.maxU30 < reg.toNat) (e : Emitter) :
    ∃ err e', kill reg e = .error err e' ∧ freeTemp reg e = .error err e' := by
  obtain ⟨err, e', he⟩ := emit_wideRegister (i := .register ⟨.kill, rfl⟩ reg)
    (List.mem_singleton_self reg) hw e
  have hk : kill reg e = .error err e' := by
    show EStateM.map _ (emit _) e = _
    unfold EStateM.map
    rw [he]
  refine ⟨err, e', hk, ?_⟩
  show EStateM.bind (kill reg) _ e = _
  unfold EStateM.bind
  rw [hk]

/-- **Register arithmetic leaves its 32-bit word at two places only.** Opening a method opens it
with its temporaries from the exact total of its start call when that total fits 32 bits, and
otherwise aborts with the add overflow (`attempt to add with overflow`) before pushing a method.
Handing out a temporary aborts with the add overflow exactly when the next register is the last
32-bit one, and leaves the method as it was. The two other additions of one stay in range: a
write counts only registers of the 30-bit range, a register above it is reported as an
`IndexOverflow` when it is written, with the count unchanged, and a release of such a register
fails as its kill does, before the allocator sees it. -/
theorem registerArithmetic_range :
    (∀ (s : StartMethod) (e : Emitter),
      (s.registerTotal < 2 ^ 32 → ∃ i m e', startMethod s e = .ok i e' ∧
        e'.methods = m :: e.methods ∧ m.registers = .start s.registerTotal) ∧
      (2 ^ 32 ≤ s.registerTotal →
        ∃ e', startMethod s e = .error (.overflow .add) e' ∧ e'.methods = e.methods)) ∧
    (∀ (m m' : MethodState) (h : Halt), MethodM.allocTemp m = .error h m' ↔
      h = .overflow .add ∧ m' = m ∧ 2 ^ 32 ≤ m.registers.next + 1) ∧
    (∀ (pool : Pool) (i : Instruction) (m m' : MethodState) (site : Nat),
      MethodM.emit pool i m = .ok site m' → ∀ r ∈ i.maxRegister, r.toNat + 1 ≤ 2 ^ 30) ∧
    (∀ (pool : Pool) (i : Instruction) (m : MethodState) (r : UInt32), r ∈ i.registerOperands →
      VarInt.maxU30 < r.toNat → ∃ v m', VarInt.maxU30 < v ∧
        MethodM.emit pool i m = .error (.error (.format (.indexOverflow "u30" v))) m' ∧
        m'.registers = m.registers) ∧
    (∀ (reg : UInt32) (e : Emitter), VarInt.maxU30 < reg.toNat →
      ∃ err e', kill reg e = .error err e' ∧ freeTemp reg e = .error err e') :=
  ⟨fun _ e => ⟨fun hs => startMethod_opens hs e, fun hs => startMethod_overflow hs e⟩,
    fun _ _ _ => MethodM.allocTemp_eq_error_iff, fun _ _ _ _ _ h => MethodM.emit_registers_lt h,
    fun _ _ _ _ hr hw => MethodM.emit_wideRegister hr hw, fun _ e hw => freeTemp_wide hw e⟩

end Emitter

end Emit

end AbcKit
