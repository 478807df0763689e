import AbcKit.Code
import AbcKit.Proofs.Container
import AbcKit.Proofs.Triple
/-!
Instructions read back from their bytes, and a method body read back from the instructions laid
out in it.

`Instruction.Fits`: every operand fits its field. Writing an instruction succeeds only then
(`Instruction.fits_of_encode`), and what it writes reads back as the same instruction whatever
follows (`Instruction.codes`). `Instruction.place` lays instructions out one after another,
each at the offset where the one before it ends, and `Code.decode_place` reads a body made of
written instructions back as that layout. A branch takes four bytes whatever its displacement
(`Instruction.bytes_branch`): landing a forward jump moves no instruction.
-/
namespace AbcKit

/-! ## Steps that succeed -/

theorem Encoder.u30_eq_ok {v : UInt32} {b b' : Buffer} {a : Unit} :
    Encoder.u30 v b = .ok a b' ↔ VarInt.Fits v.toNat ∧ b' = b.writeU32 v := by
  unfold Encoder.u30 Encoder.checked Buffer.writeU30 VarInt.Fits
  split_ifs <;> simp [*, eq_comm]

theorem Encoder.s24_eq_ok {v : Int} {b b' : Buffer} {a : Unit} :
    Encoder.s24 v b = .ok a b' ↔ S24.Fits v ∧ b' = b.append (S24.encode v) := by
  unfold Encoder.s24 Encoder.checked Buffer.writeS24
  split_ifs <;> simp [*, eq_comm]

theorem Encoder.count_eq_ok {what : String} {n : Nat} {b b' : Buffer} {a : Unit} :
    Encoder.count what n b = .ok a b' ↔ VarInt.Fits n ∧ b' = b.append (VarInt.encode n) := by
  unfold Encoder.count Encoder.checked Buffer.writeCount VarInt.Fits
  split_ifs <;> simp [*, eq_comm]

theorem Encoder.each_s24_fits {cs : List Int32} {b b' : Buffer} {a : Unit}
    (h : Encoder.each (fun c : Int32 => Encoder.s24 c.toInt) cs b = .ok a b') :
    ∀ c ∈ cs, S24.Fits c.toInt := by
  induction cs generalizing b with
  | nil => simp
  | cons c cs ih =>
    obtain ⟨_, b₁, h₁, h₂⟩ := EStateM.bind_eq_ok.mp h
    exact List.forall_mem_cons.mpr ⟨(Encoder.s24_eq_ok.mp h₁).1, ih h₂⟩

/-! ## One instruction -/

theorem Opcode.ofByte?_byte (op : Opcode) : Opcode.ofByte? op.byte = some op := by
  cases op <;> decide +kernel

namespace Instruction

/-- every operand fits its field -/
def Fits : Instruction → Prop
  | .simple _ | .pushByte _ | .pushShort _ | .getScopeObject _ => True
  | .branch _ d => S24.Fits d.toInt
  | .lookupSwitch d cs =>
    S24.Fits d.toInt ∧ cs ≠ [] ∧ VarInt.Fits (cs.length - 1) ∧ ∀ c ∈ cs, S24.Fits c.toInt
  | .pushString n | .pushInt n | .pushUint n | .pushDouble n | .pushNamespace n | .register _ n
  | .name _ n | .args _ n | .slot _ n | .newFunction n | .newClass n | .newCatch n | .dxns n
  | .debugLine n | .debugFile n | .bkptLine n => VarInt.Fits n.toNat
  | .hasNext2 a b | .callName _ a b | .callMethod a b | .callStatic a b | .debug _ a _ b =>
    VarInt.Fits a.toNat ∧ VarInt.Fits b.toNat

theorem codes (i : Instruction) (h : i.Fits) : Codes i.encode Instruction.decode i := by
  unfold Instruction.decode
  refine (Codes.byte _).bind ?_
  cases i with
  | simple op =>
    simp only [opcode, Opcode.ofByte?_byte, dif_pos op.2]
    exact Codes.pure _
  | branch op d =>
    simp only [opcode, Opcode.ofByte?_byte, op.2, reduceCtorEq, ↓reduceDIte]
    simpa using (Codes.s24 d.toInt h).bind_pure' (g := fun x => Instruction.branch op (Int32.ofInt x))
  | register op n =>
    simp only [opcode, Opcode.ofByte?_byte, op.2, reduceCtorEq, ↓reduceDIte]
    exact (Codes.u30 n h).map
  | name op n =>
    simp only [opcode, Opcode.ofByte?_byte, op.2, reduceCtorEq, ↓reduceDIte]
    exact (Codes.u30 n h).map
  | callName op n argc =>
    simp only [opcode, Opcode.ofByte?_byte, op.2, reduceCtorEq, ↓reduceDIte]
    exact (Codes.u30 n h.1).bind ((Codes.u30 argc h.2).bind_pure' (g := Instruction.callName op n))
  | args op n =>
    simp only [opcode, Opcode.ofByte?_byte, op.2, reduceCtorEq, ↓reduceDIte]
    exact (Codes.u30 n h).map
  | slot op n =>
    simp only [opcode, Opcode.ofByte?_byte, op.2, reduceCtorEq, ↓reduceDIte]
    exact (Codes.u30 n h).map
  | lookupSwitch d cs =>
    have hf : Opcode.lookupSwitch.family = .other := rfl
    simp only [opcode, Opcode.ofByte?_byte, hf, reduceCtorEq, ↓reduceDIte, decodeOther]
    obtain ⟨hd, hne, hcount, hcs⟩ := h
    cases cs with
    | nil => exact absurd rfl hne
    | cons c rest =>
      have heach : Codes (Encoder.each (fun c : Int32 => Encoder.s24 c.toInt) (c :: rest))
          (Decoder.many (rest.length + 1) Decoder.s24) ((c :: rest).map Int32.toInt) :=
        Codes.each (c :: rest) fun x hx => Codes.s24 x.toInt (hcs x hx)
      refine (Codes.s24 d.toInt hd).bind ((Codes.count _ rest.length hcount).bind ?_)
      simpa [Function.comp_def] using heach.bind_pure'
        (g := fun cases => Instruction.lookupSwitch (Int32.ofInt d.toInt) (cases.map Int32.ofInt))
  | pushByte v =>
    have hf : Opcode.pushByte.family = .other := rfl
    simp only [opcode, Opcode.ofByte?_byte, hf, reduceCtorEq, ↓reduceDIte, decodeOther]
    simpa using (Codes.byte v.toUInt8).bind_pure' (g := fun x => Instruction.pushByte x.toInt8)
  | pushShort v =>
    have hf : Opcode.pushShort.family = .other := rfl
    simp only [opcode, Opcode.ofByte?_byte, hf, reduceCtorEq, ↓reduceDIte, decodeOther]
    have hv : VarInt.Fits v.toUInt16.toUInt32.toNat := by
      have := v.toUInt16.toNat_lt
      simp only [VarInt.Fits, VarInt.maxU30, UInt16.toNat_toUInt32]
      omega
    simpa using (Codes.u30 _ hv).bind_pure' (g := fun x => Instruction.pushShort x.toUInt16.toInt16)
  | pushString n =>
    have hf : Opcode.pushString.family = .other := rfl
    simp only [opcode, Opcode.ofByte?_byte, hf, reduceCtorEq, ↓reduceDIte, decodeOther]
    exact (Codes.u30 n h).map
  | pushInt n =>
    have hf : Opcode.pushInt.family = .other := rfl
    simp only [opcode, Opcode.ofByte?_byte, hf, reduceCtorEq, ↓reduceDIte, decodeOther]
    exact (Codes.u30 n h).map
  | pushUint n =>
    have hf : Opcode.pushUint.family = .other := rfl
    simp only [opcode, Opcode.ofByte?_byte, hf, reduceCtorEq, ↓reduceDIte, decodeOther]
    exact (Codes.u30 n h).map
  | pushDouble n =>
    have hf : Opcode.pushDouble.family = .other := rfl
    simp only [opcode, Opcode.ofByte?_byte, hf, reduceCtorEq, ↓reduceDIte, decodeOther]
    exact (Codes.u30 n h).map
  | pushNamespace n =>
    have hf : Opcode.pushNamespace.family = .other := rfl
    simp only [opcode, Opcode.ofByte?_byte, hf, reduceCtorEq, ↓reduceDIte, decodeOther]
    exact (Codes.u30 n h).map
  | newFunction n =>
    have hf : Opcode.newFunction.family = .other := rfl
    simp only [opcode, Opcode.ofByte?_byte, hf, reduceCtorEq, ↓reduceDIte, decodeOther]
    exact (Codes.u30 n h).map
  | newClass n =>
    have hf : Opcode.newClass.family = .other := rfl
    simp only [opcode, Opcode.ofByte?_byte, hf, reduceCtorEq, ↓reduceDIte, decodeOther]
    exact (Codes.u30 n h).map
  | newCatch n =>
    have hf : Opcode.newCatch.family = .other := rfl
    simp only [opcode, Opcode.ofByte?_byte, hf, reduceCtorEq, ↓reduceDIte, decodeOther]
    exact (Codes.u30 n h).map
  | dxns n =>
    have hf : Opcode.dxns.family = .other := rfl
    simp only [opcode, Opcode.ofByte?_byte, hf, reduceCtorEq, ↓reduceDIte, decodeOther]
    exact (Codes.u30 n h).map
  | debugLine n =>
    have hf : Opcode.debugLine.family = .other := rfl
    simp only [opcode, Opcode.ofByte?_byte, hf, reduceCtorEq, ↓reduceDIte, decodeOther]
    exact (Codes.u30 n h).map
  | debugFile n =>
    have hf : Opcode.debugFile.family = .other := rfl
    simp only [opcode, Opcode.ofByte?_byte, hf, reduceCtorEq, ↓reduceDIte, decodeOther]
    exact (Codes.u30 n h).map
  | bkptLine n =>
    have hf : Opcode.bkptLine.family = .other := rfl
    simp only [opcode, Opcode.ofByte?_byte, hf, reduceCtorEq, ↓reduceDIte, decodeOther]
    exact (Codes.u30 n h).map
  | hasNext2 a b =>
    have hf : Opcode.hasNext2.family = .other := rfl
    simp only [opcode, Opcode.ofByte?_byte, hf, reduceCtorEq, ↓reduceDIte, decodeOther]
    exact (Codes.u30 a h.1).bind ((Codes.u30 b h.2).bind_pure' (g := Instruction.hasNext2 a))
  | callMethod a b =>
    have hf : Opcode.callMethod.family = .other := rfl
    simp only [opcode, Opcode.ofByte?_byte, hf, reduceCtorEq, ↓reduceDIte, decodeOther]
    exact (Codes.u30 a h.1).bind ((Codes.u30 b h.2).bind_pure' (g := Instruction.callMethod a))
  | callStatic a b =>
    have hf : Opcode.callStatic.family = .other := rfl
    simp only [opcode, Opcode.ofByte?_byte, hf, reduceCtorEq, ↓reduceDIte, decodeOther]
    exact (Codes.u30 a h.1).bind ((Codes.u30 b h.2).bind_pure' (g := Instruction.callStatic a))
  | getScopeObject n =>
    have hf : Opcode.getScopeObject.family = .other := rfl
    simp only [opcode, Opcode.ofByte?_byte, hf, reduceCtorEq, ↓reduceDIte, decodeOther]
    exact (Codes.byte n).map
  | debug kind text reg extra =>
    have hf : Opcode.debug.family = .other := rfl
    simp only [opcode, Opcode.ofByte?_byte, hf, reduceCtorEq, ↓reduceDIte, decodeOther]
    exact (Codes.byte kind).bind ((Codes.u30 text h.1).bind ((Codes.byte reg).bind
      ((Codes.u30 extra h.2).bind_pure' (g := Instruction.debug kind text reg))))

theorem fits_of_encode {i : Instruction} {b b' : Buffer} (h : i.encode b = .ok () b') : i.Fits := by
  obtain ⟨_, b₁, -, h⟩ := EStateM.bind_eq_ok.mp h
  cases i with
  | lookupSwitch d cs =>
    cases cs with
    | nil => cases h
    | cons c rest =>
      obtain ⟨_, b₂, hd, h⟩ := EStateM.bind_eq_ok.mp h
      obtain ⟨_, b₃, hcount, hcs⟩ := EStateM.bind_eq_ok.mp h
      exact ⟨(Encoder.s24_eq_ok.mp hd).1, List.cons_ne_nil c rest, (Encoder.count_eq_ok.mp hcount).1,
        Encoder.each_s24_fits hcs⟩
  | debug kind text reg extra =>
    obtain ⟨_, _, -, h⟩ := EStateM.bind_eq_ok.mp h
    obtain ⟨_, _, htext, h⟩ := EStateM.bind_eq_ok.mp h
    obtain ⟨_, _, -, hextra⟩ := EStateM.bind_eq_ok.mp h
    exact ⟨(Encoder.u30_eq_ok.mp htext).1, (Encoder.u30_eq_ok.mp hextra).1⟩
  | _ => simp_all [Instruction.Fits, EStateM.bind_eq_ok, Encoder.u30_eq_ok, Encoder.s24_eq_ok]

/-- the bytes of an instruction: what writing it into an empty buffer leaves there -/
def bytes (i : Instruction) : List UInt8 :=
  match i.encode {} with
  | .ok _ b => b.toList
  | .error _ _ => []

theorem writes_bytes {i : Instruction} {bs : List UInt8} (h : i.encode.Writes bs) : i.bytes = bs := by
  simp [bytes, h {}, Buffer.append, Buffer.toList]

theorem reads_bytes {i : Instruction} (h : i.Fits) : Instruction.decode.Reads i.bytes i := by
  obtain ⟨bs, w, r⟩ := i.codes h
  rwa [writes_bytes w]

theorem encode_eq_ok {i : Instruction} {b b' : Buffer} (h : i.encode b = .ok () b') :
    b' = b.append i.bytes := by
  obtain ⟨bs, w, -⟩ := i.codes (fits_of_encode h)
  rw [writes_bytes w]
  simpa [w b] using h.symm

theorem bytes_ne_nil {i : Instruction} (h : i.Fits) : i.bytes ≠ [] := by
  intro hnil
  -- reading starts with the opcode byte, so it cannot read an instruction out of no bytes
  have hr := reads_bytes h 0 []
  rw [hnil] at hr
  cases hr

theorem bytes_branch {op : BranchOp} {d : Int32} (h : S24.Fits d.toInt) :
    (branch op d).bytes = op.1.byte :: S24.encode d.toInt := by
  apply writes_bytes
  exact (Encoder.writes_byte op.1.byte).bind fun b => by
    simp only [Encoder.s24, Encoder.checked, Buffer.writeS24, if_pos h]
    rfl

end Instruction

/-! ## A body of instructions -/

/-- instructions laid out one after another from offset `pos`, each with its offset -/
def Instruction.place : Nat → List Instruction → List (Nat × Instruction)
  | _, [] => []
  | pos, i :: is => (pos, i) :: place (pos + i.bytes.length) is

theorem Instruction.place_append (pos : Nat) (xs ys : List Instruction) :
    place pos (xs ++ ys) = place pos xs ++ place (pos + (xs.flatMap bytes).length) ys := by
  induction xs generalizing pos with
  | nil => simp [place]
  | cons x xs ih => simp [place, ih, Nat.add_assoc]

theorem Instruction.length_le_flatMap {insts : List Instruction} (h : ∀ i ∈ insts, i.Fits) :
    insts.length ≤ (insts.flatMap bytes).length := by
  induction insts with
  | nil => simp
  | cons i is ih =>
    have hi := List.length_pos_iff.mpr (bytes_ne_nil (h i List.mem_cons_self))
    simp only [List.length_cons, List.flatMap_cons, List.length_append]
    have := ih fun j hj => h j (List.mem_cons_of_mem i hj)
    omega

theorem Code.decodeFrom_place (insts : List Instruction) (h : ∀ i ∈ insts, i.Fits) :
    ∀ fuel pos acc, insts.length ≤ fuel →
      Code.decodeFrom fuel ⟨pos, insts.flatMap Instruction.bytes⟩ acc =
        .ok (acc.reverse ++ Instruction.place pos insts) := by
  induction insts with
  | nil =>
    intro fuel pos acc _
    cases fuel <;> simp [Code.decodeFrom, Instruction.place]
  | cons i is ih =>
    intro fuel pos acc hfuel
    obtain ⟨fuel, rfl⟩ : ∃ k, fuel = k + 1 := ⟨fuel - 1, by simp at hfuel; omega⟩
    have hi := h i List.mem_cons_self
    have hne := Instruction.bytes_ne_nil hi
    have hrest : (i.bytes ++ is.flatMap Instruction.bytes).isEmpty = false := by
      cases hb : i.bytes with
      | nil => exact absurd hb hne
      | cons b bs => rfl
    rw [Code.decodeFrom, List.flatMap_cons, Instruction.reads_bytes hi pos _]
    simp only [hrest, Bool.false_eq_true, ↓reduceIte]
    rw [ih (fun j hj => h j (List.mem_cons_of_mem i hj)) fuel _ _ (by simp at hfuel; omega)]
    simp [Instruction.place]

theorem Code.decode_place (insts : List Instruction) (h : ∀ i ∈ insts, i.Fits) :
    Code.decode (insts.flatMap Instruction.bytes) = .ok (Instruction.place 0 insts) := by
  have := Code.decodeFrom_place insts h _ 0 [] (Instruction.length_le_flatMap h)
  rwa [List.reverse_nil, List.nil_append] at this

/-! ## The codec as a whole -/

namespace Instruction

theorem encode_ok_iff (i : Instruction) (b : Buffer) : (∃ b', i.encode b = .ok () b') ↔ i.Fits := by
  constructor
  · rintro ⟨b', h⟩
    exact fits_of_encode h
  · intro h
    obtain ⟨bs, w, -⟩ := i.codes h
    exact ⟨_, w b⟩

theorem encodedLen_eq (i : Instruction) : i.encodedLen = i.bytes.length := by
  unfold encodedLen bytes
  cases i.encode {} <;> simp [Buffer.toList, Buffer.size]

theorem place_eq_zip (pos : Nat) (insts : List Instruction) :
    place pos insts = (insts.scanl (fun o i => o + i.encodedLen) pos).zip insts := by
  induction insts generalizing pos with
  | nil => simp [place]
  | cons i is ih => simp [place, ih, encodedLen_eq]

/-- The instruction codec is a bijection onto its encodings. Writing succeeds exactly when every
operand fits its field; what a successful write appends reads back as the same instruction and
takes exactly `encodedLen` bytes, whatever follows; and a body made of such instructions, shorter
than `2 ^ 32` bytes so that every offset is a 32-bit number, reads back as those instructions at
offsets that start at 0 and grow by each one's encoded length. -/
theorem codec_bijection :
    (∀ (i : Instruction) (b : Buffer), (∃ b', i.encode b = .ok () b') ↔ i.Fits) ∧
    (∀ (i : Instruction) (b b' : Buffer), i.encode b = .ok () b' →
      b' = b.append i.bytes ∧
        ∀ pos rest, Instruction.decode ⟨pos, i.bytes ++ rest⟩ = .ok i ⟨pos + i.encodedLen, rest⟩) ∧
    (∀ insts : List Instruction, (∀ i ∈ insts, i.Fits) →
      (insts.flatMap Instruction.bytes).length < 2 ^ 32 →
      Code.decode (insts.flatMap Instruction.bytes) =
        .ok ((insts.scanl (fun o i => o + i.encodedLen) 0).zip insts)) := by
  refine ⟨encode_ok_iff, fun i b b' h => ⟨encode_eq_ok h, fun pos rest => ?_⟩, fun insts h _ => ?_⟩
  · rw [encodedLen_eq]
    exact reads_bytes (fits_of_encode h) pos rest
  · rw [Code.decode_place insts h, place_eq_zip]

/-- a byte push then a backward jump: both fit, and the body reads back at offsets 0 and 2 -/
theorem codec_bijection_jump :
    (∀ i ∈ [pushByte 5, branch BranchOp.jump (-6)], i.Fits) ∧
      Code.decode ([pushByte 5, branch BranchOp.jump (-6)].flatMap Instruction.bytes) =
        .ok [(0, pushByte 5), (2, branch BranchOp.jump (-6))] := by
  have h : ∀ i ∈ [pushByte 5, branch BranchOp.jump (-6)], i.Fits := by
    simp only [List.mem_cons, List.mem_nil_iff, or_false, forall_eq_or_imp, forall_eq, Fits,
      S24.Fits, S24.min, S24.max]
    decide
  exact ⟨h, (codec_bijection.2.2 _ h (by decide)).trans rfl⟩

end Instruction

end AbcKit
