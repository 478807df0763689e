import AbcKit.Proofs.Wire
/-!
The seven-bit group form of a word, and the 30-bit range of its checked forms.

`VarInt.encode n` writes one byte for each seven-bit group that `n` starts, and one byte for
zero: byte `i` carries group `i`, that is `n / 128 ^ i % 128`, in its low seven bits, and its high
bit is set exactly when another byte follows (`VarInt.GroupForm`). The number of bytes is
`Nat.log 128 n + 1`, so a 32-bit word takes one to five. The group loop of the reader takes these
bytes back as the word and stops after the last of them (`Decoder.reads_u32`, in
`AbcKit.Proofs.Wire`); a signed word goes through its two's complement pattern and comes back
whole.

The 30-bit forms accept exactly the words up to `VarInt.maxU30`: the writer refuses the others
and writes nothing, and the reader, whatever bytes it is given, returns a word only when the
group loop reads one in range (`Decoder.u30_eq_ok_iff`).

Main statement: `VarInt.groupCodec_roundTrip`.
-/
namespace AbcKit

namespace VarInt

/-- `bs` is the group form of `n`: one byte per seven-bit group that `n` starts (one for zero),
lowest group first, each holding its group in its low seven bits, with the high bit set exactly
on the bytes that another byte follows -/
structure GroupForm (n : Nat) (bs : List UInt8) : Prop where
  length_eq : bs.length = Nat.log 128 n + 1
  group : ∀ i (h : i < bs.length), (bs[i] &&& 0x7f).toNat = n / 128 ^ i % 128
  continues : ∀ i (h : i < bs.length), bs[i] &&& 0x80 = 0 ↔ i + 1 = bs.length

theorem high_clear {x : Nat} (hx : x < 128) : x.toUInt8 &&& 0x80 = 0 := by
  simpa [hx] using continues_iff x (by omega)

theorem high_set {x : Nat} (hlo : 128 ≤ x) (hhi : x < 256) : x.toUInt8 &&& 0x80 ≠ 0 := by
  have h := continues_iff x hhi
  simp only [show ¬x < 128 by omega, decide_false, beq_eq_false_iff_ne] at h
  exact h

/-- **The writer's bytes are the group form of the value.** -/
theorem encode_groupForm (n : Nat) : GroupForm n (encode n) := by
  fun_induction encode n with
  | case1 n hn =>
    refine ⟨by simp [Nat.log_of_lt hn], fun i h => ?_, fun i h => ?_⟩
    · obtain rfl : i = 0 := by simpa using h
      simp only [List.getElem_cons_zero, pow_zero, Nat.div_one]
      rw [payload n (by omega)]
    · obtain rfl : i = 0 := by simpa using h
      simp [high_clear hn]
  | case2 n hn ih =>
    -- a marked byte for the lowest group, then the group form of `n / 128`, one group shorter
    have hrest : 1 ≤ (encode (n / 128)).length := List.length_pos_iff.mpr (encode_ne_nil _)
    refine ⟨?_, fun i h => ?_, fun i h => ?_⟩
    · rw [List.length_cons, ih.length_eq,
        Nat.log_of_one_lt_of_le (b := 128) (n := n) (by norm_num) (by omega)]
    · cases i with
      | zero =>
        simp only [List.getElem_cons_zero, pow_zero, Nat.div_one]
        rw [payload _ (by omega)]
        omega
      | succ j =>
        simp only [List.getElem_cons_succ]
        rw [ih.group j (by simpa using h), Nat.div_div_eq_div_mul, Nat.pow_succ']
    · cases i with
      | zero =>
        simp only [List.getElem_cons_zero, List.length_cons]
        exact iff_of_false (high_set (by omega) (by omega)) (by omega)
      | succ j =>
        simp only [List.getElem_cons_succ, List.length_cons]
        rw [ih.continues j (by simpa using h)]
        omega

theorem length_encode_le {n : Nat} (h : n < 2 ^ 32) : (encode n).length ≤ 5 := by
  rw [(encode_groupForm n).length_eq]
  by_cases hn : n = 0
  · simp [hn]
  · have hlog : Nat.log 128 n < 5 := Nat.log_lt_of_lt_pow hn (by omega)
    omega

end VarInt

/-- **The 30-bit reader accepts exactly the words in range**: on any bytes, it returns a word
when the group loop reads that word and it is at most `VarInt.maxU30`, and only then. -/
theorem Decoder.u30_eq_ok_iff {c c' : Cursor} {v : UInt32} :
    Decoder.u30 c = .ok v c' ↔ Decoder.u32 c = .ok v c' ∧ v.toNat ≤ VarInt.maxU30 := by
  simp only [Decoder.u30, Decoder.position, bind, EStateM.bind]
  cases h : Decoder.u32 c with
  | ok x d =>
    by_cases hx : x.toNat ≤ VarInt.maxU30
    · simp only [hx, if_true, pure, EStateM.pure, EStateM.Result.ok.injEq]
      constructor
      · rintro ⟨rfl, rfl⟩
        exact ⟨⟨rfl, rfl⟩, hx⟩
      · exact fun h => h.1
    · -- the word read is refused at its first byte
      simp only [hx, if_false, throw, throwThe, MonadExceptOf.throw, EStateM.throw, reduceCtorEq,
        EStateM.Result.ok.injEq, false_iff, not_and]
      rintro ⟨rfl, rfl⟩
      exact hx
  | error e d => simp

theorem Buffer.writeU30_ok_iff (v : UInt32) (b : Buffer) :
    (∃ b', b.writeU30 v = .ok b') ↔ v.toNat ≤ VarInt.maxU30 := by
  unfold Buffer.writeU30
  by_cases hv : v.toNat ≤ VarInt.maxU30 <;> simp [hv]

namespace VarInt

/-- **The variable-length codec round-trips.** A 32-bit word is written as its group form, one to
five bytes, which the group loop reads back as the word, consuming exactly them wherever they
stand and whatever follows; a signed word comes back whole; the 30-bit writer and reader accept
exactly the words up to `maxU30`, and every word they accept comes back. -/
theorem groupCodec_roundTrip :
    (∀ v : UInt32, GroupForm v.toNat (encode v.toNat) ∧ (encode v.toNat).length ≤ 5 ∧
      (Encoder.u32 v).Writes (encode v.toNat) ∧ Decoder.u32.Reads (encode v.toNat) v) ∧
    (∀ v : Int32, Codes (Encoder.s32 v) Decoder.s32 v) ∧
    (∀ (v : UInt32) (b : Buffer), (∃ b', b.writeU30 v = .ok b') ↔ v.toNat ≤ maxU30) ∧
    (∀ (c c' : Cursor) (v : UInt32),
      Decoder.u30 c = .ok v c' ↔ Decoder.u32 c = .ok v c' ∧ v.toNat ≤ maxU30) ∧
    (∀ v : UInt32, v.toNat ≤ maxU30 → Codes (Encoder.u30 v) Decoder.u30 v) := by
  refine ⟨fun v => ⟨encode_groupForm _, length_encode_le v.toNat_lt, fun _ => rfl, ?_⟩,
    Codes.s32, Buffer.writeU30_ok_iff, fun _ _ _ => Decoder.u30_eq_ok_iff, Codes.u30⟩
  simpa using Decoder.reads_u32 v.toNat v.toNat_lt

/-- the largest 30-bit word is accepted, and comes back -/
theorem groupCodec_roundTrip_maxU30 :
    (1073741823 : UInt32).toNat ≤ maxU30 ∧ Codes (Encoder.u30 1073741823) Decoder.u30 1073741823 :=
  ⟨by decide, groupCodec_roundTrip.2.2.2.2 _ (by decide)⟩

end VarInt

end AbcKit
