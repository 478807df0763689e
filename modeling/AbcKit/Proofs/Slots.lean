import AbcKit.Proofs.Wire
/-!
The three-byte displacement slots of a buffer: writing, patching in place, and reading back.

A displacement is stored as the low three bytes of its two's complement (`S24.bytes`); the bytes
decode back to it exactly when it fits the signed 24-bit range (`S24.decode_bytes_iff`). Setting
a slot writes those bytes and no other (`Buffer.get?_setSlot_inside`,
`Buffer.get?_setSlot_outside`). Patching checks the displacement, then the slot's end address,
then that the slot lies inside the buffer; reading checks the end address, then the bounds. The
end address is a 64-bit word, so a slot that ends past the last address aborts both
(`Buffer.readS24_eq_error_iff`, `Buffer.patchS24_eq_error_iff`).

Main statement: `Buffer.slot_writePatchRead`.
-/
namespace AbcKit

namespace S24

theorem decode_fits (b0 b1 b2 : UInt8) : Fits (decode b0 b1 b2) := by
  have h0 := b0.toNat_lt
  have h1 := b1.toNat_lt
  have h2 := b2.toNat_lt
  simp only [decode, Fits, min, max]
  split <;> omega

theorem decode_bytes_iff (v : Int) : decode (bytes v).1 (bytes v).2.1 (bytes v).2.2 = v ↔ Fits v :=
  ⟨fun h => h ▸ decode_fits _ _ _, decode_bytes v⟩

@[simp] theorem length_encode (v : Int) : (encode v).length = 3 := rfl

end S24

namespace Buffer

variable {b b' : Buffer} {addr i : Nat} {v : Int}

@[simp] theorem size_setSlot (b : Buffer) (addr : Nat) (v : Int) :
    (b.setSlot addr v).size = b.size := by
  unfold Buffer.setSlot Buffer.size
  rcases S24.bytes v with ⟨x, y, z⟩
  simp

theorem get?_setSlot_outside (h : i < addr ∨ addr + 3 ≤ i) : (b.setSlot addr v).get? i = b.get? i := by
  unfold setSlot get?
  rcases S24.bytes v with ⟨x, y, z⟩
  simp only [Array.getElem?_setIfInBounds]
  split_ifs <;> first | omega | rfl

/-- a slot inside the buffer holds the three bytes of the displacement -/
theorem get?_setSlot_inside (hin : addr + 3 ≤ b.size) :
    (b.setSlot addr v).get? addr = some (S24.bytes v).1 ∧
      (b.setSlot addr v).get? (addr + 1) = some (S24.bytes v).2.1 ∧
      (b.setSlot addr v).get? (addr + 2) = some (S24.bytes v).2.2 := by
  unfold setSlot get?
  rcases S24.bytes v with ⟨x, y, z⟩
  simp only [size] at hin
  simp only [Array.getElem?_setIfInBounds, Array.size_setIfInBounds]
  refine ⟨?_, ?_, ?_⟩ <;> split_ifs <;> first | omega | rfl

theorem readS24_setSlot (hno : ¬SlotOverflows addr) (hin : addr + 3 ≤ b.size) (hv : S24.Fits v) :
    (b.setSlot addr v).readS24 addr = .ok (some v) := by
  obtain ⟨h0, h1, h2⟩ := get?_setSlot_inside (v := v) hin
  unfold get? at h0 h1 h2
  obtain ⟨_, h0⟩ := Array.getElem?_eq_some_iff.mp h0
  obtain ⟨_, h1⟩ := Array.getElem?_eq_some_iff.mp h1
  obtain ⟨_, h2⟩ := Array.getElem?_eq_some_iff.mp h2
  have hsz : addr + 3 ≤ (b.setSlot addr v).bytes.size := by
    have := size_setSlot b addr v
    simp only [size] at this hin
    omega
  rw [readS24, if_neg hno, dif_pos hsz, h0, h1, h2, S24.decode_bytes v hv]

theorem writeS24_eq_ok_iff : b.writeS24 v = .ok b' ↔ S24.Fits v ∧ b' = b.append (S24.encode v) := by
  unfold writeS24
  by_cases hv : S24.Fits v <;> simp [hv, eq_comm]

/-- patching gives the buffer with the slot set exactly when the displacement fits, the slot's
end stays within the address space, and the slot lies inside the buffer -/
theorem patchS24_eq_ok_iff : b.patchS24 addr v = .ok (.ok b') ↔
    S24.Fits v ∧ ¬SlotOverflows addr ∧ addr + 3 ≤ b.size ∧ b' = b.setSlot addr v := by
  unfold patchS24
  by_cases hv : S24.Fits v <;> by_cases ho : SlotOverflows addr <;>
    by_cases hin : addr + 3 ≤ b.size <;> simp [hv, ho, hin, eq_comm]

/-- patching aborts exactly when the displacement fits and the slot's end passes the last
address -/
theorem patchS24_eq_error_iff {o : Overflow} :
    b.patchS24 addr v = .error o ↔ S24.Fits v ∧ SlotOverflows addr ∧ o = .add := by
  unfold patchS24
  by_cases hv : S24.Fits v <;> by_cases ho : SlotOverflows addr <;>
    by_cases hin : addr + 3 ≤ b.size <;> simp [hv, ho, hin, eq_comm]

theorem readS24_eq_error_iff {o : Overflow} : b.readS24 addr = .error o ↔ SlotOverflows addr ∧ o = .add := by
  unfold readS24
  by_cases ho : SlotOverflows addr
  · simp [ho, eq_comm]
  · rw [if_neg ho]
    split <;> simp [ho]

/-- **The 24-bit slot.** Writing a displacement appends its three bytes exactly when it fits,
and they decode back to it exactly when it fits. Below the top of the address space, patching
succeeds exactly when the displacement fits and the slot lies inside the buffer, and is refused
otherwise; a successful patch reads back the displacement and keeps the size and every byte
outside the slot. The slot's end is computed in a 64-bit word: reading aborts exactly when that
end passes the last address, and patching a fitting displacement there aborts too. -/
theorem slot_writePatchRead (b : Buffer) (addr : Nat) (v : Int) :
    (∀ b', b.writeS24 v = .ok b' ↔ S24.Fits v ∧ b' = b.append (S24.encode v)) ∧
    (S24.decode (S24.bytes v).1 (S24.bytes v).2.1 (S24.bytes v).2.2 = v ↔ S24.Fits v) ∧
    (¬SlotOverflows addr →
      ((∃ b', b.patchS24 addr v = .ok (.ok b')) ↔ S24.Fits v ∧ addr + 3 ≤ b.size) ∧
      (¬(S24.Fits v ∧ addr + 3 ≤ b.size) → ∃ e, b.patchS24 addr v = .ok (.error e))) ∧
    (∀ b', b.patchS24 addr v = .ok (.ok b') →
      b'.readS24 addr = .ok (some v) ∧ b'.size = b.size ∧
      ∀ i, i < addr ∨ addr + 3 ≤ i → b'.get? i = b.get? i) ∧
    ((∃ o, b.readS24 addr = .error o) ↔ SlotOverflows addr) ∧
    ((∃ o, b.patchS24 addr v = .error o) ↔ S24.Fits v ∧ SlotOverflows addr) := by
  refine ⟨fun _ => writeS24_eq_ok_iff, S24.decode_bytes_iff v, fun hno => ⟨?_, fun hbad => ?_⟩,
    fun b' h => ?_, ?_, ?_⟩
  · constructor
    · rintro ⟨b', h⟩
      obtain ⟨hv, -, hin, -⟩ := patchS24_eq_ok_iff.mp h
      exact ⟨hv, hin⟩
    · rintro ⟨hv, hin⟩
      exact ⟨_, patchS24_eq_ok_iff.mpr ⟨hv, hno, hin, rfl⟩⟩
  · -- neither a success nor an abort is left
    cases h : b.patchS24 addr v with
    | error o => exact absurd (patchS24_eq_error_iff.mp h).2.1 hno
    | ok r =>
      cases r with
      | error e => exact ⟨e, rfl⟩
      | ok b' =>
        obtain ⟨hv, -, hin, -⟩ := patchS24_eq_ok_iff.mp h
        exact absurd ⟨hv, hin⟩ hbad
  · obtain ⟨hv, hno, hin, rfl⟩ := patchS24_eq_ok_iff.mp h
    exact ⟨readS24_setSlot hno hin hv, size_setSlot b addr v, fun i hi => get?_setSlot_outside hi⟩
  · constructor
    · rintro ⟨o, h⟩
      exact (readS24_eq_error_iff.mp h).1
    · intro ho
      exact ⟨.add, readS24_eq_error_iff.mpr ⟨ho, rfl⟩⟩
  · constructor
    · rintro ⟨o, h⟩
      obtain ⟨hv, ho, -⟩ := patchS24_eq_error_iff.mp h
      exact ⟨hv, ho⟩
    · rintro ⟨hv, ho⟩
      exact ⟨.add, patchS24_eq_error_iff.mpr ⟨hv, ho, rfl⟩⟩

end Buffer
end AbcKit
