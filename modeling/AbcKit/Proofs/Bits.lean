import AbcKit.Record.Trait
import Mathlib.Tactic.IntervalCases
/-!
Flag bytes bit by bit.

`setBits b m on` gives every bit of the mask `m` the value `on` and keeps every other bit of `b`
(`setBits_getElem`). The laws the record codecs rely on follow from that one bit at a time: a
second write to the same mask wins (`setBits_setBits_same`), writes to disjoint masks commute
(`setBits_comm`), and a byte shifted up by a nibble does not see its own high nibble
(`UInt8.and_low_shiftLeft`).
-/
namespace AbcKit

theorem setBits_getElem (b m : UInt8) (on : Bool) (i : Nat) (hi : i < 8) :
    (setBits b m on).toBitVec[i] = if m.toBitVec[i] then on else b.toBitVec[i] := by
  unfold setBits
  cases on <;> cases hm : m.toBitVec[i] <;>
    simp [UInt8.toBitVec_or, UInt8.toBitVec_and, UInt8.toBitVec_not, BitVec.getElem_or,
      BitVec.getElem_and, BitVec.getElem_not, hm]

theorem setBits_setBits_same (b m : UInt8) (c d : Bool) :
    setBits (setBits b m c) m d = setBits b m d := by
  apply UInt8.toBitVec_inj.mp
  ext i hi
  simp only [setBits_getElem _ _ _ i hi]
  split <;> rfl

theorem setBits_comm (b m n : UInt8) (c d : Bool) (h : m &&& n = 0) :
    setBits (setBits b m c) n d = setBits (setBits b n d) m c := by
  have hbit : ∀ i (hi : i < 8), ¬(m.toBitVec[i] = true ∧ n.toBitVec[i] = true) := by
    intro i hi ⟨hm, hn⟩
    have := congrArg (fun x : UInt8 => x.toBitVec[i]) h
    simp [UInt8.toBitVec_and, BitVec.getElem_and, hm, hn] at this
  apply UInt8.toBitVec_inj.mp
  ext i hi
  simp only [setBits_getElem _ _ _ i hi]
  have := hbit i hi
  split <;> split <;> simp_all

theorem UInt8.and_low_shiftLeft (a : UInt8) : (a &&& 0x0F) <<< 4 = a <<< 4 := by
  apply UInt8.toBitVec_inj.mp
  ext i hi
  simp only [UInt8.toBitVec_shiftLeft, UInt8.toBitVec_and]
  -- a bit shifted in from the low nibble keeps its value; the bits below are 0 on both sides
  by_cases hlow : i < 4
  · simp [hlow]
  · have h15 : (15#8)[i - 4] = true := by
      rw [BitVec.getElem_eq_testBit_toNat]
      interval_cases i <;> decide
    simp [h15]

end AbcKit
