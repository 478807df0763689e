import AbcKit.Buffer
import AbcKit.Cursor
import Mathlib
/-!
Writers and readers that agree, as a relation between an encoder, a decoder and a value.

`Encoder.Writes e bs`: `e` appends exactly `bs` to any buffer. `Decoder.Reads d bs x`: `d` reads
exactly `bs` as `x`, at any offset and whatever bytes follow. `Codes e d x` pairs the two through
one byte string, so a record's codec is proved field by field: `Codes.bind` follows the writer's
and the reader's sequencing together, and the byte string of the whole is never named.

This file holds the combinators, the fixed-width fields and the read-back of the seven-bit groups;
`AbcKit.Proofs.VarIntCodec` adds the layout of the groups and the 30-bit range.
-/
namespace AbcKit

/-- `e` appends exactly `bs`, whatever the buffer holds -/
def Encoder.Writes (e : Encoder Unit) (bs : List UInt8) : Prop :=
  ∀ b : Buffer, e b = .ok () (b.append bs)

/-- `d` reads exactly `bs` as `x`, wherever the cursor stands and whatever follows -/
def Decoder.Reads {α : Type} (d : Decoder α) (bs : List UInt8) (x : α) : Prop :=
  ∀ pos rest, d ⟨pos, bs ++ rest⟩ = .ok x ⟨pos + bs.length, rest⟩

/-- `e` writes bytes that `d` reads back as `x` -/
def Codes {α : Type} (e : Encoder Unit) (d : Decoder α) (x : α) : Prop :=
  ∃ bs, e.Writes bs ∧ d.Reads bs x

@[simp] theorem Buffer.append_append (b : Buffer) (xs ys : List UInt8) :
    (b.append xs).append ys = b.append (xs ++ ys) := by
  simp [Buffer.append]

@[simp] theorem Buffer.append_nil (b : Buffer) : b.append [] = b := by
  simp [Buffer.append]

@[simp] theorem Buffer.toList_append (b : Buffer) (xs : List UInt8) :
    (b.append xs).toList = b.toList ++ xs := by
  simp [Buffer.append, Buffer.toList]

@[simp] theorem Buffer.size_append (b : Buffer) (xs : List UInt8) :
    (b.append xs).size = b.size + xs.length := by
  simp [Buffer.append, Buffer.size]

namespace Encoder.Writes

variable {e e₁ e₂ : Encoder Unit} {bs b₁ b₂ : List UInt8}

theorem pure : Encoder.Writes (Pure.pure ()) [] := fun b => by
  simp only [Buffer.append_nil]; rfl

theorem bind (h₁ : e₁.Writes b₁) (h₂ : e₂.Writes b₂) :
    Encoder.Writes (e₁ >>= fun _ => e₂) (b₁ ++ b₂) := fun b => by
  show EStateM.bind e₁ (fun _ => e₂) b = _
  simp only [EStateM.bind, h₁ b, h₂ (b.append b₁), Buffer.append_append]

theorem unique (h₁ : e.Writes b₁) (h₂ : e.Writes b₂) : b₁ = b₂ := by
  have h := (h₁ {}).symm.trans (h₂ {})
  simp only [EStateM.Result.ok.injEq, true_and] at h
  have h' := congrArg Buffer.toList h
  simpa [Buffer.toList_append] using h'

theorem run (h : e.Writes bs) : Encoder.run e = .ok bs := by
  simp only [Encoder.run, h {}, Buffer.toList_append]
  rfl

end Encoder.Writes

namespace Decoder.Reads

variable {α β : Type} {d : Decoder α} {bs b₁ b₂ : List UInt8} {x : α}

theorem pure (x : α) : Decoder.Reads (Pure.pure x) [] x := fun pos rest => by
  simp only [List.nil_append, List.length_nil, Nat.add_zero]; rfl

theorem bind {f : α → Decoder β} {y : β} (h₁ : d.Reads b₁ x) (h₂ : (f x).Reads b₂ y) :
    Decoder.Reads (d >>= f) (b₁ ++ b₂) y := fun pos rest => by
  show EStateM.bind d f _ = _
  simp only [EStateM.bind, List.append_assoc, h₁ pos (b₂ ++ rest), h₂ (pos + b₁.length) rest,
    List.length_append, Nat.add_assoc]

theorem map {f : α → β} (h : d.Reads bs x) : Decoder.Reads (f <$> d) bs (f x) := fun pos rest => by
  show EStateM.map f d _ = _
  simp only [EStateM.map, h pos rest]

theorem position_bind {g : Nat → Decoder α} (h : ∀ p, (g p).Reads bs x) :
    Decoder.Reads (Decoder.position >>= g) bs x := fun pos rest => by
  show EStateM.bind Decoder.position g _ = _
  exact h pos pos rest

theorem run (h : d.Reads bs x) : Decoder.run d bs = .ok x := by
  have := h 0 []
  simp only [List.append_nil] at this
  simp only [Decoder.run, Cursor.start, this]

end Decoder.Reads

namespace Codes

variable {α β : Type} {e e₁ e₂ : Encoder Unit} {d : Decoder α} {x : α}

theorem pure (x : α) : Codes (Pure.pure ()) (Pure.pure x) x := ⟨[], .pure, .pure x⟩

theorem bind {f : α → Decoder β} {y : β} (h₁ : Codes e₁ d x) (h₂ : Codes e₂ (f x) y) :
    Codes (e₁ >>= fun _ => e₂) (d >>= f) y := by
  obtain ⟨b₁, w₁, r₁⟩ := h₁
  obtain ⟨b₂, w₂, r₂⟩ := h₂
  exact ⟨b₁ ++ b₂, w₁.bind w₂, r₁.bind r₂⟩

theorem bind_pure {f : α → β} (h : Codes e d x) :
    Codes (e >>= fun _ => Pure.pure ()) (d >>= fun a => Pure.pure (f a)) (f x) :=
  h.bind (pure (f x))

theorem bind_nil {f : α → Decoder β} {y : β} (h₁ : Codes e d x) (h₂ : (f x).Reads [] y) :
    Codes e (d >>= f) y := by
  obtain ⟨bs, w, r⟩ := h₁
  exact ⟨bs, w, by simpa using r.bind h₂⟩

theorem map {f : α → β} (h : Codes e d x) : Codes e (f <$> d) (f x) := by
  obtain ⟨bs, w, r⟩ := h
  exact ⟨bs, w, r.map⟩

/-- a reader that takes its offset first, and reads the same value wherever it starts; the
bytes are those of the writer, which are unique -/
theorem position_bind {g : Nat → Decoder α} (h : ∀ p, Codes e (g p) x) :
    Codes e (Decoder.position >>= g) x := by
  obtain ⟨bs, w, _⟩ := h 0
  refine ⟨bs, w, Decoder.Reads.position_bind fun p => ?_⟩
  obtain ⟨bs', w', r'⟩ := h p
  rw [w.unique w']
  exact r'

end Codes

/-! ## Fixed-width fields -/

theorem Encoder.writes_byte (v : UInt8) : (Encoder.byte v).Writes [v] := fun b => by
  simp only [Encoder.byte, Buffer.writeByte, Buffer.append]
  rw [Array.push_eq_append]

theorem Decoder.reads_byte (v : UInt8) : Decoder.byte.Reads [v] v := fun _ _ => rfl

theorem Codes.byte (v : UInt8) : Codes (Encoder.byte v) Decoder.byte v :=
  ⟨[v], Encoder.writes_byte v, Decoder.reads_byte v⟩

theorem Encoder.writes_raw (bs : List UInt8) : (Encoder.raw bs).Writes bs := fun _ => rfl

theorem Decoder.reads_bytes (bs : List UInt8) : (Decoder.bytes bs.length).Reads bs bs :=
  fun pos rest => by simp [Decoder.bytes]

theorem Codes.raw (bs : List UInt8) : Codes (Encoder.raw bs) (Decoder.bytes bs.length) bs :=
  ⟨bs, Encoder.writes_raw bs, Decoder.reads_bytes bs⟩

theorem LittleEndian.encode_succ (width n : Nat) :
    LittleEndian.encode (width + 1) n = (n % 256).toUInt8 :: LittleEndian.encode width (n / 256) := by
  simp only [LittleEndian.encode, List.range_succ_eq_map, List.map_cons, List.map_map]
  congr 2
  · simp
  · funext i
    simp only [Function.comp, Nat.div_div_eq_div_mul]
    show (n / (Nat.pow 256 i * 256) % 256).toUInt8 = _
    rw [Nat.mul_comm]

@[simp] theorem LittleEndian.length_encode (width n : Nat) :
    (LittleEndian.encode width n).length = width := by
  simp [LittleEndian.encode]

theorem LittleEndian.decode_encode (width n : Nat) :
    LittleEndian.decode (LittleEndian.encode width n) = n % 256 ^ width := by
  induction width generalizing n with
  | zero => simp [LittleEndian.encode, LittleEndian.decode, Nat.mod_one]
  | succ w ih =>
    have hstep : LittleEndian.decode ((n % 256).toUInt8 :: LittleEndian.encode w (n / 256)) =
        (n % 256).toUInt8.toNat + 256 * LittleEndian.decode (LittleEndian.encode w (n / 256)) := rfl
    rw [LittleEndian.encode_succ, hstep, ih, Nat.pow_succ', Nat.mod_mul]
    simp [Nat.mod_mod_of_dvd]

theorem Codes.u16 (v : UInt16) : Codes (Encoder.u16 v) Decoder.u16 v := by
  refine ⟨LittleEndian.encode 2 v.toNat, fun _ => rfl, ?_⟩
  have hlen := LittleEndian.length_encode 2 v.toNat
  have hr : (Decoder.bytes 2).Reads (LittleEndian.encode 2 v.toNat) (LittleEndian.encode 2 v.toNat) := by
    simpa [hlen] using Decoder.reads_bytes (LittleEndian.encode 2 v.toNat)
  have hv : (LittleEndian.decode (LittleEndian.encode 2 v.toNat)).toUInt16 = v := by
    rw [LittleEndian.decode_encode, Nat.mod_eq_of_lt (by simpa using v.toNat_lt)]
    simp
  have := hr.bind (f := fun bs => Pure.pure (LittleEndian.decode bs).toUInt16) (Decoder.Reads.pure _)
  rw [hv, List.append_nil] at this
  exact this

theorem Codes.f64 (bits : UInt64) : Codes (Encoder.f64 bits) Decoder.f64 bits := by
  refine ⟨LittleEndian.encode 8 bits.toNat, fun _ => rfl, ?_⟩
  have hlen := LittleEndian.length_encode 8 bits.toNat
  have hr : (Decoder.bytes 8).Reads (LittleEndian.encode 8 bits.toNat)
      (LittleEndian.encode 8 bits.toNat) := by
    simpa [hlen] using Decoder.reads_bytes (LittleEndian.encode 8 bits.toNat)
  have hv : (LittleEndian.decode (LittleEndian.encode 8 bits.toNat)).toUInt64 = bits := by
    rw [LittleEndian.decode_encode, Nat.mod_eq_of_lt (by simpa using bits.toNat_lt)]
    simp
  have := hr.bind (f := fun bs => Pure.pure (LittleEndian.decode bs).toUInt64) (Decoder.Reads.pure _)
  rw [hv, List.append_nil] at this
  exact this

theorem S24.decode_bytes (v : Int) (h : S24.Fits v) :
    S24.decode (S24.bytes v).1 (S24.bytes v).2.1 (S24.bytes v).2.2 = v := by
  obtain ⟨hlo, hhi⟩ := h
  simp only [S24.min, S24.max] at hlo hhi
  have hu : ((v % 16777216).toNat : Int) = v % 16777216 := Int.toNat_of_nonneg (by omega)
  simp only [S24.bytes, S24.decode, Nat.toUInt8_eq, UInt8.toNat_ofNat']
  split <;> omega

theorem Codes.s24 (v : Int) (h : S24.Fits v) : Codes (Encoder.s24 v) Decoder.s24 v := by
  refine ⟨S24.encode v, fun b => by simp [Encoder.s24, Encoder.checked, Buffer.writeS24, h], ?_⟩
  have h3 : (Decoder.bytes 3).Reads (S24.encode v) (S24.encode v) := by
    simpa [S24.encode] using Decoder.reads_bytes (S24.encode v)
  rw [← List.append_nil (S24.encode v)]
  unfold Decoder.s24
  refine h3.bind ?_
  simp only [S24.encode]
  rw [S24.decode_bytes v h]
  exact Decoder.Reads.pure v

/-! ## Seven-bit groups -/

theorem VarInt.encode_of_lt {n : Nat} (h : n < 128) : VarInt.encode n = [n.toUInt8] := by
  rw [VarInt.encode, if_pos h]

theorem VarInt.encode_of_le {n : Nat} (h : 128 ≤ n) :
    VarInt.encode n = (n % 128 + 128).toUInt8 :: VarInt.encode (n / 128) := by
  rw [VarInt.encode, if_neg (by omega)]

theorem VarInt.continues_iff (x : Nat) (hx : x < 256) :
    (x.toUInt8 &&& 0x80 == 0) = decide (x < 128) := by
  have key : ∀ i : Fin 256, (i.val.toUInt8 &&& 0x80 == 0) = decide (i.val < 128) := by
    decide +kernel
  exact key ⟨x, hx⟩

theorem VarInt.payload (x : Nat) (hx : x < 256) : (x.toUInt8 &&& 0x7f).toNat = x % 128 := by
  have key : ∀ i : Fin 256, (i.val.toUInt8 &&& 0x7f).toNat = i.val % 128 := by
    decide +kernel
  exact key ⟨x, hx⟩

/-- OR-ing the group at `shift = s` into an accumulator holding the bits below `s` -/
theorem VarInt.accumulate (V s : Nat) (hV : V < 2 ^ 32) (hs : s ≤ 28) (acc x : UInt32)
    (hacc : acc.toNat = V % 2 ^ s) (hx : x.toNat = V / 2 ^ s % 128) :
    (acc ||| (x <<< s.toUInt32)).toNat = V % 2 ^ (s + 7) := by
  have hpow : 0 < 2 ^ s := Nat.two_pow_pos s
  have hfit : x.toNat * 2 ^ s < 2 ^ 32 := by
    have h1 : x.toNat * 2 ^ s ≤ V / 2 ^ s * 2 ^ s := Nat.mul_le_mul_right _ (hx ▸ Nat.mod_le _ _)
    have h2 : V / 2 ^ s * 2 ^ s ≤ V := Nat.div_mul_le_self V (2 ^ s)
    omega
  have hshift : (x <<< s.toUInt32).toNat = 2 ^ s * x.toNat := by
    rw [UInt32.toNat_shiftLeft, Nat.toUInt32_eq, UInt32.toNat_ofNat',
      Nat.mod_eq_of_lt (show s < 2 ^ 32 by omega), Nat.mod_eq_of_lt (show s < 32 by omega),
      Nat.shiftLeft_eq, Nat.mod_eq_of_lt hfit, Nat.mul_comm]
  have hsplit : V % 2 ^ (s + 7) = 2 ^ s * x.toNat + V % 2 ^ s := by
    rw [Nat.pow_add, Nat.mod_mul, hx]
    ring
  rw [UInt32.toNat_or, hshift, hacc, hsplit, Nat.or_comm,
    Nat.two_pow_add_eq_or_of_lt (Nat.mod_lt _ hpow)]

theorem VarInt.group_toNat (u : Nat) (hu : u < 256) :
    (u.toUInt8 &&& 0x7f).toUInt32.toNat = u % 128 := by
  rw [UInt8.toNat_toUInt32, VarInt.payload u hu]

theorem Decoder.groups_last (V s k : Nat) (hV : V < 2 ^ 32) (hs : s ≤ 28) (acc : UInt32)
    (hacc : acc.toNat = V % 2 ^ s) (hlast : V / 2 ^ s < 128) :
    (Decoder.groups (k + 1) s.toUInt32 acc).Reads (VarInt.encode (V / 2 ^ s)) V.toUInt32 := by
  have hwhole : V % 2 ^ (s + 7) = V := by
    apply Nat.mod_eq_of_lt
    rw [Nat.pow_add]
    have := Nat.div_lt_iff_lt_mul (Nat.two_pow_pos s) |>.mp hlast
    omega
  have hacc' : (acc ||| ((V / 2 ^ s).toUInt8 &&& 0x7f).toUInt32 <<< s.toUInt32) = V.toUInt32 := by
    apply UInt32.toNat_inj.mp
    rw [VarInt.accumulate V s hV hs acc _ hacc (by rw [VarInt.group_toNat _ (by omega)]), hwhole,
      Nat.toUInt32_eq, UInt32.toNat_ofNat', Nat.mod_eq_of_lt hV]
  rw [VarInt.encode_of_lt hlast, ← List.append_nil [_], Decoder.groups]
  refine (Decoder.reads_byte _).bind ?_
  simp only [VarInt.continues_iff _ (show V / 2 ^ s < 256 by omega), hlast, decide_true, if_true]
  rw [hacc']
  exact Decoder.Reads.pure _

/-- One group of the loop followed by more: the accumulator gains its seven bits. -/
theorem Decoder.groups_more (V s k : Nat) (hV : V < 2 ^ 32) (hs : s ≤ 28) (acc : UInt32)
    (hacc : acc.toNat = V % 2 ^ s) (hmore : 128 ≤ V / 2 ^ s)
    (hnext : ∀ acc' : UInt32, acc'.toNat = V % 2 ^ (s + 7) →
      (Decoder.groups k (s + 7).toUInt32 acc').Reads (VarInt.encode (V / 2 ^ (s + 7))) V.toUInt32) :
    (Decoder.groups (k + 1) s.toUInt32 acc).Reads (VarInt.encode (V / 2 ^ s)) V.toUInt32 := by
  have hdiv : V / 2 ^ s / 128 = V / 2 ^ (s + 7) := by
    rw [Nat.div_div_eq_div_mul, Nat.pow_add]
  have hshift : s.toUInt32 + 7 = (s + 7).toUInt32 := by
    apply UInt32.toNat_inj.mp
    simp only [Nat.toUInt32_eq, UInt32.toNat_add, UInt32.toNat_ofNat', UInt32.toNat_ofNat]
    omega
  rw [VarInt.encode_of_le hmore, hdiv, ← List.singleton_append, Decoder.groups]
  refine (Decoder.reads_byte _).bind ?_
  have hbyte : V / 2 ^ s % 128 + 128 < 256 := by omega
  simp only [VarInt.continues_iff _ hbyte, show ¬(V / 2 ^ s % 128 + 128 < 128) by omega,
    decide_false, Bool.false_eq_true, if_false]
  rw [hshift]
  apply hnext
  apply VarInt.accumulate V s hV hs acc _ hacc
  rw [VarInt.group_toNat _ hbyte]
  omega

/-- The group loop reads the groups of `V / 2 ^ s` as `V`, given the bits below `s` and enough
groups left for the rest: a word of 32 bits never needs a sixth byte. -/
theorem Decoder.groups_reads (V : Nat) (hV : V < 2 ^ 32) :
    ∀ k s (acc : UInt32), s + 7 * (k + 1) = 35 → acc.toNat = V % 2 ^ s →
      (Decoder.groups (k + 1) s.toUInt32 acc).Reads (VarInt.encode (V / 2 ^ s)) V.toUInt32 := by
  intro k
  induction k with
  | zero =>
    intro s acc hs hacc
    have hlast : V / 2 ^ s < 128 := by
      obtain rfl : s = 28 := by omega
      omega
    exact Decoder.groups_last V s 0 hV (by omega) acc hacc hlast
  | succ k ih =>
    intro s acc hs hacc
    by_cases hlast : V / 2 ^ s < 128
    · exact Decoder.groups_last V s (k + 1) hV (by omega) acc hacc hlast
    · exact Decoder.groups_more V s (k + 1) hV (by omega) acc hacc (by omega)
        (fun acc' h => ih (s + 7) acc' (by omega) h)

theorem Decoder.reads_u32 (n : Nat) (hn : n < 2 ^ 32) :
    Decoder.u32.Reads (VarInt.encode n) n.toUInt32 := by
  have h := Decoder.groups_reads n hn 4 0 0 (by omega) (by simp [Nat.mod_one])
  simpa [Decoder.u32] using h

theorem Codes.u32 (v : UInt32) : Codes (Encoder.u32 v) Decoder.u32 v := by
  refine ⟨VarInt.encode v.toNat, fun _ => rfl, ?_⟩
  simpa using Decoder.reads_u32 v.toNat v.toNat_lt

theorem Decoder.reads_u30 (n : Nat) (hn : n ≤ VarInt.maxU30) :
    Decoder.u30.Reads (VarInt.encode n) n.toUInt32 := by
  have hn32 : n < 2 ^ 32 := by simp only [VarInt.maxU30] at hn; omega
  have hval : n.toUInt32.toNat = n := by simp; omega
  unfold Decoder.u30
  refine Decoder.Reads.position_bind fun _ => ?_
  rw [← List.append_nil (VarInt.encode n)]
  refine (Decoder.reads_u32 n hn32).bind ?_
  rw [hval, if_pos hn]
  exact Decoder.Reads.pure _

theorem Codes.u30 (v : UInt32) (h : v.toNat ≤ VarInt.maxU30) : Codes (Encoder.u30 v) Decoder.u30 v := by
  refine ⟨VarInt.encode v.toNat, fun b => ?_, by simpa using Decoder.reads_u30 v.toNat h⟩
  simp [Encoder.u30, Encoder.checked, Buffer.writeU30, Buffer.writeU32, h]

theorem Codes.count (what : String) (n : Nat) (h : n ≤ VarInt.maxU30) :
    Codes (Encoder.count what n) Decoder.count n := by
  have hn32 : n < 2 ^ 32 := by simp only [VarInt.maxU30] at h; omega
  refine ⟨VarInt.encode n, fun b => by simp [Encoder.count, Encoder.checked, Buffer.writeCount, h], ?_⟩
  rw [← List.append_nil (VarInt.encode n)]
  unfold Decoder.count
  refine (Decoder.reads_u30 n h).bind ?_
  have hval : n.toUInt32.toNat = n := by simp; omega
  rw [hval]
  exact Decoder.Reads.pure n

theorem Codes.s32 (v : Int32) : Codes (Encoder.s32 v) Decoder.s32 v := by
  refine ⟨VarInt.encode v.toUInt32.toNat, fun _ => rfl, ?_⟩
  rw [← List.append_nil (VarInt.encode _)]
  unfold Decoder.s32
  refine (Decoder.reads_u32 _ v.toUInt32.toNat_lt).bind ?_
  simpa using Decoder.Reads.pure v

/-! ## Strings -/

theorem ByteArray.toList_loop (bs : ByteArray) (i : Nat) (r : List UInt8) :
    ByteArray.toList.loop bs i r = r.reverse ++ bs.data.toList.drop i := by
  induction h : bs.size - i using Nat.strongRecOn generalizing i r with
  | ind k ih =>
    rw [ByteArray.toList.loop.eq_1]
    split
    · rename_i hi
      have hi' : i < bs.data.toList.length := by rw [Array.length_toList, ByteArray.size_data]; exact hi
      have hget : bs.get! i = bs.data.toList[i] := by
        cases bs with
        | mk data =>
          simp only [ByteArray.get!, Array.getElem_toList]
          exact getElem!_pos data i _
      rw [ih (bs.size - (i + 1)) (by omega) (i + 1) _ rfl, List.drop_eq_getElem_cons hi', hget]
      simp
    · rename_i hi
      rw [List.drop_eq_nil_of_le (by rw [Array.length_toList, ByteArray.size_data]; omega),
        List.append_nil]

theorem ByteArray.toList_eq (bs : ByteArray) : bs.toList = bs.data.toList := by
  simp [ByteArray.toList, ByteArray.toList_loop]

theorem String.fromUTF8?_toUTF8 (s : String) : String.fromUTF8? s.toUTF8 = some s := by
  simp [String.fromUTF8?, String.fromUTF8, s.isValidUTF8]

theorem Codes.string (what : String) (s : String) (h : s.utf8ByteSize ≤ VarInt.maxU30) :
    Codes (Encoder.string what s) Decoder.string s := by
  have hlen : s.toUTF8.toList.length = s.utf8ByteSize := by
    rw [ByteArray.toList_eq, Array.length_toList, ByteArray.size_data]
    rfl
  obtain ⟨b₁, w₁, r₁⟩ := Codes.count what s.utf8ByteSize h
  refine ⟨b₁ ++ s.toUTF8.toList, w₁.bind (Encoder.writes_raw _), ?_⟩
  rw [← List.append_nil s.toUTF8.toList]
  unfold Decoder.string
  refine r₁.bind (Decoder.Reads.position_bind fun start => ?_)
  rw [← hlen]
  refine (Decoder.reads_bytes _).bind ?_
  have hmk : ByteArray.mk s.toUTF8.toList.toArray = s.toUTF8 := by
    rw [ByteArray.toList_eq]
  simp only [hmk, String.fromUTF8?_toUTF8]
  exact Decoder.Reads.pure s

/-! ## Lists -/

theorem Decoder.Reads.bind_pure {α β : Type} {d : Decoder α} {bs : List UInt8} {x : α} {g : α → β}
    (h : d.Reads bs x) : Decoder.Reads (d >>= fun a => Pure.pure (g a)) bs (g x) := by
  simpa using h.bind (f := fun a => Pure.pure (g a)) (Decoder.Reads.pure (g x))

theorem Codes.bind_pure' {α β : Type} {e : Encoder Unit} {d : Decoder α} {x : α} {g : α → β}
    (h : Codes e d x) : Codes e (d >>= fun a => Pure.pure (g a)) (g x) := by
  obtain ⟨bs, w, r⟩ := h
  exact ⟨bs, w, r.bind_pure⟩

/-- items written one after another are read back one after another, as many as were written -/
theorem Codes.each {α β : Type} {item : α → Encoder Unit} {dec : Decoder β} {f : α → β} :
    ∀ xs : List α, (∀ x ∈ xs, Codes (item x) dec (f x)) →
      Codes (Encoder.each item xs) (Decoder.many xs.length dec) (xs.map f)
  | [], _ => Codes.pure []
  | x :: xs, h => by
    have hx := h x List.mem_cons_self
    have hxs := Codes.each xs fun y hy => h y (List.mem_cons_of_mem x hy)
    exact hx.bind (hxs.bind_pure' (g := fun as => f x :: as))

theorem Codes.run {α : Type} {e : Encoder Unit} {d : Decoder α} {x : α} (h : Codes e d x) :
    ∃ bs, Encoder.run e = .ok bs ∧ Decoder.run d bs = .ok x :=
  let ⟨bs, w, r⟩ := h
  ⟨bs, w.run, r.run⟩

theorem Codes.each_self {α : Type} {item : α → Encoder Unit} {dec : Decoder α} (xs : List α)
    (h : ∀ x ∈ xs, Codes (item x) dec x) :
    Codes (Encoder.each item xs) (Decoder.many xs.length dec) xs := by
  simpa using Codes.each (f := id) xs h

/-- a count, then that many items -/
theorem Codes.counted {α β : Type} {item : α → Encoder Unit} {dec : Decoder β} {ys : List β}
    (what : String) (xs : List α) (hlen : xs.length ≤ VarInt.maxU30)
    (h : Codes (Encoder.each item xs) (Decoder.many xs.length dec) ys) :
    Codes (Encoder.counted what item xs) (Decoder.count >>= fun n => Decoder.many n dec) ys :=
  (Codes.count what xs.length hlen).bind h

/-- a counted list with more after it -/
theorem Codes.counted_bind {α β γ : Type} {item : α → Encoder Unit} {dec : Decoder β}
    {ys : List β} {e : Encoder Unit} {k : List β → Decoder γ} {y : γ}
    (what : String) (xs : List α) (hlen : xs.length ≤ VarInt.maxU30)
    (h : Codes (Encoder.each item xs) (Decoder.many xs.length dec) ys) (hk : Codes e (k ys) y) :
    Codes (Encoder.counted what item xs >>= fun _ => e)
      (Decoder.count >>= fun n => Decoder.many n dec >>= k) y := by
  unfold Encoder.counted
  rw [bind_assoc]
  exact (Codes.count what xs.length hlen).bind (h.bind hk)

end AbcKit
