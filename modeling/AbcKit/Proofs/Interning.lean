import AbcKit.Pool
import Mathlib
/-!
Interning only appends. A table keeps every value it holds at its index, so an index once handed
out names the same value for good, and every step on the constant pool leaves a pool that extends
the one it started from (`Pool.Grows`).

The table's map records the first position of every value (`Table.lookup_get?`), so `find?`
gives the first index holding a value (`Table.firstIndex?`) and interning hands out that index, or
appends the value and hands out the new size (`Table.intern_firstIndex?`). Indices are 32-bit
words: while a table holds fewer than 2^32 values (`Pool.Small`) no index it hands out wraps, and
none is 0, the index that means "none".
-/
namespace AbcKit

namespace Lookup

variable {α : Type} [BEq α] [LawfulBEq α] {l : Lookup α} {vs : List α} {v : α}

theorem Indexes.get?_eq_some_iff (h : l.Indexes vs) {i : UInt32} :
    l.get? v = some i ↔ ∃ pos : Nat, vs[pos]? = some v ∧ i = pos.toUInt32 := by
  rw [h.get?_eq, Option.map_eq_some_iff]
  constructor
  · rintro ⟨pos, hpos, rfl⟩
    obtain ⟨hlt, hget, -⟩ := List.idxOf?_eq_some_iff.mp hpos
    exact ⟨pos, List.getElem?_eq_some_iff.mpr ⟨hlt, hget⟩, rfl⟩
  · rintro ⟨pos, hpos, rfl⟩
    obtain ⟨hlt, hget⟩ := List.getElem?_eq_some_iff.mp hpos
    refine ⟨pos, List.idxOf?_eq_some_iff.mpr ⟨hlt, hget, fun j hj hjv => ?_⟩, rfl⟩
    -- the values are distinct, so no earlier position holds it
    have := (h.nodup.getElem_inj_iff).mp (hjv.trans hget.symm)
    omega

end Lookup

namespace Table

variable {α : Type} [BEq α] {t t' : Table α} {v w : α} {i k : Nat}

@[simp] theorem length_toList (t : Table α) : t.toList.length = t.size := by
  simp [toList, size]

theorem get?_eq_some : t.get? i = some v ↔ i ≠ 0 ∧ t.toList[i - 1]? = some v := by
  unfold get? toList
  by_cases hi : i = 0 <;> simp [hi]

theorem get?_bounds (h : t.get? i = some v) : 1 ≤ i ∧ i ≤ t.size := by
  obtain ⟨hi, hv⟩ := get?_eq_some.mp h
  have := (List.getElem?_eq_some_iff.mp hv).1
  simp only [length_toList] at this
  omega

/-- `t'` holds the values of `t` at their indices, and perhaps more after them -/
def Extends (t t' : Table α) : Prop := t.toList <+: t'.toList

theorem Extends.refl (t : Table α) : t.Extends t := List.prefix_refl _

theorem Extends.trans {t'' : Table α} (h : t.Extends t') (h' : t'.Extends t'') :
    t.Extends t'' := List.IsPrefix.trans h h'

theorem Extends.size_le (h : t.Extends t') : t.size ≤ t'.size := by
  simpa using h.length_le

theorem Extends.get? (h : t.Extends t') (hv : t.get? i = some v) : t'.get? i = some v := by
  obtain ⟨hi, hv⟩ := get?_eq_some.mp hv
  obtain ⟨hlt, rfl⟩ := List.getElem?_eq_some_iff.mp hv
  exact get?_eq_some.mpr ⟨hi, List.prefix_iff_getElem?.mp h _ hlt⟩

@[simp] theorem toList_push (t : Table α) (v : α) : (t.push v).1.toList = t.toList ++ [v] := by
  simp [push, toList]

@[simp] theorem size_push (t : Table α) (v : α) : (t.push v).1.size = t.size + 1 := by
  simp [push, size]

theorem push_index (t : Table α) (v : α) : (t.push v).2 = (t.size + 1).toUInt32 := by
  simp [push, size]

theorem push_extends (t : Table α) (v : α) : t.Extends (t.push v).1 := by
  simp [Extends]

theorem intern_extends (t : Table α) (v : α) : t.Extends (t.intern v).1 := by
  unfold intern
  split
  · exact Extends.refl t
  · exact push_extends t v

/-- `i` is an index the table hands out: a position from 1 to its size, as a 32-bit word -/
def IsIndex (t : Table α) (i : UInt32) : Prop := ∃ n, i = n.toUInt32 ∧ 1 ≤ n ∧ n ≤ t.size

theorem IsIndex.mono {i : UInt32} (h : t.IsIndex i) (ht : t.Extends t') : t'.IsIndex i :=
  let ⟨n, hi, h1, hn⟩ := h
  ⟨n, hi, h1, Nat.le_trans hn ht.size_le⟩

theorem IsIndex.toNat_le {i : UInt32} (h : t.IsIndex i) : i.toNat ≤ t.size := by
  obtain ⟨n, rfl, -, hn⟩ := h
  simp only [Nat.toUInt32_eq, UInt32.toNat_ofNat']
  exact Nat.le_trans (Nat.mod_le _ _) hn

theorem IsIndex.ne_zero {i : UInt32} (h : t.IsIndex i) (hs : t.size < 2 ^ 32) : i ≠ 0 := by
  obtain ⟨n, rfl, h1, hn⟩ := h
  intro h0
  have := congrArg UInt32.toNat h0
  simp only [Nat.toUInt32_eq, UInt32.toNat_ofNat', UInt32.toNat_zero] at this
  omega

theorem intern_of_find? {i : UInt32} (h : t.find? v = some i.toNat) : t.intern v = (t, i) := by
  unfold find? at h
  unfold intern
  split
  · next position hp =>
    rw [hp, Option.map_some, Option.some.injEq] at h
    rw [UInt32.toNat_inj.mp h]
  · next hp =>
    rw [hp] at h
    cases h

/-- the first index holding `v`: one more than its first position -/
def firstIndex? (t : Table α) (v : α) : Option Nat := (t.toList.idxOf? v).map (· + 1)

variable [LawfulBEq α]

theorem firstIndex?_eq_none : t.firstIndex? v = none ↔ v ∉ t.toList := by
  simp [firstIndex?]

theorem firstIndex?_eq_some_iff :
    t.firstIndex? v = some k ↔ t.get? k = some v ∧ ∀ j < k, t.get? j ≠ some v := by
  simp only [firstIndex?, Option.map_eq_some_iff, List.idxOf?_eq_some_iff, get?_eq_some]
  constructor
  · rintro ⟨i, ⟨hi, hv, hfirst⟩, rfl⟩
    refine ⟨⟨by omega, by simpa using List.getElem?_eq_some_iff.mpr ⟨hi, hv⟩⟩, fun j hj hjv => ?_⟩
    obtain ⟨hj0, hjv⟩ := get?_eq_some.mp hjv
    obtain ⟨hlt, hjv⟩ := List.getElem?_eq_some_iff.mp hjv
    exact hfirst (j - 1) (by omega) hjv
  · rintro ⟨⟨hk, hv⟩, hfirst⟩
    obtain ⟨hlt, hv⟩ := List.getElem?_eq_some_iff.mp hv
    refine ⟨k - 1, ⟨hlt, hv, fun j hj hjv => hfirst (j + 1) (by omega) ?_⟩, by omega⟩
    exact get?_eq_some.mpr ⟨by omega, by simpa using List.getElem?_eq_some_iff.mpr ⟨_, hjv⟩⟩

theorem get?_of_firstIndex? (h : t.firstIndex? v = some k) : t.get? k = some v :=
  (firstIndex?_eq_some_iff.mp h).1

theorem firstIndex?_bounds (h : t.firstIndex? v = some k) : 1 ≤ k ∧ k ≤ t.size :=
  get?_bounds (get?_of_firstIndex? h)

theorem firstIndex?_inj (h : t.firstIndex? v = some k) (h' : t.firstIndex? w = some k) : v = w :=
  Option.some.inj ((get?_of_firstIndex? h).symm.trans (get?_of_firstIndex? h'))

theorem Extends.firstIndex? (ht : t.Extends t') (h : t.firstIndex? v = some k) :
    t'.firstIndex? v = some k := by
  obtain ⟨hk, hfirst⟩ := firstIndex?_eq_some_iff.mp h
  refine firstIndex?_eq_some_iff.mpr ⟨ht.get? hk, fun j hj hjv => ?_⟩
  obtain ⟨hj0, hjv'⟩ := get?_eq_some.mp hjv
  have hjle : j ≤ t.size := Nat.le_trans (Nat.le_of_lt hj) (get?_bounds hk).2
  obtain ⟨w, hw⟩ : ∃ w, t.get? j = some w :=
    ⟨_, get?_eq_some.mpr ⟨hj0, List.getElem?_eq_getElem (by simp only [length_toList]; omega)⟩⟩
  exact hfirst j hj (hw.trans ((ht.get? hw).symm.trans hjv))

theorem lookup_get? (t : Table α) (v : α) :
    t.lookup.get? v = (t.toList.idxOf? v).map Nat.toUInt32 := by
  rw [t.lookup_eq]
  exact Lookup.get?_ofValues _ _

theorem find?_eq_firstIndex? (t : Table α) (v : α) :
    t.find? v = (t.firstIndex? v).map fun k => k.toUInt32.toNat := by
  simp [find?, firstIndex?, lookup_get?, Option.map_map, Function.comp_def]

theorem find?_eq_firstIndex?_of_lt (hs : t.size < 2 ^ 32) : t.find? v = t.firstIndex? v := by
  rw [find?_eq_firstIndex?]
  cases h : t.firstIndex? v with
  | none => rfl
  | some k =>
    have hk := (firstIndex?_bounds h).2
    rw [Option.map_some, Nat.toUInt32_eq, UInt32.toNat_ofNat', Nat.mod_eq_of_lt (by omega)]

theorem Extends.find? {n : Nat} (ht : t.Extends t') (h : t.find? v = some n) :
    t'.find? v = some n := by
  rw [find?_eq_firstIndex?] at h ⊢
  obtain ⟨k, hk, rfl⟩ := Option.map_eq_some_iff.mp h
  rw [ht.firstIndex? hk, Option.map_some]

theorem intern_of_firstIndex? (h : t.firstIndex? v = some k) : t.intern v = (t, k.toUInt32) := by
  obtain ⟨i, hi, rfl⟩ := Option.map_eq_some_iff.mp h
  simp [intern, lookup_get?, hi]

theorem firstIndex?_isSome : (t.firstIndex? v).isSome ↔ v ∈ t.toList := by
  simp [firstIndex?]

theorem intern_of_mem (h : v ∈ t.toList) :
    ∃ k, t.firstIndex? v = some k ∧ t.intern v = (t, k.toUInt32) :=
  let ⟨k, hk⟩ := Option.isSome_iff_exists.mp (firstIndex?_isSome.mpr h)
  ⟨k, hk, intern_of_firstIndex? hk⟩

theorem intern_of_not_mem (h : v ∉ t.toList) : t.intern v = t.push v := by
  simp [intern, lookup_get?, List.idxOf?_eq_none_iff.mpr h]

/-- interning hands out the first index of the value in the table it leaves: the index it had,
or the new size -/
theorem intern_firstIndex? (t : Table α) (v : α) :
    ∃ k, (t.intern v).1.firstIndex? v = some k ∧ (t.intern v).2 = k.toUInt32 := by
  cases h : t.firstIndex? v with
  | some k => exact ⟨k, by rw [intern_of_firstIndex? h]; exact ⟨h, rfl⟩⟩
  | none =>
    have hv := firstIndex?_eq_none.mp h
    have hnone : t.toList.findIdx? (· == v) = none := List.idxOf?_eq_none_iff.mpr hv
    refine ⟨t.size + 1, ?_, by rw [intern_of_not_mem hv, push_index]⟩
    rw [intern_of_not_mem hv]
    simp [firstIndex?, List.idxOf?, hnone]

theorem find?_intern (t : Table α) (v : α) :
    (t.intern v).1.find? v = some (t.intern v).2.toNat := by
  obtain ⟨k, hk, hi⟩ := intern_firstIndex? t v
  rw [find?_eq_firstIndex?, hk, hi, Option.map_some]

theorem intern_isIndex (t : Table α) (v : α) : (t.intern v).1.IsIndex (t.intern v).2 :=
  let ⟨k, hk, hi⟩ := intern_firstIndex? t v
  ⟨k, hi, firstIndex?_bounds hk⟩

end Table

/-- every table of `q` extends the same table of `p` -/
structure Pool.Extends (p q : Pool) : Prop where
  ints : p.ints.Extends q.ints
  uints : p.uints.Extends q.uints
  doubles : p.doubles.Extends q.doubles
  strings : p.strings.Extends q.strings
  namespaces : p.namespaces.Extends q.namespaces
  nsSets : p.nsSets.Extends q.nsSets
  names : p.names.Extends q.names

namespace Pool

theorem Extends.refl (p : Pool) : p.Extends p :=
  ⟨.refl _, .refl _, .refl _, .refl _, .refl _, .refl _, .refl _⟩

theorem Extends.trans {p q r : Pool} (h : p.Extends q) (h' : q.Extends r) : p.Extends r :=
  ⟨h.ints.trans h'.ints, h.uints.trans h'.uints, h.doubles.trans h'.doubles,
    h.strings.trans h'.strings, h.namespaces.trans h'.namespaces, h.nsSets.trans h'.nsSets,
    h.names.trans h'.names⟩

instance : IsPreorder Pool Pool.Extends where
  refl := Extends.refl
  trans _ _ _ := Extends.trans

/-- every table holds fewer than 2^32 values, so no index it hands out wraps to 0 -/
structure Small (p : Pool) : Prop where
  ints : p.ints.size < 2 ^ 32
  uints : p.uints.size < 2 ^ 32
  doubles : p.doubles.size < 2 ^ 32
  strings : p.strings.size < 2 ^ 32
  namespaces : p.namespaces.size < 2 ^ 32
  nsSets : p.nsSets.size < 2 ^ 32
  names : p.names.size < 2 ^ 32

theorem Small.of_extends {p q : Pool} (h : q.Small) (hpq : p.Extends q) : p.Small :=
  ⟨Nat.lt_of_le_of_lt hpq.ints.size_le h.ints, Nat.lt_of_le_of_lt hpq.uints.size_le h.uints,
    Nat.lt_of_le_of_lt hpq.doubles.size_le h.doubles,
    Nat.lt_of_le_of_lt hpq.strings.size_le h.strings,
    Nat.lt_of_le_of_lt hpq.namespaces.size_le h.namespaces,
    Nat.lt_of_le_of_lt hpq.nsSets.size_le h.nsSets, Nat.lt_of_le_of_lt hpq.names.size_le h.names⟩

/-- a step on the pool that only appends to its tables -/
def Grows {α : Type} (act : StateM Pool α) : Prop := ∀ p : Pool, p.Extends (act p).2

theorem Grows.pure {α : Type} (x : α) : Grows (Pure.pure x : StateM Pool α) := by
  intro p
  exact Extends.refl p

theorem Grows.bind {α β : Type} {x : StateM Pool α} {f : α → StateM Pool β} (hx : Grows x)
    (hf : ∀ a, Grows (f a)) : Grows (x >>= f) := by
  intro p
  exact (hx p).trans (hf (x p).1 (x p).2)

theorem int_grows (v : Int32) : Grows (Pool.int v) := by
  intro p
  exact { Extends.refl p with ints := Table.intern_extends p.ints v }

theorem uint_grows (v : UInt32) : Grows (Pool.uint v) := by
  intro p
  exact { Extends.refl p with uints := Table.intern_extends p.uints v }

theorem double_grows (bits : UInt64) : Grows (Pool.double bits) := by
  intro p
  exact { Extends.refl p with doubles := Table.intern_extends p.doubles bits }

theorem string_grows (s : String) : Grows (Pool.string s) := by
  intro p
  exact { Extends.refl p with strings := Table.intern_extends p.strings s }

theorem namespaceEntry_grows (e : NamespaceEntry) : Grows (Pool.namespaceEntry e) := by
  intro p
  exact { Extends.refl p with namespaces := Table.intern_extends p.namespaces e }

theorem nsSetEntry_grows (e : List UInt32) : Grows (Pool.nsSetEntry e) := by
  intro p
  exact { Extends.refl p with nsSets := Table.intern_extends p.nsSets e }

theorem nameEntry_grows (e : NameEntry) : Grows (Pool.nameEntry e) := by
  intro p
  exact { Extends.refl p with names := Table.intern_extends p.names e }

theorem ns_grows (space : Namespace) : Grows (Pool.ns space) :=
  (string_grows _).bind fun _ => namespaceEntry_grows _

theorem nsList_grows : ∀ set : List Namespace, Grows (Pool.nsList set)
  | [] => Grows.pure _
  | space :: rest => (ns_grows space).bind fun _ => (nsList_grows rest).bind fun _ => Grows.pure _

theorem nsSet_grows (set : List Namespace) : Grows (Pool.nsSet set) :=
  (nsList_grows set).bind fun _ => nsSetEntry_grows _

mutual

theorem name_grows : ∀ n : Name, Grows (Pool.name n)
  | .qname space _ _ => (ns_grows space).bind fun _ => (string_grows _).bind fun _ =>
    nameEntry_grows _
  | .rtqName _ _ => (string_grows _).bind fun _ => nameEntry_grows _
  | .rtqNameL _ => nameEntry_grows _
  | .multiname _ set _ => (string_grows _).bind fun _ => (nsSet_grows set).bind fun _ =>
    nameEntry_grows _
  | .multinameL set _ => (nsSet_grows set).bind fun _ => nameEntry_grows _
  | .typeName base params => (name_grows base).bind fun _ => (nameList_grows params).bind fun _ =>
    nameEntry_grows _

theorem nameList_grows : ∀ ns : List Name, Grows (Pool.nameList ns)
  | [] => Grows.pure _
  | n :: rest => (name_grows n).bind fun _ => (nameList_grows rest).bind fun _ => Grows.pure _

end

theorem qname_grows (space : Namespace) (n : String) : Grows (Pool.qname space n) :=
  (ns_grows space).bind fun _ => (string_grows n).bind fun _ => nameEntry_grows _

/-! Indices of the constants a default value or a signature refers to. -/

theorem int_isIndex (v : Int32) (p : Pool) : (Pool.int v p).2.ints.IsIndex (Pool.int v p).1 :=
  Table.intern_isIndex p.ints v

theorem uint_isIndex (v : UInt32) (p : Pool) :
    (Pool.uint v p).2.uints.IsIndex (Pool.uint v p).1 :=
  Table.intern_isIndex p.uints v

theorem double_isIndex (bits : UInt64) (p : Pool) :
    (Pool.double bits p).2.doubles.IsIndex (Pool.double bits p).1 :=
  Table.intern_isIndex p.doubles bits

theorem string_isIndex (s : String) (p : Pool) :
    (Pool.string s p).2.strings.IsIndex (Pool.string s p).1 :=
  Table.intern_isIndex p.strings s

theorem ns_isIndex (space : Namespace) (p : Pool) :
    (Pool.ns space p).2.namespaces.IsIndex (Pool.ns space p).1 :=
  Table.intern_isIndex _ _

end Pool

end AbcKit
