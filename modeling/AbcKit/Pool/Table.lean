/-!
A deduplicating table: values in insertion order, addressed by 1-based 32-bit indices (0 means
none), with a lookup map from each value to the position of its first occurrence.

`intern` consults the map and returns the index of the value it finds, or appends the value,
records its position and returns the new size; `push` always appends and records the position
only for a value the map does not hold yet, so lookups keep the first index. Positions and indices
are 32-bit words, as the table counts them. Values are never removed or moved, so an index once
handed out keeps naming the same value.

The map is kept as a list of entries in the order the values first appear. The table carries the
invariant that ties it to the values (`Table.lookup_eq`): it holds exactly the first position of
every value, so two tables with the same values are the same table.
-/
namespace AbcKit

/-- a map from values to positions: its entries in the order they were recorded -/
abbrev Lookup (α : Type) := List (α × UInt32)

namespace Lookup

variable {α : Type} [BEq α]

/-- the position recorded for `v` -/
def get? (l : Lookup α) (v : α) : Option UInt32 := l.lookup v

/-- record `position` for `v`, unless a position is recorded for it already -/
def insertIfNew (l : Lookup α) (v : α) (position : UInt32) : Lookup α :=
  if (l.get? v).isSome then l else l ++ [(v, position)]

/-- the map of a list of values: the first position of each, as a 32-bit word -/
def ofValues (vs : List α) : Lookup α :=
  vs.zipIdx.foldl (fun l p => l.insertIfNew p.1 p.2.toUInt32) []

/-- appending a value records its position when it is new -/
theorem ofValues_concat (vs : List α) (v : α) :
    ofValues (vs ++ [v]) = (ofValues vs).insertIfNew v vs.length.toUInt32 := by
  simp [ofValues, List.zipIdx_append, List.foldl_append]

theorem insertIfNew_of_none {l : Lookup α} {v : α} {position : UInt32} (h : l.get? v = none) :
    l.insertIfNew v position = l ++ [(v, position)] := by
  simp [insertIfNew, h]

/-- `l` indexes the values `vs`, which are distinct: it records the position of each -/
structure Indexes (l : Lookup α) (vs : List α) : Prop where
  eq : l = ofValues vs
  nodup : vs.Nodup

theorem Indexes.nil : Indexes ([] : Lookup α) [] := ⟨rfl, .nil⟩

variable [LawfulBEq α]

/-- recording a position for `v` changes only what a lookup of `v` gives, and only when `v` has
none yet -/
theorem get?_insertIfNew (l : Lookup α) (v w : α) (position : UInt32) :
    (l.insertIfNew v position).get? w = (l.get? w).or (if v == w then some position else none) := by
  unfold insertIfNew
  by_cases hvw : v = w
  · subst hvw
    split
    · next hv =>
      obtain ⟨q, hq⟩ := Option.isSome_iff_exists.mp hv
      simp [hq]
    · next hv => simp_all [get?, List.lookup_append]
  · have hne : (w == v) = false := beq_false_of_ne (Ne.symm hvw)
    split <;> simp [get?, List.lookup_append, List.lookup_cons, hne, hvw]

/-- the map of a list of values records the first position of each -/
theorem get?_ofValues (vs : List α) (w : α) :
    (ofValues vs).get? w = (vs.idxOf? w).map Nat.toUInt32 := by
  -- on the values but the last, then the last
  induction hn : vs.length generalizing vs with
  | zero =>
    rw [List.length_eq_zero_iff.mp hn]
    rfl
  | succ n ih =>
    have hne : vs ≠ [] := by
      rintro rfl
      simp at hn
    rw [← List.dropLast_concat_getLast hne, ofValues_concat, get?_insertIfNew,
      ih vs.dropLast (by simp [hn])]
    simp [List.idxOf?, Option.map_or]

theorem Indexes.get?_eq {l : Lookup α} {vs : List α} (h : l.Indexes vs) (v : α) :
    l.get? v = (vs.idxOf? v).map Nat.toUInt32 := by
  rw [h.eq]
  exact get?_ofValues vs v

/-- recording a new value at the next position keeps the map an index -/
theorem Indexes.concat {l : Lookup α} {vs : List α} {v : α} (h : l.Indexes vs)
    (hv : l.get? v = none) : (l.insertIfNew v vs.length.toUInt32).Indexes (vs ++ [v]) where
  eq := by rw [ofValues_concat, ← h.eq]
  nodup := by
    have hnot : v ∉ vs := by simpa [h.get?_eq] using hv
    exact List.nodup_append.mpr ⟨h.nodup, List.nodup_cons.mpr ⟨List.not_mem_nil, .nil⟩,
      fun a ha b hb hab => hnot (by rw [List.mem_singleton.mp hb] at hab; exact hab ▸ ha)⟩

/-- a map that indexes its own keys does so with a new key recorded at the next position -/
theorem Indexes.keys_concat {l : Lookup α} {v : α} (h : l.Indexes (l.map Prod.fst))
    (hv : l.get? v = none) :
    (l.insertIfNew v l.length.toUInt32).Indexes ((l.insertIfNew v l.length.toUInt32).map Prod.fst) := by
  have hnext := h.concat hv
  rw [List.length_map] at hnext
  rw [insertIfNew_of_none hv] at hnext ⊢
  simpa using hnext

end Lookup

/-- values in insertion order, with the first position of each -/
structure Table (α : Type) [BEq α] where
  values : Array α := #[]
  lookup : Lookup α := []
  /-- the map holds the first position of every value, and nothing else -/
  lookup_eq : lookup = Lookup.ofValues values.toList := by rfl

namespace Table

variable {α : Type} [BEq α]

/-- tables with the same values are the same table: the map follows from the values -/
theorem ext_values {t t' : Table α} (h : t.values = t'.values) : t = t' := by
  cases t with
  | mk values lookup hl =>
    cases t' with
    | mk values' lookup' hl' =>
      simp only at h
      subst h
      have : lookup = lookup' := hl.trans hl'.symm
      subst this
      rfl

instance [DecidableEq α] : DecidableEq (Table α) := fun t t' =>
  decidable_of_iff (t.values = t'.values) ⟨ext_values, fun h => h ▸ rfl⟩

instance [Repr α] : Repr (Table α) := ⟨fun t n => reprPrec t.values n⟩

/-- the table with no values -/
def empty : Table α := {}

@[simp] theorem values_empty : (empty : Table α).values = #[] := rfl

instance : Inhabited (Table α) := ⟨empty⟩

/-- number of values -/
def size (t : Table α) : Nat := t.values.size

/-- the value at a 1-based index -/
def get? (t : Table α) (i : Nat) : Option α :=
  if i = 0 then none else t.values[i - 1]?

/-- the 1-based index of the value the map records for `v` -/
def find? (t : Table α) (v : α) : Option Nat :=
  (t.lookup.get? v).map fun position => (position + 1).toNat

/-- append a value and return its index; the map records its position only when it is new -/
def push (t : Table α) (v : α) : Table α × UInt32 :=
  let position := t.values.size.toUInt32
  (⟨t.values.push v, t.lookup.insertIfNew v position, by
    rw [t.lookup_eq, Array.toList_push, Lookup.ofValues_concat, Array.length_toList]⟩,
    position + 1)

/-- the index the map records for `v`, appending `v` when it records none -/
def intern (t : Table α) (v : α) : Table α × UInt32 :=
  match t.lookup.get? v with
  | some position => (t, position + 1)
  | none => t.push v

/-- the count a container header declares: one more than the size, 0 for an empty table -/
def declaredCount (t : Table α) : Nat :=
  if t.values.size = 0 then 0 else t.values.size + 1

/-- the values as a list -/
def toList (t : Table α) : List α := t.values.toList

@[simp] theorem toList_empty : (empty : Table α).toList = [] := rfl

/-- a table read from values in order, each pushed, duplicates kept -/
def ofList (vs : List α) : Table α := vs.foldl (fun t v => (t.push v).1) empty

end Table

end AbcKit
