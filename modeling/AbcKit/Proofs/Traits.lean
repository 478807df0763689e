import AbcKit.Proofs.TableHistory
import AbcKit.Proofs.Regions
import Mathlib.Data.List.Induction
/-!
The trait records of a scope, member by member.

`buildTraits` takes the names of a scope in four groups: slots, methods, getters and setters. A
group keeps the names that are neither declared on an ancestor nor, outside an interface,
qualified by an interface namespace (`Binding.Retained`). Of the names bound to one member it
makes one trait, at the place of the first of them, named by the first in the namespace of the
last (`MergesTo`). So a group's traits stand one for one with the distinct targets of its
retained names, in the order each first appears (`mergeAliases_forall₂`).

Each trait says what its member is (`TraitBuilt`). A slot gives its kind, id, type and default
value, where a literal with a constant form is a nonzero index whose pool entry holds it
(`DefaultValue.Denotes`); a method gives its dispatch id, its method and its FINAL and OVERRIDE
bits; both give the indices of their metadata records. The pool facts hold of whatever pool the
assembler starts from (`Pool.Hands`), as long as the pool ends small enough for its indices to
fit their words.

Main statement: when every name is bound to an existing member, building succeeds and returns
the four groups' traits in order (`buildTraits_one_per_target`).
-/
namespace AbcKit

/-! ## Lists -/

/-- at the one place a key appears, changing the entry changes every entry with that key -/
theorem modify_eq_map_of_findIdx? {β : Type} {g : β → Nat} {k : Nat} {f : β → β} :
    ∀ {l : List β} {i : Nat}, (l.map g).Nodup → l.findIdx? (fun x => g x == k) = some i →
      l.modify i f = l.map fun x => if g x = k then f x else x
  | [], _, _, h => by simp at h
  | x :: l, i, hnd, h => by
    rw [List.map_cons, List.nodup_cons] at hnd
    rw [List.findIdx?_cons] at h
    by_cases hx : g x = k
    · simp only [hx, beq_self_eq_true, if_true, Option.some.injEq] at h
      subst h
      -- the key appears once, so every later entry stays
      have hrest : ∀ y ∈ l, g y ≠ k := fun y hy hy' => hnd.1 (hx ▸ hy' ▸ List.mem_map_of_mem hy)
      simp only [List.modify_zero_cons, List.map_cons, hx, if_true, List.cons.injEq, true_and]
      exact (List.map_congr_left fun y hy => by simp [hrest y hy]).trans (List.map_id l) |>.symm
    · simp only [hx, beq_iff_eq, if_false] at h
      obtain ⟨j, hj, rfl⟩ := Option.map_eq_some_iff.mp h
      simp [hx, modify_eq_map_of_findIdx? hnd.2 hj]

theorem forall₂_comp {α β γ : Type} {R : α → β → Prop} {S : β → γ → Prop} :
    ∀ {l₁ : List α} {l₂ : List β} {l₃ : List γ}, List.Forall₂ R l₁ l₂ → List.Forall₂ S l₂ l₃ →
      List.Forall₂ (fun a c => ∃ b, R a b ∧ S b c) l₁ l₃
  | _, _, _, .nil, .nil => .nil
  | _, _, _, .cons hr hrs, .cons hs hss => .cons ⟨_, hr, hs⟩ (forall₂_comp hrs hss)

/-! ## What interning hands out, from any pool -/

namespace Pool

variable {p q : Pool}

/-- `act` hands out what `holds` says, in whatever pool it ends in, as long as that pool is small;
unlike `Interns`, the pool it starts from may be any pool -/
def Hands {α : Type} (act : StateM Pool α) (holds : Pool → α → Prop) : Prop :=
  ∀ ⦃p q : Pool⦄ ⦃a : α⦄, act p = (a, q) → q.Small → holds q a

theorem int_hands (v : Int32) : Hands (Pool.int v) fun q i => q.ints.get? i.toNat = some v := by
  intro p q i h hs
  cases h
  exact Table.get?_intern_word hs.ints

theorem uint_hands (v : UInt32) : Hands (Pool.uint v) fun q i => q.uints.get? i.toNat = some v := by
  intro p q i h hs
  cases h
  exact Table.get?_intern_word hs.uints

theorem double_hands (bits : UInt64) :
    Hands (Pool.double bits) fun q i => q.doubles.get? i.toNat = some bits := by
  intro p q i h hs
  cases h
  exact Table.get?_intern_word hs.doubles

theorem string_hands (s : String) : Hands (Pool.string s) fun q i => q.HoldsString i s := by
  intro p q i h hs
  cases h
  exact Table.get?_intern_word hs.strings

theorem ns_hands (space : Namespace) : Hands (Pool.ns space) fun q i => q.HoldsNs i space := by
  intro p q i h hs
  obtain ⟨ni, p₁, h₁, h₂⟩ := bind_eq_pair h
  have g₂ := (namespaceEntry_grows _).of_eq h₂
  have hn := string_hands space.name h₁ (hs.of_extends g₂)
  cases h₂
  exact ⟨ni, Table.get?_intern_word hs.namespaces, hn.mono g₂⟩

theorem nsList_hands :
    ∀ set : List Namespace, Hands (Pool.nsList set) fun q is => List.Forall₂ q.HoldsNs is set
  | [] => by
    intro p q is h _
    cases h
    exact .nil
  | space :: rest => by
    intro p q is h hs
    obtain ⟨i, p₁, h₁, h⟩ := bind_eq_pair h
    obtain ⟨is', p₂, h₂, h⟩ := bind_eq_pair h
    cases h
    have g₂ := (nsList_grows rest).of_eq h₂
    exact .cons ((ns_hands space h₁ (hs.of_extends g₂)).mono g₂) (nsList_hands rest h₂ hs)

theorem nsSet_hands (set : List Namespace) :
    Hands (Pool.nsSet set) fun q i => q.HoldsSet i set := by
  intro p q i h hs
  obtain ⟨members, p₁, h₁, h₂⟩ := bind_eq_pair h
  have g₂ := (nsSetEntry_grows _).of_eq h₂
  have hm := nsList_hands set h₁ (hs.of_extends g₂)
  cases h₂
  exact ⟨members, Table.get?_intern_word hs.nsSets, hm.imp fun _ _ h => h.mono g₂⟩

theorem nameEntry_hands (e : NameEntry) :
    Hands (Pool.nameEntry e) fun q i => q.names.get? i.toNat = some e := by
  intro p q i h hs
  cases h
  exact Table.get?_intern_word hs.names

mutual

/-- a name's parts first, then its entry: in any pool, the index handed out holds the name -/
theorem name_hands : ∀ n : Name, Hands (Pool.name n) fun q i => q.HoldsName i n
  | .qname space n a => by
    intro p q i h hs
    obtain ⟨nsi, p₁, h₁, h⟩ := bind_eq_pair h
    obtain ⟨ni, p₂, h₂, h₃⟩ := bind_eq_pair h
    have g₂ := (string_grows n).of_eq h₂
    have g₃ := (nameEntry_grows _).of_eq h₃
    have hns := ns_hands space h₁ (hs.of_extends (g₂.trans g₃))
    have hn := string_hands n h₂ (hs.of_extends g₃)
    exact ⟨nsi, ni, nameEntry_hands _ h₃ hs, (hns.mono g₂).mono g₃, hn.mono g₃⟩
  | .rtqName n a => by
    intro p q i h hs
    obtain ⟨ni, p₁, h₁, h₂⟩ := bind_eq_pair h
    have g₂ := (nameEntry_grows _).of_eq h₂
    exact ⟨ni, nameEntry_hands _ h₂ hs, (string_hands n h₁ (hs.of_extends g₂)).mono g₂⟩
  | .rtqNameL a => fun _ _ _ h hs => nameEntry_hands _ h hs
  | .multiname n set a => by
    intro p q i h hs
    obtain ⟨ni, p₁, h₁, h⟩ := bind_eq_pair h
    obtain ⟨si, p₂, h₂, h₃⟩ := bind_eq_pair h
    have g₂ := (nsSet_grows set).of_eq h₂
    have g₃ := (nameEntry_grows _).of_eq h₃
    have hn := string_hands n h₁ (hs.of_extends (g₂.trans g₃))
    have hset := nsSet_hands set h₂ (hs.of_extends g₃)
    exact ⟨ni, si, nameEntry_hands _ h₃ hs, (hn.mono g₂).mono g₃, hset.mono g₃⟩
  | .multinameL set a => by
    intro p q i h hs
    obtain ⟨si, p₁, h₁, h₂⟩ := bind_eq_pair h
    have g₂ := (nameEntry_grows _).of_eq h₂
    exact ⟨si, nameEntry_hands _ h₂ hs, (nsSet_hands set h₁ (hs.of_extends g₂)).mono g₂⟩
  | .typeName base params => by
    intro p q i h hs
    obtain ⟨bi, p₁, h₁, h⟩ := bind_eq_pair h
    obtain ⟨pis, p₂, h₂, h₃⟩ := bind_eq_pair h
    have g₂ := (nameList_grows params).of_eq h₂
    have g₃ := (nameEntry_grows _).of_eq h₃
    have hb := name_hands base h₁ (hs.of_extends (g₂.trans g₃))
    have hps := nameList_hands params h₂ (hs.of_extends g₃)
    exact ⟨bi, pis, nameEntry_hands _ h₃ hs, (hb.mono g₂).mono g₃, hps.mono g₃⟩

theorem nameList_hands : ∀ ns : List Name, Hands (Pool.nameList ns) fun q is => q.HoldsNames is ns
  | [] => by
    intro p q is h _
    cases h
    trivial
  | n :: rest => by
    intro p q is h hs
    obtain ⟨i, p₁, h₁, h⟩ := bind_eq_pair h
    obtain ⟨is', p₂, h₂, h⟩ := bind_eq_pair h
    cases h
    have g₂ := (nameList_grows rest).of_eq h₂
    exact ⟨(name_hands n h₁ (hs.of_extends g₂)).mono g₂, nameList_hands rest h₂ hs⟩

end

theorem qname_hands (space : Namespace) (n : String) :
    Hands (Pool.qname space n) fun q i => q.HoldsName i (.qname space n false) :=
  qname_eq_name space n ▸ name_hands _

end Pool

/-! ## Default values -/

theorem Table.index_ne_zero {α : Type} [BEq α] {t : Table α} {i : UInt32} {v : α}
    (h : t.get? i.toNat = some v) : i ≠ 0 := by
  rintro rfl
  exact (Table.get?_eq_some.mp h).1 rfl

/-- default value `v` stands for literal `init` in pool `p`: a boolean or null by its kind byte,
a literal with a constant form by its kind and a nonzero index whose entry holds it, and an
undefined or unsupported literal by no value -/
def DefaultValue.Denotes (p : Pool) (v : DefaultValue) : Emit.Initializer → Prop
  | .bool b => v.kind = (if b then .trueValue else .falseValue) ∧ v.index = v.kind.byte.toUInt32
  | .null => v.kind = .null ∧ v.index = v.kind.byte.toUInt32
  | .string s => v.kind = .string ∧ v.index ≠ 0 ∧ p.HoldsString v.index s
  | .int n => v.kind = .int ∧ v.index ≠ 0 ∧ p.ints.get? v.index.toNat = some n
  | .uint n => v.kind = .uint ∧ v.index ≠ 0 ∧ p.uints.get? v.index.toNat = some n
  | .double bits => v.kind = .double ∧ v.index ≠ 0 ∧ p.doubles.get? v.index.toNat = some bits
  | .ns space =>
    v.kind = ValueKind.ofNamespaceKind space.kind ∧ v.index ≠ 0 ∧ p.HoldsNs v.index space
  | .undefined | .unsupported _ => v = .none

theorem DefaultValue.Denotes.mono {p q : Pool} {v : DefaultValue} {init : Emit.Initializer}
    (h : v.Denotes p init) (hpq : p.Extends q) : v.Denotes q init := by
  cases init with
  | string s => exact ⟨h.1, h.2.1, h.2.2.mono hpq⟩
  | int n => exact ⟨h.1, h.2.1, hpq.ints.get? h.2.2⟩
  | uint n => exact ⟨h.1, h.2.1, hpq.uints.get? h.2.2⟩
  | double bits => exact ⟨h.1, h.2.1, hpq.doubles.get? h.2.2⟩
  | ns space => exact ⟨h.1, h.2.1, h.2.2.mono hpq⟩
  | bool | null | undefined | unsupported => exact h

namespace Emit

/-! ## Merging the names of a group -/

/-- a name of a group makes a trait unless it was declared on an ancestor, or is qualified by an
interface namespace outside an interface -/
def Binding.Retained (isInterface : Bool) (b : Binding) : Bool :=
  !b.inherited && (!b.interfaceQualified || isInterface)

/-- `e` is what the retained names `rs` make of target `k`: the first name bound to it, with the
namespace of the last -/
def MergesTo (rs : List Binding) (k : Nat) (e : Binding × Namespace) : Prop :=
  rs.find? (·.target == k) = some e.1 ∧ (rs.reverse.find? (·.target == k)).map (·.ns) = some e.2

namespace MergesTo

variable {rs : List Binding} {b : Binding} {k : Nat} {e : Binding × Namespace}

theorem target (h : MergesTo rs k e) : e.1.target = k := by
  simpa using List.find?_some h.1

theorem mem (h : MergesTo rs k e) : e.1 ∈ rs := List.mem_of_find?_eq_some h.1

theorem append_iff (hk : b.target ≠ k) : MergesTo (rs ++ [b]) k e ↔ MergesTo rs k e := by
  simp [MergesTo, List.find?_append, hk]

theorem append_same (h : MergesTo rs b.target e) : MergesTo (rs ++ [b]) b.target (e.1, b.ns) := by
  refine ⟨by simp [List.find?_append, h.1], by simp⟩

theorem append_new (h : b.target ∉ rs.map (·.target)) :
    MergesTo (rs ++ [b]) b.target (b, b.ns) := by
  refine ⟨?_, by simp⟩
  have hnone : rs.find? (·.target == b.target) = none := by
    simpa [List.find?_eq_none] using fun x hx hxb => h (List.mem_map.mpr ⟨x, hx, hxb⟩)
  simp [List.find?_append, hnone]

end MergesTo

/-- one more name is skipped, merged into the entry of its target, or appended as a new entry -/
theorem mergeAliases_concat (names : List Binding) (b : Binding) (isInterface : Bool) :
    mergeAliases (names ++ [b]) isInterface =
      if b.Retained isInterface then
        match (mergeAliases names isInterface).findIdx? (·.1.target == b.target) with
        | some i => (mergeAliases names isInterface).modify i fun e => (e.1, b.ns)
        | none => mergeAliases names isInterface ++ [(b, b.ns)]
      else mergeAliases names isInterface := by
  unfold mergeAliases
  rw [List.foldl_append, List.foldl_cons, List.foldl_nil]
  have hr : b.Retained isInterface = !(b.inherited || (b.interfaceQualified && !isInterface)) := by
    unfold Binding.Retained
    cases b.inherited <;> cases b.interfaceQualified <;> cases isInterface <;> rfl
  rw [hr]
  cases b.inherited || (b.interfaceQualified && !isInterface) <;> rfl

/-- merged entries are listed by their targets -/
theorem MergesTo.targets {rs : List Binding} :
    ∀ {ks : List Nat} {M : List (Binding × Namespace)}, List.Forall₂ (MergesTo rs) ks M →
      M.map (·.1.target) = ks
  | _, _, .nil => rfl
  | _, _, .cons h hs => by simp [h.target, MergesTo.targets hs]

/-- The traits of a group stand one for one with the distinct targets of its retained names, in
the order each first appears: each merges the first name bound to its target with the namespace
of the last. -/
theorem mergeAliases_forall₂ (names : List Binding) (isInterface : Bool) :
    List.Forall₂ (MergesTo (names.filter (Binding.Retained isInterface)))
      ((names.filter (Binding.Retained isInterface)).map (·.target)).eraseDups
      (mergeAliases names isInterface) := by
  induction names using List.reverseRecOn with
  | nil => simp [mergeAliases]
  | append_singleton names b ih =>
    rw [mergeAliases_concat, List.filter_append]
    by_cases hb : b.Retained isInterface
    · simp only [hb, if_true, List.filter_cons_of_pos, List.filter_nil, List.map_append,
        List.map_cons, List.map_nil]
      set rs := names.filter (Binding.Retained isInterface)
      set M := mergeAliases names isInterface
      have hM := MergesTo.targets ih
      split
      · next i hi =>
        have hmem : b.target ∈ rs.map (·.target) := by
          obtain ⟨hlt, hp, -⟩ := List.findIdx?_eq_some_iff_getElem.mp hi
          rw [← List.mem_eraseDups, ← hM]
          exact List.mem_map.mpr ⟨M[i], List.getElem_mem hlt, by simpa using hp⟩
        rw [eraseDups_concat_of_mem hmem]
        have hnd : (M.map (·.1.target)).Nodup := hM ▸ nodup_eraseDups _
        rw [modify_eq_map_of_findIdx? hnd hi, List.forall₂_map_right_iff]
        refine ih.imp fun k e he => ?_
        by_cases hk : e.1.target = b.target
        · simp only [hk, if_true]
          rw [he.target] at hk
          subst hk
          exact he.append_same
        · simp only [hk, if_false]
          exact (MergesTo.append_iff fun h => hk (he.target.trans h.symm)).mpr he
      · next hi =>
        have hnot : b.target ∉ rs.map (·.target) := by
          intro hmem
          rw [← List.mem_eraseDups, ← hM] at hmem
          obtain ⟨e, he, hte⟩ := List.mem_map.mp hmem
          have := List.findIdx?_eq_none_iff.mp hi e he
          simp [hte] at this
        rw [eraseDups_concat_of_not_mem hnot]
        refine List.rel_append (ih.imp fun k e he => ?_) (.cons (MergesTo.append_new hnot) .nil)
        refine (MergesTo.append_iff fun hk => hnot ?_).mpr he
        exact List.mem_map.mpr ⟨e.1, he.mem, hk ▸ he.target⟩
    · simp [hb, ih]

theorem mem_of_mem_mergeAliases {names : List Binding} {isInterface : Bool}
    {e : Binding × Namespace} (he : e ∈ mergeAliases names isInterface) : e.1 ∈ names :=
  let ⟨_, _, hk⟩ := List.Forall₂.exists_of_mem_right (mergeAliases_forall₂ names isInterface) he
  (List.mem_filter.mp hk.mem).1

/-! ## What a trait says of its member -/

/-- `i` is the type index of a slot typed `t`: 0 for no type, else an index holding the type -/
def TypeAt (p : Pool) : Option Name → UInt32 → Prop
  | none, i => i = 0
  | some t, i => p.HoldsName i t

/-- `v` is the default value of a slot with initializer `init`: none without one -/
def DefaultAt (p : Pool) : Option Initializer → DefaultValue → Prop
  | none, v => v = .none
  | some init, v => v.Denotes p init

/-- what slot `slot` binds in pool `p`: a variable or constant its id, type and default value, a
class or function its id and index -/
def SlotBinds (p : Pool) (slot : SlotDescriptor) (d : TraitData) : Prop :=
  match slot.kind with
  | .var => ∃ ty v, d = .slot slot.id ty v ∧ TypeAt p slot.typeName ty ∧
      DefaultAt p slot.initializer v
  | .const => ∃ ty v, d = .const slot.id ty v ∧ TypeAt p slot.typeName ty ∧
      DefaultAt p slot.initializer v
  | .classRef c => d = .nestedClass slot.id c
  | .function f => d = .function slot.id f

/-- the metadata indices of a member: each that of the record spelling its name and items -/
def MetadataList (a : Assembler) (ms : List MetadataDescriptor) (is : List UInt32) : Prop :=
  List.Forall₂ (fun m i => a.MetadataAt m.name m.items i) ms is

/-- trait `t` is the trait of slot `slot` -/
structure SlotTrait (a : Assembler) (slot : SlotDescriptor) (t : Trait) : Prop where
  data : SlotBinds a.pool slot t.data
  attributes : t.attributes = 0
  metadata : MetadataList a slot.metadata t.metadata

/-- trait `t` is the trait of method `m` in a method, getter or setter group -/
structure MethodTrait (a : Assembler) (group : Group) (m : MethodDescriptor) (t : Trait) :
    Prop where
  data : t.data = match group with
    | .getter => .getter m.dispId m.method
    | .setter => .setter m.dispId m.method
    | _ => .method m.dispId m.method
  attributes : t.attributes =
    (if m.isFinal then TraitAttr.final else 0) ||| (if m.isOverride then TraitAttr.override else 0)
  metadata : MetadataList a m.metadata t.metadata

/-- trait `t` is the trait of member `k` of `scope` in group `group` -/
def MemberTrait (a : Assembler) (scope : ObjectDescriptor) (group : Group) (k : Nat) (t : Trait) :
    Prop :=
  if group = .slot then ∃ slot, scope.slots[k]? = some slot ∧ SlotTrait a slot t
  else ∃ m, scope.methods[k]? = some m ∧ MethodTrait a group m t

/-- trait `t` is what a group makes of merged entry `e`: named by its name in its namespace, and
the trait of the member the name is bound to -/
structure TraitBuilt (a : Assembler) (scope : ObjectDescriptor) (group : Group)
    (e : Binding × Namespace) (t : Trait) : Prop where
  name : a.pool.HoldsName t.name (.qname e.2 e.1.name false)
  member : MemberTrait a scope group e.1.target t

/-- the traits `ts` of a group of names: one per distinct target of its retained names, in the
order each first appears, each what the group makes of the names bound to that target -/
def GroupTraits (a : Assembler) (scope : ObjectDescriptor) (group : Group) (names : List Binding)
    (ts : List Trait) : Prop :=
  List.Forall₂ (fun k t => ∃ e, MergesTo (names.filter (Binding.Retained scope.isInterface)) k e ∧
      TraitBuilt a scope group e t)
    ((names.filter (Binding.Retained scope.isInterface)).map (·.target)).eraseDups ts

section Mono

variable {a a' : Assembler} {scope : ObjectDescriptor} {group : Group}

theorem TypeAt.mono {p q : Pool} {t : Option Name} {i : UInt32} (h : TypeAt p t i)
    (hpq : p.Extends q) : TypeAt q t i := by
  cases t with
  | none => exact h
  | some t => exact Pool.HoldsName.mono hpq h

theorem DefaultAt.mono {p q : Pool} {init : Option Initializer} {v : DefaultValue}
    (h : DefaultAt p init v) (hpq : p.Extends q) : DefaultAt q init v := by
  cases init with
  | none => exact h
  | some init => exact DefaultValue.Denotes.mono h hpq

theorem SlotBinds.mono {p q : Pool} {slot : SlotDescriptor} {d : TraitData}
    (h : SlotBinds p slot d) (hpq : p.Extends q) : SlotBinds q slot d := by
  unfold SlotBinds at h ⊢
  split at h
  · obtain ⟨ty, v, hd, hty, hv⟩ := h
    exact ⟨ty, v, hd, hty.mono hpq, hv.mono hpq⟩
  · obtain ⟨ty, v, hd, hty, hv⟩ := h
    exact ⟨ty, v, hd, hty.mono hpq, hv.mono hpq⟩
  · exact h
  · exact h

theorem MetadataList.mono {ms : List MetadataDescriptor} {is : List UInt32}
    (h : MetadataList a ms is) (hg : a.Grows a') : MetadataList a' ms is :=
  h.imp fun _ _ hm => hm.mono hg

theorem MemberTrait.mono {k : Nat} {t : Trait} (h : MemberTrait a scope group k t)
    (hg : a.Grows a') : MemberTrait a' scope group k t := by
  unfold MemberTrait at h ⊢
  split
  · next hs =>
    obtain ⟨slot, hk, ht⟩ := if_pos hs ▸ h
    exact ⟨slot, hk, ht.data.mono hg.pool, ht.attributes, ht.metadata.mono hg⟩
  · next hs =>
    obtain ⟨m, hk, ht⟩ := if_neg hs ▸ h
    exact ⟨m, hk, ht.data, ht.attributes, ht.metadata.mono hg⟩

theorem TraitBuilt.mono {e : Binding × Namespace} {t : Trait} (h : TraitBuilt a scope group e t)
    (hg : a.Grows a') : TraitBuilt a' scope group e t :=
  ⟨Pool.HoldsName.mono hg.pool h.name, h.member.mono hg⟩

theorem GroupTraits.mono {names : List Binding} {ts : List Trait}
    (h : GroupTraits a scope group names ts) (hg : a.Grows a') :
    GroupTraits a' scope group names ts :=
  List.Forall₂.imp (fun _ _ ⟨e, he, ht⟩ => ⟨e, he, ht.mono hg⟩) h

/-- a fact that growing keeps, asked only of a small pool, is kept as well: a pool that a small
pool extends is small -/
theorem Assembler.Grows.small_imp {F : Assembler → Prop} (hF : ∀ a a', F a → a.Grows a' → F a')
    (h : a.pool.Small → F a) (hg : a.Grows a') : a'.pool.Small → F a' :=
  fun hs => hF a a' (h (hs.of_extends hg.pool)) hg

end Mono

/-! ## Building one trait -/

namespace Assembler

/-- a pool step on the tables: what it hands out holds in the end pool, once that is small -/
theorem onPool_hands {α : Type} {act : StateM Pool α} {holds : Pool → α → Prop}
    (hg : Pool.Grows act) (h : Pool.Hands act holds) :
    Triple Grows (fun _ => True) (onPool act) fun x a => a.pool.Small → holds a.pool x :=
  (onPool_spec (Q := fun x q => q.Small → holds q x) hg fun _ hs => h rfl hs).weaken
    fun _ _ h => h.grows

/-- a literal's default value stands for it; one without a constant form gives none, which a
slot takes for no value -/
theorem defaultValue_denotes (init : Initializer) :
    Triple Grows (fun _ => True) (defaultValue init)
      fun r a => a.pool.Small → (r.getD .none).Denotes a.pool init := by
  cases init with
  | bool b => exact Triple.pure fun _ _ _ => by cases b <;> exact ⟨rfl, rfl⟩
  | string str =>
    exact (onPool_hands (Pool.string_grows str) (Pool.string_hands str)).bind fun i =>
      Triple.pure fun _ h hs => ⟨rfl, Table.index_ne_zero (h hs), h hs⟩
  | int n =>
    exact (onPool_hands (Pool.int_grows n) (Pool.int_hands n)).bind fun i =>
      Triple.pure fun _ h hs => ⟨rfl, Table.index_ne_zero (h hs), h hs⟩
  | uint n =>
    exact (onPool_hands (Pool.uint_grows n) (Pool.uint_hands n)).bind fun i =>
      Triple.pure fun _ h hs => ⟨rfl, Table.index_ne_zero (h hs), h hs⟩
  | double bits =>
    exact (onPool_hands (Pool.double_grows bits) (Pool.double_hands bits)).bind fun i =>
      Triple.pure fun _ h hs => ⟨rfl, Table.index_ne_zero (h hs), h hs⟩
  | null => exact Triple.pure fun _ _ _ => ⟨rfl, rfl⟩
  | undefined => exact Triple.pure fun _ _ _ => rfl
  | ns space =>
    refine (onPool_hands (Pool.ns_grows space) (Pool.ns_hands space)).bind fun i =>
      Triple.pure fun _ h hs => ⟨rfl, ?_, h hs⟩
    obtain ⟨_, he, _⟩ := h hs
    exact Table.index_ne_zero he
  | unsupported text => exact Triple.pure fun _ _ _ => rfl

/-- the type index a slot gets: 0 for no type -/
def slotType : Option Name → AssemblerM UInt32
  | some t => onPool (Pool.name t)
  | none => pure 0

/-- the default value a slot gets: none without an initializer or without a constant form -/
def slotDefault : Option Initializer → AssemblerM DefaultValue
  | some init => do pure ((← defaultValue init).getD .none)
  | none => pure .none

/-- what a slot binds, the type and default of a variable or constant interned on the way -/
def slotData (slot : SlotDescriptor) : AssemblerM TraitData :=
  match slot.kind with
  | .var => do pure (.slot slot.id (← slotType slot.typeName) (← slotDefault slot.initializer))
  | .const => do pure (.const slot.id (← slotType slot.typeName) (← slotDefault slot.initializer))
  | .classRef c => pure (.nestedClass slot.id c)
  | .function f => pure (.function slot.id f)

/-- a slot's trait: its binding, then its metadata -/
theorem buildTrait_slot (scope : ObjectDescriptor) (target : Nat) (name : UInt32) :
    buildTrait scope .slot target name =
      match scope.slots[target]? with
      | some slot => do
        let data ← slotData slot
        pure { name, data, metadata := ← metadataIndices slot.metadata }
      | none => throw (.internal ("name resolves to missing slot " ++ toString target)) := by
  unfold buildTrait
  simp only [if_true]
  cases hs : scope.slots[target]? with
  | none => rfl
  | some slot =>
    simp only [slotData]
    cases slot.kind <;> cases slot.typeName <;> cases slot.initializer <;>
      simp [slotType, slotDefault]

theorem slotType_spec (t : Option Name) :
    Triple Grows (fun _ => True) (slotType t) fun ty a => a.pool.Small → TypeAt a.pool t ty := by
  cases t with
  | some t => exact onPool_hands (Pool.name_grows t) (Pool.name_hands t)
  | none => exact Triple.pure fun _ _ _ => rfl

theorem slotDefault_spec (init : Option Initializer) :
    Triple Grows (fun _ => True) (slotDefault init)
      fun v a => a.pool.Small → DefaultAt a.pool init v := by
  cases init with
  | some init => exact (defaultValue_denotes init).bind fun r => Triple.pure fun _ h => h
  | none => exact Triple.pure fun _ _ _ => rfl

/-- a variable or constant: its type, then its default, the type kept by the frame -/
theorem typedSlot_spec (slot : SlotDescriptor) {d : UInt32 → DefaultValue → TraitData}
    (hd : ∀ p ty v, TypeAt p slot.typeName ty → DefaultAt p slot.initializer v →
      SlotBinds p slot (d ty v)) :
    Triple Grows (fun _ => True)
      (do pure (d (← slotType slot.typeName) (← slotDefault slot.initializer)))
      fun x a => a.pool.Small → SlotBinds a.pool slot x := by
  refine (slotType_spec slot.typeName).bind fun ty => ?_
  refine (((slotDefault_spec slot.initializer).frame
    (F := fun a => a.pool.Small → TypeAt a.pool slot.typeName ty)
    fun _ _ h hg => Grows.small_imp (F := fun a => TypeAt a.pool slot.typeName ty)
      (fun _ _ h hg => h.mono hg.pool) h hg).consequence
      (fun _ h => ⟨trivial, h⟩) fun _ _ h => h).bind fun v => ?_
  exact Triple.pure fun _ ⟨hv, hty⟩ hs => hd _ ty v (hty hs) (hv hs)

theorem slotData_spec (slot : SlotDescriptor) :
    Triple Grows (fun _ => True) (slotData slot)
      fun d a => a.pool.Small → SlotBinds a.pool slot d := by
  unfold slotData
  split
  · next hk =>
    refine typedSlot_spec slot fun _ ty v hty hv => ?_
    simp only [SlotBinds, hk]
    exact ⟨ty, v, rfl, hty, hv⟩
  · next hk =>
    refine typedSlot_spec slot fun _ ty v hty hv => ?_
    simp only [SlotBinds, hk]
    exact ⟨ty, v, rfl, hty, hv⟩
  · next c hk => exact Triple.pure fun _ _ _ => by simp [SlotBinds, hk]
  · next f hk => exact Triple.pure fun _ _ _ => by simp [SlotBinds, hk]

theorem metadataIndices_listed (ms : List MetadataDescriptor) :
    Triple Grows (fun _ => True) (metadataIndices ms) fun is a => MetadataList a ms is := by
  unfold metadataIndices
  have h := Triple.mapM_forall₂ (I := fun _ => True)
    (Q := fun (m : MetadataDescriptor) (i : UInt32) (a : Assembler) =>
      a.MetadataAt m.name m.items i)
    (fun _ _ _ _ h hg => h.mono hg)
    (fun m => (addMetadata_grows m.name m.items).consequence (fun _ h => h)
      fun _ _ h => ⟨h, trivial⟩)
    ms
  exact h.consequence (fun _ h => h) fun _ _ h => h.1

/-- FINAL and OVERRIDE are set exactly as the method asks -/
theorem methodAttributes_eq (isFinal isOverride : Bool) :
    setBits (setBits 0 TraitAttr.final isFinal) TraitAttr.override isOverride =
      (if isFinal then TraitAttr.final else 0) |||
        (if isOverride then TraitAttr.override else 0) := by
  cases isFinal <;> cases isOverride <;> decide

/-- the trait built for a target is the trait of that member, under the name it was given -/
theorem buildTrait_member (scope : ObjectDescriptor) (group : Group) (target : Nat)
    (name : UInt32) :
    Triple Grows (fun _ => True) (buildTrait scope group target name)
      fun t a => t.name = name ∧ (a.pool.Small → MemberTrait a scope group target t) := by
  by_cases hg : group = .slot
  · subst hg
    rw [buildTrait_slot]
    split
    · next slot hk =>
      -- the binding first, kept by the frame while the metadata is interned
      refine (slotData_spec slot).bind fun d => ?_
      refine (((metadataIndices_listed slot.metadata).frame
        (F := fun a => a.pool.Small → SlotBinds a.pool slot d)
        fun _ _ h hg => Grows.small_imp (F := fun a => SlotBinds a.pool slot d)
          (fun _ _ h hg => h.mono hg.pool) h hg).consequence
          (fun _ h => ⟨trivial, h⟩) fun _ _ h => h).bind fun is => ?_
      refine Triple.pure fun _ ⟨hmeta, hd⟩ => ⟨rfl, fun hs => ?_⟩
      simp only [MemberTrait, if_true]
      exact ⟨slot, hk, hd hs, rfl, hmeta⟩
    · exact Triple.throw
  · unfold buildTrait
    simp only [hg, if_false]
    split
    · next m hk =>
      refine (metadataIndices_listed m.metadata).bind fun is =>
        Triple.pure fun _ hmeta => ⟨rfl, fun _ => ?_⟩
      simp only [MemberTrait, hg, if_false]
      refine ⟨m, hk, ?_, methodAttributes_eq _ _, hmeta⟩
      cases group <;> rfl
    · exact Triple.throw

/-! ## Building the traits of a scope -/

/-- the traits of one group of names -/
def groupTraits (scope : ObjectDescriptor) (group : Group) (names : List Binding) :
    AssemblerM (List Trait) :=
  (mergeAliases names scope.isInterface).mapM fun (b, space) => do
    let name ← onPool (Pool.qname space b.name)
    buildTrait scope group b.target name

/-- the groups run one after another, and their traits are concatenated -/
theorem buildTraits_eq (scope : ObjectDescriptor) :
    buildTraits scope = (do
      let slots ← groupTraits scope .slot scope.slotNames
      let methods ← groupTraits scope .method scope.methodNames
      let getters ← groupTraits scope .getter scope.getterNames
      let setters ← groupTraits scope .setter scope.setterNames
      pure (slots ++ methods ++ getters ++ setters)) := by
  simp only [buildTraits, groupTraits, List.foldlM_cons, List.foldlM_nil, List.nil_append,
    bind_assoc, pure_bind, bind_pure]

theorem groupTraits_spec (scope : ObjectDescriptor) (group : Group) (names : List Binding) :
    Triple Grows (fun _ => True) (groupTraits scope group names)
      fun ts a => a.pool.Small → GroupTraits a scope group names ts := by
  unfold groupTraits
  -- the traits stand one for one with the merged entries, which stand for the distinct targets
  refine (Triple.mapM_forall₂ (I := fun _ => True)
    (Q := fun (e : Binding × Namespace) (t : Trait) (a : Assembler) =>
      a.pool.Small → TraitBuilt a scope group e t)
    (fun _ _ _ _ h hg => Grows.small_imp (F := fun a => TraitBuilt a scope group _ _)
      (fun _ _ h hg => h.mono hg) h hg)
    (fun e => ?_) _).consequence (fun _ h => h) fun ts a ⟨hts, _⟩ hs =>
      forall₂_comp (mergeAliases_forall₂ names scope.isInterface) (hts.imp fun _ _ h => h hs)
  · -- one entry: its qualified name, held on by the frame while the member's trait is built
    obtain ⟨b, space⟩ := e
    refine (onPool_hands (Pool.qname_grows space b.name) (Pool.qname_hands space b.name)).bind
      fun name => ?_
    refine ((buildTrait_member scope group b.target name).frame
      (F := fun a => a.pool.Small → a.pool.HoldsName name (.qname space b.name false))
      fun _ _ h hg => Grows.small_imp
        (F := fun a => a.pool.HoldsName name (.qname space b.name false))
        (fun _ _ h hg => Pool.HoldsName.mono hg.pool h) h hg).consequence
      (fun _ h => ⟨trivial, h⟩) fun t a ⟨⟨hname, hmember⟩, hholds⟩ => ⟨fun hs => ?_, trivial⟩
    exact ⟨hname ▸ hholds hs, hmember hs⟩

/-- what a successful build returns, read group by group in a small pool -/
theorem buildTraits_traits {scope : ObjectDescriptor} {a a' : Assembler} {ts : List Trait}
    (h : buildTraits scope a = .ok ts a') (hs : a'.pool.Small) :
    ∃ slots methods getters setters, ts = slots ++ methods ++ getters ++ setters ∧
      GroupTraits a' scope .slot scope.slotNames slots ∧
      GroupTraits a' scope .method scope.methodNames methods ∧
      GroupTraits a' scope .getter scope.getterNames getters ∧
      GroupTraits a' scope .setter scope.setterNames setters := by
  rw [buildTraits_eq] at h
  obtain ⟨slots, a₁, h₁, h⟩ := EStateM.bind_eq_ok.mp h
  obtain ⟨methods, a₂, h₂, h⟩ := EStateM.bind_eq_ok.mp h
  obtain ⟨getters, a₃, h₃, h⟩ := EStateM.bind_eq_ok.mp h
  obtain ⟨setters, a₄, h₄, h⟩ := EStateM.bind_eq_ok.mp h
  cases h
  -- each group's traits stay what they are while the later groups grow the tables
  obtain ⟨g₁, hslots⟩ := (groupTraits_spec scope .slot _).ok_of trivial h₁
  obtain ⟨g₂, hmethods⟩ := (groupTraits_spec scope .method _).ok_of trivial h₂
  obtain ⟨g₃, hgetters⟩ := (groupTraits_spec scope .getter _).ok_of trivial h₃
  obtain ⟨g₄, hsetters⟩ := (groupTraits_spec scope .setter _).ok_of trivial h₄
  have g₃₄ : a₂.Grows a' := trans_of Grows g₃ g₄
  have g₂₄ : a₁.Grows a' := trans_of Grows g₂ g₃₄
  refine ⟨slots, methods, getters, setters, rfl, ?_, ?_, ?_, hsetters hs⟩
  · exact (hslots (hs.of_extends g₂₄.pool)).mono g₂₄
  · exact (hmethods (hs.of_extends g₃₄.pool)).mono g₃₄
  · exact (hgetters (hs.of_extends g₄.pool)).mono g₄

/-! ## Building succeeds -/

theorem onPool_succeeds {α : Type} (act : StateM Pool α) : Succeeds (onPool act) :=
  fun _ => ⟨_, _, rfl⟩

theorem addMetadata_succeeds (name : String) (items : List (Option String × String)) :
    Succeeds (addMetadata name items) := by
  unfold addMetadata
  refine (onPool_succeeds _).bind fun _ => (Succeeds.mapM _ fun kv _ => ?_).bind fun _ =>
    Succeeds.get.bind fun a => ?_
  · obtain ⟨key, value⟩ := kv
    cases key with
    | some key =>
      exact (onPool_succeeds _).bind fun _ => (onPool_succeeds _).bind fun _ => Succeeds.pure _
    | none =>
      exact (Succeeds.pure _).bind fun _ => (onPool_succeeds _).bind fun _ => Succeeds.pure _
  · split
    · exact Succeeds.pure _
    · exact (Succeeds.set _).bind fun _ => Succeeds.pure _

theorem metadataIndices_succeeds (ms : List MetadataDescriptor) : Succeeds (metadataIndices ms) :=
  Succeeds.mapM ms fun m _ => addMetadata_succeeds m.name m.items

theorem defaultValue_succeeds (init : Initializer) : Succeeds (defaultValue init) := by
  cases init <;> first
    | exact Succeeds.pure _
    | exact (onPool_succeeds _).bind fun _ => Succeeds.pure _

theorem slotData_succeeds (slot : SlotDescriptor) : Succeeds (slotData slot) := by
  have htype : Succeeds (slotType slot.typeName) := by
    cases slot.typeName
    · exact Succeeds.pure _
    · exact onPool_succeeds _
  have hdefault : Succeeds (slotDefault slot.initializer) := by
    cases slot.initializer
    · exact Succeeds.pure _
    · exact (defaultValue_succeeds _).bind fun _ => Succeeds.pure _
  unfold slotData
  split <;> first
    | exact Succeeds.pure _
    | exact htype.bind fun _ => hdefault.bind fun _ => Succeeds.pure _

/-- a trait is built whenever its target is a member of the group's kind -/
theorem buildTrait_succeeds (scope : ObjectDescriptor) (group : Group) (target : Nat)
    (name : UInt32)
    (h : if group = .slot then target < scope.slots.length else target < scope.methods.length) :
    Succeeds (buildTrait scope group target name) := by
  by_cases hg : group = .slot
  · subst hg
    rw [buildTrait_slot, List.getElem?_eq_getElem (by simpa using h)]
    exact (slotData_succeeds _).bind fun _ => (metadataIndices_succeeds _).bind fun _ =>
      Succeeds.pure _
  · unfold buildTrait
    simp only [hg, if_false] at h ⊢
    rw [List.getElem?_eq_getElem h]
    exact (metadataIndices_succeeds _).bind fun _ => Succeeds.pure _

theorem groupTraits_succeeds (scope : ObjectDescriptor) (group : Group) (names : List Binding)
    (h : ∀ b ∈ names,
      if group = .slot then b.target < scope.slots.length else b.target < scope.methods.length) :
    Succeeds (groupTraits scope group names) :=
  Succeeds.mapM _ fun e he => (onPool_succeeds _).bind fun _ =>
    buildTrait_succeeds scope group e.1.target _ (h e.1 (mem_of_mem_mergeAliases he))

/-- When every name of a scope is bound to an existing member, building its traits succeeds, and
its traits are the slot, method, getter and setter groups in that order. A group has one trait
for each distinct target of its retained names, in the order each first appears: named by the
first name bound to the target in the namespace of the last, and carrying what that member is
(a slot its kind, id, type and default value, a method its dispatch id, method, FINAL and
OVERRIDE bits) and the indices of its metadata records. -/
theorem buildTraits_one_per_target (scope : ObjectDescriptor) (a : Assembler)
    (hslots : ∀ b ∈ scope.slotNames, b.target < scope.slots.length)
    (hmethods : ∀ b ∈ scope.methodNames ++ scope.getterNames ++ scope.setterNames,
      b.target < scope.methods.length) :
    ∃ ts a', buildTraits scope a = .ok ts a' ∧ (a'.pool.Small →
      ∃ slots methods getters setters, ts = slots ++ methods ++ getters ++ setters ∧
        GroupTraits a' scope .slot scope.slotNames slots ∧
        GroupTraits a' scope .method scope.methodNames methods ∧
        GroupTraits a' scope .getter scope.getterNames getters ∧
        GroupTraits a' scope .setter scope.setterNames setters) := by
  have hmethod : ∀ group, group ≠ .slot → ∀ names, (∀ b ∈ names, b.target < scope.methods.length) →
      Succeeds (groupTraits scope group names) := fun group hg names h =>
    groupTraits_succeeds scope group names fun b hb => by simpa [hg] using h b hb
  have hok : Succeeds (buildTraits scope) := by
    rw [buildTraits_eq]
    refine (groupTraits_succeeds scope .slot _ fun b hb => by simpa using hslots b hb).bind
      fun _ => ?_
    refine (hmethod .method (by decide) _ fun b hb => hmethods b (by simp [hb])).bind fun _ => ?_
    refine (hmethod .getter (by decide) _ fun b hb => hmethods b (by simp [hb])).bind fun _ => ?_
    exact (hmethod .setter (by decide) _ fun b hb => hmethods b (by simp [hb])).bind fun _ =>
      Succeeds.pure _
  obtain ⟨ts, a', h⟩ := hok a
  exact ⟨ts, a', h, buildTraits_traits h⟩

/-- two names bound to one slot and two to one method, one of each declared on an ancestor or
qualified by an interface namespace -/
theorem buildTraits_aliases_merged :
    let scope : ObjectDescriptor :=
      { slots := [{ initializer := some (.int 5) }], methods := [{ method := 3, isFinal := true }],
        slotNames := [{ name := "x", target := 0 },
          { name := "y", target := 0, inherited := true }],
        methodNames := [{ name := "f", target := 0 },
          { name := "g", ns := ⟨.userDefined, "n"⟩, target := 0 },
          { name := "h", target := 0, interfaceQualified := true }] }
    (∀ b ∈ scope.slotNames, b.target < scope.slots.length) ∧
      (∀ b ∈ scope.methodNames ++ scope.getterNames ++ scope.setterNames,
        b.target < scope.methods.length) ∧
      ∃ ts a', buildTraits scope {} = .ok ts a' ∧ (a'.pool.Small →
        ∃ slots methods getters setters, ts = slots ++ methods ++ getters ++ setters ∧
          GroupTraits a' scope .slot scope.slotNames slots ∧
          GroupTraits a' scope .method scope.methodNames methods ∧
          GroupTraits a' scope .getter scope.getterNames getters ∧
          GroupTraits a' scope .setter scope.setterNames setters) :=
  ⟨by decide, by decide, buildTraits_one_per_target _ {} (by decide) (by decide)⟩

end Assembler

end Emit

end AbcKit
