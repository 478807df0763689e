import AbcKit.Proofs.Interning
import AbcKit.Pool.Display
import Mathlib.Data.List.Nodup
import Mathlib.Data.List.Forall2
/-!
What the indices of an interned pool hold.

A table built by interning holds each value once (`Table.Distinct`): `intern` appends only a value
it did not find. So the index interning hands out for a value holds that value for good, and
interning a value the table holds hands out the index that holds it and leaves the table as it
was.

For the structured constants, `Pool.HoldsNs`, `Pool.HoldsSet` and `Pool.HoldsName` say that an
index holds a namespace, a namespace set or a name: its entry holds the indices of its parts, and
those hold the parts. An index holds at most one value (`Pool.HoldsName.unique`), and in a pool
of distinct tables a value is held by at most one index (`Pool.HoldsName.index_unique`).
-/
namespace AbcKit

namespace Table

variable {α : Type} [BEq α] {t t' : Table α} {v w : α} {i j k : Nat}

/-- every value of the table is held once -/
def Distinct (t : Table α) : Prop := t.toList.Nodup

theorem get?_push : (t.push v).1.get? (t.size + 1) = some v := by
  simp [get?_eq_some]

theorem get?_push_cases (h : (t.push v).1.get? k = some w) :
    t.get? k = some w ∨ k = t.size + 1 ∧ w = v := by
  obtain ⟨hk, hw⟩ := get?_eq_some.mp h
  rw [toList_push] at hw
  rcases Nat.lt_or_ge (k - 1) t.size with hlt | hge
  · rw [List.getElem?_append_left (by simpa using hlt)] at hw
    exact Or.inl (get?_eq_some.mpr ⟨hk, hw⟩)
  · rw [List.getElem?_append_right (by simpa using hge), List.getElem?_singleton] at hw
    simp only [length_toList] at hw
    split at hw
    · exact Or.inr ⟨by omega, (Option.some.inj hw).symm⟩
    · cases hw

theorem Distinct.index_unique (hd : t.Distinct) (hi : t.get? i = some v) (hj : t.get? j = some v) :
    i = j := by
  obtain ⟨hi0, hi⟩ := get?_eq_some.mp hi
  obtain ⟨hj0, hj⟩ := get?_eq_some.mp hj
  obtain ⟨hilt, hiv⟩ := List.getElem?_eq_some_iff.mp hi
  obtain ⟨hjlt, hjv⟩ := List.getElem?_eq_some_iff.mp hj
  have := (List.Nodup.getElem_inj_iff hd).mp (hiv.trans hjv.symm)
  omega

/-- word index `i` names a value of the table -/
def Has (t : Table α) (i : UInt32) : Prop := ∃ v, t.get? i.toNat = some v

theorem Has.mono {i : UInt32} (h : t.Has i) (ht : t.Extends t') : t'.Has i :=
  let ⟨v, hv⟩ := h
  ⟨v, ht.get? hv⟩

theorem Has.toNat_le {i : UInt32} (h : t.Has i) : i.toNat ≤ t.size :=
  let ⟨_, hv⟩ := h
  (get?_bounds hv).2

theorem Distinct.word_unique (hd : t.Distinct) {i j : UInt32} (hi : t.get? i.toNat = some v)
    (hj : t.get? j.toNat = some v) : i = j :=
  UInt32.toNat_inj.mp (hd.index_unique hi hj)

theorem get?_intern_cases (h : (t.intern v).1.get? k = some w) :
    t.get? k = some w ∨ k = t.size + 1 ∧ w = v := by
  unfold Table.intern at h
  split at h
  · exact Or.inl h
  · exact get?_push_cases h

theorem mem_intern (h : w ∈ (t.intern v).1.toList) : w ∈ t.toList ∨ w = v := by
  obtain ⟨k, hk⟩ := List.getElem?_of_mem h
  have hget : (t.intern v).1.get? (k + 1) = some w := get?_eq_some.mpr ⟨by omega, hk⟩
  rcases get?_intern_cases hget with hw | ⟨-, rfl⟩
  · exact Or.inl (List.mem_of_getElem? (get?_eq_some.mp hw).2)
  · exact Or.inr rfl

variable [LawfulBEq α]

theorem get?_intern_word (hs : (t.intern v).1.size < 2 ^ 32) :
    (t.intern v).1.get? (t.intern v).2.toNat = some v := by
  obtain ⟨k, hk, hi⟩ := intern_firstIndex? t v
  have hle := (firstIndex?_bounds hk).2
  rw [hi, Nat.toUInt32_eq, UInt32.toNat_ofNat', Nat.mod_eq_of_lt (Nat.lt_of_le_of_lt hle hs)]
  exact get?_of_firstIndex? hk

theorem Distinct.intern (hd : t.Distinct) : (t.intern v).1.Distinct := by
  by_cases hv : v ∈ t.toList
  · obtain ⟨k, -, hk⟩ := intern_of_mem hv
    rw [hk]
    exact hd
  · rw [intern_of_not_mem hv]
    simp only [Distinct, toList_push] at hd ⊢
    exact List.nodup_append.mpr ⟨hd, List.nodup_singleton v, fun a ha b hb h =>
      hv (by rw [List.mem_singleton.mp hb] at h; exact h ▸ ha)⟩

end Table

namespace Pool

variable {p q : Pool} {i j : UInt32} {s s' : String} {space space' : Namespace}
  {set set' : List Namespace}

/-- every table of the pool holds each of its values once -/
structure Distinct (p : Pool) : Prop where
  ints : p.ints.Distinct
  uints : p.uints.Distinct
  doubles : p.doubles.Distinct
  strings : p.strings.Distinct
  namespaces : p.namespaces.Distinct
  nsSets : p.nsSets.Distinct
  names : p.names.Distinct

theorem Distinct.empty : ({} : Pool).Distinct :=
  ⟨List.nodup_nil, List.nodup_nil, List.nodup_nil, List.nodup_nil, List.nodup_nil, List.nodup_nil,
    List.nodup_nil⟩

/-! ## What an index holds -/

/-- index `i` holds string `s` -/
def HoldsString (p : Pool) (i : UInt32) (s : String) : Prop := p.strings.get? i.toNat = some s

/-- index `i` holds namespace `space`: its entry has the namespace's kind and an index holding its
name -/
def HoldsNs (p : Pool) (i : UInt32) (space : Namespace) : Prop :=
  ∃ ni, p.namespaces.get? i.toNat = some ⟨space.kind, ni⟩ ∧ p.HoldsString ni space.name

/-- index `i` holds namespace set `set`: its members hold the namespaces of the set, in order -/
def HoldsSet (p : Pool) (i : UInt32) (set : List Namespace) : Prop :=
  ∃ members, p.nsSets.get? i.toNat = some members ∧ List.Forall₂ p.HoldsNs members set

mutual

/-- index `i` holds name `n`: its entry is of `n`'s kind, with `n`'s attribute flag, and its part
indices hold `n`'s parts -/
def HoldsName (p : Pool) : UInt32 → Name → Prop
  | i, .qname space n a => ∃ nsi ni, p.names.get? i.toNat = some (.qname nsi ni a) ∧
    p.HoldsNs nsi space ∧ p.HoldsString ni n
  | i, .rtqName n a => ∃ ni, p.names.get? i.toNat = some (.rtqName ni a) ∧ p.HoldsString ni n
  | i, .rtqNameL a => p.names.get? i.toNat = some (.rtqNameL a)
  | i, .multiname n set a => ∃ ni si, p.names.get? i.toNat = some (.multiname ni si a) ∧
    p.HoldsString ni n ∧ p.HoldsSet si set
  | i, .multinameL set a => ∃ si, p.names.get? i.toNat = some (.multinameL si a) ∧
    p.HoldsSet si set
  | i, .typeName base params => ∃ bi pis, p.names.get? i.toNat = some (.typeName bi pis) ∧
    p.HoldsName bi base ∧ p.HoldsNames pis params

/-- indices `is` hold names `ns`, one by one -/
def HoldsNames (p : Pool) : List UInt32 → List Name → Prop
  | i :: is, n :: ns => p.HoldsName i n ∧ p.HoldsNames is ns
  | [], [] => True
  | _, _ => False

end

theorem HoldsString.mono (h : p.HoldsString i s) (hpq : p.Extends q) : q.HoldsString i s :=
  hpq.strings.get? h

theorem HoldsNs.mono (h : p.HoldsNs i space) (hpq : p.Extends q) : q.HoldsNs i space :=
  let ⟨ni, he, hn⟩ := h
  ⟨ni, hpq.namespaces.get? he, hn.mono hpq⟩

theorem HoldsString.has (h : p.HoldsString i s) : p.strings.Has i := ⟨_, h⟩

theorem HoldsNs.has (h : p.HoldsNs i space) : p.namespaces.Has i :=
  let ⟨_, he, _⟩ := h
  ⟨_, he⟩

theorem HoldsNs.has_of_forall₂ {is : List UInt32} (h : List.Forall₂ p.HoldsNs is set) :
    ∀ i ∈ is, p.namespaces.Has i := by
  induction h with
  | nil => simp
  | cons hi _ ih => exact List.forall_mem_cons.mpr ⟨hi.has, ih⟩

theorem HoldsSet.has (h : p.HoldsSet i set) : p.nsSets.Has i :=
  let ⟨_, he, _⟩ := h
  ⟨_, he⟩

theorem HoldsSet.mono (h : p.HoldsSet i set) (hpq : p.Extends q) : q.HoldsSet i set :=
  let ⟨members, he, hm⟩ := h
  ⟨members, hpq.nsSets.get? he, hm.imp fun _ _ h => h.mono hpq⟩

mutual

/-- what an index holds it holds in every pool extending this one -/
theorem HoldsName.mono (hpq : p.Extends q) : ∀ {i : UInt32} {n : Name}, p.HoldsName i n → q.HoldsName i n
  | _, .qname .., ⟨nsi, ni, he, hns, hn⟩ => ⟨nsi, ni, hpq.names.get? he, hns.mono hpq, hn.mono hpq⟩
  | _, .rtqName .., ⟨ni, he, hn⟩ => ⟨ni, hpq.names.get? he, hn.mono hpq⟩
  | _, .rtqNameL _, he => hpq.names.get? he
  | _, .multiname .., ⟨ni, si, he, hn, hs⟩ => ⟨ni, si, hpq.names.get? he, hn.mono hpq, hs.mono hpq⟩
  | _, .multinameL .., ⟨si, he, hs⟩ => ⟨si, hpq.names.get? he, hs.mono hpq⟩
  | _, .typeName .., ⟨bi, pis, he, hb, hps⟩ =>
    ⟨bi, pis, hpq.names.get? he, HoldsName.mono hpq hb, HoldsNames.mono hpq hps⟩

theorem HoldsNames.mono (hpq : p.Extends q) :
    ∀ {is : List UInt32} {ns : List Name}, p.HoldsNames is ns → q.HoldsNames is ns
  | _ :: _, _ :: _, ⟨h, hs⟩ => ⟨HoldsName.mono hpq h, HoldsNames.mono hpq hs⟩
  | [], [], _ => trivial

end

theorem HoldsName.has : ∀ {n : Name}, p.HoldsName i n → p.names.Has i
  | .qname .., ⟨_, _, he, _⟩ | .multiname .., ⟨_, _, he, _⟩ | .typeName .., ⟨_, _, he, _⟩ => ⟨_, he⟩
  | .rtqName .., ⟨_, he, _⟩ | .multinameL .., ⟨_, he, _⟩ => ⟨_, he⟩
  | .rtqNameL _, he => ⟨_, he⟩

theorem HoldsNames.has : ∀ {is : List UInt32} {ns : List Name}, p.HoldsNames is ns →
    ∀ i ∈ is, p.names.Has i
  | _ :: _, _ :: _, ⟨h, hs⟩ => List.forall_mem_cons.mpr ⟨h.has, HoldsNames.has hs⟩
  | [], [], _ => fun _ hi => nomatch hi

/-! ## An index holds one value -/

theorem HoldsString.unique (h : p.HoldsString i s) (h' : p.HoldsString i s') : s = s' :=
  Option.some.inj (h.symm.trans h')

theorem HoldsNs.unique (h : p.HoldsNs i space) (h' : p.HoldsNs i space') : space = space' := by
  obtain ⟨ni, he, hn⟩ := h
  obtain ⟨ni', he', hn'⟩ := h'
  rw [he] at he'
  obtain ⟨hk, rfl⟩ := NamespaceEntry.mk.inj (Option.some.inj he')
  obtain ⟨k, n⟩ := space
  obtain ⟨k', n'⟩ := space'
  simp only at hk hn hn'
  rw [hk, hn.unique hn']

theorem HoldsSet.unique (h : p.HoldsSet i set) (h' : p.HoldsSet i set') : set = set' := by
  obtain ⟨members, he, hm⟩ := h
  obtain ⟨members', he', hm'⟩ := h'
  rw [he] at he'
  cases he'
  have hr : Relator.RightUnique p.HoldsNs := fun _ _ _ h h' => h.unique h'
  exact List.right_unique_forall₂' hr hm hm'

mutual

/-- an index holds at most one name -/
theorem HoldsName.unique : ∀ {i : UInt32} {n n' : Name}, p.HoldsName i n → p.HoldsName i n' → n = n'
  | _, .qname .., n', ⟨nsi, ni, he, hns, hn⟩, h' => by
    cases n'
    case qname =>
      obtain ⟨nsi', ni', he', hns', hn'⟩ := h'
      rw [he] at he'
      cases he'
      rw [hns.unique hns', hn.unique hn']
    all_goals simp_all [HoldsName]
  | _, .rtqName .., n', ⟨ni, he, hn⟩, h' => by
    cases n'
    case rtqName =>
      obtain ⟨ni', he', hn'⟩ := h'
      rw [he] at he'
      cases he'
      rw [hn.unique hn']
    all_goals simp_all [HoldsName]
  | _, .rtqNameL _, n', he, h' => by
    cases n'
    case rtqNameL =>
      simp only [HoldsName] at he h'
      rw [he] at h'
      cases h'
      rfl
    all_goals simp_all [HoldsName]
  | _, .multiname .., n', ⟨ni, si, he, hn, hs⟩, h' => by
    cases n'
    case multiname =>
      obtain ⟨ni', si', he', hn', hs'⟩ := h'
      rw [he] at he'
      cases he'
      rw [hn.unique hn', hs.unique hs']
    all_goals simp_all [HoldsName]
  | _, .multinameL .., n', ⟨si, he, hs⟩, h' => by
    cases n'
    case multinameL =>
      obtain ⟨si', he', hs'⟩ := h'
      rw [he] at he'
      cases he'
      rw [hs.unique hs']
    all_goals simp_all [HoldsName]
  | _, .typeName .., n', ⟨bi, pis, he, hb, hps⟩, h' => by
    cases n'
    case typeName =>
      obtain ⟨bi', pis', he', hb', hps'⟩ := h'
      rw [he] at he'
      cases he'
      rw [HoldsName.unique hb hb', HoldsNames.unique hps hps']
    all_goals simp_all [HoldsName]

theorem HoldsNames.unique :
    ∀ {is : List UInt32} {ns ns' : List Name}, p.HoldsNames is ns → p.HoldsNames is ns' → ns = ns'
  | _ :: _, _ :: _, _ :: _, ⟨h, hs⟩, ⟨h', hs'⟩ => by
    rw [HoldsName.unique h h', HoldsNames.unique hs hs']
  | [], [], [], _, _ => rfl

end

/-! ## A value is held by one index -/

theorem HoldsString.index_unique (hd : p.Distinct) (h : p.HoldsString i s) (h' : p.HoldsString j s) : i = j :=
  hd.strings.word_unique h h'

theorem HoldsNs.index_unique (hd : p.Distinct) (h : p.HoldsNs i space) (h' : p.HoldsNs j space) : i = j := by
  obtain ⟨ni, he, hn⟩ := h
  obtain ⟨ni', he', hn'⟩ := h'
  rw [HoldsString.index_unique hd hn hn'] at he
  exact hd.namespaces.word_unique he he'

theorem HoldsSet.index_unique (hd : p.Distinct) (h : p.HoldsSet i set) (h' : p.HoldsSet j set) : i = j := by
  obtain ⟨members, he, hm⟩ := h
  obtain ⟨members', he', hm'⟩ := h'
  have hl : Relator.LeftUnique p.HoldsNs := fun _ _ _ h h' => HoldsNs.index_unique hd h h'
  rw [List.left_unique_forall₂' hl hm hm'] at he
  exact hd.nsSets.word_unique he he'

mutual

/-- in a pool of distinct tables, a name is held by at most one index -/
theorem HoldsName.index_unique (hd : p.Distinct) : ∀ {i j : UInt32} {n : Name}, p.HoldsName i n → p.HoldsName j n → i = j
  | _, _, .qname .., ⟨nsi, ni, he, hns, hn⟩, ⟨nsi', ni', he', hns', hn'⟩ => by
    rw [HoldsNs.index_unique hd hns hns', HoldsString.index_unique hd hn hn'] at he
    exact hd.names.word_unique he he'
  | _, _, .rtqName .., ⟨ni, he, hn⟩, ⟨ni', he', hn'⟩ => by
    rw [HoldsString.index_unique hd hn hn'] at he
    exact hd.names.word_unique he he'
  | _, _, .rtqNameL _, he, he' => hd.names.word_unique he he'
  | _, _, .multiname .., ⟨ni, si, he, hn, hs⟩, ⟨ni', si', he', hn', hs'⟩ => by
    rw [HoldsString.index_unique hd hn hn', HoldsSet.index_unique hd hs hs'] at he
    exact hd.names.word_unique he he'
  | _, _, .multinameL .., ⟨si, he, hs⟩, ⟨si', he', hs'⟩ => by
    rw [HoldsSet.index_unique hd hs hs'] at he
    exact hd.names.word_unique he he'
  | _, _, .typeName .., ⟨bi, pis, he, hb, hps⟩, ⟨bi', pis', he', hb', hps'⟩ => by
    rw [HoldsName.index_unique hd hb hb', HoldsNames.index_unique hd hps hps'] at he
    exact hd.names.word_unique he he'

theorem HoldsNames.index_unique (hd : p.Distinct) :
    ∀ {is is' : List UInt32} {ns : List Name}, p.HoldsNames is ns → p.HoldsNames is' ns → is = is'
  | _ :: _, _ :: _, _ :: _, ⟨h, hs⟩, ⟨h', hs'⟩ => by
    rw [HoldsName.index_unique hd h h', HoldsNames.index_unique hd hs hs']
  | [], [], [], _, _ => rfl
  | [], _ :: _, [], _, h' => (h' : False).elim
  | [], _, _ :: _, h, _ => (h : False).elim
  | _ :: _, [], [], h, _ => (h : False).elim
  | _, [], _ :: _, _, h' => (h' : False).elim

end

theorem HoldsNs.biUnique (hd : p.Distinct) : Relator.BiUnique p.HoldsNs :=
  ⟨fun _ _ _ h h' => HoldsNs.index_unique hd h h', fun _ _ _ h h' => h.unique h'⟩

theorem HoldsSet.biUnique (hd : p.Distinct) : Relator.BiUnique p.HoldsSet :=
  ⟨fun _ _ _ h h' => HoldsSet.index_unique hd h h', fun _ _ _ h h' => h.unique h'⟩

theorem HoldsName.biUnique (hd : p.Distinct) : Relator.BiUnique p.HoldsName :=
  ⟨fun _ _ _ h h' => HoldsName.index_unique hd h h', fun _ _ _ h h' => h.unique h'⟩

/-! ## Closed pools -/

/-- the entries a name entry refers to exist (an index field of 0, "any", refers to no entry) -/
def NameRefs (p : Pool) : NameEntry → Prop
  | .qname ns n _ => p.namespaces.Has ns ∧ p.strings.Has n
  | .rtqName n _ => p.strings.Has n
  | .rtqNameL _ => True
  | .multiname n set _ => p.strings.Has n ∧ p.nsSets.Has set
  | .multinameL set _ => p.nsSets.Has set
  | .typeName base params => p.names.Has base ∧ ∀ q ∈ params, p.names.Has q

theorem NameRefs.mono {e : NameEntry} (h : p.NameRefs e) (hpq : p.Extends q) : q.NameRefs e := by
  cases e with
  | qname => exact ⟨h.1.mono hpq.namespaces, h.2.mono hpq.strings⟩
  | rtqName => exact Table.Has.mono h hpq.strings
  | rtqNameL => trivial
  | multiname => exact ⟨h.1.mono hpq.strings, h.2.mono hpq.nsSets⟩
  | multinameL => exact Table.Has.mono h hpq.nsSets
  | typeName => exact ⟨h.1.mono hpq.names, fun q hq => (h.2 q hq).mono hpq.names⟩

/-- every index an entry stores names an existing entry of the right table, and a type name refers
only to names before it -/
structure Closed (p : Pool) : Prop where
  namespaces : ∀ e ∈ p.namespaces.toList, p.strings.Has e.name
  nsSets : ∀ members ∈ p.nsSets.toList, ∀ i ∈ members, p.namespaces.Has i
  names : ∀ e ∈ p.names.toList, p.NameRefs e
  ordered : ∀ k base params, p.names.get? k = some (.typeName base params) →
    base.toNat < k ∧ ∀ q ∈ params, q.toNat < k

theorem Closed.empty : ({} : Pool).Closed := by
  constructor <;> simp [Table.toList, Table.get?]

theorem Closed.of_extends (h : p.Closed) (hpq : p.Extends q) (hns : q.namespaces = p.namespaces)
    (hsets : q.nsSets = p.nsSets) (hnames : q.names = p.names) : q.Closed where
  namespaces e he := (h.namespaces e (hns ▸ he)).mono hpq.strings
  nsSets m hm i hi := (h.nsSets m (hsets ▸ hm) i hi).mono hpq.namespaces
  names e he := (h.names e (hnames ▸ he)).mono hpq
  ordered k base params hk := h.ordered k base params (hnames ▸ hk)

/-- what interning builds: tables of distinct values whose entries refer to existing entries -/
structure Interned (p : Pool) : Prop where
  distinct : p.Distinct
  closed : p.Closed

theorem Interned.empty : ({} : Pool).Interned := ⟨Distinct.empty, Closed.empty⟩

/-! ## Reading a closed pool -/

/-- `mapM` reads its function only on the members of the list -/
theorem mapM_congr_mem {m : Type → Type} [Monad m] [LawfulMonad m] {α β : Type} {f g : α → m β} :
    ∀ {l : List α}, (∀ x ∈ l, f x = g x) → l.mapM f = l.mapM g
  | [], _ => rfl
  | x :: l, h => by
    rw [List.mapM_cons, List.mapM_cons, h x List.mem_cons_self,
      mapM_congr_mem fun y hy => h y (List.mem_cons_of_mem x hy)]

/-- in a closed pool the base of a type name comes before it, so the chain of bases below index `i`
is shorter than `i`: any fuel beyond `i` gives the same text -/
theorem Closed.showNameWithin_stable (hc : p.Closed) :
    ∀ (f₁ f₂ : Nat) (i : UInt32), i.toNat < f₁ → i.toNat < f₂ →
      p.showNameWithin f₁ i = p.showNameWithin f₂ i
  | 0, _, _, h₁, _ => absurd h₁ (Nat.not_lt_zero _)
  | _ + 1, 0, _, _, h₂ => absurd h₂ (Nat.not_lt_zero _)
  | a + 1, b + 1, i, h₁, h₂ => by
    simp only [showNameWithin]
    split
    · rfl
    · cases he : p.entry? i with
      | none => rfl
      | some e =>
        cases e with
        | typeName base params =>
          obtain ⟨hb, hps⟩ := hc.ordered _ base params he
          have hstable : ∀ q : UInt32, q.toNat < i.toNat →
              p.showNameWithin a q = p.showNameWithin b q := fun q hq =>
            hc.showNameWithin_stable a b q (by omega) (by omega)
          simp only [hstable base hb, mapM_congr_mem fun q hq => hstable q (hps q hq)]
        | _ => rfl

/-- the same for the local name, which follows only the bases -/
theorem Closed.localNameWithin_stable (hc : p.Closed) :
    ∀ (f₁ f₂ : Nat) (i : UInt32), i.toNat < f₁ → i.toNat < f₂ →
      p.localNameWithin f₁ i = p.localNameWithin f₂ i
  | 0, _, _, h₁, _ => absurd h₁ (Nat.not_lt_zero _)
  | _ + 1, 0, _, _, h₂ => absurd h₂ (Nat.not_lt_zero _)
  | a + 1, b + 1, i, h₁, h₂ => by
    simp only [localNameWithin]
    cases he : p.entry? i with
    | none => rfl
    | some e =>
      cases e with
      | typeName base params =>
        obtain ⟨hb, -⟩ := hc.ordered _ base params he
        exact hc.localNameWithin_stable a b base (by omega) (by omega)
      | _ => rfl

theorem entry?_of_size_lt (h : p.names.size < i.toNat) : p.entry? i = none := by
  cases he : p.entry? i with
  | none => rfl
  | some e => exact absurd (Table.get?_bounds he).2 (Nat.not_le_of_lt h)

/-- in a closed pool the bound on the chain of type names is never reached: more fuel changes
neither the text nor the local name of any index -/
theorem Closed.showName_terminates (hc : p.Closed) (i : UInt32) (fuel : Nat)
    (hf : p.depthBound ≤ fuel) :
    p.showNameWithin fuel i = p.showName i ∧ p.localNameWithin fuel i = p.localName? i := by
  unfold showName localName? depthBound at *
  rcases Nat.lt_or_ge i.toNat (p.names.size + 1) with hi | hi
  · exact ⟨hc.showNameWithin_stable _ _ i (by omega) hi,
      hc.localNameWithin_stable _ _ i (by omega) hi⟩
  · -- past the table both readings stop at the missing entry, whatever the fuel
    have he : p.entry? i = none := entry?_of_size_lt (by omega)
    have hi0 : i ≠ 0 := fun h => by simp [h] at hi
    obtain ⟨f, rfl⟩ : ∃ f, fuel = f + 1 := ⟨fuel - 1, by omega⟩
    simp [showNameWithin, localNameWithin, he, hi0]

/-- an `Option` traversal whose function answers on every member answers -/
theorem mapM_isSome {α β : Type} {f : α → Option β} :
    ∀ {l : List α}, (∀ x ∈ l, (f x).isSome) → (l.mapM f).isSome
  | [], _ => rfl
  | x :: l, h => by
    obtain ⟨y, hy⟩ := Option.isSome_iff_exists.1 (h x List.mem_cons_self)
    obtain ⟨ys, hys⟩ := Option.isSome_iff_exists.1
      (mapM_isSome fun z hz => h z (List.mem_cons_of_mem x hz))
    simp [List.mapM_cons, hy, hys]

/-- in a closed pool the text of an index below the fuel is written: the type names it passes
through lead to earlier names only -/
theorem Closed.showNameWithin_isSome (hc : p.Closed) :
    ∀ (fuel : Nat) (i : UInt32), i.toNat < fuel → (p.showNameWithin fuel i).isSome
  | 0, _, h => absurd h (Nat.not_lt_zero _)
  | a + 1, i, h => by
    simp only [showNameWithin]
    split
    · rfl
    · cases he : p.entry? i with
      | none => rfl
      | some e =>
        cases e with
        | typeName base params =>
          obtain ⟨hb, hps⟩ := hc.ordered _ base params he
          obtain ⟨b, hb'⟩ :=
            Option.isSome_iff_exists.1 (hc.showNameWithin_isSome a base (by omega))
          obtain ⟨ps, hps'⟩ := Option.isSome_iff_exists.1
            (mapM_isSome fun q hq => hc.showNameWithin_isSome a q (by have := hps q hq; omega))
          simp [hb', hps']
        | _ => rfl

/-- the same for the local name -/
theorem Closed.localNameWithin_isSome (hc : p.Closed) :
    ∀ (fuel : Nat) (i : UInt32), i.toNat < fuel → (p.localNameWithin fuel i).isSome
  | 0, _, h => absurd h (Nat.not_lt_zero _)
  | a + 1, i, h => by
    simp only [localNameWithin]
    cases he : p.entry? i with
    | none => rfl
    | some e =>
      cases e with
      | typeName base params =>
        obtain ⟨hb, -⟩ := hc.ordered _ base params he
        exact hc.localNameWithin_isSome a base (by omega)
      | _ => rfl

/-- **In a closed pool reading any name ends**: its text and its local name are both given. -/
theorem Closed.rendering_ends (hc : p.Closed) (i : UInt32) :
    (∃ s, p.showName i = some s) ∧ ∃ s, p.localName? i = some s := by
  -- with fuel past both the index and the bound, the readings are the bounded ones
  obtain ⟨hshow, hlocal⟩ := hc.showName_terminates i (p.depthBound + i.toNat) (by omega)
  rw [← hshow, ← hlocal]
  exact ⟨Option.isSome_iff_exists.1 (hc.showNameWithin_isSome _ i (by unfold depthBound; omega)),
    Option.isSome_iff_exists.1 (hc.localNameWithin_isSome _ i (by unfold depthBound; omega))⟩

/-! ## One table entry at a time -/

section Entries

variable (h : p.Interned)
include h

theorem Interned.int (v : Int32) : (Pool.int v p).2.Interned :=
  ⟨{ h.distinct with ints := h.distinct.ints.intern }, h.closed.of_extends (int_grows v p) rfl rfl rfl⟩

theorem Interned.uint (v : UInt32) : (Pool.uint v p).2.Interned :=
  ⟨{ h.distinct with uints := h.distinct.uints.intern },
    h.closed.of_extends (uint_grows v p) rfl rfl rfl⟩

theorem Interned.double (bits : UInt64) : (Pool.double bits p).2.Interned :=
  ⟨{ h.distinct with doubles := h.distinct.doubles.intern },
    h.closed.of_extends (double_grows bits p) rfl rfl rfl⟩

theorem Interned.string (s : String) : (Pool.string s p).2.Interned :=
  ⟨{ h.distinct with strings := h.distinct.strings.intern },
    h.closed.of_extends (string_grows s p) rfl rfl rfl⟩

theorem Interned.namespaceEntry {e : NamespaceEntry} (hn : p.strings.Has e.name) :
    (Pool.namespaceEntry e p).2.Interned :=
  ⟨{ h.distinct with namespaces := h.distinct.namespaces.intern },
    { h.closed with
      namespaces := fun e' he' => (Table.mem_intern he').elim (h.closed.namespaces e') (· ▸ hn)
      nsSets := fun m hm i hi => (h.closed.nsSets m hm i hi).mono (Table.intern_extends _ _)
      names := fun e' he' => (h.closed.names e' he').mono (namespaceEntry_grows e p) }⟩

theorem Interned.nsSetEntry {members : List UInt32} (hm : ∀ i ∈ members, p.namespaces.Has i) :
    (Pool.nsSetEntry members p).2.Interned :=
  ⟨{ h.distinct with nsSets := h.distinct.nsSets.intern },
    { h.closed with
      nsSets := fun m' hm' => (Table.mem_intern hm').elim (h.closed.nsSets m') (· ▸ hm)
      names := fun e' he' => (h.closed.names e' he').mono (nsSetEntry_grows members p) }⟩

theorem Interned.nameEntry {e : NameEntry} (hr : p.NameRefs e) : (Pool.nameEntry e p).2.Interned := by
  have hgrow := nameEntry_grows e p
  refine ⟨{ h.distinct with names := h.distinct.names.intern },
    { h.closed with
      names := fun e' he' => (Table.mem_intern he').elim
        (fun hold => (h.closed.names e' hold).mono hgrow) (fun heq => heq ▸ hr.mono hgrow)
      ordered := ?_ }⟩
  intro k base params hk
  rcases Table.get?_intern_cases hk with hold | ⟨rfl, rfl⟩
  · exact h.closed.ordered k base params hold
  · obtain ⟨hb, hps⟩ := hr
    exact ⟨Nat.lt_succ_of_le hb.toNat_le, fun q hq => Nat.lt_succ_of_le (hps q hq).toNat_le⟩

end Entries

/-! ## Interning a value -/

theorem Grows.of_eq {α : Type} {act : StateM Pool α} {a : α} (g : Grows act) (h : act p = (a, q)) :
    p.Extends q := by
  have hg := g p
  rw [h] at hg
  exact hg

theorem bind_eq_pair {α β : Type} {x : StateM Pool α} {f : α → StateM Pool β} {b : β}
    (h : (x >>= f) p = (b, q)) : ∃ a p₁, x p = (a, p₁) ∧ f a p₁ = (b, q) :=
  ⟨(x p).1, (x p).2, rfl, h⟩

/-- from an interned pool, `act` leaves an interned pool in which what it hands out satisfies
`holds`, as long as that pool is small -/
def Interns {α : Type} (act : StateM Pool α) (holds : Pool → α → Prop) : Prop :=
  ∀ ⦃p q : Pool⦄ ⦃a : α⦄, act p = (a, q) → p.Interned → q.Small → q.Interned ∧ holds q a

theorem int_interns (v : Int32) : Interns (Pool.int v) (fun q i => q.ints.get? i.toNat = some v) := by
  intro p q i h hp hs
  cases h
  exact ⟨hp.int v, Table.get?_intern_word hs.ints⟩

theorem uint_interns (v : UInt32) :
    Interns (Pool.uint v) (fun q i => q.uints.get? i.toNat = some v) := by
  intro p q i h hp hs
  cases h
  exact ⟨hp.uint v, Table.get?_intern_word hs.uints⟩

theorem double_interns (bits : UInt64) :
    Interns (Pool.double bits) (fun q i => q.doubles.get? i.toNat = some bits) := by
  intro p q i h hp hs
  cases h
  exact ⟨hp.double bits, Table.get?_intern_word hs.doubles⟩

theorem string_interns (s : String) : Interns (Pool.string s) (fun q i => q.HoldsString i s) := by
  intro p q i h hp hs
  cases h
  exact ⟨hp.string s, Table.get?_intern_word hs.strings⟩

theorem ns_interns (space : Namespace) : Interns (Pool.ns space) (fun q i => q.HoldsNs i space) := by
  intro p q i h hp hs
  obtain ⟨ni, p₁, h₁, h₂⟩ := bind_eq_pair h
  have g₂ := (namespaceEntry_grows _).of_eq h₂
  obtain ⟨hp₁, hn⟩ := string_interns space.name h₁ hp (hs.of_extends g₂)
  cases h₂
  exact ⟨hp₁.namespaceEntry ⟨_, hn⟩, ni, Table.get?_intern_word hs.namespaces, hn.mono g₂⟩

theorem nsList_interns :
    ∀ set : List Namespace, Interns (Pool.nsList set) (fun q is => List.Forall₂ q.HoldsNs is set)
  | [] => by
    intro p q is h hp _
    cases h
    exact ⟨hp, .nil⟩
  | space :: rest => by
    intro p q is h hp hs
    obtain ⟨i, p₁, h₁, h⟩ := bind_eq_pair h
    obtain ⟨is', p₂, h₂, h⟩ := bind_eq_pair h
    cases h
    obtain ⟨hp₁, hi⟩ := ns_interns space h₁ hp (hs.of_extends ((nsList_grows rest).of_eq h₂))
    obtain ⟨hp₂, his⟩ := nsList_interns rest h₂ hp₁ hs
    exact ⟨hp₂, .cons (hi.mono ((nsList_grows rest).of_eq h₂)) his⟩

theorem nsSet_interns (set : List Namespace) :
    Interns (Pool.nsSet set) (fun q i => q.HoldsSet i set) := by
  intro p q i h hp hs
  obtain ⟨members, p₁, h₁, h₂⟩ := bind_eq_pair h
  have g₂ := (nsSetEntry_grows _).of_eq h₂
  obtain ⟨hp₁, hm⟩ := nsList_interns set h₁ hp (hs.of_extends g₂)
  cases h₂
  exact ⟨hp₁.nsSetEntry (HoldsNs.has_of_forall₂ hm), members, Table.get?_intern_word hs.nsSets,
    hm.imp fun _ _ h => h.mono g₂⟩

/-- the last step of interning a name: its entry, from indices that name existing entries -/
theorem nameEntry_interns {e : NameEntry} {i : UInt32} (h : Pool.nameEntry e p = (i, q))
    (hp : p.Interned) (hr : p.NameRefs e) (hs : q.Small) :
    q.Interned ∧ q.names.get? i.toNat = some e := by
  cases h
  exact ⟨hp.nameEntry hr, Table.get?_intern_word hs.names⟩

mutual

/-- a name's parts first, in the order the pool interns them, then its entry -/
theorem name_interns : ∀ n : Name, Interns (Pool.name n) (fun q i => q.HoldsName i n)
  | .qname space n a => by
    intro p q i h hp hs
    obtain ⟨nsi, p₁, h₁, h⟩ := bind_eq_pair h
    obtain ⟨ni, p₂, h₂, h₃⟩ := bind_eq_pair h
    have g₂ := (string_grows n).of_eq h₂
    have g₃ := (nameEntry_grows _).of_eq h₃
    obtain ⟨hp₁, hns⟩ := ns_interns space h₁ hp (hs.of_extends (g₂.trans g₃))
    obtain ⟨hp₂, hn⟩ := string_interns n h₂ hp₁ (hs.of_extends g₃)
    obtain ⟨hq, he⟩ := nameEntry_interns h₃ hp₂ ⟨(hns.mono g₂).has, hn.has⟩ hs
    exact ⟨hq, nsi, ni, he, (hns.mono g₂).mono g₃, hn.mono g₃⟩
  | .rtqName n a => by
    intro p q i h hp hs
    obtain ⟨ni, p₁, h₁, h₂⟩ := bind_eq_pair h
    have g₂ := (nameEntry_grows _).of_eq h₂
    obtain ⟨hp₁, hn⟩ := string_interns n h₁ hp (hs.of_extends g₂)
    obtain ⟨hq, he⟩ := nameEntry_interns h₂ hp₁ hn.has hs
    exact ⟨hq, ni, he, hn.mono g₂⟩
  | .rtqNameL a => fun _ _ _ h hp hs => nameEntry_interns h hp trivial hs
  | .multiname n set a => by
    intro p q i h hp hs
    obtain ⟨ni, p₁, h₁, h⟩ := bind_eq_pair h
    obtain ⟨si, p₂, h₂, h₃⟩ := bind_eq_pair h
    have g₂ := (nsSet_grows set).of_eq h₂
    have g₃ := (nameEntry_grows _).of_eq h₃
    obtain ⟨hp₁, hn⟩ := string_interns n h₁ hp (hs.of_extends (g₂.trans g₃))
    obtain ⟨hp₂, hset⟩ := nsSet_interns set h₂ hp₁ (hs.of_extends g₃)
    obtain ⟨hq, he⟩ := nameEntry_interns h₃ hp₂ ⟨(hn.mono g₂).has, hset.has⟩ hs
    exact ⟨hq, ni, si, he, (hn.mono g₂).mono g₃, hset.mono g₃⟩
  | .multinameL set a => by
    intro p q i h hp hs
    obtain ⟨si, p₁, h₁, h₂⟩ := bind_eq_pair h
    have g₂ := (nameEntry_grows _).of_eq h₂
    obtain ⟨hp₁, hset⟩ := nsSet_interns set h₁ hp (hs.of_extends g₂)
    obtain ⟨hq, he⟩ := nameEntry_interns h₂ hp₁ hset.has hs
    exact ⟨hq, si, he, hset.mono g₂⟩
  | .typeName base params => by
    intro p q i h hp hs
    obtain ⟨bi, p₁, h₁, h⟩ := bind_eq_pair h
    obtain ⟨pis, p₂, h₂, h₃⟩ := bind_eq_pair h
    have g₂ := (nameList_grows params).of_eq h₂
    have g₃ := (nameEntry_grows _).of_eq h₃
    obtain ⟨hp₁, hb⟩ := name_interns base h₁ hp (hs.of_extends (g₂.trans g₃))
    obtain ⟨hp₂, hps⟩ := nameList_interns params h₂ hp₁ (hs.of_extends g₃)
    obtain ⟨hq, he⟩ := nameEntry_interns h₃ hp₂ ⟨(hb.mono g₂).has, hps.has⟩ hs
    exact ⟨hq, bi, pis, he, (hb.mono g₂).mono g₃, hps.mono g₃⟩

theorem nameList_interns : ∀ ns : List Name, Interns (Pool.nameList ns) (fun q is => q.HoldsNames is ns)
  | [] => by
    intro p q is h hp _
    cases h
    exact ⟨hp, trivial⟩
  | n :: rest => by
    intro p q is h hp hs
    obtain ⟨i, p₁, h₁, h⟩ := bind_eq_pair h
    obtain ⟨is', p₂, h₂, h⟩ := bind_eq_pair h
    cases h
    have g₂ := (nameList_grows rest).of_eq h₂
    obtain ⟨hp₁, hi⟩ := name_interns n h₁ hp (hs.of_extends g₂)
    obtain ⟨hp₂, his⟩ := nameList_interns rest h₂ hp₁ hs
    exact ⟨hp₂, hi.mono g₂, his⟩

end

theorem qname_eq_name (space : Namespace) (n : String) :
    Pool.qname space n = Pool.name (.qname space n false) := rfl

end Pool

end AbcKit
