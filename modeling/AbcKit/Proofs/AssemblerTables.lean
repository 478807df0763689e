import AbcKit.Proofs.Tables
import AbcKit.Proofs.PoolEntries
/-!
The module tables agree with one another under every order of calls.

`Assembler.Coherent` says that the tables agree: each method and each class has its name, each
name once, which its map gives its position; the class tables move in lock step; and each
metadata record is there once, at the position its map gives it. The tables carry the invariants
this follows from, so all tables are coherent (`Assembler.coherent`). `Assembler.Grows` says what
any step may do: the pool grows, the name lists and the metadata only get longer, and a defined
method stays defined. Every step on the tables, whether it succeeds or fails, grows them
(`methodIndex_grows`, `defineMethod_grows`, ...).

An index a step hands out keeps meaning what it meant: a method or class index is the position
of its name (`Assembler.MethodAt`, `Assembler.ClassAt`), and a metadata index the position of the
record that spells the name and items asked for (`Assembler.MetadataAt`), each string by the
first index the pool gives it (`Pool.StringAt`).
-/
namespace AbcKit

theorem toUInt32_inj_of_lt {m n : Nat} (hm : m < 2 ^ 32) (hn : n < 2 ^ 32)
    (h : m.toUInt32 = n.toUInt32) : m = n := by
  have := congrArg UInt32.toNat h
  simp only [Nat.toUInt32_eq, UInt32.toNat_ofNat'] at this
  rwa [Nat.mod_eq_of_lt hm, Nat.mod_eq_of_lt hn] at this

/-- two positions of a list of distinct values, read as words while the list has at most 2^32
entries, are equal exactly when they hold equal values -/
theorem toUInt32_eq_iff_of_nodup {β : Type} {l : List β} {p p' : Nat} {x x' : β} (hl : l.Nodup)
    (hlen : l.length ≤ 2 ^ 32) (h : l[p]? = some x) (h' : l[p']? = some x') :
    p.toUInt32 = p'.toUInt32 ↔ x = x' := by
  obtain ⟨hp, rfl⟩ := List.getElem?_eq_some_iff.mp h
  obtain ⟨hp', rfl⟩ := List.getElem?_eq_some_iff.mp h'
  rw [hl.getElem_inj_iff]
  exact ⟨toUInt32_inj_of_lt (by omega) (by omega), fun heq => heq ▸ rfl⟩

namespace Pool

variable {p q : Pool} {s s' : String} {i j : UInt32}

/-- `i` is the first index of string `s` in the pool -/
def StringAt (p : Pool) (s : String) (i : UInt32) : Prop :=
  ∃ k, p.strings.firstIndex? s = some k ∧ i = k.toUInt32

theorem StringAt.mono (h : p.StringAt s i) (hpq : p.Extends q) : q.StringAt s i :=
  let ⟨k, hk, hi⟩ := h
  ⟨k, hpq.strings.firstIndex? hk, hi⟩

theorem StringAt.unique (h : p.StringAt s i) (h' : p.StringAt s j) : i = j := by
  obtain ⟨k, hk, rfl⟩ := h
  obtain ⟨k', hk', rfl⟩ := h'
  rw [Option.some.inj (hk.symm.trans hk')]

theorem StringAt.inj (h : p.StringAt s i) (h' : p.StringAt s' i) (hs : p.strings.size < 2 ^ 32) :
    s = s' := by
  obtain ⟨k, hk, rfl⟩ := h
  obtain ⟨k', hk', hkk⟩ := h'
  have hle := (Table.firstIndex?_bounds hk).2
  have hle' := (Table.firstIndex?_bounds hk').2
  obtain rfl : k = k' := toUInt32_inj_of_lt (by omega) (by omega) hkk
  exact Table.firstIndex?_inj hk hk'

theorem StringAt.ne_zero (h : p.StringAt s i) (hs : p.strings.size < 2 ^ 32) : i ≠ 0 := by
  obtain ⟨k, hk, rfl⟩ := h
  exact Table.IsIndex.ne_zero ⟨k, rfl, Table.firstIndex?_bounds hk⟩ hs

theorem string_stringAt (s : String) (p : Pool) : (Pool.string s p).2.StringAt s (Pool.string s p).1 :=
  Table.intern_firstIndex? p.strings s

/-- index `i` of a metadata key: the key's first index, or 0 when there is no key -/
def KeyAt (p : Pool) : Option String → UInt32 → Prop
  | some key, i => p.StringAt key i
  | none, i => i = 0

theorem KeyAt.mono {key : Option String} (h : p.KeyAt key i) (hpq : p.Extends q) : q.KeyAt key i := by
  cases key with
  | some key => exact StringAt.mono h hpq
  | none => exact h

theorem KeyAt.unique {key : Option String} (h : p.KeyAt key i) (h' : p.KeyAt key j) : i = j := by
  cases key with
  | some key => exact StringAt.unique h h'
  | none => exact h.trans h'.symm

theorem KeyAt.inj {key key' : Option String} (h : p.KeyAt key i) (h' : p.KeyAt key' i)
    (hs : p.strings.size < 2 ^ 32) : key = key' := by
  cases key with
  | some key =>
    cases key' with
    | some key' => exact congrArg some (StringAt.inj h h' hs)
    | none => exact absurd h' (StringAt.ne_zero h hs)
  | none =>
    cases key' with
    | some key' => exact absurd h (StringAt.ne_zero h' hs)
    | none => rfl

end Pool

/-- metadata record `d` spells `name` and `items` in pool `p`: its name and each value by their
first indices, each key by its first index or 0 when it has none -/
structure Metadata.Spells (p : Pool) (d : Metadata) (name : String)
    (items : List (Option String × String)) : Prop where
  name : p.StringAt name d.name
  items : List.Forall₂ (fun (kv : Option String × String) (ij : UInt32 × UInt32) =>
    p.KeyAt kv.1 ij.1 ∧ p.StringAt kv.2 ij.2) items d.items

namespace Metadata.Spells

variable {p q : Pool} {d d' : Metadata} {name name' : String} {items items' : List (Option String × String)}

theorem mono (h : d.Spells p name items) (hpq : p.Extends q) : d.Spells q name items :=
  ⟨h.name.mono hpq, h.items.imp fun _ _ hkv => ⟨hkv.1.mono hpq, hkv.2.mono hpq⟩⟩

theorem unique (h : d.Spells p name items) (h' : d'.Spells p name items) : d = d' := by
  have hr : Relator.RightUnique fun (kv : Option String × String) (ij : UInt32 × UInt32) =>
      p.KeyAt kv.1 ij.1 ∧ p.StringAt kv.2 ij.2 :=
    fun _ _ _ h h' => Prod.ext (h.1.unique h'.1) (h.2.unique h'.2)
  cases d
  cases d'
  congr
  · exact h.name.unique h'.name
  · exact List.right_unique_forall₂' hr h.items h'.items

theorem inj (h : d.Spells p name items) (h' : d.Spells p name' items')
    (hs : p.strings.size < 2 ^ 32) : name = name' ∧ items = items' := by
  have hl : Relator.LeftUnique fun (kv : Option String × String) (ij : UInt32 × UInt32) =>
      p.KeyAt kv.1 ij.1 ∧ p.StringAt kv.2 ij.2 :=
    fun _ _ _ h h' => Prod.ext (h.1.inj h'.1 hs) (h.2.inj h'.2 hs)
  exact ⟨h.name.inj h'.name hs, List.left_unique_forall₂' hl h.items h'.items⟩

end Metadata.Spells

namespace Triple

variable {ε σ α β : Type} {R : σ → σ → Prop} [IsPreorder σ R]

/-- a step repeated over a list: each result satisfies `Q` with the element it came from, provided
each step keeps `I` and the frame keeps `Q` of results already returned -/
theorem mapM_forall₂ {I : σ → Prop} {Q : α → β → σ → Prop} {f : α → EStateM ε σ β}
    (hQ : ∀ x b s s', Q x b s → R s s' → Q x b s')
    (hf : ∀ x, Triple R I (f x) fun b s => Q x b s ∧ I s) :
    ∀ l : List α, Triple R I (l.mapM f) fun bs s => List.Forall₂ (fun x b => Q x b s) l bs ∧ I s
  | [] => pure fun s hs => ⟨.nil, hs⟩
  | x :: l => by
    rw [List.mapM_cons]
    refine (hf x).bind fun b => ?_
    -- the rest of the list runs with `Q x b` carried along by the frame
    have hrest := (mapM_forall₂ hQ hf l).frame (F := Q x b) fun s s' hq hr => hQ x b s s' hq hr
    refine (hrest.consequence (fun s h => ⟨h.2, h.1⟩) fun _ _ h => h).bind fun bs => ?_
    exact pure fun s ⟨⟨hall, hi⟩, hq⟩ => ⟨.cons hq hall, hi⟩

end Triple

namespace Emit

namespace Assembler

variable {a a' : Assembler}

/-- index `i` is the position of method name `n` -/
def MethodAt (a : Assembler) (n : String) (i : UInt32) : Prop :=
  ∃ pos : Nat, a.methodNames[pos]? = some n ∧ i = pos.toUInt32

/-- index `i` is the position of class name `n` -/
def ClassAt (a : Assembler) (n : Name) (i : UInt32) : Prop :=
  ∃ pos : Nat, a.classNames[pos]? = some n ∧ i = pos.toUInt32

/-- index `i` is the position of metadata record `d` -/
def RecordAt (a : Assembler) (d : Metadata) (i : UInt32) : Prop :=
  ∃ pos : Nat, a.metadata[pos]? = some d ∧ i = pos.toUInt32

/-- index `i` is the position of the metadata record that spells `name` and `items` -/
def MetadataAt (a : Assembler) (name : String) (items : List (Option String × String))
    (i : UInt32) : Prop :=
  ∃ d, a.RecordAt d i ∧ d.Spells a.pool name items

/-- The tables agree with one another: each method and each class has its name, each name once,
and the map of each gives a name its position; the class tables move in lock step, so the
lock-step check passes; and each metadata record is there once, its map giving its position. -/
structure Coherent (a : Assembler) : Prop where
  names : a.methodNames.length = a.methods.length
  namesNodup : a.methodNames.Nodup
  methodLookup : ∀ n i, a.methodLookup.get? n = some i ↔ a.MethodAt n i
  instances : a.instances.length = a.classes.length
  defined : a.classDefined.length = a.classes.length
  lockStep : checkLockStep a = .ok () a
  classNames : a.classNames.length = a.classes.length
  classNamesNodup : a.classNames.Nodup
  classLookup : ∀ n i, a.classLookup.get? n = some i ↔ a.ClassAt n i
  metadata : a.metadata.Nodup
  metadataLookup : ∀ d i, a.metadataLookup.get? d = some i ↔ a.RecordAt d i

/-- **All tables are coherent**: the invariants they carry tie each map to its records. -/
theorem coherent (a : Assembler) : a.Coherent where
  names := a.methodNames_length
  namesNodup := a.methodLookup_indexes.nodup
  methodLookup _ _ := a.methodLookup_indexes.get?_eq_some_iff
  instances := a.instances_length
  defined := a.classDefined_length
  lockStep := checkLockStep_ok a
  classNames := by rw [classNames, List.length_map, a.classLookup_length]
  classNamesNodup := a.classLookup_indexes.nodup
  classLookup _ _ := a.classLookup_indexes.get?_eq_some_iff
  metadata := a.metadataLookup_indexes.nodup
  metadataLookup _ _ := a.metadataLookup_indexes.get?_eq_some_iff

/-- What any step may do to the tables: the pool grows, the method and class names and the
metadata records are only appended to, and a defined method keeps its signature. -/
structure Grows (a a' : Assembler) : Prop where
  pool : a.pool.Extends a'.pool
  methodNames : a.methodNames <+: a'.methodNames
  methods : ∀ (k : Nat) (sig : MethodSig), a.methods[k]? = some (some sig) →
    a'.methods[k]? = some (some sig)
  classNames : a.classNames <+: a'.classNames
  metadata : a.metadata <+: a'.metadata

instance : IsPreorder Assembler Grows where
  refl _ := ⟨.refl _, List.prefix_refl _, fun _ _ h => h, List.prefix_refl _, List.prefix_refl _⟩
  trans _ _ _ h h' := ⟨h.pool.trans h'.pool, h.methodNames.trans h'.methodNames,
    fun k sig hk => h'.methods k sig (h.methods k sig hk), h.classNames.trans h'.classNames,
    h.metadata.trans h'.metadata⟩

theorem Interns.grows (h : a.Interns a') : a.Grows a' := by
  obtain ⟨htables, hpool, hmeta⟩ := h
  rw [htables]
  exact ⟨hpool, List.prefix_refl _, fun _ _ h => h, List.prefix_refl _, hmeta⟩

theorem getElem?_of_prefix {α : Type} {l l' : List α} {k : Nat} {x : α} (h : l <+: l')
    (hk : l[k]? = some x) : l'[k]? = some x := by
  obtain ⟨hlt, rfl⟩ := List.getElem?_eq_some_iff.mp hk
  exact List.prefix_iff_getElem?.mp h k hlt

theorem MethodAt.mono {n : String} {i : UInt32} (h : a.MethodAt n i) (hg : a.Grows a') :
    a'.MethodAt n i :=
  let ⟨pos, hpos, hi⟩ := h
  ⟨pos, getElem?_of_prefix hg.methodNames hpos, hi⟩

theorem ClassAt.mono {n : Name} {i : UInt32} (h : a.ClassAt n i) (hg : a.Grows a') :
    a'.ClassAt n i :=
  let ⟨pos, hpos, hi⟩ := h
  ⟨pos, getElem?_of_prefix hg.classNames hpos, hi⟩

theorem RecordAt.mono {d : Metadata} {i : UInt32} (h : a.RecordAt d i) (hg : a.Grows a') :
    a'.RecordAt d i :=
  let ⟨pos, hpos, hi⟩ := h
  ⟨pos, getElem?_of_prefix hg.metadata hpos, hi⟩

theorem MetadataAt.mono {name : String} {items : List (Option String × String)} {i : UInt32}
    (h : a.MetadataAt name items i) (hg : a.Grows a') : a'.MetadataAt name items i :=
  let ⟨d, hd, hspell⟩ := h
  ⟨d, hd.mono hg, hspell.mono hg.pool⟩

theorem MethodAt.unique {n : String} {i i' : UInt32} (h : a.MethodAt n i)
    (h' : a.MethodAt n i') : i = i' := by
  have hi := (a.coherent.methodLookup n i).mpr h
  rw [(a.coherent.methodLookup n i').mpr h'] at hi
  exact Option.some.inj hi.symm

/-- With at most 2^32 methods, two method indices are equal exactly when they were asked for with
equal names. -/
theorem MethodAt.eq_iff {n n' : String} {i i' : UInt32} (hm : a.methods.length ≤ 2 ^ 32)
    (h : a.MethodAt n i) (h' : a.MethodAt n' i') : i = i' ↔ n = n' := by
  obtain ⟨p, hp, rfl⟩ := h
  obtain ⟨p', hp', rfl⟩ := h'
  exact toUInt32_eq_iff_of_nodup a.coherent.namesNodup (a.coherent.names ▸ hm) hp hp'

/-- With at most 2^32 classes, two class indices are equal exactly when they were asked for with
equal names. -/
theorem ClassAt.eq_iff {n n' : Name} {i i' : UInt32} (hc : a.classes.length ≤ 2 ^ 32)
    (h : a.ClassAt n i) (h' : a.ClassAt n' i') : i = i' ↔ n = n' := by
  obtain ⟨p, hp, rfl⟩ := h
  obtain ⟨p', hp', rfl⟩ := h'
  exact toUInt32_eq_iff_of_nodup a.coherent.classNamesNodup (a.coherent.classNames ▸ hc) hp hp'

/-- In a pool of fewer than 2^32 strings and with at most 2^32 metadata records, two metadata
indices are equal exactly when they were asked for with equal names and items. -/
theorem MetadataAt.eq_iff {name name' : String} {items items' : List (Option String × String)}
    {i i' : UInt32} (hs : a.pool.strings.size < 2 ^ 32) (hm : a.metadata.length ≤ 2 ^ 32)
    (h : a.MetadataAt name items i) (h' : a.MetadataAt name' items' i') :
    i = i' ↔ name = name' ∧ items = items' := by
  obtain ⟨d, ⟨pos, hd, rfl⟩, hspell⟩ := h
  obtain ⟨d', ⟨pos', hd', rfl⟩, hspell'⟩ := h'
  -- positions are told apart by their words, and records by what they spell
  rw [toUInt32_eq_iff_of_nodup a.coherent.metadata hm hd hd']
  constructor
  · rintro rfl
    exact hspell.inj hspell' hs
  · rintro ⟨rfl, rfl⟩
    exact hspell.unique hspell'

/-! ### Each step grows the tables -/

theorem methodIndex_grows (name : String) :
    Triple Grows (fun _ => True) (methodIndex name) fun i a => a.MethodAt name i := by
  intro a _
  unfold methodIndex
  split
  next index hindex =>
    exact ⟨refl_of Grows a, fun _ _ h => by
      cases h
      exact (a.coherent.methodLookup name index).mp hindex⟩
  next hnone =>
    refine ⟨⟨.refl _, List.prefix_append _ _,
      fun k sig hk => getElem?_of_prefix (List.prefix_append _ _) hk, List.prefix_refl _,
      List.prefix_refl _⟩, fun _ _ h => ?_⟩
    cases h
    exact ⟨a.methodNames.length, by simp [addMethod], by rw [a.methodNames_length]⟩

/-- defining a method fills its record, which stays filled; the other steps of the definition
are refusals, which leave the tables as they were -/
theorem defineMethod_grows (index : UInt32) (sig : MethodSig) (body : Option MethodBody) :
    Triple Grows (fun _ => True) (defineMethod index sig body)
      fun _ a => a.methods[index.toNat]? = some (some sig) := by
  intro a _
  unfold defineMethod
  split
  · exact ⟨refl_of Grows a, fun _ _ h => by cases h⟩
  · exact ⟨refl_of Grows a, fun _ _ h => by cases h⟩
  · next hnone =>
    have hlt : index.toNat < a.methods.length := (List.getElem?_eq_some_iff.mp hnone).1
    refine ⟨⟨.refl _, List.prefix_refl _, fun k sig' hk => ?_, List.prefix_refl _,
      List.prefix_refl _⟩, fun _ _ h => ?_⟩
    · -- the record filled was empty, so every filled one is another
      have hk' : index.toNat ≠ k := by
        rintro rfl
        rw [hnone] at hk
        cases hk
      simp only [endState_ok, fillMethod]
      rw [List.getElem?_set_ne hk']
      exact hk
    · cases h
      exact List.getElem?_set_self hlt

theorem classNames_addClass {name : Name} {nameIndex : UInt32}
    (h : a.classLookup.get? name = none) :
    (a.addClass name nameIndex h).classNames = a.classNames ++ [name] := by
  simp [classNames, addClass, Lookup.insertIfNew_of_none h]

theorem classIndex_grows (name : Name) :
    Triple Grows (fun _ => True) (classIndex name) fun i a => a.ClassAt name i := by
  intro a _
  cases hname : a.classLookup.get? name with
  | some index =>
    rw [classIndex_of_some hname]
    exact ⟨refl_of Grows a, fun _ _ h => by
      cases h
      exact (a.coherent.classLookup name index).mp hname⟩
  | none =>
    rw [classIndex_of_none hname]
    refine ⟨⟨Pool.name_grows name a.pool, List.prefix_refl _, fun _ _ h => h, ?_,
      List.prefix_refl _⟩, fun _ _ h => ?_⟩
    · rw [endState_ok, classNames_addClass]
      exact List.prefix_append _ _
    · cases h
      refine ⟨a.classNames.length, ?_, by rw [a.coherent.classNames]⟩
      rw [classNames_addClass]
      exact List.getElem?_concat_length

/-- defining a class fills both its records and marks it defined; the other steps of the
definition are refusals, which leave the tables as they were -/
theorem defineClass_grows (index : UInt32) (inst : Instance) (cls : ClassRecord) :
    Triple Grows (fun _ => True) (defineClass index inst cls)
      fun _ a => a.classDefined[index.toNat]? = some true := by
  intro a _
  unfold defineClass
  dsimp only
  split
  · exact ⟨refl_of Grows a, fun _ _ h => by cases h⟩
  · exact ⟨refl_of Grows a, fun _ _ h => by cases h⟩
  · next hfalse =>
    have hlt : index.toNat < a.classDefined.length := (List.getElem?_eq_some_iff.mp hfalse).1
    refine ⟨⟨.refl _, List.prefix_refl _, fun _ _ h => h, List.prefix_refl _,
      List.prefix_refl _⟩, fun _ _ h => ?_⟩
    cases h
    exact List.getElem?_set_self hlt

theorem addScript_grows (s : Script) : Triple Grows (fun _ => True) (addScript s) fun _ _ => True :=
  fun _ _ => ⟨⟨.refl _, List.prefix_refl _, fun _ _ h => h, List.prefix_refl _,
    List.prefix_refl _⟩, fun _ _ _ => trivial⟩

theorem buildTraits_grows (scope : ObjectDescriptor) :
    Triple Grows (fun _ => True) (buildTraits scope) fun _ _ => True :=
  ((buildTraits_spec scope).weaken fun _ _ h => h.grows).consequence (fun _ h => h)
    fun _ _ _ => trivial

theorem onPool_string (s : String) :
    Triple Grows (fun _ => True) (onPool (Pool.string s)) fun i a => a.pool.StringAt s i :=
  (onPool_spec (Q := fun i p => p.StringAt s i) (Pool.string_grows s)
    fun p => Pool.string_stringAt s p).weaken fun _ _ h => h.grows

/-- a metadata item's key and value indices, each its string's first index -/
theorem metadataItem_grows (name : String) (nameIndex : UInt32) (key : Option String)
    (value : String) :
    Triple Grows (fun a => a.pool.StringAt name nameIndex)
      (do
        let k ← match key with
          | some k => onPool (Pool.string k)
          | none => pure 0
        let v ← onPool (Pool.string value)
        pure (k, v))
      fun ij a => (a.pool.KeyAt key ij.1 ∧ a.pool.StringAt value ij.2) ∧
        a.pool.StringAt name nameIndex := by
  have hvalue : ∀ k, Triple Grows (fun a => a.pool.KeyAt key k ∧ a.pool.StringAt name nameIndex)
      (do
        let v ← onPool (Pool.string value)
        pure (k, v))
      fun ij a => (a.pool.KeyAt key ij.1 ∧ a.pool.StringAt value ij.2) ∧
        a.pool.StringAt name nameIndex := fun k =>
    (((onPool_string value).frame
      (F := fun a => a.pool.KeyAt key k ∧ a.pool.StringAt name nameIndex)
      fun _ _ h hg => ⟨h.1.mono hg.pool, h.2.mono hg.pool⟩).consequence
        (fun _ h => ⟨trivial, h⟩) fun _ _ h => h).bind fun _ =>
      Triple.pure fun _ ⟨hv, hk, hn⟩ => ⟨⟨hk, hv⟩, hn⟩
  cases key with
  | some key =>
    exact (((onPool_string key).frame fun _ _ h hg => h.mono hg.pool).consequence
      (fun _ h => ⟨trivial, h⟩) fun _ _ h => h).bind hvalue
  | none => exact (Triple.pure fun _ h => ⟨rfl, h⟩).bind hvalue

/-- a metadata record's index is the position of the record that spells its name and items, the
record appended when no equal one is there -/
theorem addMetadata_grows (name : String) (items : List (Option String × String)) :
    Triple Grows (fun _ => True) (addMetadata name items)
      fun i a => a.MetadataAt name items i := by
  unfold addMetadata
  refine (onPool_string name).bind fun nameIndex => ?_
  refine (Triple.mapM_forall₂ (I := fun (a : Assembler) => a.pool.StringAt name nameIndex)
    (Q := fun (kv : Option String × String) (ij : UInt32 × UInt32) (a : Assembler) =>
      a.pool.KeyAt kv.1 ij.1 ∧ a.pool.StringAt kv.2 ij.2)
    (fun _ _ _ _ h hg => ⟨h.1.mono hg.pool, h.2.mono hg.pool⟩)
    (fun kv => metadataItem_grows name nameIndex kv.1 kv.2) items).bind fun entries => ?_
  refine Triple.get.bind fun a => ?_
  split
  · next index hindex =>
    refine Triple.pure fun _ ⟨ha, hspell, hname⟩ => ?_
    subst ha
    exact ⟨_, (a.coherent.metadataLookup _ index).mp hindex, ⟨hname, hspell⟩⟩
  · next hnone =>
    refine (Triple.set (Q := fun _ a' => a'.MetadataAt name items a.metadata.length.toUInt32)
      fun _ ⟨ha, hspell, hname⟩ => ⟨?_, ?_⟩).bind fun _ => Triple.pure fun _ h => h
    · subst ha
      exact ⟨.refl _, List.prefix_refl _, fun _ _ h => h, List.prefix_refl _,
        List.prefix_append _ _⟩
    · subst ha
      exact ⟨⟨nameIndex, entries⟩, ⟨a.metadata.length, by simp [addRecord], rfl⟩,
        ⟨hname, hspell⟩⟩

/-- A definition is refused with an internal error, leaving the tables as they were, exactly
when the method does not exist or is defined already. -/
theorem defineMethod_refused (a : Assembler) (index : UInt32) (sig : MethodSig)
    (body : Option MethodBody) :
    (∃ msg, defineMethod index sig body a = .error (.internal msg) a) ↔
      a.methods[index.toNat]? ≠ some none := by
  unfold defineMethod
  split <;> simp_all

/-- A class definition is refused with an internal error, leaving the tables as they were,
exactly when the class does not exist or is defined already. -/
theorem defineClass_refused (a : Assembler) (index : UInt32) (inst : Instance)
    (cls : ClassRecord) :
    (∃ msg, defineClass index inst cls a = .error (.internal msg) a) ↔
      a.classDefined[index.toNat]? ≠ some false := by
  unfold defineClass
  dsimp only
  split <;> simp_all

/-! ### Runs of calls made directly on the tables -/

/-- one call on the module tables -/
inductive Op where
  | methodIndex (name : String)
  | defineMethod (index : UInt32) (sig : MethodSig) (body : Option MethodBody)
  | classIndex (name : Name)
  | defineClass (index : UInt32) (inst : Instance) (cls : ClassRecord)
  | addScript (s : Script)
  | addMetadata (name : String) (items : List (Option String × String))
  | buildTraits (scope : ObjectDescriptor)

namespace Op

/-- make the call; the index it hands out, if any, is its reply -/
def run : Op → AssemblerM Reply
  | .methodIndex n => do pure (.number (← Assembler.methodIndex n).toNat)
  | .defineMethod index sig body => do Assembler.defineMethod index sig body; pure .none
  | .classIndex n => do pure (.number (← Assembler.classIndex n).toNat)
  | .defineClass index inst cls => do Assembler.defineClass index inst cls; pure .none
  | .addScript s => do pure (.number (← Assembler.addScript s))
  | .addMetadata n items => do pure (.number (← Assembler.addMetadata n items).toNat)
  | .buildTraits scope => do discard (Assembler.buildTraits scope); pure .none

/-- the result of a call and the tables it leaves, whether it succeeded or was refused -/
def step (op : Op) (a : Assembler) : Except EmitError Reply × Assembler :=
  match op.run a with
  | .ok r a' => (.ok r, a')
  | .error err a' => (.error err, a')

/-- what a successful call's reply says of tables: an index is the position of the name, or of
the record, it was asked for, and a defined method has the signature it was given -/
def Answers (a : Assembler) : Op → Reply → Prop
  | .methodIndex n, r => ∃ i, r = .number i.toNat ∧ a.MethodAt n i
  | .defineMethod index sig _, _ => a.methods[index.toNat]? = some (some sig)
  | .classIndex n, r => ∃ i, r = .number i.toNat ∧ a.ClassAt n i
  | .addMetadata n items, r => ∃ i, r = .number i.toNat ∧ a.MetadataAt n items i
  | _, _ => True

/-- the method a call defined: a definition that succeeded -/
def defined : Op → Except EmitError Reply → Option UInt32
  | .defineMethod index _ _, .ok _ => some index
  | _, _ => none

variable {op : Op} {r : Reply}

theorem Answers.mono (h : op.Answers a r) (hg : a.Grows a') : op.Answers a' r := by
  cases op with
  | methodIndex n =>
    obtain ⟨i, hr, hi⟩ := h
    exact ⟨i, hr, hi.mono hg⟩
  | defineMethod index sig body => exact hg.methods _ _ h
  | classIndex n =>
    obtain ⟨i, hr, hi⟩ := h
    exact ⟨i, hr, hi.mono hg⟩
  | addMetadata n items =>
    obtain ⟨i, hr, hi⟩ := h
    exact ⟨i, hr, hi.mono hg⟩
  | defineClass | addScript | buildTraits => trivial

/-- **Every call grows the tables and answers for its reply.** -/
theorem run_grows (op : Op) : Triple Grows (fun _ => True) op.run fun r a => op.Answers a r := by
  cases op with
  | methodIndex n =>
    exact (methodIndex_grows n).bind fun i => Triple.pure fun _ h => ⟨i, rfl, h⟩
  | defineMethod index sig body =>
    exact ((defineMethod_grows index sig body).consequence (fun _ _ => trivial) fun _ _ h => h).bind
      fun _ => Triple.pure fun _ h => h
  | classIndex n => exact (classIndex_grows n).bind fun i => Triple.pure fun _ h => ⟨i, rfl, h⟩
  | defineClass index inst cls =>
    exact ((defineClass_grows index inst cls).consequence (fun _ _ => trivial)
      fun _ _ _ => trivial).bind fun _ => Triple.pure fun _ _ => trivial
  | addScript s =>
    exact ((addScript_grows s).consequence (fun _ _ => trivial) fun _ _ h => h).bind
      fun _ => Triple.pure fun _ _ => trivial
  | addMetadata n items =>
    exact ((addMetadata_grows n items).consequence (fun _ _ => trivial) fun _ _ h => h).bind
      fun i => Triple.pure fun _ h => ⟨i, rfl, h⟩
  | buildTraits scope =>
    exact (((buildTraits_grows scope).consequence (fun _ _ => trivial) fun _ _ h => h).discard
      (Q := fun _ _ => True)).bind fun _ => Triple.pure fun _ _ => trivial

end Op

/-- Run calls in order: the result of each, and the tables after the last. A refused call leaves
the tables as they were, and the run goes on. -/
def runOps : Assembler → List Op → List (Except EmitError Reply) × Assembler
  | a, [] => ([], a)
  | a, op :: ops =>
    let first := op.step a
    let rest := runOps first.2 ops
    (first.1 :: rest.1, rest.2)

/-- the methods that the successful definitions of a run defined, in order -/
def definedBy (ops : List Op) (rs : List (Except EmitError Reply)) : List UInt32 :=
  (ops.zip rs).filterMap fun p => p.1.defined p.2

theorem definedBy_cons (op : Op) (ops : List Op) (r : Except EmitError Reply)
    (rs : List (Except EmitError Reply)) :
    definedBy (op :: ops) (r :: rs) = (op.defined r).toList ++ definedBy ops rs := by
  simp only [definedBy, List.zip_cons_cons, List.filterMap_cons]
  cases op.defined r <;> rfl

theorem Op.defined_answers {op : Op} {r : Except EmitError Reply} {i : UInt32}
    (h : op.defined r = some i) (hans : ∀ x, r = .ok x → op.Answers a x) :
    ∃ sig, a.methods[i.toNat]? = some (some sig) := by
  cases op with
  | defineMethod index sig body =>
    cases r with
    | ok x =>
      cases h
      exact ⟨sig, hans x rfl⟩
    | error => cases h
  | methodIndex | classIndex | defineClass | addScript | addMetadata | buildTraits => cases h

theorem Op.step_grows (op : Op) :
    a.Grows (op.step a).2 ∧ ∀ r, (op.step a).1 = .ok r → op.Answers (op.step a).2 r := by
  have h := op.run_grows a trivial
  unfold Op.step
  split
  · next r a₁ hrun =>
    rw [hrun] at h
    exact ⟨h.1, fun _ hr => by cases hr; exact h.2 _ _ rfl⟩
  · next err a₁ hrun =>
    rw [hrun] at h
    exact ⟨h.1, fun _ hr => by cases hr⟩

theorem Op.defined_undefined {op : Op} {i : UInt32} (h : op.defined (op.step a).1 = some i) :
    ∀ sig, a.methods[i.toNat]? ≠ some (some sig) := by
  cases op with
  | defineMethod index sig body =>
    unfold Op.step Op.run at h
    -- the call went through only because the method's record was empty
    cases hdef : Assembler.defineMethod index sig body a with
    | ok u a₁ =>
      simp only [hdef, bind, EStateM.bind, pure, EStateM.pure, Op.defined] at h
      cases h
      intro sig' hsig
      obtain ⟨msg, hmsg⟩ := (defineMethod_refused a i sig body).mpr (by rw [hsig]; simp)
      rw [hmsg] at hdef
      cases hdef
    | error err a₁ => simp [hdef, bind, EStateM.bind, Op.defined] at h
  | methodIndex | classIndex | defineClass | addScript | addMetadata | buildTraits =>
    simp only [Op.step] at h
    split at h <;> simp [Op.defined] at h

/-- **A run of calls grows the tables.** Every successful call answers for its reply in the
tables the run ends with, and no method is defined twice: the methods the successful definitions
defined are distinct, and none was defined before the run. -/
theorem runOps_grows : ∀ (ops : List Op) (a : Assembler),
    a.Grows (runOps a ops).2 ∧
      List.Forall₂ (fun op r => ∀ x, r = .ok x → op.Answers (runOps a ops).2 x) ops (runOps a ops).1 ∧
      (definedBy ops (runOps a ops).1).Nodup ∧
      ∀ i ∈ definedBy ops (runOps a ops).1, ∀ sig, a.methods[i.toNat]? ≠ some (some sig)
  | [], a => ⟨refl_of Grows a, .nil, .nil, by simp [definedBy]⟩
  | op :: ops, a => by
    obtain ⟨hg, hans⟩ := op.step_grows (a := a)
    obtain ⟨hg', hrest, hnodup, hundef⟩ := runOps_grows ops (op.step a).2
    refine ⟨trans_of Grows hg hg', .cons (fun x hx => (hans x hx).mono hg') hrest, ?_⟩
    show (definedBy (op :: ops) ((op.step a).1 :: (runOps (op.step a).2 ops).1)).Nodup ∧
      ∀ i ∈ definedBy (op :: ops) ((op.step a).1 :: (runOps (op.step a).2 ops).1), _
    rw [definedBy_cons]
    cases hdef : op.defined (op.step a).1 with
    | none =>
      rw [Option.toList_none, List.nil_append]
      exact ⟨hnodup, fun i hi sig hsig => hundef i hi sig (hg.methods _ _ hsig)⟩
    | some i =>
      rw [Option.toList_some, List.singleton_append]
      -- the method just defined is defined in the tables the rest of the run starts from
      obtain ⟨sig, hsig⟩ := Op.defined_answers hdef hans
      refine ⟨List.nodup_cons.mpr ⟨fun hi => hundef i hi sig hsig, hnodup⟩, ?_⟩
      intro j hj sig'
      rcases List.mem_cons.mp hj with rfl | hj
      · exact Op.defined_undefined hdef sig'
      · exact fun hsig' => hundef j hj sig' (hg.methods _ _ hsig')

end Assembler

end Emit

end AbcKit
