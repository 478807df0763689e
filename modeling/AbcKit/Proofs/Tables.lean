import AbcKit.Proofs.Frame
import AbcKit.Proofs.Container
/-!
The module tables stay in the reader's domain.

The reader's domain is narrower than the container's (`Module.readBack` says by how much):
parameter names are given for all parameters or none, trait attributes are FINAL and OVERRIDE at
most, a slot default with index 0 is no default, body method indices are in range, and the class
tables move in lock step. `Assembler.Sound` collects these facts about the tables under
construction, and each step on the tables has a triple (`methodIndex_spec`, `defineMethod_spec`,
`buildTraits_spec`, ...) saying what it needs to keep them.

A finish of sound tables (`Assembler.Finished`) gives a module that passes its checks, whose
signatures are regular and whose read-back only derives flags (`Finished.validate`,
`Finished.regular`, `Finished.readBack`).
-/
namespace AbcKit

theorem TraitAttr.clear_of_lt (a : UInt8) (h : a < 4) :
    setBits (a &&& 0x0F) TraitAttr.metadata false = a := by
  revert a
  refine UInt8.forall_of_fin ?_
  decide +kernel

/-- a binding the reader gives back unchanged while the pool is small -/
def TraitData.Plain (p : Pool) (d : TraitData) : Prop := p.Small → d.readBack = d

/-- a default value the reader gives back: while the pool is small, index 0 means no default -/
def DefaultValue.Plain (p : Pool) (v : DefaultValue) : Prop :=
  p.Small → v.index = 0 → v = DefaultValue.none

/-- a trait the reader gives back unchanged while the pool is small: its attributes are FINAL and
OVERRIDE at most, and a slot default with index 0 is no default -/
structure Trait.Plain (p : Pool) (t : Trait) : Prop where
  attributes : t.attributes < 4
  data : t.data.Plain p

theorem TraitData.Plain.mono {p q : Pool} {d : TraitData} (h : d.Plain p) (hpq : p.Extends q) :
    d.Plain q := fun hq => h (hq.of_extends hpq)

theorem Trait.Plain.mono {p q : Pool} {t : Trait} (h : t.Plain p) (hpq : p.Extends q) :
    t.Plain q :=
  ⟨h.attributes, h.data.mono hpq⟩

theorem Trait.readBack_of_plain {p : Pool} {t : Trait} (h : t.Plain p) (hs : p.Small) :
    t.readBack = t := by
  obtain ⟨name, data, attributes, metadata⟩ := t
  simp only [Trait.readBack, h.data hs, TraitAttr.clear_of_lt attributes h.attributes]

theorem Trait.map_readBack_of_plain {p : Pool} {ts : List Trait} (h : ∀ t ∈ ts, t.Plain p)
    (hs : p.Small) : ts.map Trait.readBack = ts :=
  (List.map_congr_left fun t ht => Trait.readBack_of_plain (h t ht) hs).trans (List.map_id ts)

theorem ClassRecord.readBack_of_plain {p : Pool} {c : ClassRecord} (h : ∀ t ∈ c.traits, t.Plain p)
    (hs : p.Small) : c.readBack = c := by
  simp only [ClassRecord.readBack, Trait.map_readBack_of_plain h hs]

theorem Script.readBack_of_plain {p : Pool} {s : Script} (h : ∀ t ∈ s.traits, t.Plain p)
    (hs : p.Small) : s.readBack = s := by
  simp only [Script.readBack, Trait.map_readBack_of_plain h hs]

theorem MethodBody.readBack_of_plain {p : Pool} {b : MethodBody} (h : ∀ t ∈ b.traits, t.Plain p)
    (hs : p.Small) : b.readBack = b := by
  simp only [MethodBody.readBack, Trait.map_readBack_of_plain h hs]

theorem Instance.readBack_of_plain {p : Pool} {i : Instance} (h : ∀ t ∈ i.traits, t.Plain p)
    (hs : p.Small) : i.readBack = { i with flags := setBits i.flags InstanceFlag.protectedNs false } := by
  simp only [Instance.readBack, Trait.map_readBack_of_plain h hs]

theorem DefaultValue.plain_none (p : Pool) : DefaultValue.none.Plain p := fun _ _ => rfl

/-- a constant of a table is a plain default: its index is not 0 while the table is small -/
theorem DefaultValue.plain_of_isIndex {α : Type} [BEq α] {p : Pool} {t : Table α} {i : UInt32}
    (k : ValueKind) (ht : t.IsIndex i) (hsmall : p.Small → t.size < 2 ^ 32) :
    (DefaultValue.mk i k).Plain p := fun hs h0 => absurd h0 (ht.ne_zero (hsmall hs))

theorem DefaultValue.plain_getD {p : Pool} {r : Option DefaultValue}
    (h : ∀ v, r = some v → v.Plain p) : (r.getD DefaultValue.none).Plain p := by
  cases r with
  | none => exact plain_none p
  | some v => exact h v rfl

/-- a slot or constant binding is plain when its default is: the reader turns index 0 into no
default, which a plain default with index 0 already is -/
theorem TraitData.plain_slot {p : Pool} {v : DefaultValue} (h : v.Plain p) (c : Prop) [Decidable c]
    (slotId typeName : UInt32) :
    (if c then TraitData.const slotId typeName v else .slot slotId typeName v).Plain p := by
  intro hs
  by_cases h0 : v.index = 0
  · split <;> simp only [TraitData.readBack, if_pos h0, ← h hs h0]
  · split <;> simp only [TraitData.readBack, if_neg h0]

theorem TraitAttr.method_lt (isFinal isOverride : Bool) :
    setBits (setBits 0 TraitAttr.final isFinal) TraitAttr.override isOverride < 4 := by
  cases isFinal <;> cases isOverride <;> decide

theorem Table.Fits.size_lt {α : Type} [BEq α] {P : α → Prop} {t : Table α} (h : t.Fits P) :
    t.size < 2 ^ 32 := by
  have hcount := h.count
  unfold VarInt.Fits Table.declaredCount VarInt.maxU30 at hcount
  unfold Table.size
  split at hcount <;> omega

theorem Pool.Fits.small {p : Pool} (h : p.Fits) : p.Small :=
  ⟨h.ints.size_lt, h.uints.size_lt, h.doubles.size_lt, h.strings.size_lt, h.namespaces.size_lt,
    h.nsSets.size_lt, h.names.size_lt⟩

namespace Emit

/-- The module tables stay in the reader's domain: the facts `Module.ofBytes_toBytes` and the
module's checks need, stated of the tables under construction. -/
structure Assembler.Sound (a : Assembler) : Prop where
  sigs : ∀ sig, some sig ∈ a.methods → sig.Regular ∧ sig.name.toNat ≤ a.pool.strings.size
  bodies : ∀ b ∈ a.bodies, b.method.toNat < a.methods.length ∧ ∀ t ∈ b.traits, t.Plain a.pool
  instances : ∀ i ∈ a.instances, ∀ t ∈ i.traits, t.Plain a.pool
  classTraits : ∀ c ∈ a.classes, ∀ t ∈ c.traits, t.Plain a.pool
  initializers : ∀ k : Nat, a.classDefined[k]? = some true →
    (∀ i : Instance, a.instances[k]? = some i → i.iinit.toNat < a.methods.length) ∧
    ∀ c : ClassRecord, a.classes[k]? = some c → c.cinit.toNat < a.methods.length
  scripts : ∀ s ∈ a.scripts, s.init.toNat < a.methods.length ∧ ∀ t ∈ s.traits, t.Plain a.pool

theorem Assembler.Sound.empty : Assembler.Sound {} where
  sigs := by simp
  bodies := by simp
  instances := by simp
  classTraits := by simp
  initializers := by simp
  scripts := by simp

theorem Assembler.Sound.of_interns {a a' : Assembler} (h : a.Sound) (hi : a.Interns a') :
    a'.Sound := by
  obtain ⟨htables, hpool, -⟩ := hi
  have hsize := hpool.strings.size_le
  rw [htables]
  exact {
    sigs := fun sig hs => ⟨(h.sigs sig hs).1, Nat.le_trans (h.sigs sig hs).2 hsize⟩
    bodies := fun b hb => ⟨(h.bodies b hb).1, fun t ht => ((h.bodies b hb).2 t ht).mono hpool⟩
    instances := fun i hi t ht => (h.instances i hi t ht).mono hpool
    classTraits := fun c hc t ht => (h.classTraits c hc t ht).mono hpool
    initializers := h.initializers
    scripts := fun s hs => ⟨(h.scripts s hs).1, fun t ht => ((h.scripts s hs).2 t ht).mono hpool⟩ }

/-- what any step may do to the module tables: the pool grows, methods are only added, and sound
tables stay sound -/
structure Assembler.Keeps (a a' : Assembler) : Prop where
  pool : a.pool.Extends a'.pool
  methods : a.methods.length ≤ a'.methods.length
  sound : a.Sound → a'.Sound

instance : IsPreorder Assembler Assembler.Keeps where
  refl _ := ⟨.refl _, Nat.le_refl _, id⟩
  trans _ _ _ h h' := ⟨h.pool.trans h'.pool, Nat.le_trans h.methods h'.methods, h'.sound ∘ h.sound⟩

theorem Assembler.Interns.keeps {a a' : Assembler} (h : a.Interns a') : a.Keeps a' where
  pool := h.pool
  methods := by rw [h.tables]
  sound hs := hs.of_interns h

/-- what any call may do to the emitter: its options stay, and its module tables are kept -/
structure Emitter.Keeps (e e' : Emitter) : Prop where
  config : e'.config = e.config
  assembler : e.assembler.Keeps e'.assembler

instance : IsPreorder Emitter Emitter.Keeps where
  refl e := ⟨rfl, refl_of Assembler.Keeps e.assembler⟩
  trans _ _ _ h h' := ⟨h'.config.trans h.config, trans_of Assembler.Keeps h.assembler h'.assembler⟩

theorem OnlyInterns.keeps {α : Type} {act : EmitM α} (h : OnlyInterns act) :
    Triple Emitter.Keeps (fun _ => True) act fun _ _ => True :=
  h.triple.weaken fun _ _ hi => ⟨hi.config, hi.assembler.keeps⟩

/-! Facts about values already computed that later steps keep. -/

theorem Emitter.Keeps.method_lt {e e' : Emitter} {n : Nat} (h : e.Keeps e')
    (hn : n < e.assembler.methods.length) : n < e'.assembler.methods.length :=
  Nat.lt_of_lt_of_le hn h.assembler.methods

theorem Emitter.Keeps.string_le {e e' : Emitter} {n : Nat} (h : e.Keeps e')
    (hn : n ≤ e.assembler.pool.strings.size) : n ≤ e'.assembler.pool.strings.size :=
  Nat.le_trans hn h.assembler.pool.strings.size_le

theorem Emitter.Keeps.plain {e e' : Emitter} {ts : List Trait} (h : e.Keeps e')
    (hts : ∀ t ∈ ts, t.Plain e.assembler.pool) : ∀ t ∈ ts, t.Plain e'.assembler.pool :=
  fun t ht => (hts t ht).mono h.assembler.pool

/-! ### Steps on the module tables -/

namespace Assembler

theorem onPool_spec {α : Type} {act : StateM Pool α} {Q : α → Pool → Prop} (hg : Pool.Grows act)
    (hq : ∀ p, Q (act p).1 (act p).2) :
    Triple Assembler.Interns (fun _ => True) (Assembler.onPool act) fun x a => Q x a.pool :=
  fun a _ => ⟨Interns.of_pool (hg a.pool), fun x a' h => by cases h; exact hq a.pool⟩

theorem defaultValue_spec (init : Initializer) :
    Triple Assembler.Interns (fun _ => True) (defaultValue init)
      fun r a => ∀ v, r = some v → v.Plain a.pool := by
  cases init with
  | bool b =>
    refine Triple.pure fun _ _ v hv hs h0 => ?_
    cases hv
    cases b <;> simp [DefaultValue.ofBool, ValueKind.byte] at h0
  | string str =>
    refine (onPool_spec (Q := fun i p => p.strings.IsIndex i) (Pool.string_grows str)
      (Pool.string_isIndex str)).bind fun i =>
      Triple.pure fun a hi v hv => ?_
    cases hv
    exact DefaultValue.plain_of_isIndex _ hi fun hs => hs.strings
  | int n =>
    refine (onPool_spec (Q := fun i p => p.ints.IsIndex i) (Pool.int_grows n)
      (Pool.int_isIndex n)).bind fun i =>
      Triple.pure fun a hi v hv => ?_
    cases hv
    exact DefaultValue.plain_of_isIndex _ hi fun hs => hs.ints
  | uint n =>
    refine (onPool_spec (Q := fun i p => p.uints.IsIndex i) (Pool.uint_grows n)
      (Pool.uint_isIndex n)).bind fun i =>
      Triple.pure fun a hi v hv => ?_
    cases hv
    exact DefaultValue.plain_of_isIndex _ hi fun hs => hs.uints
  | double bits =>
    refine (onPool_spec (Q := fun i p => p.doubles.IsIndex i) (Pool.double_grows bits)
      (Pool.double_isIndex bits)).bind fun i =>
      Triple.pure fun a hi v hv => ?_
    cases hv
    exact DefaultValue.plain_of_isIndex _ hi fun hs => hs.doubles
  | null =>
    refine Triple.pure fun _ _ v hv hs h0 => ?_
    cases hv
    simp [DefaultValue.null, ValueKind.byte] at h0
  | undefined =>
    exact Triple.pure fun _ _ v hv _ _ => by cases hv; rfl
  | ns space =>
    refine (onPool_spec (Q := fun i p => p.namespaces.IsIndex i) (Pool.ns_grows space)
      (Pool.ns_isIndex space)).bind fun i =>
      Triple.pure fun a hi v hv => ?_
    cases hv
    exact DefaultValue.plain_of_isIndex _ hi fun hs => hs.namespaces
  | unsupported text =>
    exact Triple.pure fun _ _ v hv => by cases hv

theorem toUInt32_toNat_le (n : Nat) : n.toUInt32.toNat ≤ n := by simp; omega

theorem OnlyInterns.keep {α : Type} {act : AssemblerM α} (h : OnlyInterns act)
    {F : Assembler → Prop} (hF : ∀ a a', F a → a.Interns a' → F a') :
    Triple Interns F act fun _ a => F a :=
  (Triple.frame h hF).consequence (fun _ h => ⟨trivial, h⟩) fun _ _ h => h.2

theorem keeps_of_interns {α : Type} {act : AssemblerM α} {P : Assembler → Prop}
    {Q : α → Assembler → Prop} (h : Triple Interns P act Q) :
    Triple Keeps (fun a => P a ∧ a.Sound) act fun x a => Q x a ∧ a.Sound :=
  (h.frame fun _ _ hs hi => hs.of_interns hi).weaken fun _ _ hi => hi.keeps

theorem Sound.addMethod {a : Assembler} (h : a.Sound) (name : String)
    (hn : a.methodLookup.get? name = none) : (a.addMethod name hn).Sound := by
  unfold Assembler.addMethod
  have hlt : ∀ n, n < a.methods.length → n < (a.methods ++ [none]).length := fun n hn => by
    simp only [List.length_append, List.length_singleton]; omega
  exact {
    sigs := fun sig hs => h.sigs sig (by simpa [addMethod] using hs)
    bodies := fun b hb => ⟨hlt _ (h.bodies b hb).1, (h.bodies b hb).2⟩
    instances := h.instances
    classTraits := h.classTraits
    initializers := fun k hk =>
      ⟨fun i hi => hlt _ ((h.initializers k hk).1 i hi),
        fun c hc => hlt _ ((h.initializers k hk).2 c hc)⟩
    scripts := fun s hs => ⟨hlt _ (h.scripts s hs).1, (h.scripts s hs).2⟩ }

theorem methodIndex_spec (name : String) :
    Triple Keeps Sound (methodIndex name) fun i a => i.toNat < a.methods.length ∧ a.Sound := by
  intro a ha
  unfold methodIndex
  split
  next i hi =>
    obtain ⟨pos, hpos, rfl⟩ := a.methodLookup_indexes.get?_eq_some_iff.mp hi
    have hlt : pos < a.methods.length :=
      a.methodNames_length ▸ (List.getElem?_eq_some_iff.mp hpos).1
    exact ⟨refl_of Keeps a, fun _ _ h => by
      cases h
      exact ⟨Nat.lt_of_le_of_lt (toUInt32_toNat_le pos) hlt, ha⟩⟩
  next hn =>
    have hs := ha.addMethod name hn
    refine ⟨⟨.refl _, by simp [addMethod], fun _ => hs⟩, fun _ _ h => ?_⟩
    cases h
    refine ⟨?_, hs⟩
    have := toUInt32_toNat_le a.methods.length
    simp only [addMethod, List.length_append, List.length_singleton]
    omega

/-- defining a method keeps the tables sound when its signature is regular and names a string of
the pool, and its body, if any, belongs to a method and has plain traits -/
theorem Sound.fillMethod {a : Assembler} (h : a.Sound) (i : Nat) {sig : MethodSig}
    {body : Option MethodBody} (hsig : sig.Regular ∧ sig.name.toNat ≤ a.pool.strings.size)
    (hbody : ∀ b ∈ body.toList, b.method.toNat < a.methods.length ∧ ∀ t ∈ b.traits, t.Plain a.pool) :
    (a.fillMethod i sig body).Sound := by
  unfold Assembler.fillMethod
  exact {
    sigs := fun s hs => by
      rcases List.mem_or_eq_of_mem_set hs with hs | hs
      · exact h.sigs s hs
      · cases hs
        exact hsig
    bodies := fun b hb => by
      rw [List.length_set]
      rcases List.mem_append.mp hb with hb | hb
      · exact h.bodies b hb
      · exact hbody b hb
    instances := h.instances
    classTraits := h.classTraits
    initializers := by simpa only [List.length_set] using h.initializers
    scripts := by simpa only [List.length_set] using h.scripts }

theorem defineMethod_spec (index : UInt32) (sig : MethodSig) (body : Option MethodBody) :
    Triple Keeps
      (fun a => a.Sound ∧ (sig.Regular ∧ sig.name.toNat ≤ a.pool.strings.size) ∧
        ∀ b ∈ body.toList, b.method.toNat < a.methods.length ∧ ∀ t ∈ b.traits, t.Plain a.pool)
      (defineMethod index sig body) fun _ a => a.Sound := by
  rintro a ⟨ha, hsig, hbody⟩
  unfold defineMethod
  split
  · exact ⟨refl_of Keeps a, fun _ _ h => by cases h⟩
  · exact ⟨refl_of Keeps a, fun _ _ h => by cases h⟩
  · have hs := ha.fillMethod index.toNat hsig hbody
    exact ⟨⟨.refl _, by simp [fillMethod], fun _ => hs⟩, fun _ _ h => by cases h; exact hs⟩

/-- a new class, not yet defined, keeps the tables sound: its records have no traits, and an
undefined class asks nothing of its initializers -/
theorem Sound.addClass {a : Assembler} (h : a.Sound) (name : Name) (nameIndex : UInt32)
    (hn : a.classLookup.get? name = none) : (a.addClass name nameIndex hn).Sound := by
  unfold Assembler.addClass
  exact {
    sigs := h.sigs
    bodies := h.bodies
    instances := fun i hi t ht => by
      rcases List.mem_append.mp hi with hi | hi
      · exact h.instances i hi t ht
      · simp only [List.mem_singleton] at hi
        subst hi
        simp at ht
    classTraits := fun c hc t ht => by
      rcases List.mem_append.mp hc with hc | hc
      · exact h.classTraits c hc t ht
      · simp only [List.mem_singleton] at hc
        subst hc
        simp at ht
    initializers := fun k hk => by
      have hk' : k < a.classDefined.length := by
        by_contra hge
        rw [List.getElem?_append_right (by omega)] at hk
        simp [List.getElem?_singleton] at hk
      rw [List.getElem?_append_left hk'] at hk
      have := a.instances_length
      have := a.classDefined_length
      rw [List.getElem?_append_left (by omega), List.getElem?_append_left (by omega)]
      exact h.initializers k hk
    scripts := h.scripts }

theorem checkLockStep_ok (a : Assembler) : checkLockStep a = .ok () a := by
  simp [checkLockStep, a.instances_length]

theorem classIndex_of_some {name : Name} {a : Assembler} {index : UInt32}
    (h : a.classLookup.get? name = some index) : classIndex name a = .ok index a := by
  unfold classIndex
  split
  · next hs =>
    rw [h] at hs
    cases hs
    rfl
  · next hs =>
    rw [h] at hs
    cases hs

/-- a new class name is interned, the class's records are appended, and it gets the next
index -/
theorem classIndex_of_none {name : Name} {a : Assembler} (h : a.classLookup.get? name = none) :
    classIndex name a = .ok a.classes.length.toUInt32
      ({ a with pool := (Pool.name name a.pool).2 }.addClass name (Pool.name name a.pool).1 h) := by
  unfold classIndex
  split
  · next hs =>
    rw [h] at hs
    cases hs
  · simp only [bind, EStateM.bind, checkLockStep_ok]
    rfl

theorem classIndex_spec (name : Name) :
    Triple Keeps Sound (classIndex name) fun _ a => a.Sound := by
  intro a ha
  cases hn : a.classLookup.get? name with
  | some index =>
    rw [classIndex_of_some hn]
    exact ⟨refl_of Keeps a, fun _ _ h => by cases h; exact ha⟩
  | none =>
    rw [classIndex_of_none hn]
    have hi := Interns.of_pool (a := a) (Pool.name_grows name a.pool)
    have hs := (ha.of_interns hi).addClass name (Pool.name name a.pool).1 hn
    exact ⟨⟨hi.pool, Nat.le_refl _, fun _ => hs⟩, fun _ _ h => by cases h; exact hs⟩

/-- defining an undefined class keeps the tables sound when both initializers are methods and
both records have plain traits -/
theorem Sound.fillClass {a : Assembler} (h : a.Sound) {i : Nat}
    (hi : a.classDefined[i]? = some false) {inst : Instance} {cls : ClassRecord}
    (hinst : inst.iinit.toNat < a.methods.length ∧ ∀ t ∈ inst.traits, t.Plain a.pool)
    (hcls : cls.cinit.toNat < a.methods.length ∧ ∀ t ∈ cls.traits, t.Plain a.pool) :
    (a.fillClass i inst cls).Sound := by
  unfold Assembler.fillClass
  exact {
    sigs := h.sigs
    bodies := h.bodies
    instances := fun j hj t ht => by
      rcases List.mem_or_eq_of_mem_set hj with hj | rfl
      · exact h.instances j hj t ht
      · exact hinst.2 t ht
    classTraits := fun c hc t ht => by
      rcases List.mem_or_eq_of_mem_set hc with hc | rfl
      · exact h.classTraits c hc t ht
      · exact hcls.2 t ht
    initializers := fun k hk => by
      by_cases hik : i = k
      · -- the class just defined: its records are the ones given
        subst hik
        have hlen : i < a.classDefined.length := (List.getElem?_eq_some_iff.mp hi).1
        have := a.instances_length
        have := a.classDefined_length
        rw [List.getElem?_set_self (by omega), List.getElem?_set_self (by omega)]
        exact ⟨fun j hj => by cases hj; exact hinst.1, fun c hc => by cases hc; exact hcls.1⟩
      · rw [List.getElem?_set_ne hik] at hk
        rw [List.getElem?_set_ne hik, List.getElem?_set_ne hik]
        exact h.initializers k hk
    scripts := h.scripts }

theorem defineClass_spec (index : UInt32) (inst : Instance) (cls : ClassRecord) :
    Triple Keeps
      (fun a => a.Sound ∧ (inst.iinit.toNat < a.methods.length ∧ ∀ t ∈ inst.traits, t.Plain a.pool) ∧
        cls.cinit.toNat < a.methods.length ∧ ∀ t ∈ cls.traits, t.Plain a.pool)
      (defineClass index inst cls) fun _ a => a.Sound := by
  rintro a ⟨ha, hinst, hcls⟩
  unfold defineClass
  dsimp only
  split
  · exact ⟨refl_of Keeps a, fun _ _ h => by cases h⟩
  · exact ⟨refl_of Keeps a, fun _ _ h => by cases h⟩
  · next hi =>
    have hs := ha.fillClass hi hinst hcls
    exact ⟨⟨.refl _, Nat.le_refl _, fun _ => hs⟩, fun _ _ h => by cases h; exact hs⟩

theorem addScript_spec (s : Script) :
    Triple Keeps
      (fun a => a.Sound ∧ s.init.toNat < a.methods.length ∧ ∀ t ∈ s.traits, t.Plain a.pool)
      (addScript s) fun _ a => a.Sound := by
  rintro a ⟨ha, hinit, htraits⟩
  have hs : ({ a with scripts := a.scripts ++ [s] } : Assembler).Sound :=
    { ha with
      scripts := fun s' hs' => by
        rcases List.mem_append.mp hs' with hs' | hs'
        · exact ha.scripts s' hs'
        · simp only [List.mem_singleton] at hs'
          subst hs'
          exact ⟨hinit, htraits⟩ }
  exact ⟨⟨.refl _, Nat.le_refl _, fun _ => hs⟩, fun _ _ h => by cases h; exact hs⟩

theorem parameterDefault_onlyInterns (init : Initializer) :
    OnlyInterns (parameterDefault init) := by
  unfold parameterDefault
  refine Triple.bind (M := fun _ _ => True)
    ((defaultValue_spec init).consequence (fun _ h => h) fun _ _ _ => trivial) fun r => ?_
  split
  · exact OnlyInterns.pure _
  · exact Triple.throw

theorem metadataIndices_onlyInterns (ms : List MetadataDescriptor) :
    OnlyInterns (metadataIndices ms) := by
  unfold metadataIndices OnlyInterns
  have h := Triple.mapM (R := Interns) (I := fun _ => True) (Q := fun (_ : UInt32) _ => True)
    (fun _ _ _ _ _ => trivial) (fun (m : MetadataDescriptor) =>
      (addMetadata_onlyInterns m.name m.items).consequence (fun _ h => h)
        fun _ _ _ => ⟨trivial, trivial⟩) ms
  exact h.consequence (fun _ h => h) fun _ _ _ => trivial

/-- every trait built is plain: slot defaults come from `defaultValue`, and a method's attributes
are FINAL and OVERRIDE only -/
theorem buildTrait_spec (scope : ObjectDescriptor) (group : Group) (target : Nat) (name : UInt32) :
    Triple Interns (fun _ => True) (buildTrait scope group target name)
      fun t a => t.Plain a.pool := by
  unfold buildTrait
  split
  · split
    · next slot _ =>
      extract_lets withData withType withType'
      have hdata : ∀ d, Triple Interns (fun a => d.Plain a.pool) (withData d)
          fun t a => t.Plain a.pool := fun d =>
        ((metadataIndices_onlyInterns _).keep fun _ _ h hi => TraitData.Plain.mono h hi.pool).bind
          fun _ => Triple.pure fun _ h => ⟨(by decide : (0 : UInt8) < 4), h⟩
      -- a variable or constant: once its type is interned, its default makes the binding plain
      have htype : ∀ typeName, Triple Interns (fun _ => True) (withType typeName)
          fun t a => t.Plain a.pool := by
        intro typeName
        dsimp only [withType]
        have hvalue : ∀ v : DefaultValue, Triple Interns (fun a => v.Plain a.pool)
            ((pure (if slot.kind = .const then TraitData.const slot.id typeName v
              else .slot slot.id typeName v) : AssemblerM TraitData) >>= withData)
            fun t a => t.Plain a.pool := fun v =>
          (Triple.pure fun _ h => TraitData.plain_slot h _ _ _).bind hdata
        split
        · exact (defaultValue_spec _).bind fun r =>
            (Triple.pure fun _ h => DefaultValue.plain_getD h).bind hvalue
        · exact (Triple.pure fun a _ => DefaultValue.plain_none a.pool).bind hvalue
      have hnamed : ∀ t : Name, Triple Interns (fun _ => True) (onPool (Pool.name t))
          fun _ _ => True := fun t =>
        (onPool_onlyInterns (Pool.name_grows t)).consequence (fun _ h => h) fun _ _ _ => trivial
      have hopen : Triple Interns (fun _ => True) (pure 0 : AssemblerM UInt32) fun _ _ => True :=
        Triple.pure fun _ _ => trivial
      split
      · split
        · exact (hnamed _).bind htype
        · exact hopen.bind htype
      · split
        · exact (hnamed _).bind htype
        · exact hopen.bind htype
      · exact (Triple.pure fun _ _ _ => rfl).bind hdata
      · exact (Triple.pure fun _ _ _ => rfl).bind hdata
    · exact Triple.throw
  · split
    · next m _ =>
      dsimp only
      refine ((metadataIndices_onlyInterns _).keep (F := fun _ => True) fun _ _ _ _ => trivial).bind
        fun _ => Triple.pure fun _ _ => ⟨TraitAttr.method_lt _ _, fun _ => ?_⟩
      split <;> rfl
    · exact Triple.throw

theorem buildTraits_spec (scope : ObjectDescriptor) :
    Triple Interns (fun _ => True) (buildTraits scope) fun ts a => ∀ t ∈ ts, t.Plain a.pool := by
  unfold buildTraits
  refine (Triple.foldlM (R := Interns) (J := fun (ts : List Trait) (a : Assembler) => ∀ t ∈ ts, t.Plain a.pool)
    (fun acc gn => ?_) _ []).consequence (fun _ _ => by simp) fun _ _ h => h
  obtain ⟨group, names⟩ := gn
  dsimp only
  -- the traits of the group, each plain when made and kept so by the frame
  refine Triple.bind (Triple.mapM (R := Interns) (I := fun a => ∀ t ∈ acc, t.Plain a.pool)
    (Q := fun (t : Trait) (a : Assembler) => t.Plain a.pool) (fun _ _ _ h hi => h.mono hi.pool)
    (fun bs => ?_) _) fun ts => Triple.pure fun a ⟨_, hts, hacc⟩ t ht => ?_
  · refine ((onPool_onlyInterns (Pool.qname_grows _ _)).keep
      fun _ _ h hi t ht => (h t ht).mono hi.pool).bind fun name => ?_
    exact ((buildTrait_spec scope group _ name).frame fun _ _ h hi t ht => (h t ht).mono hi.pool)
      |>.consequence (fun _ h => ⟨trivial, h⟩) fun _ _ h => ⟨h.1, h.2⟩
  · rcases List.mem_append.mp ht with ht | ht
    · exact hacc t ht
    · exact hts t ht

end Assembler

/-! ### The finished module -/

/-- the module a finish gives: the tables as they were, every method and class defined -/
structure Assembler.Finished (a : Assembler) (config : Config) (m : Module) : Prop where
  major : m.major = config.majorVersion
  pool : m.pool = a.pool
  methods : a.methods = m.methods.map some
  instances : m.instances = a.instances
  classes : m.classes = a.classes
  scripts : m.scripts = a.scripts
  bodies : m.bodies = a.bodies
  defined : false ∉ a.classDefined

/-- the signatures listed by a finish are the defined ones, in order -/
theorem Assembler.methods_of_mapM {f : Option MethodSig × String → Except EmitError MethodSig}
    (hf : ∀ p s, f p = .ok s → p.1 = some s) :
    ∀ (sigs : List (Option MethodSig)) (names : List String) (ms : List MethodSig),
      sigs.length = names.length → (sigs.zip names).mapM f = .ok ms → sigs = ms.map some
  | [], _, ms, _, h => by
    simp only [List.zip_nil_left, List.mapM_nil] at h
    cases h
    rfl
  | _ :: _, [], _, hlen, _ => absurd hlen (by simp)
  | sig :: sigs, name :: names, ms, hlen, h => by
    rw [List.zip_cons_cons, List.mapM_cons] at h
    cases hs : f (sig, name) with
    | error err =>
      rw [hs] at h
      cases h
    | ok s =>
      cases hrest : (sigs.zip names).mapM f with
      | error err =>
        rw [hs] at h
        simp only [hrest] at h
        cases h
      | ok rest =>
        rw [hs] at h
        simp only [hrest] at h
        cases h
        rw [List.map_cons, ← hf _ s hs,
          Assembler.methods_of_mapM hf sigs names rest (by simpa using hlen) hrest]

theorem Assembler.finished_of_finish {a : Assembler} {config : Config} {m : Module}
    (h : a.finish config = .ok m) : a.Finished config m := by
  unfold Assembler.finish at h
  rw [if_neg (not_not.mpr a.instances_length.symm)] at h
  dsimp only at h
  cases hm : (a.methods.zip a.methodNames).mapM (m := Except EmitError) _ with
  | error err =>
    rw [hm] at h
    cases h
  | ok methods =>
    rw [hm] at h
    dsimp only [bind, Except.bind] at h
    split at h
    · cases h
    · next hnone =>
      cases h
      refine ⟨rfl, rfl, ?_, rfl, rfl, rfl, rfl, List.idxOf?_eq_none_iff.mp hnone⟩
      refine Assembler.methods_of_mapM (fun p s hp => ?_) _ _ _ a.methodNames_length.symm hm
      obtain ⟨sig, name⟩ := p
      cases sig with
      | none => cases hp
      | some s' =>
        cases hp
        rfl

namespace Assembler.Finished

variable {a : Assembler} {config : Config} {m : Module}

theorem methods_length (hf : a.Finished config m) : m.methods.length = a.methods.length := by
  rw [hf.methods, List.length_map]

theorem defined_of_lt (hf : a.Finished config m) {k : Nat} (hk : k < a.classDefined.length) :
    a.classDefined[k]? = some true := by
  rw [List.getElem?_eq_getElem hk]
  cases hb : a.classDefined[k]
  · exact absurd (hb ▸ List.getElem_mem hk) hf.defined
  · rfl

theorem validate (hf : a.Finished config m) (ha : a.Sound) : m.validate = .ok () := by
  have hlen := hf.methods_length
  refine Module.validate_eq_ok (by rw [hf.classes, hf.instances, a.instances_length]) (fun b hb => ?_)
    (fun i hi => ?_) (fun c hc => ?_) (fun s hs => ?_) (fun s hs => ?_)
  · rw [hf.bodies] at hb
    exact hlen ▸ (ha.bodies b hb).1
  · -- an instance is the record of a defined class
    rw [hf.instances] at hi
    obtain ⟨k, hk, rfl⟩ := List.getElem_of_mem hi
    have hdef := hf.defined_of_lt (k := k) (by rw [a.classDefined_length, ← a.instances_length]; exact hk)
    exact hlen ▸ (ha.initializers k hdef).1 _ (List.getElem?_eq_getElem hk)
  · rw [hf.classes] at hc
    obtain ⟨k, hk, rfl⟩ := List.getElem_of_mem hc
    have hdef := hf.defined_of_lt (k := k) (by rw [a.classDefined_length]; exact hk)
    exact hlen ▸ (ha.initializers k hdef).2 _ (List.getElem?_eq_getElem hk)
  · rw [hf.scripts] at hs
    exact hlen ▸ (ha.scripts s hs).1
  · have hsig := ha.sigs s (hf.methods ▸ List.mem_map_of_mem hs)
    exact hf.pool ▸ hsig.2

theorem regular (hf : a.Finished config m) (ha : a.Sound) : ∀ s ∈ m.methods, s.Regular :=
  fun s hs => (ha.sigs s (hf.methods ▸ List.mem_map_of_mem hs)).1

/-- a finished module of sound tables, with a small pool, is read back with only its derived
flags changed -/
theorem readBack (hf : a.Finished config m) (ha : a.Sound) (hs : m.pool.Small) :
    m.readBack = { m with
      methods := m.methods.map fun s => { s with flags := s.effectiveFlags }
      instances := m.instances.map fun i =>
        { i with flags := setBits i.flags InstanceFlag.protectedNs false } } := by
  have hsmall : a.pool.Small := hf.pool ▸ hs
  have hinstances : m.instances.map Instance.readBack =
      m.instances.map fun i => { i with flags := setBits i.flags InstanceFlag.protectedNs false } :=
    List.map_congr_left fun i hi =>
      Instance.readBack_of_plain (ha.instances i (hf.instances ▸ hi)) hsmall
  have hclasses : m.classes.map ClassRecord.readBack = m.classes :=
    (List.map_congr_left fun c hc =>
      ClassRecord.readBack_of_plain (ha.classTraits c (hf.classes ▸ hc)) hsmall).trans (List.map_id _)
  have hscripts : m.scripts.map Script.readBack = m.scripts :=
    (List.map_congr_left fun s hs =>
      Script.readBack_of_plain (ha.scripts s (hf.scripts ▸ hs)).2 hsmall).trans (List.map_id _)
  have hbodies : m.bodies.map MethodBody.readBack = m.bodies :=
    (List.map_congr_left fun b hb =>
      MethodBody.readBack_of_plain (ha.bodies b (hf.bodies ▸ hb)).2 hsmall).trans (List.map_id _)
  simp only [Module.readBack, hinstances, hclasses, hscripts, hbodies]
  rfl

end Assembler.Finished

end Emit

end AbcKit
