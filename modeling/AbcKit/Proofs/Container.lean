import AbcKit.Module
import AbcKit.Proofs.Wire
/-!
The container read back: what `Module.decode` returns for the bytes `Module.encode` writes.

Writing a module and reading it back gives the module again, up to the bits the format derives:
- a method signature's flags are its effective flags;
- an instance's flags lose the protected-namespace bit, which the optional field records;
- a trait's attributes keep their low nibble without the metadata bit, which the metadata list
  records;
- a slot default with index 0 is read as no default, since its kind byte is not written.

That is `Module.readBack`. It holds when every count and index fits its 30-bit field
(`Module.Fits`), the class and instance tables have one length, and every signature lists its
parameter names for all parameters or not at all (`MethodSig.Regular`): names are read back one
per parameter.

Main results:
- `Module.codes_readBack`: the writer and the reader agree, field by field;
- `Module.ofBytes_toBytes`: a module that passes its checks reads back as `readBack` of itself.
-/
namespace AbcKit

/-- a count or index that a 30-bit field holds -/
def VarInt.Fits (n : Nat) : Prop := n ≤ VarInt.maxU30

/-- every value of a pool table satisfies `P`, and the declared count fits its field -/
structure Table.Fits {α : Type} [BEq α] (P : α → Prop) (t : Table α) : Prop where
  count : VarInt.Fits t.declaredCount
  values : ∀ x ∈ t.toList, P x

namespace NameEntry

/-- every index of the entry, and its parameter count, fit their fields -/
def Fits : NameEntry → Prop
  | .qname ns n _ => VarInt.Fits ns.toNat ∧ VarInt.Fits n.toNat
  | .rtqName n _ => VarInt.Fits n.toNat
  | .rtqNameL _ => True
  | .multiname n set _ => VarInt.Fits n.toNat ∧ VarInt.Fits set.toNat
  | .multinameL set _ => VarInt.Fits set.toNat
  | .typeName base params =>
    VarInt.Fits base.toNat ∧ VarInt.Fits params.length ∧ ∀ p ∈ params, VarInt.Fits p.toNat

end NameEntry

/-- the pool's tables fit the container's fields -/
structure Pool.Fits (p : Pool) : Prop where
  ints : p.ints.Fits fun _ => True
  uints : p.uints.Fits fun _ => True
  doubles : p.doubles.Fits fun _ => True
  strings : p.strings.Fits fun s => VarInt.Fits s.utf8ByteSize
  namespaces : p.namespaces.Fits fun e => VarInt.Fits e.name.toNat
  nsSets : p.nsSets.Fits fun l => VarInt.Fits l.length ∧ ∀ i ∈ l, VarInt.Fits i.toNat
  names : p.names.Fits NameEntry.Fits

/-- the index of a default value fits its field -/
def DefaultValue.Fits (v : DefaultValue) : Prop := VarInt.Fits v.index.toNat

namespace TraitData

/-- the binding's fields fit their 30-bit fields -/
def Fits : TraitData → Prop
  | .slot slotId typeName value | .const slotId typeName value =>
    VarInt.Fits slotId.toNat ∧ VarInt.Fits typeName.toNat ∧ value.Fits
  | .method a b | .getter a b | .setter a b | .nestedClass a b | .function a b =>
    VarInt.Fits a.toNat ∧ VarInt.Fits b.toNat

/-- the binding as read: a slot default with index 0 is no default -/
def readBack : TraitData → TraitData
  | .slot slotId typeName value =>
    .slot slotId typeName (if value.index = 0 then DefaultValue.none else value)
  | .const slotId typeName value =>
    .const slotId typeName (if value.index = 0 then DefaultValue.none else value)
  | d => d

end TraitData

namespace Trait

/-- the trait's name, binding and metadata fit the container's fields -/
def Fits (t : Trait) : Prop :=
  VarInt.Fits t.name.toNat ∧ t.data.Fits ∧ VarInt.Fits t.metadata.length ∧
    ∀ m ∈ t.metadata, VarInt.Fits m.toNat

/-- the trait as read: the attributes keep their low nibble, without the metadata bit -/
def readBack (t : Trait) : Trait :=
  { t with
    data := t.data.readBack
    attributes := setBits (t.attributes &&& 0x0F) TraitAttr.metadata false }

/-- a trait list and its count fit the container's fields -/
def FitsAll (ts : List Trait) : Prop := VarInt.Fits ts.length ∧ ∀ t ∈ ts, t.Fits

end Trait

namespace MethodSig

/-- every count and index of the signature fits its field -/
structure Fits (s : MethodSig) : Prop where
  params : VarInt.Fits s.paramTypes.length
  returnType : VarInt.Fits s.returnType.toNat
  paramTypes : ∀ t ∈ s.paramTypes, VarInt.Fits t.toNat
  name : VarInt.Fits s.name.toNat
  optionalCount : VarInt.Fits s.optional.length
  optional : ∀ v ∈ s.optional, v.Fits
  paramNames : ∀ n ∈ s.paramNames, VarInt.Fits n.toNat

/-- parameter names are given for every parameter or for none, as the reader takes them -/
def Regular (s : MethodSig) : Prop := s.paramNames = [] ∨ s.paramNames.length = s.paramTypes.length

/-- the signature as read: its flags are its effective flags -/
def readBack (s : MethodSig) : MethodSig := { s with flags := s.effectiveFlags }

end MethodSig

/-- the metadata record's indices and item count fit their fields -/
def Metadata.Fits (m : Metadata) : Prop :=
  VarInt.Fits m.name.toNat ∧ VarInt.Fits m.items.length ∧
    ∀ kv ∈ m.items, VarInt.Fits kv.1.toNat ∧ VarInt.Fits kv.2.toNat

namespace Instance

/-- every index and count of the instance record fits its field -/
structure Fits (i : Instance) : Prop where
  name : VarInt.Fits i.name.toNat
  superName : VarInt.Fits i.superName.toNat
  protectedNs : ∀ ns, i.protectedNs = some ns → VarInt.Fits ns.toNat
  interfaceCount : VarInt.Fits i.interfaces.length
  interfaces : ∀ n ∈ i.interfaces, VarInt.Fits n.toNat
  iinit : VarInt.Fits i.iinit.toNat
  traits : Trait.FitsAll i.traits

/-- the instance as read: the protected-namespace bit is cleared -/
def readBack (i : Instance) : Instance :=
  { i with
    flags := setBits i.flags InstanceFlag.protectedNs false
    traits := i.traits.map Trait.readBack }

end Instance

/-- the class record's initializer and traits fit their fields -/
def ClassRecord.Fits (c : ClassRecord) : Prop := VarInt.Fits c.cinit.toNat ∧ Trait.FitsAll c.traits

/-- the class record as read -/
def ClassRecord.readBack (c : ClassRecord) : ClassRecord := { c with traits := c.traits.map Trait.readBack }

/-- the script record's initializer and traits fit their fields -/
def Script.Fits (s : Script) : Prop := VarInt.Fits s.init.toNat ∧ Trait.FitsAll s.traits

/-- the script record as read -/
def Script.readBack (s : Script) : Script := { s with traits := s.traits.map Trait.readBack }

/-- the five fields of a handler entry fit -/
def ExceptionEntry.Fits (e : ExceptionEntry) : Prop :=
  VarInt.Fits e.start.toNat ∧ VarInt.Fits e.stop.toNat ∧ VarInt.Fits e.target.toNat ∧
    VarInt.Fits e.excType.toNat ∧ VarInt.Fits e.varName.toNat

namespace MethodBody

/-- every count, index and length of the body fits its field -/
structure Fits (b : MethodBody) : Prop where
  method : VarInt.Fits b.method.toNat
  maxStack : VarInt.Fits b.maxStack.toNat
  localCount : VarInt.Fits b.localCount.toNat
  initScopeDepth : VarInt.Fits b.initScopeDepth.toNat
  maxScopeDepth : VarInt.Fits b.maxScopeDepth.toNat
  codeLength : VarInt.Fits b.code.length
  exceptionCount : VarInt.Fits b.exceptions.length
  exceptions : ∀ e ∈ b.exceptions, e.Fits
  traits : Trait.FitsAll b.traits

/-- the body as read -/
def readBack (b : MethodBody) : MethodBody := { b with traits := b.traits.map Trait.readBack }

end MethodBody

namespace Module

/-- every count, index and length of the module fits its 30-bit field -/
structure Fits (m : Module) : Prop where
  pool : m.pool.Fits
  methodCount : VarInt.Fits m.methods.length
  methods : ∀ s ∈ m.methods, s.Fits
  metadataCount : VarInt.Fits m.metadata.length
  metadata : ∀ d ∈ m.metadata, d.Fits
  classCount : VarInt.Fits m.classes.length
  instances : ∀ i ∈ m.instances, i.Fits
  classes : ∀ c ∈ m.classes, c.Fits
  scriptCount : VarInt.Fits m.scripts.length
  scripts : ∀ s ∈ m.scripts, s.Fits
  bodyCount : VarInt.Fits m.bodies.length
  bodies : ∀ b ∈ m.bodies, b.Fits

/-- the module as the reader returns it: every record as read -/
def readBack (m : Module) : Module :=
  { m with
    methods := m.methods.map MethodSig.readBack
    instances := m.instances.map Instance.readBack
    classes := m.classes.map ClassRecord.readBack
    scripts := m.scripts.map Script.readBack
    bodies := m.bodies.map MethodBody.readBack }

end Module

/-! ## Deciding the fit

Whether a module fits is decidable, so the fit of a concrete module is computed. A bounded
quantifier over a list or option of 32-bit indices is decided by walking the list, not by the
finite-type instance, which would enumerate all `2 ^ 32` indices. -/

section Decide

local instance (priority := 1100) decideListForall {α : Type} {P : α → Prop} [DecidablePred P]
    (l : List α) : Decidable (∀ x ∈ l, P x) :=
  List.decidableBAll P l

local instance (priority := 1100) decideOptionForall {α : Type} {P : α → Prop} [DecidablePred P]
    (o : Option α) : Decidable (∀ x ∈ o, P x) :=
  Option.decidableForallMem o

attribute [mk_iff] Table.Fits Pool.Fits MethodSig.Fits Instance.Fits MethodBody.Fits Module.Fits

instance (n : Nat) : Decidable (VarInt.Fits n) := Nat.decLe _ _

instance {α : Type} [BEq α] {P : α → Prop} [DecidablePred P] (t : Table α) :
    Decidable (t.Fits P) :=
  decidable_of_iff _ (Table.fits_iff P t).symm

instance : DecidablePred NameEntry.Fits := fun e => by
  cases e <;> unfold NameEntry.Fits <;> infer_instance

instance (p : Pool) : Decidable p.Fits := decidable_of_iff _ (Pool.fits_iff p).symm

instance : DecidablePred DefaultValue.Fits := fun _ => inferInstanceAs (Decidable (VarInt.Fits _))

instance : DecidablePred TraitData.Fits := fun d => by
  cases d <;> unfold TraitData.Fits <;> infer_instance

instance : DecidablePred Trait.Fits := fun _ => inferInstanceAs (Decidable (_ ∧ _ ∧ _ ∧ _))

instance : DecidablePred Trait.FitsAll := fun _ => inferInstanceAs (Decidable (_ ∧ _))

instance (s : MethodSig) : Decidable s.Fits := decidable_of_iff _ (MethodSig.fits_iff s).symm

instance : DecidablePred Metadata.Fits := fun _ => inferInstanceAs (Decidable (_ ∧ _ ∧ _))

instance (i : Instance) : Decidable i.Fits := decidable_of_iff _ (Instance.fits_iff i).symm

instance : DecidablePred ClassRecord.Fits := fun _ => inferInstanceAs (Decidable (_ ∧ _))

instance : DecidablePred Script.Fits := fun _ => inferInstanceAs (Decidable (_ ∧ _))

instance : DecidablePred ExceptionEntry.Fits := fun _ =>
  inferInstanceAs (Decidable (_ ∧ _ ∧ _ ∧ _ ∧ _))

instance (b : MethodBody) : Decidable b.Fits := decidable_of_iff _ (MethodBody.fits_iff b).symm

instance (m : Module) : Decidable m.Fits := decidable_of_iff _ (Module.fits_iff m).symm

end Decide

/-! ## Kind and flag bytes -/

theorem NamespaceKind.ofByte?_byte (k : NamespaceKind) : NamespaceKind.ofByte? k.byte = some k := by
  cases k <;> rfl

theorem ValueKind.ofByte?_byte (k : ValueKind) : ValueKind.ofByte? k.byte = some k := by
  cases k <;> rfl

theorem UInt8.forall_of_fin {P : UInt8 → Prop} (h : ∀ i : Fin 256, P i.val.toUInt8) (f : UInt8) :
    P f := by
  simpa using h ⟨f.toNat, f.toNat_lt⟩

theorem MethodFlag.hasOptional_set (f : UInt8) (a b : Bool) :
    (setBits (setBits f MethodFlag.hasOptional a) MethodFlag.hasParamNames b &&&
      MethodFlag.hasOptional ≠ 0) ↔ a = true := by
  revert f
  refine UInt8.forall_of_fin ?_
  revert a b
  decide +kernel

theorem MethodFlag.hasParamNames_set (f : UInt8) (a b : Bool) :
    (setBits (setBits f MethodFlag.hasOptional a) MethodFlag.hasParamNames b &&&
      MethodFlag.hasParamNames ≠ 0) ↔ b = true := by
  revert f
  refine UInt8.forall_of_fin ?_
  revert a b
  decide +kernel

theorem InstanceFlag.protectedNs_set (f : UInt8) (b : Bool) :
    (setBits f InstanceFlag.protectedNs b &&& InstanceFlag.protectedNs ≠ 0) ↔ b = true := by
  revert f
  refine UInt8.forall_of_fin ?_
  revert b
  decide +kernel

theorem InstanceFlag.protectedNs_clear (f : UInt8) (b : Bool) :
    setBits (setBits f InstanceFlag.protectedNs b) InstanceFlag.protectedNs false =
      setBits f InstanceFlag.protectedNs false := by
  revert f
  refine UInt8.forall_of_fin ?_
  revert b
  decide +kernel

theorem UInt8.shift_or_low (x n : UInt8) (hn : n.toNat < 16) : ((x <<< 4) ||| n) &&& 0x0F = n := by
  apply UInt8.toNat_inj.mp
  have h15 : (0x0F : UInt8).toNat = 2 ^ 4 - 1 := rfl
  have h4 : (4 : UInt8).toNat % 8 = 4 := rfl
  rw [UInt8.toNat_and, UInt8.toNat_or, h15, Nat.and_two_pow_sub_one_eq_mod, Nat.or_mod_two_pow,
    UInt8.toNat_shiftLeft, h4]
  have hx : x.toNat <<< 4 % 2 ^ 8 % 2 ^ 4 = 0 := by
    simp only [Nat.shiftLeft_eq, Nat.reducePow]
    omega
  rw [hx, Nat.zero_or, Nat.mod_eq_of_lt hn]

theorem UInt8.shift_or_high (x n : UInt8) (hn : n.toNat < 16) :
    ((x <<< 4) ||| n) >>> 4 = x &&& 0x0F := by
  apply UInt8.toNat_inj.mp
  have h15 : (0x0F : UInt8).toNat = 2 ^ 4 - 1 := rfl
  have h4 : (4 : UInt8).toNat % 8 = 4 := rfl
  rw [UInt8.toNat_shiftRight, UInt8.toNat_or, UInt8.toNat_and, h15, Nat.and_two_pow_sub_one_eq_mod,
    Nat.shiftRight_or_distrib, UInt8.toNat_shiftLeft, h4]
  have hn' : n.toNat >>> 4 = 0 := by
    simp only [Nat.shiftRight_eq_div_pow, Nat.reducePow]
    omega
  rw [hn', Nat.or_zero]
  simp only [Nat.shiftLeft_eq, Nat.shiftRight_eq_div_pow, Nat.reducePow]
  omega

theorem TraitAttr.metadata_set (a : UInt8) (b : Bool) :
    (setBits a TraitAttr.metadata b &&& 0x0F &&& TraitAttr.metadata ≠ 0) ↔ b = true := by
  revert a
  refine UInt8.forall_of_fin ?_
  revert b
  decide +kernel

theorem TraitAttr.metadata_clear (a : UInt8) (b : Bool) :
    setBits (setBits a TraitAttr.metadata b &&& 0x0F) TraitAttr.metadata false =
      setBits (a &&& 0x0F) TraitAttr.metadata false := by
  revert a
  refine UInt8.forall_of_fin ?_
  revert b
  decide +kernel

theorem TraitData.kindNibble_lt (d : TraitData) : d.kindNibble.toNat < 16 := by
  cases d <;> simp [TraitData.kindNibble]

/-! ## Pool entries -/

/-- two 30-bit fields read into one value -/
theorem Codes.u30_pair {β : Type} (f : UInt32 → UInt32 → β) (a b : UInt32)
    (ha : VarInt.Fits a.toNat) (hb : VarInt.Fits b.toNat) :
    Codes (Encoder.u30 a >>= fun _ => Encoder.u30 b)
      (Decoder.u30 >>= fun x => Decoder.u30 >>= fun y => Pure.pure (f x y)) (f a b) :=
  (Codes.u30 a ha).bind ((Codes.u30 b hb).bind_pure' (g := f a))

theorem Codes.nameEntry (e : NameEntry) (h : e.Fits) :
    Codes (Module.encodeNameEntry e) Module.decodeNameEntry e := by
  unfold Module.decodeNameEntry
  refine Codes.position_bind fun _ => ?_
  cases e with
  | qname ns n a =>
    obtain ⟨h1, h2⟩ := h
    cases a
    · exact (Codes.byte _).bind (Codes.u30_pair (fun x y => NameEntry.qname x y false) ns n h1 h2)
    · exact (Codes.byte _).bind (Codes.u30_pair (fun x y => NameEntry.qname x y true) ns n h1 h2)
  | rtqName n a =>
    cases a
    · exact (Codes.byte _).bind ((Codes.u30 n h).map (f := fun x => NameEntry.rtqName x false))
    · exact (Codes.byte _).bind ((Codes.u30 n h).map (f := fun x => NameEntry.rtqName x true))
  | rtqNameL a =>
    cases a
    · exact (Codes.byte _).bind (Codes.pure _)
    · exact (Codes.byte _).bind (Codes.pure _)
  | multiname n set a =>
    obtain ⟨h1, h2⟩ := h
    cases a
    · exact (Codes.byte _).bind (Codes.u30_pair (fun x y => NameEntry.multiname x y false) n set h1 h2)
    · exact (Codes.byte _).bind (Codes.u30_pair (fun x y => NameEntry.multiname x y true) n set h1 h2)
  | multinameL set a =>
    cases a
    · exact (Codes.byte _).bind ((Codes.u30 set h).map (f := fun x => NameEntry.multinameL x false))
    · exact (Codes.byte _).bind ((Codes.u30 set h).map (f := fun x => NameEntry.multinameL x true))
  | typeName base params =>
    obtain ⟨h1, h2, h3⟩ := h
    have hps : Codes (Encoder.each Encoder.u30 params) (Decoder.many params.length Decoder.u30)
        params :=
      Codes.each_self params fun p hp => Codes.u30 p (h3 p hp)
    exact (Codes.byte _).bind ((Codes.u30 base h1).bind
      ((Codes.count _ _ h2).bind (hps.bind_pure' (g := NameEntry.typeName base))))

theorem Codes.namespaceEntry (e : NamespaceEntry) (h : VarInt.Fits e.name.toNat) :
    Codes (Encoder.byte e.kind.byte >>= fun _ => Encoder.u30 e.name) Module.decodeNamespaceEntry e := by
  unfold Module.decodeNamespaceEntry
  refine Codes.position_bind fun _ => (Codes.byte _).bind ?_
  simp only [NamespaceKind.ofByte?_byte]
  exact (Codes.u30 e.name h).bind_pure' (g := NamespaceEntry.mk e.kind)

theorem Table.toList_foldl_push {α : Type} [BEq α] (vs : List α) (t : Table α) :
    (vs.foldl (fun t v => (t.push v).1) t).toList = t.toList ++ vs := by
  induction vs generalizing t with
  | nil => simp
  | cons v vs ih =>
    rw [List.foldl_cons, ih]
    simp [Table.push, Table.toList]

@[simp] theorem Table.toList_ofList {α : Type} [BEq α] (vs : List α) :
    (Table.ofList vs).toList = vs := by
  simpa [Table.ofList, Table.toList, Table.empty] using Table.toList_foldl_push vs Table.empty

theorem Table.ofList_toList {α : Type} [BEq α] (t : Table α) : Table.ofList t.toList = t :=
  Table.ext_values (Array.toList_inj.mp (Table.toList_ofList t.toList))

theorem Table.declaredCount_pred {α : Type} [BEq α] (t : Table α) : t.declaredCount - 1 = t.toList.length := by
  simp only [Table.declaredCount, Table.toList, Array.length_toList]
  split <;> omega

theorem Codes.table {α : Type} [BEq α] (what : String) (t : Table α) (item : α → Encoder Unit)
    (dec : Decoder α) {P : α → Prop} (h : t.Fits P) (hitem : ∀ x, P x → Codes (item x) dec x) :
    Codes (Module.encodeTable what t item) (Module.decodeTable dec) t := by
  have hvals := Codes.each_self t.toList fun x hx => hitem x (h.values x hx)
  unfold Module.encodeTable Module.decodeTable
  refine (Codes.count what t.declaredCount h.count).bind ?_
  rw [Table.declaredCount_pred]
  simpa only [Table.ofList_toList] using hvals.bind_pure' (g := Table.ofList)

theorem Codes.pool (p : Pool) (h : p.Fits) : Codes (Module.encodePool p) Module.decodePool p := by
  have hints := Codes.table "int pool" p.ints Encoder.s32 Decoder.s32 h.ints fun v _ => Codes.s32 v
  have huints := Codes.table "uint pool" p.uints Encoder.u32 Decoder.u32 h.uints fun v _ => Codes.u32 v
  have hdoubles := Codes.table "double pool" p.doubles Encoder.f64 Decoder.f64 h.doubles
    fun v _ => Codes.f64 v
  have hstrings := Codes.table "string pool" p.strings (Encoder.string "string length")
    Decoder.string h.strings fun v hv => Codes.string _ v hv
  have hnamespaces := Codes.table "namespace pool" p.namespaces
    (fun e => Encoder.byte e.kind.byte >>= fun _ => Encoder.u30 e.name) Module.decodeNamespaceEntry
    h.namespaces fun e he => Codes.namespaceEntry e he
  have hsets := Codes.table "namespace set pool" p.nsSets (Encoder.counted "namespace set size" Encoder.u30)
    (Decoder.count >>= fun n => Decoder.many n Decoder.u30) h.nsSets
    fun l hl => Codes.counted _ l hl.1 (Codes.each_self l fun i hi => Codes.u30 i (hl.2 i hi))
  have hnames := Codes.table "multiname pool" p.names Module.encodeNameEntry Module.decodeNameEntry
    h.names fun e he => Codes.nameEntry e he
  unfold Module.encodePool Module.decodePool
  exact hints.bind (huints.bind (hdoubles.bind (hstrings.bind (hnamespaces.bind (hsets.bind
    (hnames.bind_pure' (g := fun names => { p with names })))))))

/-! ## Records -/

theorem Codes.defaultValue (v : DefaultValue) (h : v.Fits) :
    Codes v.encode DefaultValue.decode v := by
  unfold DefaultValue.encode DefaultValue.decode
  refine Codes.position_bind fun _ => (Codes.u30 _ h).bind ((Codes.byte _).bind_nil ?_)
  simp only [ValueKind.ofByte?_byte]
  exact Decoder.Reads.pure _

theorem Trait.kindByte_low (t : Trait) : t.kindByte &&& 0x0F = t.data.kindNibble :=
  UInt8.shift_or_low _ _ t.data.kindNibble_lt

theorem Trait.kindByte_high (t : Trait) :
    t.kindByte >>> 4 = setBits t.attributes TraitAttr.metadata (!t.metadata.isEmpty) &&& 0x0F :=
  UInt8.shift_or_high _ _ t.data.kindNibble_lt

/-! The trait writer and reader branch on the binding in the middle of a record, so the part
after the branch is shared by every case. Restated with the binding part as a function of its
own, each case is one lemma and the shared part is proved once. -/

namespace Trait

open Encoder in
/-- the binding part of a trait's writer, after its kind byte -/
def writeData : TraitData → Encoder Unit
  | .slot slotId typeName value | .const slotId typeName value => do
    u30 slotId
    u30 typeName
    u30 value.index
    if value.index ≠ 0 then byte value.kind.byte
  | .method a b | .getter a b | .setter a b | .nestedClass a b | .function a b => do
    u30 a
    u30 b

/-- the metadata part of a trait's writer: the list with its count, when it is not empty -/
def writeMetadata (ms : List UInt32) : Encoder Unit :=
  if !ms.isEmpty then Encoder.counted "trait metadata count" Encoder.u30 ms else Pure.pure ()

/-- the reader of a binding made of two 30-bit fields -/
def readPair (mk : UInt32 → UInt32 → TraitData) : Decoder TraitData := do
  let a ← Decoder.u30
  let b ← Decoder.u30
  Pure.pure (mk a b)

/-- the binding part of the trait reader, chosen by the kind nibble -/
def readData (start : Nat) (nibble : UInt8) : Decoder TraitData :=
  match nibble with
  | 0 => decodeSlot false
  | 6 => decodeSlot true
  | 1 => readPair .method
  | 2 => readPair .getter
  | 3 => readPair .setter
  | 4 => readPair .nestedClass
  | 5 => readPair .function
  | _ => throw (.invalidOperand start)

/-- the metadata part of the trait reader, present when the attribute nibble says so -/
def readMetadata (attrs : UInt8) : Decoder (List UInt32) :=
  if attrs &&& TraitAttr.metadata ≠ 0 then Decoder.count >>= fun n => Decoder.many n Decoder.u30
  else Pure.pure []

theorem encode_eq (t : Trait) :
    t.encode = (Encoder.u30 t.name >>= fun _ => Encoder.byte t.kindByte >>= fun _ =>
      writeData t.data >>= fun _ => writeMetadata t.metadata) := by
  obtain ⟨name, data, attributes, metadata⟩ := t
  unfold encode writeData writeMetadata
  cases data <;> dsimp only <;> split_ifs <;> simp only [bind_assoc, pure_bind]

theorem decode_eq : decode = (Decoder.u30 >>= fun name => Decoder.position >>= fun start =>
    Decoder.byte >>= fun kb => readData start (kb &&& 0x0F) >>= fun data =>
    readMetadata (kb >>> 4) >>= fun metadata =>
    Pure.pure ⟨name, data, setBits (kb >>> 4) TraitAttr.metadata false, metadata⟩) := by
  unfold decode readData readPair readMetadata
  congr 1; funext name; congr 1; funext start; congr 1; funext kb
  generalize kb &&& 0x0F = n
  -- the reader copies the rest of the record into each branch on the nibble: split both sides
  -- alike, then the branches that agree on the nibble differ only by where the bind stands
  split <;> split
  -- the branches on different nibbles, where the split leaves them, contradict each other
  all_goals first
    | (exfalso; simp_all; done)
    | (dsimp only; congr 1; funext data; split_ifs; all_goals simp only [bind_assoc, pure_bind])

end Trait

/-- a slot's binding: the default's kind byte follows exactly when its index is not 0 -/
theorem Codes.slotData (isConst : Bool) (slotId typeName : UInt32) (v : DefaultValue)
    (h : VarInt.Fits slotId.toNat ∧ VarInt.Fits typeName.toNat ∧ v.Fits) :
    Codes (Trait.writeData (.slot slotId typeName v)) (Trait.decodeSlot isConst)
      (let v' := if v.index = 0 then DefaultValue.none else v
       if isConst then .const slotId typeName v' else .slot slotId typeName v') := by
  obtain ⟨h1, h2, h3⟩ := h
  unfold Trait.writeData Trait.decodeSlot
  refine (Codes.u30 _ h1).bind ((Codes.u30 _ h2).bind ((Codes.u30 _ h3).bind ?_))
  by_cases hv : v.index = 0
  · simp only [hv, ne_eq, not_true_eq_false, if_false, if_true, pure_bind]
    exact Codes.pure _
  · simp only [hv, ne_eq, not_false_eq_true, if_true, if_false]
    refine Codes.position_bind fun _ => (Codes.byte _).bind_nil ?_
    simp only [ValueKind.ofByte?_byte, pure_bind]
    exact Decoder.Reads.pure _

theorem Codes.traitData (start : Nat) (d : TraitData) (h : d.Fits) :
    Codes (Trait.writeData d) (Trait.readData start d.kindNibble) d.readBack := by
  cases d with
  | slot s ty v => exact Codes.slotData false s ty v h
  | const s ty v => exact Codes.slotData true s ty v h
  | method a b => exact Codes.u30_pair _ a b h.1 h.2
  | getter a b => exact Codes.u30_pair _ a b h.1 h.2
  | setter a b => exact Codes.u30_pair _ a b h.1 h.2
  | nestedClass a b => exact Codes.u30_pair _ a b h.1 h.2
  | function a b => exact Codes.u30_pair _ a b h.1 h.2

/-- the metadata list is read exactly when the attribute nibble carries the metadata bit -/
theorem Codes.traitMetadata (a : UInt8) (ms : List UInt32) (hcount : VarInt.Fits ms.length)
    (hms : ∀ m ∈ ms, VarInt.Fits m.toNat) :
    Codes (Trait.writeMetadata ms)
      (Trait.readMetadata (setBits a TraitAttr.metadata (!ms.isEmpty) &&& 0x0F)) ms := by
  unfold Trait.writeMetadata Trait.readMetadata
  cases ms with
  | nil => simpa [TraitAttr.metadata_set] using Codes.pure (x := ([] : List UInt32))
  | cons m ms =>
    simp only [List.isEmpty_cons, Bool.not_false, if_true, TraitAttr.metadata_set]
    exact Codes.counted _ _ hcount (Codes.each_self _ fun i hi => Codes.u30 i (hms i hi))

theorem Codes.trait (t : Trait) (h : t.Fits) : Codes t.encode Trait.decode t.readBack := by
  obtain ⟨hname, hdata, hcount, hmeta⟩ := h
  rw [Trait.encode_eq, Trait.decode_eq]
  refine (Codes.u30 _ hname).bind (Codes.position_bind fun start => (Codes.byte _).bind ?_)
  rw [Trait.kindByte_low, Trait.kindByte_high]
  refine (Codes.traitData start t.data hdata).bind ?_
  rw [TraitAttr.metadata_clear]
  exact (Codes.traitMetadata t.attributes t.metadata hcount hmeta).bind_pure'
    (g := fun ms => (⟨t.name, t.data.readBack, setBits (t.attributes &&& 0x0F) TraitAttr.metadata false,
      ms⟩ : Trait))

theorem Codes.traits (ts : List Trait) (h : Trait.FitsAll ts) :
    Codes (Trait.encodeAll ts) Trait.decodeAll (ts.map Trait.readBack) :=
  Codes.counted _ ts h.1 (Codes.each ts fun t ht => Codes.trait t (h.2 t ht))

theorem Codes.methodSig (s : MethodSig) (h : s.Fits) (hr : s.Regular) :
    Codes s.encode MethodSig.decode s.readBack := by
  obtain ⟨paramTypes, returnType, name, flags, optional, paramNames⟩ := s
  have hps : Codes (Encoder.each Encoder.u30 paramTypes)
      (Decoder.many paramTypes.length Decoder.u30) paramTypes :=
    Codes.each_self paramTypes fun p hp => Codes.u30 p (h.paramTypes p hp)
  -- names are read one per parameter: when there are any, there is one for each parameter
  have hnames : paramNames ≠ [] → Codes (Encoder.each Encoder.u30 paramNames)
      (Decoder.many paramTypes.length Decoder.u30) paramNames := by
    intro hne
    rw [← hr.resolve_left hne]
    exact Codes.each_self paramNames fun n hn => Codes.u30 n (h.paramNames n hn)
  have hdefaults : Codes (Encoder.each DefaultValue.encode optional)
      (Decoder.many optional.length DefaultValue.decode) optional :=
    Codes.each_self optional fun v hv => Codes.defaultValue v (h.optional v hv)
  unfold MethodSig.encode MethodSig.decode
  refine (Codes.count _ _ h.params).bind ((Codes.u30 _ h.returnType).bind
    (hps.bind ((Codes.u30 _ h.name).bind ((Codes.byte _).bind ?_))))
  simp only [MethodSig.effectiveFlags, MethodFlag.hasOptional_set, MethodFlag.hasParamNames_set]
  -- each of the two optional parts is written and read exactly when it is not empty
  cases optional <;> cases paramNames <;>
    simp only [List.isEmpty_nil, List.isEmpty_cons, Bool.not_true, Bool.not_false,
      Bool.false_eq_true, if_true, if_false, pure_bind]
  case nil.nil => exact Codes.pure _
  case nil.cons => exact (hnames (List.cons_ne_nil _ _)).bind_pure'
  case cons.nil =>
    exact Codes.counted_bind _ _ h.optionalCount hdefaults (Codes.pure _)
  case cons.cons =>
    exact Codes.counted_bind _ _ h.optionalCount hdefaults
      (hnames (List.cons_ne_nil _ _)).bind_pure'

theorem Codes.metadata (m : Metadata) (h : m.Fits) : Codes m.encode Metadata.decode m := by
  obtain ⟨hname, hcount, hitems⟩ := h
  have hkeys : Codes (Encoder.each (fun kv => Encoder.u30 kv.1) m.items)
      (Decoder.many m.items.length Decoder.u30) (m.items.map Prod.fst) :=
    Codes.each m.items fun kv hkv => Codes.u30 kv.1 (hitems kv hkv).1
  have hvalues : Codes (Encoder.each (fun kv => Encoder.u30 kv.2) m.items)
      (Decoder.many m.items.length Decoder.u30) (m.items.map Prod.snd) :=
    Codes.each m.items fun kv hkv => Codes.u30 kv.2 (hitems kv hkv).2
  have hzip : (m.items.map Prod.fst).zip (m.items.map Prod.snd) = m.items :=
    (List.zip_of_prod rfl rfl).symm
  have hcodes : Codes m.encode Metadata.decode
      ⟨m.name, (m.items.map Prod.fst).zip (m.items.map Prod.snd)⟩ :=
    (Codes.u30 _ hname).bind ((Codes.count _ _ hcount).bind (hkeys.bind hvalues.bind_pure'))
  rwa [hzip] at hcodes

theorem Codes.instance (i : Instance) (h : i.Fits) : Codes i.encode Instance.decode i.readBack := by
  obtain ⟨name, superName, flags, protectedNs, interfaces, iinit, traits⟩ := i
  obtain ⟨hname, hsuper, hns, hcount, hinterfaces, hiinit, htraits⟩ := h
  have hlist : Codes (Encoder.each Encoder.u30 interfaces)
      (Decoder.many interfaces.length Decoder.u30) interfaces :=
    Codes.each_self interfaces fun n hn => Codes.u30 n (hinterfaces n hn)
  unfold Instance.encode Instance.decode
  refine (Codes.u30 _ hname).bind ((Codes.u30 _ hsuper).bind ((Codes.byte _).bind ?_))
  simp only [InstanceFlag.protectedNs_set, InstanceFlag.protectedNs_clear]
  cases protectedNs with
  | none =>
    simp only [Option.isSome_none, Bool.false_eq_true, if_false, pure_bind]
    exact Codes.counted_bind _ _ hcount hlist
      ((Codes.u30 _ hiinit).bind (Codes.traits _ htraits).bind_pure')
  | some ns =>
    simp only [Option.isSome_some, if_true]
    exact ((Codes.u30 _ (hns ns rfl)).map (f := some)).bind (Codes.counted_bind _ _ hcount hlist
      ((Codes.u30 _ hiinit).bind (Codes.traits _ htraits).bind_pure'))

theorem Codes.classRecord (c : ClassRecord) (h : c.Fits) : Codes c.encode ClassRecord.decode c.readBack :=
  (Codes.u30 _ h.1).bind (Codes.traits _ h.2).bind_pure'

theorem Codes.script (s : Script) (h : s.Fits) : Codes s.encode Script.decode s.readBack :=
  (Codes.u30 _ h.1).bind (Codes.traits _ h.2).bind_pure'

theorem Codes.exceptionEntry (e : ExceptionEntry) (h : e.Fits) :
    Codes e.encode ExceptionEntry.decode e := by
  obtain ⟨h1, h2, h3, h4, h5⟩ := h
  exact (Codes.u30 _ h1).bind ((Codes.u30 _ h2).bind ((Codes.u30 _ h3).bind ((Codes.u30 _ h4).bind
    (Codes.u30 _ h5).bind_pure')))

theorem Codes.methodBody (b : MethodBody) (h : b.Fits) : Codes b.encode MethodBody.decode b.readBack := by
  have hentries := Codes.each_self b.exceptions fun e he => Codes.exceptionEntry e (h.exceptions e he)
  exact (Codes.u30 _ h.method).bind ((Codes.u30 _ h.maxStack).bind ((Codes.u30 _ h.localCount).bind
    ((Codes.u30 _ h.initScopeDepth).bind ((Codes.u30 _ h.maxScopeDepth).bind
    ((Codes.count _ _ h.codeLength).bind ((Codes.raw b.code).bind
    (Codes.counted_bind _ _ h.exceptionCount hentries (Codes.traits _ h.traits).bind_pure')))))))

/-! ## The module -/

/-- the module's writer and reader agree: what is written reads back as `readBack` -/
theorem Module.codes_readBack (m : Module) (h : m.Fits) (hmajor : m.major = majorVersion)
    (hclasses : m.classes.length = m.instances.length) (hsigs : ∀ s ∈ m.methods, s.Regular) :
    Codes m.encode Module.decode m.readBack := by
  have hsigs := Codes.each m.methods fun s hs => Codes.methodSig s (h.methods s hs) (hsigs s hs)
  have hmetadata := Codes.each_self m.metadata fun d hd => Codes.metadata d (h.metadata d hd)
  have hinstances := Codes.each m.instances fun i hi => Codes.instance i (h.instances i hi)
  have hclassRecords := Codes.each m.classes fun c hc => Codes.classRecord c (h.classes c hc)
  have hscripts := Codes.each m.scripts fun s hs => Codes.script s (h.scripts s hs)
  have hbodies := Codes.each m.bodies fun b hb => Codes.methodBody b (h.bodies b hb)
  unfold Module.encode Module.decode
  refine (Codes.u16 _).bind ((Codes.u16 _).bind ?_)
  rw [if_neg (not_not.mpr hmajor)]
  -- one count serves both class tables: the instance records, then the class records
  rw [← hclasses] at hinstances
  exact (Codes.pool _ h.pool).bind (Codes.counted_bind _ _ h.methodCount hsigs
    (Codes.counted_bind _ _ h.metadataCount hmetadata ((Codes.count _ _ h.classCount).bind
    (hinstances.bind (hclassRecords.bind (Codes.counted_bind _ _ h.scriptCount hscripts
    ((Codes.count _ _ h.bodyCount).bind hbodies.bind_pure')))))))

theorem Module.validate_readBack (m : Module) : m.readBack.validate = m.validate := by
  simp [Module.validate, Module.readBack, Module.checkMethod, MethodSig.readBack,
    Instance.readBack, ClassRecord.readBack, Script.readBack, MethodBody.readBack]
  rfl

theorem Module.classes_length_of_validate {m : Module} (h : m.validate = .ok ()) :
    m.classes.length = m.instances.length := by
  by_contra hne
  simp only [Module.validate, ne_eq, hne, not_false_eq_true, if_true] at h
  cases h

/-- a run of checks in the error monad passes when each check does -/
theorem forM_ok {α ε : Type} {f : α → Except ε Unit} :
    ∀ {l : List α}, (∀ x ∈ l, f x = .ok ()) → l.forM f = .ok ()
  | [], _ => rfl
  | x :: l, h => by
    show (f x >>= fun _ => l.forM f) = _
    rw [h x List.mem_cons_self]
    exact forM_ok fun y hy => h y (List.mem_cons_of_mem x hy)

/-- the module's checks pass when its class tables have one length, every method it refers to
is one of its methods, and every signature names a string of the pool -/
theorem Module.validate_eq_ok {m : Module} (hclasses : m.classes.length = m.instances.length)
    (hbodies : ∀ b ∈ m.bodies, b.method.toNat < m.methods.length)
    (hiinit : ∀ i ∈ m.instances, i.iinit.toNat < m.methods.length)
    (hcinit : ∀ c ∈ m.classes, c.cinit.toNat < m.methods.length)
    (hinit : ∀ s ∈ m.scripts, s.init.toNat < m.methods.length)
    (hnames : ∀ s ∈ m.methods, s.name.toNat ≤ m.pool.strings.size) : m.validate = .ok () := by
  have hcheck : ∀ i : UInt32, i.toNat < m.methods.length → m.checkMethod i = .ok () :=
    fun i hi => by simp [Module.checkMethod, hi]
  unfold Module.validate
  rw [if_neg (not_not.mpr hclasses)]
  dsimp only
  rw [forM_ok fun b hb => hcheck _ (hbodies b hb), forM_ok fun i hi => hcheck _ (hiinit i hi),
    forM_ok fun c hc => hcheck _ (hcinit c hc), forM_ok fun s hs => hcheck _ (hinit s hs)]
  exact forM_ok fun s hs => if_neg (Nat.not_lt.mpr (hnames s hs))

/-- a module that passes its checks, whose fields fit and whose signatures are regular, is written
and read back as `readBack` of itself -/
theorem Module.ofBytes_toBytes (m : Module) (h : m.Fits) (hmajor : m.major = majorVersion)
    (hsigs : ∀ s ∈ m.methods, s.Regular) (hvalid : m.validate = .ok ()) :
    ∃ bs, m.toBytes = .ok bs ∧ Module.ofBytes bs = .ok m.readBack := by
  obtain ⟨bs, hwrite, hread⟩ :=
    (Module.codes_readBack m h hmajor (Module.classes_length_of_validate hvalid) hsigs).run
  refine ⟨bs, ?_, ?_⟩
  · simp only [Module.toBytes, hvalid, hwrite]
    rfl
  · simp only [Module.ofBytes, hread]
    change (m.readBack.validate >>= fun _ => Pure.pure m.readBack) = _
    rw [Module.validate_readBack, hvalid]
    rfl

end AbcKit
