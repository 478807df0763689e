import AbcKit.Proofs.Code
import AbcKit.Proofs.Bits
/-!
The container writer refuses exactly what does not fit, and the bytes it writes are canonical.

A module is written only when every count, index and length fits its 30-bit field
(`Module.fits_of_encode`), so the round trip of `AbcKit.Proofs.Container` covers every module the
writer accepts. Writing forgets nothing the reader keeps: a module and `readBack` of it write the
same bytes (`Module.toBytes_readBack`). Together (`Module.ofBytes_toBytes_canonical`): the bytes
of a module of this major version whose signatures name all of their parameters or none read
back as `readBack` of it, and writing what was read gives the same bytes again.

`readBack` is more than the flags the writer derives. A slot default with index 0 keeps no kind,
since its kind byte is not written, and trait attributes keep only the four bits the kind byte
holds (`Module.slotDefault_kind_lost`).

Parameter names are written with no count of their own and read one for each parameter, so
every signature the reader returns names all of its parameters or none
(`MethodSig.regular_of_decode`), and a module whose signature names only some is written but
not read back (`Module.partialNames_unread`).
-/
namespace AbcKit

/-! ## A successful write -/

namespace Encoder

variable {b b' : Buffer}

theorem u30_fits {v : UInt32} {a : Unit} (h : Encoder.u30 v b = .ok a b') : VarInt.Fits v.toNat :=
  (u30_eq_ok.mp h).1

theorem count_fits {what : String} {n : Nat} {a : Unit} (h : Encoder.count what n b = .ok a b') :
    VarInt.Fits n :=
  (count_eq_ok.mp h).1

theorem string_fits {what s : String} (h : Encoder.string what s b = .ok () b') :
    VarInt.Fits s.utf8ByteSize := by
  obtain ⟨_, _, hcount, -⟩ := EStateM.bind_eq_ok.mp h
  exact count_fits hcount

/-- every item of a successful run of items was written successfully -/
theorem each_fits {α : Type} {item : α → Encoder Unit} {P : α → Prop}
    (hitem : ∀ x b b', item x b = .ok () b' → P x) :
    ∀ {xs : List α} {b b' : Buffer}, each item xs b = .ok () b' → ∀ x ∈ xs, P x
  | [], _, _, _ => by simp
  | x :: xs, b, _, h => by
    obtain ⟨⟨⟩, b₁, h₁, h₂⟩ := EStateM.bind_eq_ok.mp h
    exact List.forall_mem_cons.mpr ⟨hitem x b b₁ h₁, each_fits hitem h₂⟩

theorem counted_fits {α : Type} {what : String} {item : α → Encoder Unit} {P : α → Prop}
    (hitem : ∀ x b b', item x b = .ok () b' → P x) {xs : List α}
    (h : counted what item xs b = .ok () b') : VarInt.Fits xs.length ∧ ∀ x ∈ xs, P x := by
  obtain ⟨_, _, hcount, heach⟩ := EStateM.bind_eq_ok.mp h
  exact ⟨count_fits hcount, each_fits hitem heach⟩

end Encoder

section Refusal

variable {b b' : Buffer}

theorem NameEntry.fits_of_encode {e : NameEntry} (h : Module.encodeNameEntry e b = .ok () b') :
    e.Fits := by
  cases e with
  | qname ns n a =>
    obtain ⟨_, _, -, h⟩ := EStateM.bind_eq_ok.mp h
    obtain ⟨_, _, hns, hn⟩ := EStateM.bind_eq_ok.mp h
    exact ⟨Encoder.u30_fits hns, Encoder.u30_fits hn⟩
  | rtqName n a =>
    obtain ⟨_, _, -, hn⟩ := EStateM.bind_eq_ok.mp h
    exact Encoder.u30_fits hn
  | rtqNameL a => trivial
  | multiname n set a =>
    obtain ⟨_, _, -, h⟩ := EStateM.bind_eq_ok.mp h
    obtain ⟨_, _, hn, hset⟩ := EStateM.bind_eq_ok.mp h
    exact ⟨Encoder.u30_fits hn, Encoder.u30_fits hset⟩
  | multinameL set a =>
    obtain ⟨_, _, -, hset⟩ := EStateM.bind_eq_ok.mp h
    exact Encoder.u30_fits hset
  | typeName base params =>
    obtain ⟨_, _, -, h⟩ := EStateM.bind_eq_ok.mp h
    obtain ⟨_, _, hbase, hparams⟩ := EStateM.bind_eq_ok.mp h
    have := Encoder.counted_fits (fun p _ _ hp => Encoder.u30_fits hp) hparams
    exact ⟨Encoder.u30_fits hbase, this⟩

theorem Table.fits_of_encode {α : Type} [BEq α] {what : String} {t : Table α} {item : α → Encoder Unit}
    {P : α → Prop} (hitem : ∀ x b b', item x b = .ok () b' → P x)
    (h : Module.encodeTable what t item b = .ok () b') : t.Fits P := by
  obtain ⟨_, _, hcount, heach⟩ := EStateM.bind_eq_ok.mp h
  exact ⟨Encoder.count_fits hcount, Encoder.each_fits hitem heach⟩

theorem Pool.fits_of_encode {p : Pool} (h : Module.encodePool p b = .ok () b') : p.Fits := by
  obtain ⟨_, _, hints, h⟩ := EStateM.bind_eq_ok.mp h
  obtain ⟨_, _, huints, h⟩ := EStateM.bind_eq_ok.mp h
  obtain ⟨_, _, hdoubles, h⟩ := EStateM.bind_eq_ok.mp h
  obtain ⟨_, _, hstrings, h⟩ := EStateM.bind_eq_ok.mp h
  obtain ⟨_, _, hnamespaces, h⟩ := EStateM.bind_eq_ok.mp h
  obtain ⟨_, _, hsets, hnames⟩ := EStateM.bind_eq_ok.mp h
  refine ⟨Table.fits_of_encode (fun _ _ _ _ => trivial) hints,
    Table.fits_of_encode (fun _ _ _ _ => trivial) huints,
    Table.fits_of_encode (fun _ _ _ _ => trivial) hdoubles,
    Table.fits_of_encode (fun _ _ _ hs => Encoder.string_fits hs) hstrings,
    Table.fits_of_encode (fun _ _ _ he => ?_) hnamespaces,
    Table.fits_of_encode (fun _ _ _ hl => Encoder.counted_fits (fun _ _ _ hi => Encoder.u30_fits hi) hl)
      hsets,
    Table.fits_of_encode (fun _ _ _ he => NameEntry.fits_of_encode he) hnames⟩
  obtain ⟨_, _, -, hname⟩ := EStateM.bind_eq_ok.mp he
  exact Encoder.u30_fits hname

theorem DefaultValue.fits_of_encode {v : DefaultValue} (h : v.encode b = .ok () b') : v.Fits := by
  obtain ⟨_, _, hindex, -⟩ := EStateM.bind_eq_ok.mp h
  exact Encoder.u30_fits hindex

theorem TraitData.fits_of_write {d : TraitData} (h : Trait.writeData d b = .ok () b') : d.Fits := by
  cases d with
  | slot s ty v | const s ty v =>
    obtain ⟨_, _, hs, h⟩ := EStateM.bind_eq_ok.mp h
    obtain ⟨_, _, hty, h⟩ := EStateM.bind_eq_ok.mp h
    obtain ⟨_, _, hindex, -⟩ := EStateM.bind_eq_ok.mp h
    exact ⟨Encoder.u30_fits hs, Encoder.u30_fits hty, Encoder.u30_fits hindex⟩
  | method a m | getter a m | setter a m | nestedClass a m | function a m =>
    obtain ⟨_, _, ha, hm⟩ := EStateM.bind_eq_ok.mp h
    exact ⟨Encoder.u30_fits ha, Encoder.u30_fits hm⟩

theorem Trait.metadata_fits_of_write {ms : List UInt32} (h : Trait.writeMetadata ms b = .ok () b') :
    VarInt.Fits ms.length ∧ ∀ m ∈ ms, VarInt.Fits m.toNat := by
  cases ms with
  | nil => simp [VarInt.Fits]
  | cons m ms =>
    exact Encoder.counted_fits (fun _ _ _ hi => Encoder.u30_fits hi) h

theorem Trait.fits_of_encode {t : Trait} (h : t.encode b = .ok () b') : t.Fits := by
  rw [Trait.encode_eq] at h
  obtain ⟨_, _, hname, h⟩ := EStateM.bind_eq_ok.mp h
  obtain ⟨_, _, -, h⟩ := EStateM.bind_eq_ok.mp h
  obtain ⟨_, _, hdata, hmeta⟩ := EStateM.bind_eq_ok.mp h
  obtain ⟨hcount, hms⟩ := Trait.metadata_fits_of_write hmeta
  exact ⟨Encoder.u30_fits hname, TraitData.fits_of_write hdata, hcount, hms⟩

theorem Trait.fitsAll_of_encodeAll {ts : List Trait} (h : Trait.encodeAll ts b = .ok () b') :
    Trait.FitsAll ts :=
  Encoder.counted_fits (fun _ _ _ ht => Trait.fits_of_encode ht) h

/-- a part written only under a condition: where it is skipped, `P` must hold anyway -/
theorem Encoder.flagged_fits {c : Prop} [Decidable c] {e : Encoder Unit} {P : Prop}
    (hskip : ¬c → P) (he : ∀ b b', e b = .ok () b' → P)
    (h : (if c then e else pure ()) b = .ok () b') : P := by
  split at h
  · exact he _ _ h
  · next hc => exact hskip hc

theorem MethodSig.fits_of_encode {s : MethodSig} (h : s.encode b = .ok () b') : s.Fits := by
  obtain ⟨_, _, hparams, h⟩ := EStateM.bind_eq_ok.mp h
  obtain ⟨_, _, hreturn, h⟩ := EStateM.bind_eq_ok.mp h
  obtain ⟨_, _, htypes, h⟩ := EStateM.bind_eq_ok.mp h
  obtain ⟨_, _, hname, h⟩ := EStateM.bind_eq_ok.mp h
  obtain ⟨_, _, -, h⟩ := EStateM.bind_eq_ok.mp h
  -- the names are written under their flag bit, which is clear only when there are none
  have hnames : ∀ {b b' : Buffer}, (if s.effectiveFlags &&& MethodFlag.hasParamNames ≠ 0 then
      Encoder.each Encoder.u30 s.paramNames else pure ()) b = .ok () b' →
      ∀ n ∈ s.paramNames, VarInt.Fits n.toNat := by
    refine Encoder.flagged_fits (fun hbit => ?_) fun _ _ he =>
      Encoder.each_fits (fun _ _ _ hn => Encoder.u30_fits hn) he
    have hempty : s.paramNames = [] := by
      simpa [MethodSig.effectiveFlags, MethodFlag.hasParamNames_set] using hbit
    simp [hempty]
  have hparts : (VarInt.Fits s.optional.length ∧ ∀ v ∈ s.optional, v.Fits) ∧
      ∀ n ∈ s.paramNames, VarInt.Fits n.toNat := by
    split at h
    · obtain ⟨_, _, hdefaults, hrest⟩ := EStateM.bind_eq_ok.mp h
      exact ⟨Encoder.counted_fits (fun _ _ _ hv => DefaultValue.fits_of_encode hv) hdefaults,
        hnames hrest⟩
    · next hbit =>
      have hempty : s.optional = [] := by
        simpa [MethodSig.effectiveFlags, MethodFlag.hasOptional_set] using hbit
      exact ⟨by simp [hempty, VarInt.Fits], hnames h⟩
  exact ⟨Encoder.count_fits hparams, Encoder.u30_fits hreturn,
    Encoder.each_fits (fun _ _ _ ht => Encoder.u30_fits ht) htypes, Encoder.u30_fits hname,
    hparts.1.1, hparts.1.2, hparts.2⟩

theorem Metadata.fits_of_encode {m : Metadata} (h : m.encode b = .ok () b') : m.Fits := by
  obtain ⟨_, _, hname, h⟩ := EStateM.bind_eq_ok.mp h
  obtain ⟨_, _, hcount, h⟩ := EStateM.bind_eq_ok.mp h
  obtain ⟨_, _, hkeys, hvalues⟩ := EStateM.bind_eq_ok.mp h
  have hk := Encoder.each_fits (fun _ _ _ hk => Encoder.u30_fits hk) hkeys
  have hv := Encoder.each_fits (fun _ _ _ hv => Encoder.u30_fits hv) hvalues
  exact ⟨Encoder.u30_fits hname, Encoder.count_fits hcount, fun kv hkv => ⟨hk kv hkv, hv kv hkv⟩⟩

theorem Instance.fits_of_encode {i : Instance} (h : i.encode b = .ok () b') : i.Fits := by
  obtain ⟨name, superName, flags, protectedNs, interfaces, iinit, traits⟩ := i
  obtain ⟨_, _, hname, h⟩ := EStateM.bind_eq_ok.mp h
  obtain ⟨_, _, hsuper, h⟩ := EStateM.bind_eq_ok.mp h
  obtain ⟨_, _, -, h⟩ := EStateM.bind_eq_ok.mp h
  have hrest : ∀ {b b' : Buffer}, (Encoder.counted "interface count" Encoder.u30 interfaces >>=
      fun _ => Encoder.u30 iinit >>= fun _ => Trait.encodeAll traits) b = .ok () b' →
      (VarInt.Fits interfaces.length ∧ ∀ n ∈ interfaces, VarInt.Fits n.toNat) ∧
        VarInt.Fits iinit.toNat ∧ Trait.FitsAll traits := by
    intro b b' h
    obtain ⟨_, _, hinterfaces, h⟩ := EStateM.bind_eq_ok.mp h
    obtain ⟨_, _, hiinit, htraits⟩ := EStateM.bind_eq_ok.mp h
    exact ⟨Encoder.counted_fits (fun _ _ _ hn => Encoder.u30_fits hn) hinterfaces,
      Encoder.u30_fits hiinit, Trait.fitsAll_of_encodeAll htraits⟩
  cases protectedNs with
  | none =>
    obtain ⟨⟨hcount, hlist⟩, hiinit, htraits⟩ := hrest h
    exact ⟨Encoder.u30_fits hname, Encoder.u30_fits hsuper, nofun, hcount, hlist, hiinit, htraits⟩
  | some ns =>
    obtain ⟨_, _, hns, h⟩ := EStateM.bind_eq_ok.mp h
    obtain ⟨⟨hcount, hlist⟩, hiinit, htraits⟩ := hrest h
    exact ⟨Encoder.u30_fits hname, Encoder.u30_fits hsuper, fun _ h => Option.some.inj h ▸ Encoder.u30_fits hns,
      hcount, hlist, hiinit, htraits⟩

theorem ClassRecord.fits_of_encode {c : ClassRecord} (h : c.encode b = .ok () b') : c.Fits := by
  obtain ⟨_, _, hcinit, htraits⟩ := EStateM.bind_eq_ok.mp h
  exact ⟨Encoder.u30_fits hcinit, Trait.fitsAll_of_encodeAll htraits⟩

theorem Script.fits_of_encode {s : Script} (h : s.encode b = .ok () b') : s.Fits := by
  obtain ⟨_, _, hinit, htraits⟩ := EStateM.bind_eq_ok.mp h
  exact ⟨Encoder.u30_fits hinit, Trait.fitsAll_of_encodeAll htraits⟩

theorem ExceptionEntry.fits_of_encode {e : ExceptionEntry} (h : e.encode b = .ok () b') :
    e.Fits := by
  obtain ⟨_, _, h1, h⟩ := EStateM.bind_eq_ok.mp h
  obtain ⟨_, _, h2, h⟩ := EStateM.bind_eq_ok.mp h
  obtain ⟨_, _, h3, h⟩ := EStateM.bind_eq_ok.mp h
  obtain ⟨_, _, h4, h5⟩ := EStateM.bind_eq_ok.mp h
  exact ⟨Encoder.u30_fits h1, Encoder.u30_fits h2, Encoder.u30_fits h3, Encoder.u30_fits h4,
    Encoder.u30_fits h5⟩

theorem MethodBody.fits_of_encode {body : MethodBody} (h : body.encode b = .ok () b') :
    body.Fits := by
  obtain ⟨_, _, hmethod, h⟩ := EStateM.bind_eq_ok.mp h
  obtain ⟨_, _, hstack, h⟩ := EStateM.bind_eq_ok.mp h
  obtain ⟨_, _, hlocals, h⟩ := EStateM.bind_eq_ok.mp h
  obtain ⟨_, _, hinit, h⟩ := EStateM.bind_eq_ok.mp h
  obtain ⟨_, _, hmax, h⟩ := EStateM.bind_eq_ok.mp h
  obtain ⟨_, _, hlength, h⟩ := EStateM.bind_eq_ok.mp h
  obtain ⟨_, _, -, h⟩ := EStateM.bind_eq_ok.mp h
  obtain ⟨_, _, hentries, htraits⟩ := EStateM.bind_eq_ok.mp h
  obtain ⟨hcount, hall⟩ :=
    Encoder.counted_fits (fun _ _ _ he => ExceptionEntry.fits_of_encode he) hentries
  exact ⟨Encoder.u30_fits hmethod, Encoder.u30_fits hstack, Encoder.u30_fits hlocals,
    Encoder.u30_fits hinit, Encoder.u30_fits hmax, Encoder.count_fits hlength, hcount, hall,
    Trait.fitsAll_of_encodeAll htraits⟩

theorem Module.fits_of_encode {m : Module} (h : m.encode b = .ok () b') : m.Fits := by
  obtain ⟨_, _, -, h⟩ := EStateM.bind_eq_ok.mp h
  obtain ⟨_, _, -, h⟩ := EStateM.bind_eq_ok.mp h
  obtain ⟨_, _, hpool, h⟩ := EStateM.bind_eq_ok.mp h
  obtain ⟨_, _, hmethods, h⟩ := EStateM.bind_eq_ok.mp h
  obtain ⟨_, _, hmetadata, h⟩ := EStateM.bind_eq_ok.mp h
  obtain ⟨_, _, hclasses, h⟩ := EStateM.bind_eq_ok.mp h
  obtain ⟨_, _, hinstances, h⟩ := EStateM.bind_eq_ok.mp h
  obtain ⟨_, _, hclassRecords, h⟩ := EStateM.bind_eq_ok.mp h
  obtain ⟨_, _, hscripts, hbodies⟩ := EStateM.bind_eq_ok.mp h
  obtain ⟨hmc, hms⟩ := Encoder.counted_fits (fun _ _ _ hs => MethodSig.fits_of_encode hs) hmethods
  obtain ⟨hdc, hds⟩ := Encoder.counted_fits (fun _ _ _ hd => Metadata.fits_of_encode hd) hmetadata
  obtain ⟨hsc, hss⟩ := Encoder.counted_fits (fun _ _ _ hs => Script.fits_of_encode hs) hscripts
  obtain ⟨hbc, hbs⟩ := Encoder.counted_fits (fun _ _ _ hb => MethodBody.fits_of_encode hb) hbodies
  exact ⟨Pool.fits_of_encode hpool, hmc, hms, hdc, hds, Encoder.count_fits hclasses,
    Encoder.each_fits (fun _ _ _ hi => Instance.fits_of_encode hi) hinstances,
    Encoder.each_fits (fun _ _ _ hc => ClassRecord.fits_of_encode hc) hclassRecords, hsc, hss,
    hbc, hbs⟩

theorem Module.fits_of_toBytes {m : Module} {bs : List UInt8} (h : m.toBytes = .ok bs) :
    m.validate = .ok () ∧ m.Fits := by
  unfold Module.toBytes at h
  cases hvalid : m.validate with
  | error err =>
    rw [hvalid] at h
    cases h
  | ok u =>
    rw [hvalid] at h
    refine ⟨rfl, ?_⟩
    change Encoder.run m.encode = .ok bs at h
    unfold Encoder.run at h
    split at h
    · next hencode => exact Module.fits_of_encode hencode
    · cases h

end Refusal

/-! ## Writing what was read -/

/-- the has-optional and has-parameter-names bits, set twice as once -/
theorem MethodFlag.setBits_effective (f : UInt8) (a c : Bool) :
    setBits (setBits (setBits (setBits f MethodFlag.hasOptional a) MethodFlag.hasParamNames c)
      MethodFlag.hasOptional a) MethodFlag.hasParamNames c =
      setBits (setBits f MethodFlag.hasOptional a) MethodFlag.hasParamNames c := by
  -- the two bits are distinct, so the second has-optional write moves next to the first
  have hdisjoint : MethodFlag.hasParamNames &&& MethodFlag.hasOptional = 0 := by decide
  rw [setBits_comm _ _ _ _ _ hdisjoint, setBits_setBits_same, setBits_setBits_same]

/-- the kind byte's attribute nibble does not see bits above the nibble, nor the metadata bit
the list sets anyway -/
theorem TraitAttr.shift_readBack (a : UInt8) (c : Bool) :
    setBits (setBits (a &&& 0x0F) TraitAttr.metadata false) TraitAttr.metadata c <<< 4 =
      setBits a TraitAttr.metadata c <<< 4 := by
  rw [setBits_setBits_same, ← UInt8.and_low_shiftLeft (setBits a _ c),
    ← UInt8.and_low_shiftLeft (setBits (a &&& 0x0F) _ c)]
  congr 1
  apply UInt8.toBitVec_inj.mp
  ext i hi
  simp only [UInt8.toBitVec_and, BitVec.getElem_and, setBits_getElem _ _ _ i hi]
  split <;> simp

theorem Encoder.each_map_congr {α : Type} {item : α → Encoder Unit} {f : α → α}
    (h : ∀ x, item (f x) = item x) : ∀ xs : List α, each item (xs.map f) = each item xs
  | [] => rfl
  | x :: xs => by simp only [List.map_cons, each, h x, each_map_congr h xs]

theorem MethodSig.encode_readBack (s : MethodSig) : s.readBack.encode = s.encode := by
  have hflags : s.readBack.effectiveFlags = s.effectiveFlags :=
    MethodFlag.setBits_effective s.flags _ _
  unfold MethodSig.encode
  rw [hflags]
  rfl

theorem TraitData.writeData_readBack (d : TraitData) : Trait.writeData d.readBack = Trait.writeData d := by
  -- only a slot default with index 0 changes, and its kind byte is not written
  cases d with
  | slot s ty v | const s ty v =>
    by_cases hv : v.index = 0
    · simp [TraitData.readBack, Trait.writeData, hv, DefaultValue.none]
    · simp [TraitData.readBack, hv]
  | method | getter | setter | nestedClass | function => rfl

theorem TraitData.kindNibble_readBack (d : TraitData) : d.readBack.kindNibble = d.kindNibble := by
  cases d <;> rfl

theorem Trait.encode_readBack (t : Trait) : t.readBack.encode = t.encode := by
  have hkind : t.readBack.kindByte = t.kindByte := by
    simp only [Trait.kindByte, Trait.readBack, TraitAttr.shift_readBack,
      TraitData.kindNibble_readBack]
  rw [Trait.encode_eq, Trait.encode_eq, hkind]
  simp only [Trait.readBack, TraitData.writeData_readBack]

theorem Trait.encodeAll_readBack (ts : List Trait) :
    Trait.encodeAll (ts.map Trait.readBack) = Trait.encodeAll ts := by
  simp only [Trait.encodeAll, Encoder.counted, List.length_map,
    Encoder.each_map_congr Trait.encode_readBack]

theorem Instance.encode_readBack (i : Instance) : i.readBack.encode = i.encode := by
  simp only [Instance.encode, Instance.readBack, setBits_setBits_same, Trait.encodeAll_readBack]

theorem ClassRecord.encode_readBack (c : ClassRecord) : c.readBack.encode = c.encode := by
  simp only [ClassRecord.encode, ClassRecord.readBack, Trait.encodeAll_readBack]

theorem Script.encode_readBack (s : Script) : s.readBack.encode = s.encode := by
  simp only [Script.encode, Script.readBack, Trait.encodeAll_readBack]

theorem MethodBody.encode_readBack (body : MethodBody) : body.readBack.encode = body.encode := by
  simp only [MethodBody.encode, MethodBody.readBack, Trait.encodeAll_readBack]

theorem Module.encode_readBack (m : Module) : m.readBack.encode = m.encode := by
  simp only [Module.encode, Module.readBack, Encoder.counted, List.length_map,
    Encoder.each_map_congr MethodSig.encode_readBack, Encoder.each_map_congr Instance.encode_readBack,
    Encoder.each_map_congr ClassRecord.encode_readBack, Encoder.each_map_congr Script.encode_readBack,
    Encoder.each_map_congr MethodBody.encode_readBack]

theorem Module.toBytes_readBack (m : Module) : m.readBack.toBytes = m.toBytes := by
  simp only [Module.toBytes, Module.validate_readBack, Module.encode_readBack]

/-! ## The container round trip -/

/-- **The container's bytes are canonical.** Take a module of this major version whose signatures
name all of their parameters or none, and the bytes it is written as. Reading them gives the module
back as `readBack`: each signature's flags are its effective flags, each instance loses its
protected-namespace bit, each trait's attributes keep their low nibble without the metadata bit,
and a slot default with index 0 is no default; everything else comes back exactly. Writing what
was read gives the same bytes. -/
theorem Module.ofBytes_toBytes_canonical (m : Module) (bs : List UInt8)
    (hmajor : m.major = majorVersion) (hsigs : ∀ s ∈ m.methods, s.Regular)
    (h : m.toBytes = .ok bs) :
    Module.ofBytes bs = .ok m.readBack ∧ (Module.ofBytes bs >>= Module.toBytes) = .ok bs := by
  obtain ⟨hvalid, hfits⟩ := Module.fits_of_toBytes h
  obtain ⟨bs', hwrite, hread⟩ := Module.ofBytes_toBytes m hfits hmajor hsigs hvalid
  obtain rfl : bs' = bs := by
    rw [h] at hwrite
    exact (Except.ok.inj hwrite).symm
  refine ⟨hread, ?_⟩
  rw [hread]
  change m.readBack.toBytes = .ok bs'
  rw [Module.toBytes_readBack, h]

theorem Table.fits_empty {α : Type} [BEq α] {P : α → Prop} : ({} : Table α).Fits P :=
  ⟨by simp [VarInt.Fits, Table.declaredCount], by simp [Table.toList]⟩

theorem Pool.fits_empty : ({} : Pool).Fits :=
  ⟨Table.fits_empty, Table.fits_empty, Table.fits_empty, Table.fits_empty, Table.fits_empty,
    Table.fits_empty, Table.fits_empty⟩

/-- a signature that names its one parameter -/
theorem Module.ofBytes_toBytes_named :
    let m : Module := { methods := [{ paramTypes := [0], paramNames := [1] }] }
    ∃ bs, m.major = majorVersion ∧ (∀ s ∈ m.methods, s.Regular) ∧ m.toBytes = .ok bs ∧
      Module.ofBytes bs = .ok m.readBack ∧ (Module.ofBytes bs >>= Module.toBytes) = .ok bs := by
  intro m
  have small : ∀ n : Nat, n ≤ 1 → VarInt.Fits n := fun n h => by
    unfold VarInt.Fits VarInt.maxU30
    omega
  have hsig : ∀ s ∈ m.methods, s.Fits ∧ s.Regular := by
    intro s hs
    simp only [m, List.mem_singleton] at hs
    subst hs
    refine ⟨⟨small 1 le_rfl, small 0 (by decide), ?_, small 0 (by decide), small 0 (by decide),
      by simp, ?_⟩, Or.inr rfl⟩
    · simpa using small 0 (by decide)
    · simpa using small 1 le_rfl
  have hfits : m.Fits :=
    ⟨Pool.fits_empty, small 1 le_rfl, fun s hs => (hsig s hs).1, small 0 (by decide), by simp [m],
      small 0 (by decide), by simp [m], by simp [m], small 0 (by decide), by simp [m],
      small 0 (by decide), by simp [m]⟩
  have hregular : ∀ s ∈ m.methods, s.Regular := fun s hs => (hsig s hs).2
  obtain ⟨bs, hbytes, -⟩ := Module.ofBytes_toBytes m hfits rfl hregular rfl
  exact ⟨bs, rfl, hregular, hbytes, Module.ofBytes_toBytes_canonical m bs rfl hregular hbytes⟩

/-- A slot default with index 0 and a kind other than undefined, on a trait with an attribute bit
above the kind byte's nibble. The writer accepts the module, and no bit the writer derives
applies to it (the signature's flags are its effective flags, there is no instance, the trait
lists no metadata); yet it reads back with no default and with its attributes cleared. -/
theorem Module.slotDefault_kind_lost :
    let written : Module :=
      { methods := [{}]
        scripts := [{ traits := [{ name := 0, data := .slot 0 0 ⟨0, .int⟩, attributes := 0x10 }] }] }
    let read : Module :=
      { methods := [{}]
        scripts := [{ traits := [{ name := 0, data := .slot 0 0 DefaultValue.none }] }] }
    ∃ bs, written.toBytes = .ok bs ∧ Module.ofBytes bs = .ok read ∧ read ≠ written := by
  intro written read
  have small : ∀ n : Nat, n ≤ 1 → VarInt.Fits n := fun n h => by
    unfold VarInt.Fits VarInt.maxU30
    omega
  have htrait : ∀ t ∈ [({ name := 0, data := .slot 0 0 ⟨0, .int⟩, attributes := 0x10 } : Trait)],
      t.Fits := by
    intro t ht
    simp only [List.mem_singleton] at ht
    subst ht
    exact ⟨small 0 (by decide), ⟨small 0 (by decide), small 0 (by decide), small 0 (by decide)⟩,
      small 0 (by decide), by simp⟩
  have hfits : written.Fits :=
    ⟨Pool.fits_empty, small 1 le_rfl,
      fun s hs => by
        simp only [written, List.mem_singleton] at hs
        subst hs
        exact ⟨small 0 (by decide), small 0 (by decide), by simp, small 0 (by decide),
          small 0 (by decide), by simp, by simp⟩,
      small 0 (by decide), by simp [written], small 0 (by decide), by simp [written],
      by simp [written], small 1 le_rfl,
      fun s hs => by
        simp only [written, List.mem_singleton] at hs
        subst hs
        exact ⟨small 0 (by decide), small 1 le_rfl, htrait⟩,
      small 0 (by decide), by simp [written]⟩
  obtain ⟨bs, hbytes, hread⟩ :=
    Module.ofBytes_toBytes written hfits rfl (fun s hs => by
      simp only [written, List.mem_singleton] at hs
      exact Or.inl (hs ▸ rfl)) rfl
  exact ⟨bs, hbytes, hread, by decide⟩

/-! ## Signatures that name some of their parameters -/

/-- `many n` reads exactly `n` items -/
theorem Decoder.length_of_many {α : Type} {item : Decoder α} :
    ∀ {n : Nat} {c c' : Cursor} {xs : List α}, Decoder.many n item c = .ok xs c' → xs.length = n
  | 0, _, _, _, h => by
    cases h
    rfl
  | n + 1, _, _, _, h => by
    obtain ⟨_, _, -, h⟩ := EStateM.bind_eq_ok.mp h
    obtain ⟨rest, _, hrest, h⟩ := EStateM.bind_eq_ok.mp h
    cases h
    exact congrArg Nat.succ (length_of_many hrest)

/-- the reader of a signature, with each optional part read as a value before the record is
built -/
theorem MethodSig.decode_eq : MethodSig.decode = (Decoder.count >>= fun n =>
    Decoder.u30 >>= fun returnType => Decoder.many n Decoder.u30 >>= fun paramTypes =>
    Decoder.u30 >>= fun name => Decoder.byte >>= fun flags =>
    (if flags &&& MethodFlag.hasOptional ≠ 0 then
      Decoder.count >>= fun k => Decoder.many k DefaultValue.decode else pure []) >>= fun optional =>
    (if flags &&& MethodFlag.hasParamNames ≠ 0 then Decoder.many n Decoder.u30 else pure []) >>=
      fun paramNames => pure { paramTypes, returnType, name, flags, optional, paramNames }) := by
  unfold MethodSig.decode
  congr 1; funext n; congr 1; funext returnType; congr 1; funext paramTypes; congr 1
  funext name; congr 1; funext flags
  split_ifs <;> simp only [bind_assoc, pure_bind]

/-- Every signature the reader returns names all of its parameters or none: the names carry no
count of their own, and whenever the names flag is set the reader takes one for each
parameter. -/
theorem MethodSig.regular_of_decode {c c' : Cursor} {s : MethodSig}
    (h : MethodSig.decode c = .ok s c') : s.Regular := by
  rw [MethodSig.decode_eq] at h
  obtain ⟨n, _, -, h⟩ := EStateM.bind_eq_ok.mp h
  obtain ⟨_, _, -, h⟩ := EStateM.bind_eq_ok.mp h
  obtain ⟨paramTypes, _, htypes, h⟩ := EStateM.bind_eq_ok.mp h
  obtain ⟨_, _, -, h⟩ := EStateM.bind_eq_ok.mp h
  obtain ⟨_, _, -, h⟩ := EStateM.bind_eq_ok.mp h
  obtain ⟨_, _, -, h⟩ := EStateM.bind_eq_ok.mp h
  obtain ⟨paramNames, _, hnames, h⟩ := EStateM.bind_eq_ok.mp h
  cases h
  split at hnames
  · exact Or.inr ((Decoder.length_of_many hnames).trans (Decoder.length_of_many htypes).symm)
  · cases hnames
    exact Or.inl rfl

/-- A signature that names one of its two parameters. The writer accepts the module and writes
the one name, but the reader takes a name for each parameter and runs out of bytes: the round
trip needs signatures that name all of their parameters or none. -/
theorem Module.partialNames_unread :
    let m : Module := { methods := [{ paramTypes := [0, 0], paramNames := [1] }] }
    ¬ (∀ s ∈ m.methods, s.Regular) ∧
      ∃ bs, m.toBytes = .ok bs ∧ Module.ofBytes bs = .error .unexpectedEnd := by
  intro m
  have hbytes : m.toBytes.toOption =
      some [16, 0, 46, 0, 0, 0, 0, 0, 0, 0, 0, 1, 2, 0, 0, 0, 0, 128, 1, 0, 0, 0, 0] := by
    decide +kernel
  refine ⟨fun h => ?_, [16, 0, 46, 0, 0, 0, 0, 0, 0, 0, 0, 1, 2, 0, 0, 0, 0, 128, 1, 0, 0, 0, 0], ?_,
    by rfl⟩
  · rcases h _ List.mem_cons_self with h | h <;> simp at h
  · cases hm : m.toBytes with
    | ok bs =>
      rw [hm] at hbytes
      cases hbytes
      rfl
    | error e =>
      rw [hm] at hbytes
      cases hbytes

end AbcKit
