import AbcKit.Record.Trait
/-!
Instance, class and script records, with their binary forms.

An instance's flag byte as written has the protected-namespace bit set exactly when a protected
namespace is given; reading clears the bit again, since the optional field records it.
-/
namespace AbcKit

namespace InstanceFlag

/-- instances take no dynamic properties -/
def sealed : UInt8 := 0x01
/-- the class may not be extended -/
def final : UInt8 := 0x02
/-- the class is an interface -/
def isInterface : UInt8 := 0x04
/-- a protected namespace follows the flags -/
def protectedNs : UInt8 := 0x08
/-- the type excludes null -/
def nonNullable : UInt8 := 0x10

end InstanceFlag

/-- the instance side of a class: name, base class, flags, protected namespace, interfaces,
constructor and instance traits -/
structure Instance where
  name : UInt32 := 0
  superName : UInt32 := 0
  flags : UInt8 := 0
  protectedNs : Option UInt32 := none
  interfaces : List UInt32 := []
  iinit : UInt32 := 0
  traits : List Trait := []
deriving DecidableEq, Repr, Inhabited

namespace Instance

open Encoder in
/-- write the instance record -/
def encode (i : Instance) : Encoder Unit := do
  u30 i.name
  u30 i.superName
  byte (setBits i.flags InstanceFlag.protectedNs i.protectedNs.isSome)
  match i.protectedNs with
  | some ns => u30 ns
  | none => pure ()
  counted "interface count" u30 i.interfaces
  u30 i.iinit
  Trait.encodeAll i.traits

open Decoder in
/-- read an instance record -/
def decode : Decoder Instance := do
  let name ← u30
  let superName ← u30
  let flags ← byte
  let protectedNs ← if flags &&& InstanceFlag.protectedNs ≠ 0 then some <$> u30 else pure none
  let n ← count
  let interfaces ← many n u30
  let iinit ← u30
  let traits ← Trait.decodeAll
  let flags := setBits flags InstanceFlag.protectedNs false
  pure { name, superName, flags, protectedNs, interfaces, iinit, traits }

end Instance

/-- the class side of a class: static initializer and static traits -/
structure ClassRecord where
  cinit : UInt32 := 0
  traits : List Trait := []
deriving DecidableEq, Repr, Inhabited

/-- write the class record -/
def ClassRecord.encode (c : ClassRecord) : Encoder Unit := do
  Encoder.u30 c.cinit
  Trait.encodeAll c.traits

/-- read a class record -/
def ClassRecord.decode : Decoder ClassRecord := do
  let cinit ← Decoder.u30
  let traits ← Trait.decodeAll
  pure ⟨cinit, traits⟩

/-- a script: its initializer and the traits it defines -/
structure Script where
  init : UInt32 := 0
  traits : List Trait := []
deriving DecidableEq, Repr, Inhabited

/-- write the script record -/
def Script.encode (s : Script) : Encoder Unit := do
  Encoder.u30 s.init
  Trait.encodeAll s.traits

/-- read a script record -/
def Script.decode : Decoder Script := do
  let init ← Decoder.u30
  let traits ← Trait.decodeAll
  pure ⟨init, traits⟩

end AbcKit
