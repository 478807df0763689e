import AbcKit.Buffer
import AbcKit.Cursor
import AbcKit.Pool.Name
/-!
Traits (the members a class, script or activation exposes), their default values, and metadata
records, with their binary forms.

A trait's kind byte carries the kind in its low nibble and the attributes in its high nibble;
the metadata attribute is set exactly when the trait lists metadata, and reading clears it again,
since the list itself records it. A slot's default value writes its kind byte only when its index
is not 0.
-/
namespace AbcKit

/-- the kind of a default value, by its byte -/
inductive ValueKind where
  | undefined
  | string
  | int
  | uint
  | privateNs
  | double
  | userNs
  | falseValue
  | trueValue
  | null
  | packageNs
  | packageInternalNs
  | protectedNs
  | explicitNs
  | staticProtectedNs
deriving DecidableEq, Repr, Inhabited

namespace ValueKind

/-- the kind's byte -/
def byte : ValueKind → UInt8
  | .undefined => 0x00
  | .string => 0x01
  | .int => 0x03
  | .uint => 0x04
  | .privateNs => 0x05
  | .double => 0x06
  | .userNs => 0x08
  | .falseValue => 0x0A
  | .trueValue => 0x0B
  | .null => 0x0C
  | .packageNs => 0x16
  | .packageInternalNs => 0x17
  | .protectedNs => 0x18
  | .explicitNs => 0x19
  | .staticProtectedNs => 0x1A

/-- every kind -/
def all : List ValueKind :=
  [.undefined, .string, .int, .uint, .privateNs, .double, .userNs, .falseValue, .trueValue,
    .null, .packageNs, .packageInternalNs, .protectedNs, .explicitNs, .staticProtectedNs]

/-- the kind of a byte, if any -/
def ofByte? (b : UInt8) : Option ValueKind := all.find? (·.byte == b)

/-- the kind of a namespace value of a namespace kind -/
def ofNamespaceKind : NamespaceKind → ValueKind
  | .userDefined => .userNs
  | .package => .packageNs
  | .packageInternal => .packageInternalNs
  | .protectedNs => .protectedNs
  | .explicit => .explicitNs
  | .staticProtected => .staticProtectedNs
  | .privateNs => .privateNs

end ValueKind

/-- a default value: a pool index and the kind of constant it names; index 0 is no value -/
structure DefaultValue where
  index : UInt32
  kind : ValueKind
deriving DecidableEq, Repr, Inhabited

namespace DefaultValue

/-- no default value -/
def none : DefaultValue := ⟨0, .undefined⟩

/-- a boolean: its kind byte doubles as its index -/
def ofBool (b : Bool) : DefaultValue :=
  let k : ValueKind := if b then .trueValue else .falseValue
  ⟨k.byte.toUInt32, k⟩

/-- the null value -/
def null : DefaultValue := ⟨ValueKind.null.byte.toUInt32, .null⟩

/-- write the index and then the kind byte -/
def encode (v : DefaultValue) : Encoder Unit := do
  Encoder.u30 v.index
  Encoder.byte v.kind.byte

/-- read the index and then the kind byte; an unknown kind is a malformed operand at the
index -/
def decode : Decoder DefaultValue := do
  let start ← Decoder.position
  let index ← Decoder.u30
  let b ← Decoder.byte
  match ValueKind.ofByte? b with
  | some k => pure ⟨index, k⟩
  | .none => throw (.invalidOperand start)

end DefaultValue

/-- what a trait binds -/
inductive TraitData where
  | slot (slotId typeName : UInt32) (value : DefaultValue)
  | const (slotId typeName : UInt32) (value : DefaultValue)
  | method (dispId method : UInt32)
  | getter (dispId method : UInt32)
  | setter (dispId method : UInt32)
  | nestedClass (slotId cls : UInt32)
  | function (slotId method : UInt32)
deriving DecidableEq, Repr, Inhabited

namespace TraitData

/-- the kind nibble -/
def kindNibble : TraitData → UInt8
  | .slot .. => 0
  | .method .. => 1
  | .getter .. => 2
  | .setter .. => 3
  | .nestedClass .. => 4
  | .function .. => 5
  | .const .. => 6

/-- the kind's canonical name -/
def kindName : TraitData → String
  | .slot .. => "Slot"
  | .method .. => "Method"
  | .getter .. => "Getter"
  | .setter .. => "Setter"
  | .nestedClass .. => "Class"
  | .function .. => "Function"
  | .const .. => "Const"

end TraitData

namespace TraitAttr

/-- the trait may not be overridden -/
def final : UInt8 := 0x01
/-- the trait overrides an inherited one -/
def override : UInt8 := 0x02
/-- the trait lists metadata -/
def metadata : UInt8 := 0x04

end TraitAttr

/-- a member of a class, script or activation: its name, binding, attributes and metadata -/
structure Trait where
  name : UInt32
  data : TraitData
  attributes : UInt8 := 0
  metadata : List UInt32 := []
deriving DecidableEq, Repr, Inhabited

/-- set or clear the bits `mask` of `b` -/
def setBits (b mask : UInt8) (on : Bool) : UInt8 := if on then b ||| mask else b &&& ~~~mask

namespace Trait

/-- the kind byte: attributes (with the metadata bit set exactly when metadata is listed) in the
high nibble, the kind in the low nibble; attribute bits above the nibble are lost -/
def kindByte (t : Trait) : UInt8 :=
  (setBits t.attributes TraitAttr.metadata (!t.metadata.isEmpty) <<< 4) ||| t.data.kindNibble

open Encoder in
/-- write the trait -/
def encode (t : Trait) : Encoder Unit := do
  u30 t.name
  byte t.kindByte
  match t.data with
  | .slot slotId typeName value | .const slotId typeName value => do
    u30 slotId
    u30 typeName
    u30 value.index
    if value.index ≠ 0 then byte value.kind.byte
  | .method dispId m | .getter dispId m | .setter dispId m => do
    u30 dispId
    u30 m
  | .nestedClass slotId c => do
    u30 slotId
    u30 c
  | .function slotId m => do
    u30 slotId
    u30 m
  if !t.metadata.isEmpty then counted "trait metadata count" u30 t.metadata

/-- write a trait list with its count -/
def encodeAll (ts : List Trait) : Encoder Unit := Encoder.counted "trait count" encode ts

open Decoder in
/-- a slot's binding: id, type, and a default whose kind follows a nonzero index -/
def decodeSlot (isConst : Bool) : Decoder TraitData := do
  let slotId ← u30
  let typeName ← u30
  let index ← u30
  let value ← if index = 0 then pure DefaultValue.none else do
    let start ← position
    let b ← byte
    match ValueKind.ofByte? b with
    | some k => pure ⟨index, k⟩
    | none => throw (.invalidOperand start)
  pure (if isConst then .const slotId typeName value else .slot slotId typeName value)

open Decoder in
/-- read a trait; an unknown kind nibble is a malformed operand at the kind byte -/
def decode : Decoder Trait := do
  let name ← u30
  let start ← position
  let kb ← byte
  let pair := fun (mk : UInt32 → UInt32 → TraitData) => do
    let a ← u30
    let b ← u30
    pure (mk a b)
  let data ← match kb &&& 0x0F with
    | 0 => decodeSlot false
    | 6 => decodeSlot true
    | 1 => pair .method
    | 2 => pair .getter
    | 3 => pair .setter
    | 4 => pair .nestedClass
    | 5 => pair .function
    | _ => throw (.invalidOperand start)
  let attrs := kb >>> 4
  let metadata ← if attrs &&& TraitAttr.metadata ≠ 0 then do
      let n ← count
      many n u30
    else pure []
  pure ⟨name, data, setBits attrs TraitAttr.metadata false, metadata⟩

/-- read a trait list with its count -/
def decodeAll : Decoder (List Trait) := do
  let n ← Decoder.count
  Decoder.many n decode

end Trait

/-- a metadata record: a name and key/value pairs of string indices -/
structure Metadata where
  name : UInt32
  items : List (UInt32 × UInt32)
deriving DecidableEq, Repr, Inhabited

namespace Metadata

/-- write the name, the item count, all keys, then all values -/
def encode (m : Metadata) : Encoder Unit := do
  Encoder.u30 m.name
  Encoder.count "metadata item count" m.items.length
  Encoder.each (fun kv => Encoder.u30 kv.1) m.items
  Encoder.each (fun kv => Encoder.u30 kv.2) m.items

/-- read the name, the item count, all keys, then all values -/
def decode : Decoder Metadata := do
  let name ← Decoder.u30
  let n ← Decoder.count
  let keys ← Decoder.many n Decoder.u30
  let values ← Decoder.many n Decoder.u30
  pure ⟨name, keys.zip values⟩

end Metadata

end AbcKit
