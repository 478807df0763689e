import AbcKit.Emit.Assembler
import AbcKit.Text.Quoted
/-!
Trait records from a resolved member table of a class, instance, script or activation scope.

Names are taken in four groups, slots, methods, getters and setters, and within a group in
order. A name declared on an ancestor is skipped, and so is a name qualified by an interface
namespace unless the scope is an interface. Names bound to one member make one trait, placed
where the first of them stands and qualified by the namespace of the last. For each trait the
pool receives its qualified name, then its type and default value (slots), then its metadata.
-/
namespace AbcKit.Emit

/-- the literal value of a slot or an optional parameter -/
inductive Initializer where
  | bool (b : Bool)
  | string (s : String)
  | int (i : Int32)
  | uint (u : UInt32)
  /-- a double, by bit pattern -/
  | double (bits : UInt64)
  | null
  | undefined
  | ns (space : Namespace)
  /-- a value with no constant form; the text names it -/
  | unsupported (text : String)
deriving DecidableEq, Repr, Inhabited

/-- metadata attached to a member: a name and items whose key may be missing -/
structure MetadataDescriptor where
  name : String
  items : List (Option String × String) := []
deriving DecidableEq, Repr, Inhabited

/-- what a slot binds -/
inductive SlotKind where
  | var
  | const
  /-- a class, by index -/
  | classRef (index : UInt32)
  /-- a function closure, by method index -/
  | function (method : UInt32)
deriving DecidableEq, Repr, Inhabited

/-- one slot of a scope -/
structure SlotDescriptor where
  kind : SlotKind := .var
  /-- 0 lets the engine choose -/
  id : UInt32 := 0
  typeName : Option Name := none
  initializer : Option Initializer := none
  metadata : List MetadataDescriptor := []
deriving Inhabited

/-- one method, getter or setter of a scope -/
structure MethodDescriptor where
  method : UInt32
  /-- 0 for late binding -/
  dispId : UInt32 := 0
  isFinal : Bool := false
  isOverride : Bool := false
  metadata : List MetadataDescriptor := []
deriving DecidableEq, Repr, Inhabited

/-- a qualified name bound to a slot or method of the scope, by position -/
structure Binding where
  name : String
  ns : Namespace := .public
  target : Nat
  /-- declared on an ancestor -/
  inherited : Bool := false
  /-- qualified by an interface namespace -/
  interfaceQualified : Bool := false
deriving DecidableEq, Repr, Inhabited

/-- the resolved members of a scope -/
structure ObjectDescriptor where
  slots : List SlotDescriptor := []
  methods : List MethodDescriptor := []
  slotNames : List Binding := []
  methodNames : List Binding := []
  getterNames : List Binding := []
  setterNames : List Binding := []
  isInterface : Bool := false
deriving Inhabited

/-- a group of names, and the kind of trait it makes -/
inductive Group where
  | slot
  | method
  | getter
  | setter
deriving DecidableEq, Repr

/-- The names of a group that make traits, with the namespace each ends up with: names bound
to one target merge, in the place of the first and with the namespace of the last. -/
def mergeAliases (names : List Binding) (isInterface : Bool) : List (Binding × Namespace) :=
  names.foldl (fun merged b =>
    if b.inherited || (b.interfaceQualified && !isInterface) then merged
    else match merged.findIdx? (fun (e, _) => e.target == b.target) with
      | some i => merged.modify i fun (e, _) => (e, b.ns)
      | none => merged ++ [(b, b.ns)]) []

namespace Assembler

/-- the pool index and kind of a literal, when it has a constant form -/
def defaultValue (init : Initializer) : AssemblerM (Option DefaultValue) :=
  match init with
  | .bool b => pure (some (DefaultValue.ofBool b))
  | .string s => do pure (some ⟨← onPool (Pool.string s), .string⟩)
  | .int i => do pure (some ⟨← onPool (Pool.int i), .int⟩)
  | .uint u => do pure (some ⟨← onPool (Pool.uint u), .uint⟩)
  | .double bits => do pure (some ⟨← onPool (Pool.double bits), .double⟩)
  | .null => pure (some DefaultValue.null)
  | .undefined => pure (some DefaultValue.none)
  | .ns space => do
    pure (some ⟨← onPool (Pool.ns space), ValueKind.ofNamespaceKind space.kind⟩)
  | .unsupported _ => pure none

/-- the default of an optional parameter: a literal without constant form is refused -/
def parameterDefault (init : Initializer) : AssemblerM DefaultValue := do
  match ← defaultValue init with
  | some v => pure v
  | none =>
    let shown := match init with
      | .unsupported text => "Unsupported(" ++ Text.quote text ++ ")"
      | _ => ""
    throw (.internal ("unsupported optional parameter default " ++ shown))

/-- the metadata indices of a member -/
def metadataIndices (ms : List MetadataDescriptor) : AssemblerM (List UInt32) :=
  ms.mapM fun m => addMetadata m.name m.items

/-- the trait of one name of a group, bound to member `target` -/
def buildTrait (scope : ObjectDescriptor) (group : Group) (target : Nat) (name : UInt32) :
    AssemblerM Trait := do
  if group = .slot then
    let some slot := scope.slots[target]?
      | throw (.internal ("name resolves to missing slot " ++ toString target))
    let data ← match slot.kind with
      | .var | .const => do
        let typeName ← match slot.typeName with
          | some t => onPool (Pool.name t)
          | none => pure 0
        let value ← match slot.initializer with
          | some init => pure ((← defaultValue init).getD DefaultValue.none)
          | none => pure DefaultValue.none
        pure (if slot.kind = .const then TraitData.const slot.id typeName value
          else TraitData.slot slot.id typeName value)
      | .classRef c => pure (TraitData.nestedClass slot.id c)
      | .function f => pure (TraitData.function slot.id f)
    pure { name, data, metadata := ← metadataIndices slot.metadata }
  else
    let some m := scope.methods[target]?
      | throw (.internal ("name resolves to missing method " ++ toString target))
    let data := match group with
      | .getter => TraitData.getter m.dispId m.method
      | .setter => TraitData.setter m.dispId m.method
      | _ => TraitData.method m.dispId m.method
    let attributes := setBits (setBits 0 TraitAttr.final m.isFinal) TraitAttr.override m.isOverride
    pure { name, data, attributes, metadata := ← metadataIndices m.metadata }

/-- the trait records of a scope, group by group -/
def buildTraits (scope : ObjectDescriptor) : AssemblerM (List Trait) := do
  let groups := [(Group.slot, scope.slotNames), (.method, scope.methodNames),
    (.getter, scope.getterNames), (.setter, scope.setterNames)]
  groups.foldlM (fun acc (group, names) => do
    let ts ← (mergeAliases names scope.isInterface).mapM fun (b, space) => do
      let name ← onPool (Pool.qname space b.name)
      buildTrait scope group b.target name
    pure (acc ++ ts)) []

end Assembler

end AbcKit.Emit
