import AbcKit.Module
/-!
The native id header: the integer ids by which a host finds the implementations of native
methods, with the ids of classes and scripts.

For each class in order: its entry (the local name of its instance name, `anonymous` when it has
none), then its constructor, instance traits and static traits; for each script in order: the
native methods among its traits, then its entry, named for the package of its first trait
(`global` for the unnamed package). A method, getter or setter trait is listed as
`owner_name`, `owner_name_get` or `owner_name_set` when its method is flagged native. Names keep
ASCII letters and digits; every other character becomes an underscore. Finding a local name can
run forever (see `Pool.localName?`), and then so does the header.
-/
namespace AbcKit

/-- a named id -/
structure HeaderEntry where
  name : String
  id : Nat
deriving DecidableEq, Repr

/-- the ids of native methods, classes and scripts -/
structure NativeHeader where
  methods : List HeaderEntry := []
  classes : List HeaderEntry := []
  scripts : List HeaderEntry := []
deriving DecidableEq, Repr

namespace NativeHeader

/-- a name with every character other than an ASCII letter or digit replaced by `_` -/
def sanitize (s : String) : String :=
  String.ofList (s.toList.map fun c => if c.isAlphanum then c else '_')

/-- the local name of a pool name, for a header entry; `none` when finding it never ends -/
def localName (m : Module) (i : UInt32) : Option String :=
  (m.pool.localName? i).map fun n => sanitize (n.getD "anonymous")

/-- the package a script defines: the namespace of its first trait's qualified name -/
def scriptPackage (m : Module) (first : Option Trait) : String :=
  let pkg := (first.bind fun t => match m.pool.entry? t.name with
    | some (.qname ns _ _) => (m.pool.namespaces.get? ns.toNat).bind fun e => m.pool.string? e.name
    | _ => none).getD ""
  if pkg.isEmpty then "global" else sanitize pkg

/-- whether a method reference names a signature flagged native -/
def isNative (m : Module) (i : UInt32) : Bool :=
  match m.methods[i.toNat]? with
  | some sig => sig.flags &&& MethodFlag.native != 0
  | none => false

/-- The entries of native methods among traits, for the owner `owner`. The local name of every
method, getter and setter trait is looked up, native or not. -/
def nativeTraits (m : Module) (owner : String) (ts : List Trait) : Option (List HeaderEntry) :=
  ts.filterMapM fun t =>
    let named := fun (meth : UInt32) (suffix : String) => do
      let n ← localName m t.name
      pure (if isNative m meth then some ⟨owner ++ "_" ++ n ++ suffix, meth.toNat⟩ else none)
    match t.data with
    | .method _ meth => named meth ""
    | .getter _ meth => named meth "_get"
    | .setter _ meth => named meth "_set"
    | _ => some none

/-- the header of a module; `none` when finding a local name never ends -/
def ofModule (m : Module) : Option NativeHeader := do
  let perClass ← ((List.range m.instances.length).zip m.instances).mapM
    fun ((id : Nat), (inst : Instance)) => do
    let owner ← localName m inst.name
    let statics := ((m.classes[id]?).map ClassRecord.traits).getD []
    let ctor : List HeaderEntry :=
      if isNative m inst.iinit then [⟨owner ++ "_ctor", inst.iinit.toNat⟩] else []
    let own ← nativeTraits m owner inst.traits
    let static ← nativeTraits m owner statics
    pure (HeaderEntry.mk owner id, ctor ++ own ++ static)
  let perScript ← ((List.range m.scripts.length).zip m.scripts).mapM
    fun ((id : Nat), (s : Script)) => do
    let pkg := scriptPackage m s.traits.head?
    let natives ← nativeTraits m pkg s.traits
    pure (HeaderEntry.mk pkg id, natives)
  pure { methods := (perClass.flatMap (·.2)) ++ (perScript.flatMap (·.2))
         classes := perClass.map (·.1)
         scripts := perScript.map (·.1) }

/-- the header as text: a commented title per section, then one constant per entry -/
def render (h : NativeHeader) : String :=
  let part := fun (title : String) (es : List HeaderEntry) =>
    "/* " ++ title ++ " */\n" ++
      String.join (es.map fun e => "const int " ++ e.name ++ " = " ++ toString e.id ++ ";\n") ++
      "\n"
  part "native methods" h.methods ++ part "classes" h.classes ++ part "scripts" h.scripts

end NativeHeader

end AbcKit
