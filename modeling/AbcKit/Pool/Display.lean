import AbcKit.Pool
/-!
Readable text of pool names, as listings show them.

Index 0 is `*`; an index with no entry is `<bad multiname #i>`. A qualified name is
`namespace::name` (`@` before an attribute name); a namespace set is written in braces, its
members joined by commas; a run-time part is `[rt]`; a type name is `base.<p1,p2>`. A missing
string or set shows as empty text, a missing namespace as `*`. Nothing checks that the base and
parameters of a type name come before it, so writing a name can run forever.
-/
namespace AbcKit.Pool

/-- the text of the namespace at an index -/
def showNamespace (p : Pool) (i : UInt32) : String :=
  match p.namespaces.get? i.toNat with
  | none => "*"
  | some e =>
    let n := (p.string? e.name).getD ""
    match e.kind with
    | .package => if n.isEmpty then "public" else n
    | .packageInternal => "internal(" ++ n ++ ")"
    | .privateNs => "private(" ++ n ++ ")"
    | .protectedNs => "protected(" ++ n ++ ")"
    | .staticProtected => "static protected(" ++ n ++ ")"
    | .explicit => "explicit(" ++ n ++ ")"
    | .userDefined => "namespace(" ++ n ++ ")"

/-- the members of the namespace set at an index, joined by commas -/
def showNsSet (p : Pool) (i : UInt32) : String :=
  match p.nsSets.get? i.toNat with
  | none => ""
  | some members => ",".intercalate (members.map p.showNamespace)

/-- the text of the name at an index, when writing it nests type names less than `fuel` deep;
`none` when it needs more. A type name writes its parameters, then its base. -/
def showNameWithin (p : Pool) : Nat → UInt32 → Option String
  | 0, _ => none
  | fuel + 1, i =>
    if i = 0 then some "*"
    else
      match p.entry? i with
      | none => some ("<bad multiname #" ++ toString i ++ ">")
      | some (.qname ns n a) =>
        some (p.showNamespace ns ++ "::" ++ (if a then "@" else "") ++ (p.string? n).getD "")
      | some (.rtqName n _) => some ("[rt]::" ++ (p.string? n).getD "")
      | some (.rtqNameL _) => some "[rt]::[rt]"
      | some (.multiname n set _) =>
        some ("\x7b" ++ p.showNsSet set ++ "\x7d::" ++ (p.string? n).getD "")
      | some (.multinameL set _) => some ("\x7b" ++ p.showNsSet set ++ "\x7d::[rt]")
      | some (.typeName base params) => do
        let ps ← params.mapM (p.showNameWithin fuel)
        let b ← p.showNameWithin fuel base
        pure (b ++ ".<" ++ ",".intercalate ps ++ ">")

/-- The text of the name at an index; `none` when writing it never ends. Indices are taken as
the pool holds them, so a type name may name itself, or a later name, as its base or a
parameter; a chain of type names that ends does so within as many steps as the table has
names, and `none` means the chain comes back on itself. -/
def showName (p : Pool) (i : UInt32) : Option String := p.showNameWithin p.depthBound i

end AbcKit.Pool
