import AbcKit.Pool.Table
import AbcKit.Pool.Name
/-!
The constant pool: seven independent deduplicating tables.

Interning a structured value interns its parts first, in a fixed order, then the entry built from
their indices: a namespace interns its name string; a namespace set its members in order; a
qualified name its namespace, then its string; a set-qualified name its string, then its set; a
type name its base, then its parameters. Doubles are kept by bit pattern, so `-0` and `0`, and
NaNs of different payloads, are different entries.
-/
namespace AbcKit

/-- the seven constant tables of a module -/
structure Pool where
  ints : Table Int32 := .empty
  uints : Table UInt32 := .empty
  doubles : Table UInt64 := .empty
  strings : Table String := .empty
  namespaces : Table NamespaceEntry := .empty
  nsSets : Table (List UInt32) := .empty
  names : Table NameEntry := .empty
deriving DecidableEq, Repr, Inhabited

namespace Pool

/-- intern an integer -/
def int (v : Int32) : StateM Pool UInt32 := fun p =>
  let (t, i) := p.ints.intern v
  (i, { p with ints := t })

/-- intern an unsigned integer -/
def uint (v : UInt32) : StateM Pool UInt32 := fun p =>
  let (t, i) := p.uints.intern v
  (i, { p with uints := t })

/-- intern a double, by bit pattern -/
def double (bits : UInt64) : StateM Pool UInt32 := fun p =>
  let (t, i) := p.doubles.intern bits
  (i, { p with doubles := t })

/-- intern a string -/
def string (s : String) : StateM Pool UInt32 := fun p =>
  let (t, i) := p.strings.intern s
  (i, { p with strings := t })

/-- intern a namespace entry -/
def namespaceEntry (e : NamespaceEntry) : StateM Pool UInt32 := fun p =>
  let (t, i) := p.namespaces.intern e
  (i, { p with namespaces := t })

/-- intern a namespace set entry -/
def nsSetEntry (e : List UInt32) : StateM Pool UInt32 := fun p =>
  let (t, i) := p.nsSets.intern e
  (i, { p with nsSets := t })

/-- intern a name entry -/
def nameEntry (e : NameEntry) : StateM Pool UInt32 := fun p =>
  let (t, i) := p.names.intern e
  (i, { p with names := t })

/-- intern a namespace: its name string, then the entry -/
def ns (space : Namespace) : StateM Pool UInt32 := do
  let name ← string space.name
  namespaceEntry ⟨space.kind, name⟩

/-- intern the members of a namespace set in order -/
def nsList : List Namespace → StateM Pool (List UInt32)
  | [] => pure []
  | space :: rest => do
    let i ← ns space
    let is ← nsList rest
    pure (i :: is)

/-- intern a namespace set: its members, then the set -/
def nsSet (set : List Namespace) : StateM Pool UInt32 := do
  let members ← nsList set
  nsSetEntry members

mutual

/-- intern a name: its parts, then its entry -/
def name : Name → StateM Pool UInt32
  | .qname space n a => do
    let nsi ← ns space
    let ni ← string n
    nameEntry (.qname nsi ni a)
  | .rtqName n a => do
    let ni ← string n
    nameEntry (.rtqName ni a)
  | .rtqNameL a => nameEntry (.rtqNameL a)
  | .multiname n set a => do
    let ni ← string n
    let si ← nsSet set
    nameEntry (.multiname ni si a)
  | .multinameL set a => do
    let si ← nsSet set
    nameEntry (.multinameL si a)
  | .typeName base params => do
    let bi ← name base
    let pis ← nameList params
    nameEntry (.typeName bi pis)

/-- intern names in order -/
def nameList : List Name → StateM Pool (List UInt32)
  | [] => pure []
  | n :: rest => do
    let i ← name n
    let is ← nameList rest
    pure (i :: is)

end

/-- intern the qualified name `space::n`: the namespace, then the string, then the entry -/
def qname (space : Namespace) (n : String) : StateM Pool UInt32 := do
  let nsi ← ns space
  let ni ← string n
  nameEntry (.qname nsi ni false)

/-- the name entry at an index -/
def entry? (p : Pool) (i : UInt32) : Option NameEntry := p.names.get? i.toNat

/-- run-time name parts of the name at an index; 0 for an index with no entry -/
def runtimeArity (p : Pool) (i : UInt32) : Nat :=
  match p.entry? i with
  | some e => e.runtimeArity
  | none => 0

/-- the string at an index -/
def string? (p : Pool) (i : UInt32) : Option String := p.strings.get? i.toNat

/-- the number of name entries a chain of type-name bases can pass through before it repeats -/
def depthBound (p : Pool) : Nat := p.names.size + 1

/-- the local name string of a name, looking through type names to their base, when the chain
of bases ends within `fuel` steps; `none` when it does not -/
def localNameWithin (p : Pool) : Nat → UInt32 → Option (Option String)
  | 0, _ => none
  | fuel + 1, i =>
    match p.entry? i with
    | some (.qname _ n _) | some (.rtqName n _) | some (.multiname n _ _) => some (p.string? n)
    | some (.typeName base _) => p.localNameWithin fuel base
    | _ => some none

/-- the local name string of the name at an index, if it has one; `none` when the chain of
type-name bases from it never ends -/
def localName? (p : Pool) (i : UInt32) : Option (Option String) := p.localNameWithin p.depthBound i

end Pool

end AbcKit
