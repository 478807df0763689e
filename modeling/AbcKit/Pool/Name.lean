/-!
Names as the code generator writes them (`Name`), and as the constant pool stores them
(`NameEntry`, with pool indices in place of strings, namespaces and namespace sets).

A name is qualified by one namespace (`qname`), by a set of candidate namespaces
(`multiname`), or has parts supplied at run time (`rtqName`, `rtqNameL`, `multinameL`); a
`typeName` applies a generic base name to parameter names.
-/
namespace AbcKit

/-- the kind of a namespace, by its byte in the container -/
inductive NamespaceKind where
  /-- a namespace declared by the program (byte 0x08) -/
  | userDefined
  /-- a package's public namespace (0x16) -/
  | package
  /-- a package's internal namespace (0x17) -/
  | packageInternal
  /-- a class's protected namespace (0x18) -/
  | protectedNs
  /-- an explicitly opened namespace (0x19) -/
  | explicit
  /-- a class's static protected namespace (0x1A) -/
  | staticProtected
  /-- a private namespace (0x05) -/
  | privateNs
deriving DecidableEq, Repr, Inhabited

namespace NamespaceKind

/-- the kind's byte -/
def byte : NamespaceKind → UInt8
  | .userDefined => 0x08
  | .package => 0x16
  | .packageInternal => 0x17
  | .protectedNs => 0x18
  | .explicit => 0x19
  | .staticProtected => 0x1A
  | .privateNs => 0x05

/-- every kind -/
def all : List NamespaceKind :=
  [.userDefined, .package, .packageInternal, .protectedNs, .explicit, .staticProtected, .privateNs]

/-- the kind of a byte, if any -/
def ofByte? (b : UInt8) : Option NamespaceKind := all.find? (·.byte == b)

/-- the kind's canonical name -/
def name : NamespaceKind → String
  | .userDefined => "Namespace"
  | .package => "Package"
  | .packageInternal => "PackageInternal"
  | .protectedNs => "Protected"
  | .explicit => "Explicit"
  | .staticProtected => "StaticProtected"
  | .privateNs => "Private"

/-- the kind of a canonical name, if any -/
def ofName? (s : String) : Option NamespaceKind := all.find? (·.name == s)

end NamespaceKind

/-- a namespace: its kind and its URI or package name -/
structure Namespace where
  kind : NamespaceKind
  name : String
deriving DecidableEq, Repr, Inhabited

/-- the public namespace of the unnamed package -/
def Namespace.public : Namespace := ⟨.package, ""⟩

/-- a name as the code generator writes it -/
inductive Name where
  | qname (ns : Namespace) (name : String) (attr : Bool)
  | rtqName (name : String) (attr : Bool)
  | rtqNameL (attr : Bool)
  | multiname (name : String) (nsSet : List Namespace) (attr : Bool)
  | multinameL (nsSet : List Namespace) (attr : Bool)
  | typeName (base : Name) (params : List Name)
deriving Repr, Inhabited

mutual

/-- structural equality of names: the same kind, with equal parts -/
def Name.beq : Name → Name → Bool
  | .qname ns n a, .qname ns' n' a' => ns == ns' && n == n' && a == a'
  | .rtqName n a, .rtqName n' a' => n == n' && a == a'
  | .rtqNameL a, .rtqNameL a' => a == a'
  | .multiname n set a, .multiname n' set' a' => n == n' && set == set' && a == a'
  | .multinameL set a, .multinameL set' a' => set == set' && a == a'
  | .typeName base params, .typeName base' params' =>
    Name.beq base base' && Name.beqList params params'
  | _, _ => false

/-- structural equality of name lists -/
def Name.beqList : List Name → List Name → Bool
  | [], [] => true
  | n :: ns, n' :: ns' => Name.beq n n' && Name.beqList ns ns'
  | _, _ => false

end

instance : BEq Name := ⟨Name.beq⟩

mutual

theorem Name.beq_iff : ∀ a b : Name, Name.beq a b = true ↔ a = b
  | .qname .., b => by cases b <;> simp [Name.beq, and_assoc]
  | .rtqName .., b => by cases b <;> simp [Name.beq]
  | .rtqNameL _, b => by cases b <;> simp [Name.beq]
  | .multiname .., b => by cases b <;> simp [Name.beq, and_assoc]
  | .multinameL .., b => by cases b <;> simp [Name.beq]
  | .typeName base params, b => by
    cases b with
    | typeName base' params' =>
      simp only [Name.beq, Bool.and_eq_true, Name.beq_iff base base',
        Name.beqList_iff params params', Name.typeName.injEq]
    | _ => simp [Name.beq]

theorem Name.beqList_iff : ∀ as bs : List Name, Name.beqList as bs = true ↔ as = bs
  | [], bs => by cases bs <;> simp [Name.beqList]
  | a :: as, bs => by
    cases bs with
    | nil => simp [Name.beqList]
    | cons b bs =>
      simp only [Name.beqList, Bool.and_eq_true, Name.beq_iff a b, Name.beqList_iff as bs,
        List.cons.injEq]

end

instance : LawfulBEq Name where
  eq_of_beq h := (Name.beq_iff _ _).mp h
  rfl := (Name.beq_iff _ _).mpr rfl

/-- the name in the public namespace -/
def Name.public (name : String) : Name := .qname .public name false

/-- a namespace as the pool stores it: its kind and the index of its name string -/
structure NamespaceEntry where
  kind : NamespaceKind
  name : UInt32
deriving DecidableEq, Repr, Inhabited

/-- a name as the pool stores it; 0 in an index field means "any" -/
inductive NameEntry where
  | qname (ns name : UInt32) (attr : Bool)
  | rtqName (name : UInt32) (attr : Bool)
  | rtqNameL (attr : Bool)
  | multiname (name nsSet : UInt32) (attr : Bool)
  | multinameL (nsSet : UInt32) (attr : Bool)
  | typeName (base : UInt32) (params : List UInt32)
deriving DecidableEq, Repr, Inhabited

namespace NameEntry

/-- the entry's kind byte; the attribute form of each kind has a byte of its own -/
def kindByte : NameEntry → UInt8
  | .qname _ _ a => if a then 0x0D else 0x07
  | .rtqName _ a => if a then 0x10 else 0x0F
  | .rtqNameL a => if a then 0x12 else 0x11
  | .multiname _ _ a => if a then 0x0E else 0x09
  | .multinameL _ a => if a then 0x1C else 0x1B
  | .typeName .. => 0x1D

/-- how many name parts are popped from the operand stack at run time -/
def runtimeArity : NameEntry → Nat
  | .rtqName .. | .multinameL .. => 1
  | .rtqNameL _ => 2
  | _ => 0

end NameEntry

end AbcKit
