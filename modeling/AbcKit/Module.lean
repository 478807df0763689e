import AbcKit.Record.Method
import AbcKit.Record.Class
import AbcKit.Pool
/-!
The module container: version, constant pool, and the method, metadata, class, script and body
tables, with its binary form.

Writing checks the module first (`validate`): the class and instance tables have one length,
every method reference of a body, instance, class or script names a signature, and every
signature's name names a string. Each pool table is written with its declared count (one more
than its size, 0 when empty) and its values; the class count is written once, followed by all
instance records and then all class records. Reading takes a declared count of 0 or 1 as an
empty table, ignores bytes after the last body, and checks the module last.
-/
namespace AbcKit

/-- the major version this library reads and writes -/
def majorVersion : UInt16 := 46

/-- the default minor version -/
def minorVersion : UInt16 := 16

/-- a module: everything a container holds -/
structure Module where
  minor : UInt16 := minorVersion
  major : UInt16 := majorVersion
  pool : Pool := {}
  methods : List MethodSig := []
  metadata : List Metadata := []
  instances : List Instance := []
  classes : List ClassRecord := []
  scripts : List Script := []
  bodies : List MethodBody := []
deriving DecidableEq, Repr, Inhabited

namespace Module

/-- the name of a method: its signature's name string, or empty text -/
def methodName (m : Module) (i : UInt32) : String :=
  match m.methods[i.toNat]? with
  | some sig => (m.pool.string? sig.name).getD ""
  | none => ""

/-- refuse a method reference with no signature -/
def checkMethod (m : Module) (i : UInt32) : Except FormatError Unit :=
  if i.toNat < m.methods.length then .ok () else .error (.invalidIndex "method" i)

/-- the container's consistency rules, checked in a fixed order -/
def validate (m : Module) : Except FormatError Unit := do
  if m.classes.length ≠ m.instances.length then
    throw (.classCountMismatch m.classes.length m.instances.length)
  m.bodies.forM fun b => m.checkMethod b.method
  m.instances.forM fun i => m.checkMethod i.iinit
  m.classes.forM fun c => m.checkMethod c.cinit
  m.scripts.forM fun s => m.checkMethod s.init
  m.methods.forM fun sig =>
    if sig.name.toNat > m.pool.strings.size then throw (.invalidIndex "string" sig.name)
    else pure ()

open Encoder in
/-- write a pool table: its declared count, then its values -/
def encodeTable {α : Type} [BEq α] (what : String) (t : Table α) (item : α → Encoder Unit) :
    Encoder Unit := do
  count what t.declaredCount
  each item t.toList

open Encoder in
/-- write a name entry: its kind byte, then its fields -/
def encodeNameEntry : NameEntry → Encoder Unit
  | e@(.qname ns n _) => do byte e.kindByte; u30 ns; u30 n
  | e@(.rtqName n _) => do byte e.kindByte; u30 n
  | e@(.rtqNameL _) => byte e.kindByte
  | e@(.multiname n set _) => do byte e.kindByte; u30 n; u30 set
  | e@(.multinameL set _) => do byte e.kindByte; u30 set
  | e@(.typeName base params) => do
    byte e.kindByte
    u30 base
    counted "type parameter count" u30 params

open Encoder in
/-- write the seven pool tables -/
def encodePool (p : Pool) : Encoder Unit := do
  encodeTable "int pool" p.ints s32
  encodeTable "uint pool" p.uints u32
  encodeTable "double pool" p.doubles f64
  encodeTable "string pool" p.strings (string "string length")
  encodeTable "namespace pool" p.namespaces fun e => do byte e.kind.byte; u30 e.name
  encodeTable "namespace set pool" p.nsSets (counted "namespace set size" u30)
  encodeTable "multiname pool" p.names encodeNameEntry

open Encoder in
/-- write the module's tables after its version -/
def encode (m : Module) : Encoder Unit := do
  u16 m.minor
  u16 m.major
  encodePool m.pool
  counted "method count" MethodSig.encode m.methods
  counted "metadata count" Metadata.encode m.metadata
  count "class count" m.classes.length
  each Instance.encode m.instances
  each ClassRecord.encode m.classes
  counted "script count" Script.encode m.scripts
  counted "method body count" MethodBody.encode m.bodies

/-- the module's bytes, after its rules are checked -/
def toBytes (m : Module) : Except FormatError (List UInt8) := do
  m.validate
  Encoder.run m.encode

open Decoder in
/-- read a name entry: its kind byte, then its fields; an unknown kind is a malformed operand at
the kind byte -/
def decodeNameEntry : Decoder NameEntry := do
  let start ← position
  let k ← byte
  match k with
  | 0x07 | 0x0D => do
    let ns ← u30
    let n ← u30
    pure (.qname ns n (k == 0x0D))
  | 0x0F | 0x10 => do
    let n ← u30
    pure (.rtqName n (k == 0x10))
  | 0x11 | 0x12 => pure (.rtqNameL (k == 0x12))
  | 0x09 | 0x0E => do
    let n ← u30
    let set ← u30
    pure (.multiname n set (k == 0x0E))
  | 0x1B | 0x1C => do
    let set ← u30
    pure (.multinameL set (k == 0x1C))
  | 0x1D => do
    let base ← u30
    let n ← count
    let params ← many n u30
    pure (.typeName base params)
  | _ => throw (.invalidOperand start)

open Decoder in
/-- read a namespace entry; an unknown kind is a malformed operand at the kind byte -/
def decodeNamespaceEntry : Decoder NamespaceEntry := do
  let start ← position
  let k ← byte
  match NamespaceKind.ofByte? k with
  | some kind => do
    let name ← u30
    pure ⟨kind, name⟩
  | none => throw (.invalidOperand start)

open Decoder in
/-- read a pool table: a declared count `n` announces `n - 1` values -/
def decodeTable {α : Type} [BEq α] (item : Decoder α) : Decoder (Table α) := do
  let n ← count
  let values ← many (n - 1) item
  pure (Table.ofList values)

open Decoder in
/-- read the seven pool tables -/
def decodePool : Decoder Pool := do
  let ints ← decodeTable s32
  let uints ← decodeTable u32
  let doubles ← decodeTable f64
  let strings ← decodeTable string
  let namespaces ← decodeTable decodeNamespaceEntry
  let nsSets ← decodeTable (do let n ← count; many n u30)
  let names ← decodeTable decodeNameEntry
  pure { ints, uints, doubles, strings, namespaces, nsSets, names }

open Decoder in
/-- read a module; a major version other than `majorVersion` is refused before anything else -/
def decode : Decoder Module := do
  let minor ← u16
  let major ← u16
  if major ≠ majorVersion then throw (.unsupportedVersion major minor)
  let pool ← decodePool
  let n ← count
  let methods ← many n MethodSig.decode
  let n ← count
  let metadata ← many n Metadata.decode
  let n ← count
  let instances ← many n Instance.decode
  let classes ← many n ClassRecord.decode
  let n ← count
  let scripts ← many n Script.decode
  let n ← count
  let bodies ← many n MethodBody.decode
  pure { minor, major, pool, methods, metadata, instances, classes, scripts, bodies }

/-- the module in `bytes`, after its rules are checked -/
def ofBytes (bytes : List UInt8) : Except FormatError Module := do
  let m ← Decoder.run decode bytes
  m.validate
  pure m

end Module

end AbcKit
