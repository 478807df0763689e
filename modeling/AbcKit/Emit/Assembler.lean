import AbcKit.Module
import AbcKit.Pool.Display
import AbcKit.Emit.Config
import AbcKit.Emit.Error
/-!
The module tables under construction: the constant pool, and method, class, script and metadata
records.

A method or class gets its index the first time its name is mentioned, so a reference before
the definition and a recursive one name the same record; each record is defined once. Finishing
refuses a method or class mentioned and never defined. Metadata records with equal name and
items share one index.

Each of the three kinds of index is looked up in a map from keys to positions. The tables carry
the invariants that tie each map to its records: the method map indexes the method keys, the
class map its own keys, one for each class, and the metadata map the records, each key once at
its position (`Lookup.Indexes`); and the method, class, instance and definition records come in
step with their keys.
-/
namespace AbcKit.Emit

/-- the module tables built so far -/
structure Assembler where
  pool : Pool := {}
  /-- method signatures by index; `none` until the method is finished -/
  methods : List (Option MethodSig) := []
  /-- the key of each method, by index -/
  methodNames : List String := []
  /-- the index of each method key -/
  methodLookup : Lookup String := []
  bodies : List MethodBody := []
  instances : List Instance := []
  classes : List ClassRecord := []
  classDefined : List Bool := []
  /-- the index of each class name, in the order the classes were made -/
  classLookup : Lookup Name := []
  scripts : List Script := []
  metadata : List Metadata := []
  /-- the index of each metadata record -/
  metadataLookup : Lookup Metadata := []
  /-- every method has one key, and the map gives each key, once, its position -/
  methodNames_length : methodNames.length = methods.length := by rfl
  methodLookup_indexes : Lookup.Indexes methodLookup methodNames := by exact .nil
  /-- the class records move in lock step, one for each name the map holds at its position -/
  instances_length : instances.length = classes.length := by rfl
  classDefined_length : classDefined.length = classes.length := by rfl
  classLookup_length : classLookup.length = classes.length := by rfl
  classLookup_indexes : Lookup.Indexes classLookup (classLookup.map Prod.fst) := by exact .nil
  /-- the map gives each metadata record, once, its position -/
  metadataLookup_indexes : Lookup.Indexes metadataLookup metadata := by exact .nil

/-- a step on the module tables -/
abbrev AssemblerM := EStateM EmitError Assembler

namespace Assembler

/-- the empty tables -/
def empty : Assembler := {}

instance : Inhabited Assembler := ⟨empty⟩

/-- the name of each class, by index: the keys of the class map -/
def classNames (a : Assembler) : List Name := a.classLookup.map Prod.fst

/-- run a pool step -/
def onPool {α : Type} (act : StateM Pool α) : AssemblerM α := fun a =>
  let (x, pool) := act a.pool
  .ok x { a with pool }

/-- the tables with a new method keyed `name`, not yet defined, at the next index -/
def addMethod (a : Assembler) (name : String) (h : a.methodLookup.get? name = none) : Assembler :=
  { a with
    methods := a.methods ++ [none]
    methodNames := a.methodNames ++ [name]
    methodLookup := a.methodLookup.insertIfNew name a.methods.length.toUInt32
    methodNames_length := by simp [a.methodNames_length]
    methodLookup_indexes := by
      rw [← a.methodNames_length]
      exact a.methodLookup_indexes.concat h }

/-- the index of the method keyed `name`, making an empty record on first mention -/
def methodIndex (name : String) : AssemblerM UInt32 := fun a =>
  match h : a.methodLookup.get? name with
  | some index => .ok index a
  | none => .ok a.methods.length.toUInt32 (a.addMethod name h)

/-- the tables with method `i` defined by `sig`, and its body added when it has one -/
def fillMethod (a : Assembler) (i : Nat) (sig : MethodSig) (body : Option MethodBody) :
    Assembler :=
  { a with
    methods := a.methods.set i (some sig)
    bodies := a.bodies ++ body.toList
    methodNames_length := by rw [List.length_set]; exact a.methodNames_length }

/-- define method `index` with its signature and, unless it has none, its body -/
def defineMethod (index : UInt32) (sig : MethodSig) (body : Option MethodBody) :
    AssemblerM Unit := fun a =>
  match a.methods[index.toNat]? with
  | none => .error (.internal ("method #" ++ toString index ++ " does not exist")) a
  | some (some _) =>
    .error (.internal ("method `" ++ (a.methodNames[index.toNat]?).getD "" ++
      "` finished twice")) a
  | some none => .ok () (a.fillMethod index.toNat sig body)

/-- the tables with the records of a new class named `name`, not yet defined, at the next index;
`nameIndex` is the name's index in the pool -/
def addClass (a : Assembler) (name : Name) (nameIndex : UInt32)
    (h : a.classLookup.get? name = none) : Assembler :=
  { a with
    instances := a.instances ++ [{ name := nameIndex }]
    classes := a.classes ++ [{}]
    classDefined := a.classDefined ++ [false]
    classLookup := a.classLookup.insertIfNew name a.classes.length.toUInt32
    instances_length := by simp [a.instances_length]
    classDefined_length := by simp [a.classDefined_length]
    classLookup_length := by simp [Lookup.insertIfNew_of_none h, a.classLookup_length]
    classLookup_indexes := by
      rw [← a.classLookup_length]
      exact a.classLookup_indexes.keys_concat h }

/-- refuse tables whose class and instance records are out of step -/
def checkLockStep : AssemblerM Unit := fun a =>
  if a.classes.length ≠ a.instances.length then
    .error (.internal ("class count " ++ toString a.classes.length ++ " != instance count " ++
      toString a.instances.length)) a
  else .ok () a

/-- the index of the class named `name`, making its class and instance records on first
mention -/
def classIndex (name : Name) : AssemblerM UInt32 := fun a =>
  match h : a.classLookup.get? name with
  | some index => .ok index a
  | none =>
    let index := a.classes.length.toUInt32
    let (nameIndex, pool) := Pool.name name a.pool
    (do checkLockStep; pure index) ({ a with pool }.addClass name nameIndex h)

/-- the tables with both records of class `i` filled and the class marked defined -/
def fillClass (a : Assembler) (i : Nat) (inst : Instance) (cls : ClassRecord) : Assembler :=
  { a with
    instances := a.instances.set i inst
    classes := a.classes.set i cls
    classDefined := a.classDefined.set i true
    instances_length := by simp [a.instances_length]
    classDefined_length := by simp [a.classDefined_length]
    classLookup_length := by simp [a.classLookup_length] }

/-- define both records of class `index` -/
def defineClass (index : UInt32) (inst : Instance) (cls : ClassRecord) : AssemblerM Unit :=
  fun a =>
  let i := index.toNat
  match a.classDefined[i]? with
  | none => .error (.internal ("class #" ++ toString i ++ " does not exist")) a
  | some true => .error (.internal ("class #" ++ toString i ++ " finished twice")) a
  | some false => .ok () (a.fillClass i inst cls)

/-- append a script record; its index -/
def addScript (s : Script) : AssemblerM Nat := fun a =>
  .ok a.scripts.length { a with scripts := a.scripts ++ [s] }

/-- the tables with a new metadata record at the next index -/
def addRecord (a : Assembler) (entry : Metadata) (h : a.metadataLookup.get? entry = none) :
    Assembler :=
  { a with
    metadata := a.metadata ++ [entry]
    metadataLookup := a.metadataLookup.insertIfNew entry a.metadata.length.toUInt32
    metadataLookup_indexes := a.metadataLookup_indexes.concat h }

/-- the index of a metadata record: its name, then each item's key (when present) and value,
are interned in that order -/
def addMetadata (name : String) (items : List (Option String × String)) : AssemblerM UInt32 := do
  let nameIndex ← onPool (Pool.string name)
  let items ← items.mapM fun (key, value) => do
    let k ← match key with
      | some k => onPool (Pool.string k)
      | none => pure 0
    let v ← onPool (Pool.string value)
    pure (k, v)
  let entry : Metadata := ⟨nameIndex, items⟩
  let a ← get
  match h : a.metadataLookup.get? entry with
  | some index => pure index
  | none =>
    set (a.addRecord entry h)
    pure a.metadata.length.toUInt32

/-- the finished module, with the versions of `config` -/
def finish (a : Assembler) (config : Config) : Except EmitError Module := do
  if a.classes.length ≠ a.instances.length then
    throw (.internal ("class count " ++ toString a.classes.length ++ " != instance count " ++
      toString a.instances.length))
  let methods ← (a.methods.zip a.methodNames).mapM fun (sig, name) =>
    match sig with
    | some s => pure s
    | none => throw (.internal ("method `" ++ name ++ "` referenced but never finished"))
  match a.classDefined.idxOf? false with
  | some i =>
    -- the emitter interns every name after its parts, so its names are always written out
    let name := ((a.instances[i]?).bind fun inst => a.pool.showName inst.name).getD ""
    throw (.internal ("class `" ++ name ++ "` referenced but never finished"))
  | none =>
    pure { minor := config.minorVersion, major := config.majorVersion, pool := a.pool, methods,
           metadata := a.metadata, instances := a.instances, classes := a.classes,
           scripts := a.scripts, bodies := a.bodies }

end Assembler

end AbcKit.Emit
