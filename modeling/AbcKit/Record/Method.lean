import AbcKit.Record.Trait
/-!
Method signatures, method bodies and exception handler entries, with their binary forms.

A signature's flag byte as written is its *effective* flags: the has-optional bit is set exactly
when default values are listed and the has-parameter-names bit exactly when names are listed.
Parameter names are read back one per parameter.
-/
namespace AbcKit

namespace MethodFlag

/-- the method uses an arguments object -/
def needArguments : UInt8 := 0x01
/-- the method needs an activation object -/
def needActivation : UInt8 := 0x02
/-- the method collects surplus arguments into a rest array -/
def needRest : UInt8 := 0x04
/-- defaults of optional parameters follow the flags -/
def hasOptional : UInt8 := 0x08
/-- surplus arguments are ignored -/
def ignoreRest : UInt8 := 0x10
/-- the method is implemented by the host -/
def native : UInt8 := 0x20
/-- the method sets the default XML namespace -/
def setDxns : UInt8 := 0x40
/-- parameter names follow the defaults -/
def hasParamNames : UInt8 := 0x80

end MethodFlag

/-- a method signature: parameter and return types, debug name, flags, defaults of trailing
optional parameters, and parameter names -/
structure MethodSig where
  paramTypes : List UInt32 := []
  returnType : UInt32 := 0
  name : UInt32 := 0
  flags : UInt8 := 0
  optional : List DefaultValue := []
  paramNames : List UInt32 := []
deriving DecidableEq, Repr, Inhabited

namespace MethodSig

/-- the flags as written: the two list-derived bits follow the lists -/
def effectiveFlags (m : MethodSig) : UInt8 :=
  setBits (setBits m.flags MethodFlag.hasOptional (!m.optional.isEmpty))
    MethodFlag.hasParamNames (!m.paramNames.isEmpty)

open Encoder in
/-- write the signature -/
def encode (m : MethodSig) : Encoder Unit := do
  count "parameter count" m.paramTypes.length
  u30 m.returnType
  each u30 m.paramTypes
  u30 m.name
  let flags := m.effectiveFlags
  byte flags
  if flags &&& MethodFlag.hasOptional ≠ 0 then
    counted "optional count" DefaultValue.encode m.optional
  if flags &&& MethodFlag.hasParamNames ≠ 0 then each u30 m.paramNames

open Decoder in
/-- read a signature -/
def decode : Decoder MethodSig := do
  let n ← count
  let returnType ← u30
  let paramTypes ← many n u30
  let name ← u30
  let flags ← byte
  let optional ← if flags &&& MethodFlag.hasOptional ≠ 0 then do
      let k ← count
      many k DefaultValue.decode
    else pure []
  let paramNames ← if flags &&& MethodFlag.hasParamNames ≠ 0 then many n u30 else pure []
  pure { paramTypes, returnType, name, flags, optional, paramNames }

end MethodSig

/-- an exception handler: the protected range `[start, stop)`, the handler address, and the
caught type and variable name (0 for any) -/
structure ExceptionEntry where
  start : UInt32
  stop : UInt32
  target : UInt32
  excType : UInt32
  varName : UInt32
deriving DecidableEq, Repr, Inhabited

namespace ExceptionEntry

/-- write the five fields -/
def encode (e : ExceptionEntry) : Encoder Unit := do
  Encoder.u30 e.start
  Encoder.u30 e.stop
  Encoder.u30 e.target
  Encoder.u30 e.excType
  Encoder.u30 e.varName

/-- read the five fields -/
def decode : Decoder ExceptionEntry := do
  let start ← Decoder.u30
  let stop ← Decoder.u30
  let target ← Decoder.u30
  let excType ← Decoder.u30
  let varName ← Decoder.u30
  pure ⟨start, stop, target, excType, varName⟩

end ExceptionEntry

/-- a method body: the method it implements, its frame sizes, code, handlers and activation
traits -/
structure MethodBody where
  method : UInt32 := 0
  maxStack : UInt32 := 0
  localCount : UInt32 := 0
  initScopeDepth : UInt32 := 0
  maxScopeDepth : UInt32 := 0
  code : List UInt8 := []
  exceptions : List ExceptionEntry := []
  traits : List Trait := []
deriving DecidableEq, Repr, Inhabited

namespace MethodBody

open Encoder in
/-- write the body -/
def encode (b : MethodBody) : Encoder Unit := do
  u30 b.method
  u30 b.maxStack
  u30 b.localCount
  u30 b.initScopeDepth
  u30 b.maxScopeDepth
  count "code length" b.code.length
  raw b.code
  counted "exception count" ExceptionEntry.encode b.exceptions
  Trait.encodeAll b.traits

open Decoder in
/-- read a body -/
def decode : Decoder MethodBody := do
  let method ← u30
  let maxStack ← u30
  let localCount ← u30
  let initScopeDepth ← u30
  let maxScopeDepth ← u30
  let n ← count
  let code ← bytes n
  let k ← count
  let exceptions ← many k ExceptionEntry.decode
  let traits ← Trait.decodeAll
  pure { method, maxStack, localCount, initScopeDepth, maxScopeDepth, code, exceptions, traits }

end MethodBody

end AbcKit
