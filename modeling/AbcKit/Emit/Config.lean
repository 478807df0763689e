import AbcKit.Module
import AbcKit.Toml.Document
/-!
Options of the code emitter, and reading them from a TOML document.

Every option has a default, so a document sets only the options it names; keys that name no
option are ignored. A named option must hold a value of its type: a version an integer from 0
to 65535, a switch a boolean, the coverage hook a string.
-/
namespace AbcKit.Emit

/-- what the emitter writes, and how strictly it checks the order of calls -/
structure Config where
  /-- the major version written to the module -/
  majorVersion : UInt16 := AbcKit.majorVersion
  /-- the minor version written to the module -/
  minorVersion : UInt16 := AbcKit.minorVersion
  /-- write source file, line and register-name records -/
  debug : Bool := false
  /-- call a hook at each conditional branch -/
  coverage : Bool := false
  /-- the function coverage records call -/
  coverageHook : String := "__coverage"
  /-- log each instruction written -/
  traceInstructions : Bool := false
  /-- treat an out-of-order call as a fault instead of a warning -/
  strictOrdering : Bool := false
deriving DecidableEq, Repr, Inhabited

namespace Config

/-- read an option of a document with `read`; the default when the key is absent -/
def field {α : Type} (doc : Toml.Value) (key : String) (dflt : α)
    (read : Toml.Value → Option α) : Option α :=
  match doc.get? key with
  | none => some dflt
  | some v => read v

/-- a 16-bit unsigned integer value -/
def u16? : Toml.Value → Option UInt16
  | .integer n => if 0 ≤ n && n < 65536 then some n.toNat.toUInt16 else none
  | _ => none

/-- a boolean value -/
def bool? : Toml.Value → Option Bool
  | .boolean b => some b
  | _ => none

/-- a string value -/
def string? : Toml.Value → Option String
  | .string s => some s
  | _ => none

/-- the options a parsed document sets -/
def ofDocument (doc : Toml.Value) : Option Config := do
  let d : Config := {}
  pure {
    majorVersion := ← field doc "major_version" d.majorVersion u16?
    minorVersion := ← field doc "minor_version" d.minorVersion u16?
    debug := ← field doc "debug" d.debug bool?
    coverage := ← field doc "coverage" d.coverage bool?
    coverageHook := ← field doc "coverage_hook" d.coverageHook string?
    traceInstructions := ← field doc "trace_instructions" d.traceInstructions bool?
    strictOrdering := ← field doc "strict_ordering" d.strictOrdering bool? }

/-- the options a TOML text sets, or `none` when it is not valid TOML or gives an option a value
of the wrong type -/
def ofToml? (text : String) : Option Config := Toml.parse? text >>= ofDocument

/-- a TOML basic string: quotes, backslashes and control characters escaped -/
def tomlString (s : String) : String :=
  let esc := fun (c : Char) =>
    if c = '"' then "\\\"" else if c = '\\' then "\\\\"
    else if c = '\n' then "\\n" else if c = '\t' then "\\t" else if c = '\r' then "\\r"
    else if c.toNat < 0x20 || c.toNat = 0x7F then
      "\\u" ++ String.ofList ((List.replicate (4 - (Nat.toDigits 16 c.toNat).length) '0') ++
        (Nat.toDigits 16 c.toNat).map Char.toUpper)
    else c.toString
  "\"" ++ String.join (s.toList.map esc) ++ "\""

/-- the options as a TOML document, one key per line -/
def toToml (c : Config) : String :=
  let b := fun (x : Bool) => if x then "true" else "false"
  "major_version = " ++ toString c.majorVersion ++
    "\nminor_version = " ++ toString c.minorVersion ++
    "\ndebug = " ++ b c.debug ++ "\ncoverage = " ++ b c.coverage ++
    "\ncoverage_hook = " ++ tomlString c.coverageHook ++
    "\ntrace_instructions = " ++ b c.traceInstructions ++
    "\nstrict_ordering = " ++ b c.strictOrdering ++ "\n"

/-- the rule between options: coverage needs a hook to call -/
def check (c : Config) : Except String Config :=
  if c.coverage && c.coverageHook.isEmpty then
    .error "coverage is enabled but coverage_hook is empty"
  else .ok c

end Config

end AbcKit.Emit
