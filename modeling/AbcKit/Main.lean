import AbcKit.Listing
import AbcKit.NativeHeader
import AbcKit.Emit.Config
/-!
The command line: `dump FILE [--validate]` prints the listing of a module, `header FILE` its
native id header, and `config [FILE]` the emitter options a TOML file sets (the defaults without
a file). A failure is reported on the error stream with exit code 1.
-/

open AbcKit

/-- the module in a file -/
def readModule (path : String) : IO (Except String Module) := do
  let bytes ← IO.FS.readBinFile path
  pure <| match Module.ofBytes bytes.toList with
    | .ok m => .ok m
    | .error e => .error (path ++ " is not a valid module: " ++ e.message)

/-- what a command prints, or why it failed; `none` when writing out a name never ends -/
def runCommand : List String → IO (Option (Except String String))
  | ["dump", path] | ["dump", path, "--validate"] | ["dump", "--validate", path] => do
    match ← readModule path with
    | .error e => pure (some (.error e))
    | .ok m => pure <| (Listing.module m).map fun
      | .ok text => .ok text
      | .error e => .error e.message
  | ["header", path] => do
    match ← readModule path with
    | .error e => pure (some (.error e))
    | .ok m => pure <| (NativeHeader.ofModule m).map fun h => .ok h.render
  | ["config"] => pure (some (.ok (Emit.Config.toToml {})))
  | ["config", path] => do
    let text ← IO.FS.readFile path
    pure <| some <| match Emit.Config.ofToml? text with
      | some c => (Emit.Config.check c).map Emit.Config.toToml
      | none => .error ("Failed to parse " ++ path)
  | _ => pure (some (.error "usage: dump FILE [--validate] | header FILE | config [FILE]"))

/-- run the command the arguments name; a name whose text never ends exhausts the stack -/
def main (args : List String) : IO UInt32 := do
  let outcome ← try runCommand args catch e => pure (some (.error (toString e)))
  match outcome with
  | some (.ok text) =>
    IO.print text
    pure 0
  | some (.error msg) =>
    IO.eprintln ("Error: " ++ msg)
    pure 1
  | none =>
    IO.eprintln "stack overflow"
    pure 134
