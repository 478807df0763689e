/-!
Source positions and branch coverage.

A position change only marks what changed; the file and line records are written in front of
the next instruction, so position changes with no code between them cost nothing. Opening or
resuming a method marks the file and line as changed again. Coverage registers each outcome of
each instrumented branch as a point with a fresh id, and the files that hold points in the order
first met.
-/
namespace AbcKit.Emit

/-- the current source position, and what changed since it was last written -/
structure DebugState where
  file : Option String := none
  line : UInt32 := 0
  fileDirty : Bool := false
  lineDirty : Bool := false
  functionDirty : Bool := false
  /-- the file changed since coverage last noted it -/
  branchFileDirty : Bool := false
deriving DecidableEq, Repr, Inhabited

namespace DebugState

/-- move to `line` of the current file -/
def setLine (d : DebugState) (line : UInt32) : DebugState :=
  if d.line ≠ line then { d with line, lineDirty := true } else d

/-- move to `file` at `line` -/
def setPosition (d : DebugState) (file : String) (line : UInt32) : DebugState :=
  let d := if d.file ≠ some file then
      { d with file := some file, fileDirty := true, branchFileDirty := true }
    else d
  d.setLine line

/-- a method body begins or the enclosing one resumes -/
def enterFunction (d : DebugState) : DebugState :=
  { d with functionDirty := true, lineDirty := true }

end DebugState

/-- one instrumented outcome of a branch -/
structure BranchPoint where
  id : Nat
  file : String
  line : UInt32
  taken : Bool
deriving DecidableEq, Repr, Inhabited

/-- the points registered while emitting a module, and the files that hold them -/
structure CoverageMap where
  files : List String := []
  points : List BranchPoint := []
deriving DecidableEq, Repr, Inhabited

namespace CoverageMap

/-- register a point; its id is the number of points before it -/
def record (c : CoverageMap) (file : String) (line : UInt32) (taken : Bool) : Nat × CoverageMap :=
  let id := c.points.length
  (id, { c with points := c.points ++ [⟨id, file, line, taken⟩] })

/-- note a file that holds points, once -/
def addFile (c : CoverageMap) (file : String) : CoverageMap :=
  if c.files.contains file then c else { c with files := c.files ++ [file] }

end CoverageMap

end AbcKit.Emit
