import AbcKit.Error
/-!
What an emitter call can report, and what stops an emitter for good.

An `EmitError` is reported by the call that met it; the emitter keeps the state the call had
reached and takes further calls. A `Halt` is either such an error or an abort: an arithmetic
overflow, or an out-of-order call under strict ordering, after which the emitter takes no
further call.
-/
namespace AbcKit.Emit

/-- an error an emitter call reports -/
inductive EmitError where
  /-- the caller broke the emitter's rules -/
  | internal (msg : String)
  /-- a construct the emitter cannot write code for -/
  | unsupported (msg : String)
  /-- an instruction with no method open -/
  | noOpenMethod
  /-- writing an instruction or a module failed -/
  | format (e : FormatError)
deriving DecidableEq, Repr

/-- the text of an emitter error; a format error keeps its own -/
def EmitError.message : EmitError → String
  | .internal msg => "Internal error: " ++ msg
  | .unsupported msg => "Unsupported: " ++ msg
  | .noOpenMethod => "No method is open"
  | .format e => e.message

/-- why a call ended early -/
inductive Halt where
  /-- a reported error: the emitter goes on -/
  | error (e : EmitError)
  /-- an abort with its text: the emitter stops -/
  | abort (message : String)
deriving DecidableEq, Repr

namespace Halt

/-- an abort for an overflow -/
def overflow (o : Overflow) : Halt := .abort o.message

/-- a reported internal error -/
def internal (msg : String) : Halt := .error (.internal msg)

end Halt

end AbcKit.Emit
