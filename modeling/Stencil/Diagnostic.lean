import Stencil.Statement.Error

namespace Stencil

inductive Severity
  | log
  | error
  deriving DecidableEq, Repr

/-- What a diagnostic is about. -/
inductive Cause
  | malformed (error : SyntaxError)
  | failed (error : EvalError)
  /-- The globals were replaced by so many declarations. -/
  | loaded (count : Nat)
  /-- A message of the host. -/
  | note (severity : Severity) (message : String)
  deriving DecidableEq, Repr

namespace Cause

def message : Cause → String
  | .malformed e => e.message
  | .failed e => e.message
  | .loaded n => "Loaded " ++ String.ofList (Text.ofNat n) ++ " global declaration(s)"
  | .note _ m => m

/-- Errors are statements that could not be delimited or failed. -/
def severity : Cause → Severity
  | .malformed _ => .error
  | .failed _ => .error
  | .loaded _ => .log
  | .note s _ => s

end Cause

structure Diagnostic where
  cause : Cause
  /-- The byte offset in the text that was rendered, where one is known. -/
  index : Option Nat
  deriving DecidableEq, Repr

namespace Diagnostic

def message (d : Diagnostic) : String := d.cause.message

def isError (d : Diagnostic) : Bool := d.cause.severity == .error

def describe (d : Diagnostic) : String :=
  match d.index with
  | some i => d.message ++ " (at index " ++ String.ofList (Text.ofNat i) ++ ")"
  | none => d.message

def header (color : Bool) : Severity → String
  | .error => if color then "\x1b[31mTemplating error:" else "Templating error:"
  | .log => "Templating log:"

/-- The lines of a diagnostic on a console; in color they end with a reset. -/
def lines (color : Bool) (d : Diagnostic) : List String :=
  let place := match d.index with
    | some i => ["at index " ++ String.ofList (Text.ofNat i)]
    | none => []
  [header color d.cause.severity, d.message] ++ place ++ if color then ["\x1b[0m"] else []

end Diagnostic
end Stencil
