import Stencil.Text.Basic

namespace Stencil

inductive SyntaxError
  | missingOpeningBrace
  | missingClosingBrace
  | missingClosingParen
  /-- A branch that is set apart from the condition with these parameters. -/
  | invalidConnective (parameters : Text)
  /-- A literal escape at a byte offset that never closes. -/
  | loneEscape (index : Nat)
  deriving DecidableEq, Repr

namespace SyntaxError

def message : SyntaxError → String
  | .missingOpeningBrace => "Missing \x7b to match $"
  | .missingClosingBrace => "Missing \x7d"
  | .missingClosingParen => "Missing )"
  | .invalidConnective p => "Invalid connective after if statement " ++ String.ofList p
  | .loneEscape i =>
    "Lone escape sequence $$\x7b found at index " ++ String.ofList (Text.ofNat i)

def code : SyntaxError → String
  | .missingOpeningBrace => "dollar::missing_opening_brace"
  | .missingClosingBrace => "dollar::missing_closing_brace"
  | .missingClosingParen => "dollar::missing_closing_paren"
  | .invalidConnective _ => "dollar::invalid_connective"
  | .loneEscape _ => "dollar::lone_escape"

def help? : SyntaxError → Option String
  | .invalidConnective _ =>
    some "attach the else body directly to the closing brace: `\x7delse\x7b`"
  | .loneEscape _ => some "close the literal escape with `\x7d$$`"
  | _ => none

/-- The byte offset that the error of a statement is reported at, given that of its marker: a
branch set apart at the keyword behind the marker, all else at the marker. -/
def reportedAt (marker : Nat) : SyntaxError → Nat
  | .invalidConnective _ => marker + 1
  | _ => marker

end SyntaxError

inductive EvalError
  /-- A source that has no value. -/
  | expression (source : Text)
  | unknownStatement (keyword : Text)
  /-- A loop over a value of this kind. -/
  | notIterable (kind : String)
  /-- A loop whose parameters do not name a variable. -/
  | invalidForeach (parameters : Text)
  /-- A declaration without a name. -/
  | invalidDeclare
  deriving DecidableEq, Repr

namespace EvalError

def message : EvalError → String
  | .expression s => "Error evaluating expression: " ++ String.ofList s
  | .unknownStatement k => "Unknown statement \"" ++ String.ofList k ++ "\""
  | .notIterable kind => "Cannot iterate type " ++ kind
  | .invalidForeach p => "Invalid foreach parameters \"" ++ String.ofList p ++ "\""
  | .invalidDeclare => "Invalid declare parameters"

def code : EvalError → String
  | .expression _ => "dollar::expression"
  | .unknownStatement _ => "dollar::unknown_statement"
  | .notIterable _ => "dollar::not_iterable"
  | .invalidForeach _ => "dollar::invalid_foreach"
  | .invalidDeclare => "dollar::invalid_declare"

def help? : EvalError → Option String
  | .unknownStatement _ => some "available statements: escape, eval, if, foreach, declare"
  | .invalidForeach _ => some "use the form `$foreach(name in expression)\x7b...\x7d`"
  | .invalidDeclare => some "name the variable: `$declare(name)\x7bvalue\x7d`"
  | _ => none

end EvalError
end Stencil
