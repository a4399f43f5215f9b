import Stencil.Json.Basic
import Stencil.Number.Shortest

namespace Stencil.Json

/-- Numbers are written positionally while the leading digit has an exponent from -5 to 15, with
a point in every one; a tie goes to the even digit. -/
def layout : Number.Layout := ⟨some (-5), some 16, true, .even⟩

/-- The text of a number that is not an integer of the document. JSON has no text for infinities
and NaN. -/
def ofReal (x : Number) : Text :=
  match x.parts? with
  | none => "null".toList
  | some p =>
    if p.mantissa = 0 then if p.negative then "-0.0".toList else "0.0".toList
    else layout.write p

def hexDigit (n : Nat) : Char := Nat.digitChar n

/-- A character inside quotes. Only quotes, backslashes and control characters are escaped. -/
def escaped (c : Char) : Text :=
  match c with
  | '"' => ['\\', '"']
  | '\\' => ['\\', '\\']
  | '\x08' => ['\\', 'b']
  | '\x0c' => ['\\', 'f']
  | '\n' => ['\\', 'n']
  | '\r' => ['\\', 'r']
  | '\t' => ['\\', 't']
  | c =>
    if c.toNat < 32 then ['\\', 'u', '0', '0', hexDigit (c.toNat / 16), hexDigit (c.toNat % 16)]
    else [c]

def quote (t : Text) : Text := '"' :: t.flatMap escaped ++ ['"']

mutual

/-- The document on one line, without blanks. -/
def compact : Json → Text
  | .null => "null".toList
  | .bool b => if b then "true".toList else "false".toList
  | .integer n => Text.ofInt n
  | .real x => ofReal x
  | .string t => quote t
  | .array items => '[' :: compactItems items ++ [']']
  | .object members => '{' :: compactMembers members ++ ['}']

def compactItems : List Json → Text
  | [] => []
  | [v] => compact v
  | v :: vs => compact v ++ ',' :: compactItems vs

def compactMembers : List (Text × Json) → Text
  | [] => []
  | [(name, v)] => quote name ++ ':' :: compact v
  | (name, v) :: vs => quote name ++ ':' :: compact v ++ ',' :: compactMembers vs

end

def newLine (depth : Nat) : Text := '\n' :: List.replicate (2 * depth) ' '

mutual

/-- The document with each item and member on a line of its own, below a depth. -/
def indented (depth : Nat) : Json → Text
  | .array [] => ['[', ']']
  | .array items => '[' :: indentedItems (depth + 1) items ++ newLine depth ++ [']']
  | .object [] => ['{', '}']
  | .object members => '{' :: indentedMembers (depth + 1) members ++ newLine depth ++ ['}']
  | .null => compact .null
  | .bool b => compact (.bool b)
  | .integer n => compact (.integer n)
  | .real x => compact (.real x)
  | .string t => compact (.string t)

def indentedItems (depth : Nat) : List Json → Text
  | [] => []
  | [v] => newLine depth ++ indented depth v
  | v :: vs => newLine depth ++ indented depth v ++ ',' :: indentedItems depth vs

def indentedMembers (depth : Nat) : List (Text × Json) → Text
  | [] => []
  | [(name, v)] => newLine depth ++ quote name ++ ':' :: ' ' :: indented depth v
  | (name, v) :: vs =>
    newLine depth ++ quote name ++ ':' :: ' ' :: indented depth v ++ ',' :: indentedMembers depth vs

end

def pretty (v : Json) : Text := indented 0 v

end Stencil.Json
