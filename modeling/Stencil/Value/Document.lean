import Stencil.Json.Basic
import Stencil.Json.Printer
import Stencil.Toml.Basic
import Stencil.Value.Basic

namespace Stencil

def Json.ofNumber (x : Number) : Json :=
  match x.toInt? with
  | some n => if n.natAbs < 2 ^ 53 then .integer n else .real x
  | none => if x.isFinite then .real x else .null

/-- The document of a number that keeps a point in every one. -/
def Json.ofFinite (x : Number) : Json := if x.isFinite then .real x else .null

namespace Value

mutual

/-- The document of a value, given that of a number. -/
def toJsonWith (number : Number → Json) : Value → Json
  | .null => .null
  | .bool b => .bool b
  | .number x => number x
  | .string t => .string t
  | .list items => .array (toJsonItems number items)
  | .map entries => .object (toJsonEntries number entries)

def toJsonItems (number : Number → Json) : List Value → List Json
  | [] => []
  | v :: vs => toJsonWith number v :: toJsonItems number vs

def toJsonEntries (number : Number → Json) : List (Text × Value) → List (Text × Json)
  | [] => []
  | (n, v) :: vs => (n, toJsonWith number v) :: toJsonEntries number vs

end

def toJson (v : Value) : Json := v.toJsonWith Json.ofNumber

/-- The document of a value in which no number is an integer. -/
def toRealJson (v : Value) : Json := v.toJsonWith Json.ofFinite

mutual

def ofJson : Json → Value
  | .null => .null
  | .bool b => .bool b
  | .integer n => ofInt n
  | .real x => .number x
  | .string t => .string t
  | .array items => .list (ofJsonItems items)
  | .object members => .map (ofJsonMembers members)

def ofJsonItems : List Json → List Value
  | [] => []
  | v :: vs => ofJson v :: ofJsonItems vs

def ofJsonMembers : List (Text × Json) → List (Text × Value)
  | [] => []
  | (n, v) :: vs => (n, ofJson v) :: ofJsonMembers vs

end

mutual

def ofToml : Toml → Value
  | .string t => .string t
  | .integer n => ofInt n
  | .float x => .number x
  | .boolean b => .bool b
  | .datetime d => .string d.text
  | .array items => .list (ofTomlItems items)
  | .table entries => .map (ofTomlEntries entries)

def ofTomlItems : List Toml → List Value
  | [] => []
  | v :: vs => ofToml v :: ofTomlItems vs

def ofTomlEntries : List (Text × Toml) → List (Text × Value)
  | [] => []
  | (k, v) :: es => (k, ofToml v) :: ofTomlEntries es

end

end Value

/-- Numbers in documents are never written with a power of ten, and a tie goes up. -/
def Number.layout : Number.Layout := ⟨none, none, false, .up⟩

/-- The text of a number: an integer below 10 ^ 21 in magnitude by its digits, any other finite
number by the fewest that read back. -/
def Number.text (x : Number) : Text :=
  match x.parts? with
  | none => if x.isNaN then "NaN".toList else if x.isNegative then "-Infinity".toList
    else "Infinity".toList
  | some p =>
    match x.toInt? with
    | some n => if n.natAbs < 10 ^ 21 then Text.ofInt n else layout.write p
    | none => layout.write p

namespace Value

mutual

/-- The text of a value. Null is empty, a list is its items with commas between them, and a map is
its document. -/
def text : Value → Text
  | .null => []
  | .bool b => if b then "true".toList else "false".toList
  | .number x => Number.text x
  | .string t => t
  | .list items => textItems items
  | .map entries => (toJson (.map entries)).compact

def textItems : List Value → Text
  | [] => []
  | [v] => text v
  | v :: vs => text v ++ ',' :: textItems vs

end

end Value
end Stencil
