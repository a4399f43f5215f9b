import Stencil.Bindings
import Stencil.Number.Binary

namespace Stencil

/-- A value. Maps hold their entries in the order of their names. -/
inductive Value
  | null
  | bool (value : Bool)
  | number (value : Number)
  | string (value : Text)
  | list (items : List Value)
  | map (entries : List (Text × Value))
  deriving Inhabited

namespace Value

def kind : Value → String
  | .null => "null"
  | .bool _ => "boolean"
  | .number _ => "number"
  | .string _ => "string"
  | .list _ => "list"
  | .map _ => "map"

/-- Null, false, zero, NaN and the empty string are false, and all else is true. -/
def isTruthy : Value → Bool
  | .null => false
  | .bool b => b
  | .number x => !(x.isZero || x.isNaN)
  | .string t => !t.isEmpty
  | .list _ => true
  | .map _ => true

def ofChar (c : Char) : Value := .string [c]

def ofNat (n : Nat) : Value := .number (Number.ofNat n)

def ofInt (n : Int) : Value := .number (Number.ofInt n)

/-- What a loop over a value visits: the items of a list or the characters of a string. -/
def elements? : Value → Option (List Value)
  | .list items => some items
  | .string t => some (t.map ofChar)
  | _ => none

def string? : Value → Option Text
  | .string t => some t
  | _ => none

def number? : Value → Option Number
  | .number x => some x
  | _ => none

mutual

/-- Equality of values: numbers are equal when they are close, lists item by item, and maps entry
by entry. Values of different kinds are never equal. -/
def equal : Value → Value → Bool
  | .null, .null => true
  | .bool a, .bool b => a == b
  | .number x, .number y => x.close y
  | .string s, .string t => s == t
  | .list vs, .list ws => equalItems vs ws
  | .map vs, .map ws => equalEntries vs ws
  | _, _ => false

def equalItems : List Value → List Value → Bool
  | [], [] => true
  | v :: vs, w :: ws => equal v w && equalItems vs ws
  | _, _ => false

def equalEntries : List (Text × Value) → List (Text × Value) → Bool
  | [], [] => true
  | (m, v) :: vs, (n, w) :: ws => m == n && equal v w && equalEntries vs ws
  | _, _ => false

end

mutual

theorem equal_self : ∀ v : Value, equal v v = true
  | .null => rfl
  | .bool b => by simp [equal]
  | .number x => Number.close_self x
  | .string t => by simp [equal]
  | .list vs => equalItems_self vs
  | .map vs => equalEntries_self vs

theorem equalItems_self : ∀ vs : List Value, equalItems vs vs = true
  | [] => rfl
  | v :: vs => by simp [equalItems, equal_self v, equalItems_self vs]

theorem equalEntries_self : ∀ vs : List (Text × Value), equalEntries vs vs = true
  | [] => rfl
  | (n, v) :: vs => by simp [equalEntries, equal_self v, equalEntries_self vs]

end

end Value
end Stencil
