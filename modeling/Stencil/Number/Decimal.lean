import Stencil.Text.Basic
import Stencil.Number.Binary

namespace Stencil.Number

/-- The value of a digit in a base of at most 16, if it is one. -/
def digit? (base : Nat) (c : Char) : Option Nat :=
  let n := c.toNat
  let value? :=
    if '0'.toNat ≤ n ∧ n ≤ '9'.toNat then some (n - '0'.toNat)
    else if 'a'.toNat ≤ n ∧ n ≤ 'f'.toNat then some (n - 'a'.toNat + 10)
    else if 'A'.toNat ≤ n ∧ n ≤ 'F'.toNat then some (n - 'A'.toNat + 10)
    else none
  value?.filter (· < base)

def isDigit (base : Nat) (c : Char) : Bool := (digit? base c).isSome

/-- The number that digits write; other characters count as zeros. -/
def ofDigits (base : Nat) (t : Text) : Nat :=
  t.foldl (fun n c => n * base + (digit? base c).getD 0) 0

/-- The number that a text of digits writes, if it is one. -/
def natural? (base : Nat) (t : Text) : Option Nat :=
  if !t.isEmpty && t.all (isDigit base) then some (ofDigits base t) else none

/-- The decimal digits that a text begins with, and what follows them. -/
def digits (t : Text) : Text × Text := t.span (isDigit 10)

def sign (t : Text) : Bool × Text :=
  match t with
  | '-' :: t => (true, t)
  | '+' :: t => (false, t)
  | t => (false, t)

/-- The value `significand * 10 ^ exponent`. -/
structure Decimal where
  significand : Nat
  exponent : Int
  deriving DecidableEq, Repr

namespace Decimal

/-- The decimal written by digits before and after a point and by an exponent. -/
def ofParts (whole fraction : Text) (exponent : Int) : Decimal :=
  ⟨ofDigits 10 (whole ++ fraction), exponent - fraction.length⟩

/-- The nearest number. Powers of ten far outside the range of numbers are settled by size alone:
below 10 ^ -330 there is only zero, and from 10 ^ 310 on only infinity. -/
def toNumber (d : Decimal) : Number :=
  let top := (Nat.toDigits 10 d.significand).length + d.exponent
  if d.significand = 0 ∨ top < -330 then 0
  else if 310 < top then infinity false
  else if 0 ≤ d.exponent then ofNat (d.significand * 10 ^ d.exponent.toNat)
  else ofFloat (Float.ofScientific d.significand true d.exponent.natAbs)

end Decimal

def exponent? : Text → Option (Int × Text)
  | c :: t =>
    if c = 'e' ∨ c = 'E' then
      let (negative, t) := sign t
      let (ds, rest) := digits t
      if ds.isEmpty then none
      else some (if negative then -(ofDigits 10 ds : Int) else ofDigits 10 ds, rest)
    else none
  | [] => none

/-- A decimal with digits before or after its point, or both, and what follows it. -/
def decimal? (t : Text) : Option (Decimal × Text) :=
  let (whole, rest) := digits t
  let (fraction, rest) := match rest with
    | '.' :: r => digits r
    | r => ([], r)
  if whole.isEmpty && fraction.isEmpty then none
  else
    let (e, rest) := (exponent? rest).getD (0, rest)
    some (Decimal.ofParts whole fraction e, rest)

/-- The names of the numbers that have no digits, in lower case. -/
def named? (t : Text) : Option Number :=
  let lower := t.map Char.toLower
  if lower = "inf".toList ∨ lower = "infinity".toList then some (infinity false)
  else if lower = "nan".toList then some (nan false)
  else none

/-- Reads a whole text as a number: a sign, then a decimal or a name in any case. -/
def parse? (t : Text) : Option Number :=
  let (negative, t) := sign t
  let magnitude? := match named? t with
    | some x => some x
    | none => match decimal? t with
      | some (d, []) => some d.toNumber
      | _ => none
  magnitude?.map fun x => if negative then -x else x

end Stencil.Number
