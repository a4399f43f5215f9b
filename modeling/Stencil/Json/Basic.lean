import Stencil.Bindings
import Stencil.Number.Binary
import Stencil.Number.Decimal

namespace Stencil

/-- A JSON document. Objects hold their members in the order of their names. -/
inductive Json
  | null
  | bool (value : Bool)
  | integer (value : Int)
  | real (value : Number)
  | string (value : Text)
  | array (items : List Json)
  | object (members : List (Text × Json))
  deriving Inhabited

namespace Json

/-- The parts of a number as it is written. -/
structure Numeral where
  negative : Bool
  whole : Text
  fraction : Text
  /-- The exponent, if one is written. -/
  power : Option Int

namespace Numeral

/-- A fraction, if a point begins the text; a point needs digits. -/
def fraction? : Text → Option (Text × Text)
  | '.' :: t =>
    let (ds, rest) := Number.digits t
    if ds.isEmpty then none else some (ds, rest)
  | t => some ([], t)

/-- An exponent, if its letter begins the text; the letter needs digits. -/
def power? (t : Text) : Option (Option Int × Text) :=
  match t with
  | 'e' :: _ | 'E' :: _ => (Number.exponent? t).map fun (e, rest) => (some e, rest)
  | _ => some (none, t)

/-- A numeral at the start of a text, and what follows it. A leading zero stands alone. -/
def read? (t : Text) : Option (Numeral × Text) := do
  let (negative, t) := match t with
    | '-' :: t => (true, t)
    | t => (false, t)
  let (whole, t) := Number.digits t
  if whole.isEmpty || (whole.head? == some '0' && 1 < whole.length) then none
  let (fraction, t) ← fraction? t
  let (power, t) ← power? t
  pure (⟨negative, whole, fraction, power⟩, t)

def limit : Nat := 2 ^ 64 - 1

/-- Takes digits into a significand up to the first that does not fit, and the digits left over. -/
def accumulate : Nat → Text → Nat × Text
  | s, [] => (s, [])
  | s, c :: t =>
    let s' := s * 10 + (Number.digit? 10 c).getD 0
    if limit < s' then (s, c :: t) else accumulate s' t

/-- `x * 10 ^ e` by one multiplication or by divisions; nothing if the result is too large. -/
def scale (x : Float) (e : Int) : Option Float :=
  if 0 ≤ e then
    if 308 < e then if x == 0.0 then some x else none
    else
      let y := x * Float.ofScientific 1 false e.toNat
      if y.isInf then none else some y
  else if -308 ≤ e then some (x / Float.ofScientific 1 false (-e).toNat)
  else if x == 0.0 then some x
  else scale (x / 1e308) (e + 308)
termination_by e.natAbs

/-- The value of a numeral that is not an integer. An exponent beyond 32 bits makes the value zero
or too large. -/
def real? (n : Numeral) : Option Number := do
  let (s, lost) := accumulate 0 n.whole
  let (s, unread) := accumulate s n.fraction
  let e := (lost.length : Int) - (n.fraction.length - unread.length)
  let power := n.power.getD 0
  let x ←
    if 2 ^ 31 ≤ power.natAbs then if s = 0 ∨ power < 0 then some 0.0 else none
    else scale (Float.ofNat s) (e + power)
  let x := Number.ofFloat x
  pure (if n.negative then -x else x)

/-- The value of a numeral. Negative zero is no integer. -/
def value? (n : Numeral) : Option Json :=
  let s := Number.ofDigits 10 n.whole
  if n.fraction.isEmpty && n.power.isNone && s ≤ limit then
    if !n.negative then some (.integer s)
    else if 0 < s ∧ s ≤ 2 ^ 63 then some (.integer (-s))
    else some (.real (-Number.ofNat s))
  else n.real?.map .real

end Numeral
end Json
end Stencil
