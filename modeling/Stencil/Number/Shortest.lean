import Stencil.Number.Binary
import Stencil.Number.Decimal

namespace Stencil.Number

/-- Where two decimals are equally near. -/
inductive Tie
  | up
  | even
  deriving DecidableEq, Repr

namespace Shortest

/-- The finest step that the search compares: a quarter of the last place of the mantissa. -/
def quarter (p : Parts) : Int := p.exponent - 2

/-- The factors that make `s * 10 ^ e` and `k * 2 ^ q` comparable: the first is to the second as
`s * decimal` to `k * binary`. -/
def factors (e q : Int) : Nat × Nat :=
  (10 ^ e.toNat * 2 ^ (-q).toNat, 10 ^ (-e).toNat * 2 ^ q.toNat)

/-- The quarters below and above the number up to which decimals round to it. Below a power of two
the neighbour is nearer. -/
def bounds (p : Parts) : Nat × Nat :=
  let below := if p.mantissa = 2 ^ 52 ∧ -1074 < p.exponent then 1 else 2
  (4 * p.mantissa - below, 4 * p.mantissa + 2)

/-- Whether a decimal rounds to the number; a decimal halfway does if the mantissa is even. -/
def readsBack (p : Parts) (d : Decimal) : Bool :=
  let (decimal, binary) := factors d.exponent (quarter p)
  let (low, high) := bounds p
  let s := d.significand * decimal
  if p.mantissa % 2 = 0 then low * binary ≤ s && s ≤ high * binary
  else low * binary < s && s < high * binary

/-- The decimals on either side of the number that are multiples of `10 ^ e`. -/
def neighbours (p : Parts) (e : Int) : Decimal × Decimal :=
  let (decimal, binary) := factors e (quarter p)
  let s := 4 * p.mantissa * binary / decimal
  (⟨s, e⟩, ⟨s + 1, e⟩)

/-- Of the two neighbours on a grid, the nearer. -/
def nearer (tie : Tie) (p : Parts) (e : Int) : Decimal :=
  let (decimal, binary) := factors e (quarter p)
  let (low, high) := neighbours p e
  let down := 4 * p.mantissa * binary - low.significand * decimal
  let up := high.significand * decimal - 4 * p.mantissa * binary
  if down < up then low
  else if up < down then high
  else match tie with
    | .up => high
    | .even => if low.significand % 2 = 0 then low else high

/-- The best decimal of a grid, if one of the neighbours reads back. -/
def onGrid? (tie : Tie) (p : Parts) (e : Int) : Option Decimal :=
  let (low, high) := neighbours p e
  match readsBack p low, readsBack p high with
  | true, true => some (nearer tie p e)
  | true, false => some low
  | false, true => some high
  | false, false => none

/-- The exponent of the leading decimal digit of a positive number. -/
def leading (p : Parts) : Int :=
  let above := p.mantissa * 2 ^ p.exponent.toNat
  let below := 2 ^ (-p.exponent).toNat
  if below ≤ above then (Nat.toDigits 10 (above / below)).length - 1
  else -((Nat.toDigits 10 ((below - 1) / above)).length : Int)

def exact (p : Parts) : Decimal :=
  if 0 ≤ p.exponent then ⟨p.mantissa * 2 ^ p.exponent.toNat, 0⟩
  else ⟨p.mantissa * 5 ^ (-p.exponent).toNat, p.exponent⟩

/-- A decimal without the zeros at its end, at most `n` of them. -/
def strip : Nat → Decimal → Decimal
  | 0, d => d
  | n + 1, d =>
    if d.significand % 10 = 0 ∧ d.significand ≠ 0 then strip n ⟨d.significand / 10, d.exponent + 1⟩
    else d

end Shortest

/-- The fewest digits that read back as the magnitude of a positive number. Seventeen always do. -/
def shortest (tie : Tie) (p : Parts) : Decimal :=
  let top := Shortest.leading p
  let found := (List.range 17).findSome? fun (n : Nat) => Shortest.onGrid? tie p (top - n)
  Shortest.strip 20 (found.getD (Shortest.exact p))

/-- How a decimal is laid out. Exponents of the leading digit from `plainFrom` and below
`plainBelow` are written positionally, all of them without a bound. -/
structure Layout where
  plainFrom : Option Int
  plainBelow : Option Int
  /-- Whether an integral value keeps a point and a zero. -/
  pointZero : Bool
  tie : Tie

namespace Layout

def isPlain (l : Layout) (e : Int) : Bool :=
  (l.plainFrom.all fun least => least ≤ e) && l.plainBelow.all fun bound => e < bound

/-- A decimal without a power of ten. -/
def plain (l : Layout) (d : Decimal) : Text :=
  let ds := Text.ofNat d.significand
  let e := d.exponent + ds.length
  if 0 ≤ d.exponent then
    ds ++ List.replicate d.exponent.toNat '0' ++ if l.pointZero then ['.', '0'] else []
  else if 0 < e then ds.take e.toNat ++ '.' :: ds.drop e.toNat
  else '0' :: '.' :: List.replicate (-e).toNat '0' ++ ds

/-- A decimal with one digit before its point and a signed power of ten. -/
def scientific (d : Decimal) : Text :=
  let ds := Text.ofNat d.significand
  let e := d.exponent + ds.length - 1
  let power := (if e < 0 then '-' else '+') :: Text.ofNat e.natAbs
  (match ds with
    | [] => []
    | [c] => [c]
    | c :: r => c :: '.' :: r) ++ 'e' :: power

/-- The text of a finite number that is not zero. -/
def write (l : Layout) (p : Parts) : Text :=
  let d := shortest l.tie p
  let magnitude :=
    if l.isPlain (d.exponent + (Text.ofNat d.significand).length - 1) then l.plain d
    else scientific d
  if p.negative then '-' :: magnitude else magnitude

end Layout
end Stencil.Number
