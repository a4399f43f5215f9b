import Stencil.Toml.Basic
import Stencil.Number.Decimal

namespace Stencil.Toml

/-- Digits of a base with single underscores between them, without the underscores. -/
def ungroup? (base : Nat) (t : Text) : Option Text :=
  let groups := Text.splitOn '_' t
  if groups.all fun g => !g.isEmpty && g.all (Number.isDigit base) then some groups.flatten
  else none

/-- An integer if it fits 64 bits. -/
def integer? (n : Int) : Option Toml :=
  if -2 ^ 63 ≤ n ∧ n < 2 ^ 63 then some (.integer n) else none

/-- Decimal digits without a leading zero, or zero alone. -/
def whole? (t : Text) : Option Text :=
  (ungroup? 10 t).filter fun ds => ds.length == 1 || ds.head? != some '0'

/-- What stands before and after the first of two characters. -/
def cutAtEither? (c₁ c₂ : Char) (t : Text) : Option (Text × Text) :=
  match t.span fun c => c != c₁ && c != c₂ with
  | (a, _ :: b) => some (a, b)
  | _ => none

/-- The exponent of a float. -/
def exponent? (t : Text) : Option Int :=
  let (negative, t) := Number.sign t
  (ungroup? 10 t).map fun ds =>
    if negative then -(Number.ofDigits 10 ds : Int) else Number.ofDigits 10 ds

/-- A float that is written in digits; one too large is none. -/
def decimal? (negative : Bool) (t : Text) : Option Toml := do
  let (mantissa, e) ← match cutAtEither? 'e' 'E' t with
    | some (m, e) => (exponent? e).map fun e => (m, e)
    | none => some (t, 0)
  let (whole, fraction) ← match Text.cutAt? '.' mantissa with
    | some (w, f) => (ungroup? 10 f).map fun f => (w, f)
    | none => some (mantissa, [])
  let whole ← whole? whole
  let x := (Number.Decimal.ofParts whole fraction e).toNumber
  if x.isFinite then some (.float (if negative then -x else x)) else none

/-- A number without its sign. -/
def unsigned? (negative : Bool) (t : Text) : Option Toml :=
  if t = "inf".toList then some (.float (Number.infinity negative))
  else if t = "nan".toList then some (.float (Number.nan negative))
  else match whole? t with
    | some ds =>
      let n := Number.ofDigits 10 ds
      integer? (if negative then -(n : Int) else n)
    | none => if t.any fun c => c == '.' || c == 'e' || c == 'E' then decimal? negative t else none

/-- A number. Other bases than ten have no sign. -/
def number? (t : Text) : Option Toml :=
  match t with
  | '0' :: 'x' :: ds => (ungroup? 16 ds).bind fun ds => integer? (Number.ofDigits 16 ds)
  | '0' :: 'o' :: ds => (ungroup? 8 ds).bind fun ds => integer? (Number.ofDigits 8 ds)
  | '0' :: 'b' :: ds => (ungroup? 2 ds).bind fun ds => integer? (Number.ofDigits 2 ds)
  | '-' :: t => unsigned? true t
  | '+' :: t => unsigned? false t
  | t => unsigned? false t

/-- A number of so many digits at the start of a text, and what follows it. -/
def fixed? (width : Nat) (t : Text) : Option (Nat × Text) :=
  let ds := t.take width
  if ds.length = width then (Number.natural? 10 ds).map fun n => (n, t.drop width) else none

def expect? (c : Char) : Text → Option Text
  | x :: t => if x = c then some t else none
  | [] => none

def isLeap (year : Nat) : Bool := year % 4 == 0 && (year % 100 != 0 || year % 400 == 0)

def monthDays (year month : Nat) : Nat :=
  if month = 2 then if isLeap year then 29 else 28
  else if month = 4 ∨ month = 6 ∨ month = 9 ∨ month = 11 then 30
  else 31

def date? (t : Text) : Option (Date × Text) := do
  let (year, t) ← fixed? 4 t
  let t ← expect? '-' t
  let (month, t) ← fixed? 2 t
  let t ← expect? '-' t
  let (day, t) ← fixed? 2 t
  if 1 ≤ month ∧ month ≤ 12 ∧ 1 ≤ day ∧ day ≤ monthDays year month then
    some (⟨year, month, day⟩, t)
  else none

/-- The fraction of a second, if a point begins the text. Digits behind the ninth are dropped. -/
def nanosecond? (t : Text) : Option (Option Nat × Text) :=
  match t with
  | '.' :: t =>
    let (ds, rest) := Number.digits t
    if ds.isEmpty then none
    else
      let ds := ds.take 9
      some (some (Number.ofDigits 10 (ds ++ List.replicate (9 - ds.length) '0')), rest)
  | t => some (none, t)

def time? (t : Text) : Option (Time × Text) := do
  let (hour, t) ← fixed? 2 t
  let t ← expect? ':' t
  let (minute, t) ← fixed? 2 t
  let (second, nanosecond, t) ← match t with
    | ':' :: t => do
      let (second, t) ← fixed? 2 t
      let (nanosecond, t) ← nanosecond? t
      pure (some second, nanosecond, t)
    | t => some (none, none, t)
  if hour ≤ 23 ∧ minute ≤ 59 ∧ second.getD 0 ≤ 60 then
    some (⟨hour, minute, second, nanosecond⟩, t)
  else none

/-- A whole text as an offset; the empty one is none. -/
def offset? (t : Text) : Option (Option Offset) :=
  match t with
  | [] => some none
  | ['Z'] => some (some .utc)
  | ['z'] => some (some .utc)
  | c :: t =>
    if c = '+' ∨ c = '-' then do
      let (hour, t) ← fixed? 2 t
      let t ← expect? ':' t
      let (minute, t) ← fixed? 2 t
      if t.isEmpty && hour ≤ 23 && minute ≤ 59 then
        some (some (.minutes (c == '-') hour minute))
      else none
    else none

/-- A whole text as a date, a time or both. -/
def datetime? (t : Text) : Option Datetime :=
  match date? t with
  | some (d, []) => some ⟨some d, none, none⟩
  | some (d, c :: rest) =>
    if c = 'T' ∨ c = 't' ∨ c = ' ' then do
      let (time, rest) ← time? rest
      let offset ← offset? rest
      pure ⟨some d, some time, offset⟩
    else none
  | none => match time? t with
    | some (time, []) => some ⟨none, some time, none⟩
    | _ => none

/-- The value of an unquoted text. -/
def scalar? (t : Text) : Option Toml :=
  if t = "true".toList then some (.boolean true)
  else if t = "false".toList then some (.boolean false)
  else match datetime? t with
    | some d => some (.datetime d)
    | none => number? t

def isScalarChar (c : Char) : Bool :=
  c.isAlphanum || c == '+' || c == '-' || c == '_' || c == '.' || c == ':'

/-- An unquoted value at the start of a text, and what follows it. A date takes the time behind a
blank with it. -/
def readScalar? (t : Text) : Option (Toml × Text) :=
  let (front, rest) := t.span isScalarChar
  let joined := match (date? front).map (·.2), rest with
    | some [], ' ' :: rest =>
      let (time, after) := rest.span isScalarChar
      if (time? time).isSome then some (front ++ ' ' :: time, after) else none
    | _, _ => none
  let (whole, rest) := joined.getD (front, rest)
  (scalar? whole).map fun v => (v, rest)

end Stencil.Toml
