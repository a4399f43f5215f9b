import Stencil.Bindings
import Stencil.Number.Binary

namespace Stencil.Toml

structure Date where
  year : Nat
  month : Nat
  day : Nat
  deriving DecidableEq, Repr

/-- A time of day. Seconds and their fraction may be left out. -/
structure Time where
  hour : Nat
  minute : Nat
  second : Option Nat
  /-- Nanoseconds, if a fraction is written. -/
  nanosecond : Option Nat
  deriving DecidableEq, Repr

/-- The distance to universal time. -/
inductive Offset
  | utc
  | minutes (negative : Bool) (hour minute : Nat)
  deriving DecidableEq, Repr

/-- A date, a time or both, and an offset with both. -/
structure Datetime where
  date : Option Date
  time : Option Time
  offset : Option Offset
  deriving DecidableEq, Repr

/-- A number with zeros in front up to a width. -/
def padded (width n : Nat) : Text :=
  let ds := Text.ofNat n
  List.replicate (width - ds.length) '0' ++ ds

def Date.text (d : Date) : Text :=
  padded 4 d.year ++ '-' :: padded 2 d.month ++ '-' :: padded 2 d.day

/-- The digits of a fraction of a second, without the zeros at its end but never without any. -/
def fractionDigits (nanosecond : Nat) : Text :=
  match ((padded 9 nanosecond).reverse.dropWhile (· == '0')).reverse with
  | [] => ['0']
  | ds => ds

def Time.text (t : Time) : Text :=
  let second := match t.second with
    | some s => ':' :: padded 2 s
    | none => []
  let fraction := match t.nanosecond with
    | some n => '.' :: fractionDigits n
    | none => []
  padded 2 t.hour ++ ':' :: padded 2 t.minute ++ second ++ fraction

def Offset.text : Offset → Text
  | .utc => ['Z']
  | .minutes negative hour minute =>
    (if negative then '-' else '+') :: padded 2 hour ++ ':' :: padded 2 minute

def Datetime.text (d : Datetime) : Text :=
  let date := (d.date.map Date.text).getD []
  let time := (d.time.map Time.text).getD []
  let offset := (d.offset.map Offset.text).getD []
  date ++ (if d.date.isSome && d.time.isSome then ['T'] else []) ++ time ++ offset

end Stencil.Toml

namespace Stencil

/-- A TOML document. Tables hold their entries in the order of their names. -/
inductive Toml
  | string (value : Text)
  | integer (value : Int)
  | float (value : Number)
  | boolean (value : Bool)
  | datetime (value : Toml.Datetime)
  | array (items : List Toml)
  | table (entries : List (Text × Toml))
  deriving Inhabited

end Stencil
