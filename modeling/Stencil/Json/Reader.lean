import Stencil.Json.Basic

namespace Stencil.Json

def isBlank (c : Char) : Bool := c == ' ' || c == '\n' || c == '\t' || c == '\r'

def skipBlanks (t : Text) : Text := t.dropWhile isBlank

/-- The code unit that four hexadecimal digits write. -/
def unit? (a b c d : Char) : Option Nat := Number.natural? 16 [a, b, c, d]

def escape? : Char → Option Char
  | '"' => some '"'
  | '\\' => some '\\'
  | '/' => some '/'
  | 'b' => some '\x08'
  | 'f' => some '\x0c'
  | 'n' => some '\n'
  | 'r' => some '\r'
  | 't' => some '\t'
  | _ => none

def isHighUnit (u : Nat) : Bool := 0xD800 ≤ u && u < 0xDC00

def isLowUnit (u : Nat) : Bool := 0xDC00 ≤ u && u < 0xE000

/-- The rest of a string up to its closing quote, and what follows. Control characters stand only
as escapes, and code units of pairs only in pairs. -/
def string? : Text → Option (Text × Text)
  | '"' :: t => some ([], t)
  | '\\' :: 'u' :: a :: b :: c :: d :: t =>
    match unit? a b c d with
    | none => none
    | some u =>
      if isHighUnit u then
        match t with
        | '\\' :: 'u' :: e :: f :: g :: h :: t =>
          match unit? e f g h with
          | some v =>
            if isLowUnit v then
              (string? t).map fun (s, r) =>
                (Char.ofNat (0x10000 + (u - 0xD800) * 0x400 + (v - 0xDC00)) :: s, r)
            else none
          | none => none
        | _ => none
      else if isLowUnit u then none
      else (string? t).map fun (s, r) => (Char.ofNat u :: s, r)
  | '\\' :: c :: t =>
    match escape? c with
    | some e => (string? t).map fun (s, r) => (e :: s, r)
    | none => none
  | c :: t => if c.toNat < 32 ∨ c = '\\' then none else (string? t).map fun (s, r) => (c :: s, r)
  | [] => none

/-- Items with commas between them up to a closing character, at most `n`. -/
def items? {α : Type} (item : Text → Option (α × Text)) (close : Char) :
    Nat → Text → Option (List α × Text)
  | 0, _ => none
  | n + 1, t => do
    let (x, t) ← item t
    match skipBlanks t with
    | ',' :: t =>
      let (xs, t) ← items? item close n t
      pure (x :: xs, t)
    | c :: t => if c = close then some ([x], t) else none
    | [] => none

/-- The items of an array or object after its opening character. -/
def enclosed? {α : Type} (item : Text → Option (α × Text)) (close : Char) (t : Text) :
    Option (List α × Text) :=
  match skipBlanks t with
  | c :: r => if c = close then some ([], r) else items? item close t.length (c :: r)
  | [] => none

def member? (value : Text → Option (Json × Text)) (t : Text) : Option ((Text × Json) × Text) := do
  match skipBlanks t with
  | '"' :: t =>
    let (name, t) ← string? t
    match skipBlanks t with
    | ':' :: t =>
      let (v, t) ← value t
      pure ((name, v), t)
    | _ => none
  | _ => none

def literal? (t : Text) : Option (Json × Text) :=
  [("null", Json.null), ("true", .bool true), ("false", .bool false)].findSome? fun (name, v) =>
    (Text.strip? name.toList t).map fun rest => (v, rest)

/-- A value at the start of a text, and what follows it. -/
def value? : Nat → Text → Option (Json × Text)
  | depth, t =>
    match skipBlanks t with
    | '"' :: t => (string? t).map fun (s, r) => (.string s, r)
    | '[' :: t =>
      match depth with
      | 0 => none
      | depth + 1 => (enclosed? (value? depth) ']' t).map fun (vs, r) => (.array vs, r)
    | '{' :: t =>
      match depth with
      | 0 => none
      | depth + 1 =>
        (enclosed? (member? (value? depth)) '}' t).map fun (ms, r) =>
          (.object (Bindings.ofList ms), r)
    | t =>
      match Numeral.read? t with
      | some (n, r) => n.value?.map fun v => (v, r)
      | none => literal? t

/-- How deep arrays and objects nest. -/
def maxDepth : Nat := 127

/-- Reads a whole text as one document. -/
def parse? (t : Text) : Option Json :=
  match value? maxDepth t with
  | some (v, rest) => if (skipBlanks rest).isEmpty then some v else none
  | none => none

end Stencil.Json
