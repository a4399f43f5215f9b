import Stencil.Number.Decimal

namespace Stencil

namespace Literal

/-- The number of characters of a literal after its opening quote `q`, with its closing quote, and
whether it closes. A backslash takes the next character with it, but not a line feed; a literal
that cannot close any more ends there. -/
def extent (q : Char) : Text → Nat × Bool
  | [] => (0, false)
  | c :: t =>
    if c = q then (1, true)
    else if c = '\\' then
      match t with
      | [] => (1, false)
      | d :: t =>
        if d = '\n' then (1, false)
        else
          let (n, closed) := extent q t
          (n + 2, closed)
    else
      let (n, closed) := extent q t
      (n + 1, closed)

/-- The interior of a literal as it is written between double quotes. -/
def requote : Text → Option Text
  | [] => some []
  | '\\' :: '\'' :: t => (requote t).map ('\'' :: ·)
  | '\\' :: c :: t => (requote t).map ('\\' :: c :: ·)
  | '"' :: t => (requote t).map ('\\' :: '"' :: ·)
  | c :: t => if c = '\\' then none else (requote t).map (c :: ·)

/-- The character that a hexadecimal number of 32 bits writes, with an optional plus sign. -/
def codePoint? (t : Text) : Option Char :=
  let ds := match t with
    | '+' :: ds => ds
    | ds => ds
  match Number.natural? 16 ds with
  | some n => if n < 2 ^ 32 ∧ n.isValidChar then some (Char.ofNat n) else none
  | none => none

def escape? : Char → Option Char
  | 'a' => some '\x07'
  | 'b' => some '\x08'
  | 'v' => some '\x0b'
  | 'f' => some '\x0c'
  | 'n' => some '\n'
  | 'r' => some '\r'
  | 't' => some '\t'
  | 'e' => some '\x1b'
  | 'E' => some '\x1b'
  | '\\' => some '\\'
  | '\'' => some '\''
  | '"' => some '"'
  | '$' => some '$'
  | '\x60' => some '\x60'
  | ' ' => some ' '
  | _ => none

/-- Resolves the escapes of an interior between double quotes. -/
def unescape : Text → Option Text
  | [] => some []
  | '\\' :: 'u' :: '{' :: t =>
    match h : Text.cutAt? '}' t with
    | some (digits, rest) =>
      have : rest.length < t.length := by
        rw [(Text.append_of_cutAt? h).1]; simp; omega
      match codePoint? digits with
      | some c => (unescape rest).map (c :: ·)
      | none => none
    | none => none
  | '\\' :: c :: t =>
    match escape? c with
    | some e => (unescape t).map (e :: ·)
    | none => none
  | c :: t => if c = '\\' then none else (unescape t).map (c :: ·)
termination_by t => t.length

/-- The text that a literal's interior stands for. -/
def unquote (interior : Text) : Option Text :=
  if interior.contains '\\' then (requote interior).bind unescape else some interior

end Literal

inductive Token
  | parenOpen
  | parenClose
  | bracketOpen
  | bracketClose
  | comma
  | dot
  | question
  | colon
  | bang
  | plus
  | minus
  | star
  | slash
  | percent
  | less
  | lessEqual
  | greater
  | greaterEqual
  | equal
  | notEqual
  | and
  | or
  | true
  | false
  | null
  | ident (name : Text)
  | number (value : Number)
  | string (value : Text)
  deriving DecidableEq

/-- The bytes of a source from `start` up to `stop`. -/
structure Span where
  start : Nat
  stop : Nat
  deriving DecidableEq, Repr

namespace Token

def isSpace (c : Char) : Bool := c == ' ' || c == '\t' || c == '\r' || c == '\n'

def isNameStart (c : Char) : Bool :=
  ('a' ≤ c && c ≤ 'z') || ('A' ≤ c && c ≤ 'Z') || c == '_'

def isNamePart (c : Char) : Bool := isNameStart c || ('0' ≤ c && c ≤ '9')

/-- The token of a name; some names are reserved. -/
def ofName (name : Text) : Token :=
  if name = "true".toList then .true
  else if name = "false".toList then .false
  else if name = "null".toList ∨ name = "undefined".toList then .null
  else .ident name

def ofChar? : Char → Option Token
  | '(' => some .parenOpen
  | ')' => some .parenClose
  | '[' => some .bracketOpen
  | ']' => some .bracketClose
  | ',' => some .comma
  | '.' => some .dot
  | '?' => some .question
  | ':' => some .colon
  | '!' => some .bang
  | '+' => some .plus
  | '-' => some .minus
  | '*' => some .star
  | '/' => some .slash
  | '%' => some .percent
  | '<' => some .less
  | '>' => some .greater
  | _ => none

/-- The value of a number at the start of a text, and what follows it. A point and an exponent
belong to it only with digits of their own. -/
def readNumber (t : Text) : Number × Text :=
  let (whole, rest) := Number.digits t
  let (fraction, rest) := match rest with
    | '.' :: r =>
      let (ds, r') := Number.digits r
      if ds.isEmpty then ([], rest) else (ds, r')
    | r => ([], r)
  let (e, rest) := (Number.exponent? rest).getD (0, rest)
  ((Number.Decimal.ofParts whole fraction e).toNumber, rest)

/-- The token that a character and what follows it begin with, if there is one, and how many of
the following characters belong to it, or to what is no token. -/
def read (c : Char) (t : Text) : Nat × Option Token :=
  if isNameStart c then
    let part := t.takeWhile isNamePart
    (part.length, some (ofName (c :: part)))
  else if Number.isDigit 10 c then
    let (x, rest) := readNumber (c :: t)
    (t.length - rest.length, some (.number x))
  else if c = '"' ∨ c = '\'' then
    let (n, closed) := Literal.extent c t
    (n, if closed then (Literal.unquote (t.take (n - 1))).map .string else none)
  else match c, t with
    | '=', '=' :: '=' :: _ => (2, some .equal)
    | '=', '=' :: _ => (1, some .equal)
    | '!', '=' :: '=' :: _ => (2, some .notEqual)
    | '!', '=' :: _ => (1, some .notEqual)
    | '<', '=' :: _ => (1, some .lessEqual)
    | '>', '=' :: _ => (1, some .greaterEqual)
    | '&', '&' :: _ => (1, some .and)
    | '|', '|' :: _ => (1, some .or)
    | c, _ => (0, ofChar? c)

/-- The tokens of a source that begins at a byte offset, with their spans, or the span of the
first part that is no token. -/
def scan (offset : Nat) : Text → Except Span (List (Token × Span))
  | [] => .ok []
  | c :: t =>
    if isSpace c then scan (offset + c.utf8Size) t
    else
      let (n, token?) := read c t
      let stop := offset + Text.size (c :: t.take n)
      match token? with
      | none => .error ⟨offset, stop⟩
      | some token =>
        match scan stop (t.drop n) with
        | .error span => .error span
        | .ok tokens => .ok ((token, ⟨offset, stop⟩) :: tokens)
termination_by t => t.length

/-- The tokens of a source with their spans. -/
def tokenize (source : Text) : Except Span (List (Token × Span)) := scan 0 source

end Token
end Stencil
