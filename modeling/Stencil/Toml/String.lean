import Stencil.Toml.Basic
import Stencil.Number.Decimal

namespace Stencil.Toml

/-- Characters that stand in comments and, but for quotes and backslashes, in strings. -/
def isTextChar (c : Char) : Bool := c == '\t' || (32 ≤ c.toNat && c.toNat != 127)

def prepend (front : Text) : Option (Text × Text) → Option (Text × Text) :=
  Option.map fun (t, rest) => (front ++ t, rest)

def escape? : Char → Option Char
  | 'b' => some '\x08'
  | 't' => some '\t'
  | 'n' => some '\n'
  | 'f' => some '\x0c'
  | 'r' => some '\r'
  | 'e' => some '\x1b'
  | '"' => some '"'
  | '\\' => some '\\'
  | _ => none

def hexWidth? : Char → Option Nat
  | 'x' => some 2
  | 'u' => some 4
  | 'U' => some 8
  | _ => none

/-- An escape without its backslash, and how many characters it takes. -/
def readEscape? : Text → Option (Char × Nat)
  | [] => none
  | c :: t =>
    match hexWidth? c with
    | some width =>
      let ds := t.take width
      if ds.length = width then
        match Number.natural? 16 ds with
        | some n => if n.isValidChar then some (Char.ofNat n, width + 1) else none
        | none => none
      else none
    | none => (escape? c).map fun e => (e, 1)

/-- The rest of a basic string on one line, and what follows it. -/
def basic? : Text → Option (Text × Text)
  | [] => none
  | '"' :: t => some ([], t)
  | '\\' :: t =>
    match readEscape? t with
    | some (c, n) => prepend [c] (basic? (t.drop n))
    | none => none
  | c :: t => if isTextChar c then prepend [c] (basic? t) else none
termination_by t => t.length

def literal? : Text → Option (Text × Text)
  | [] => none
  | '\'' :: t => some ([], t)
  | c :: t => if isTextChar c then prepend [c] (literal? t) else none

/-- A text without the line break that it begins with, if it begins with one. -/
def skipLineBreak : Text → Text
  | '\n' :: t => t
  | '\r' :: '\n' :: t => t
  | t => t

/-- A text without the blanks and line breaks that it begins with. -/
def skipBlankLines : Text → Text
  | [] => []
  | c :: t => if c = ' ' ∨ c = '\t' ∨ c = '\n' ∨ c = '\r' then skipBlankLines t else c :: t

theorem length_skipBlankLines_le (t : Text) : (skipBlankLines t).length ≤ t.length := by
  induction t with
  | nil => simp [skipBlankLines]
  | cons c t ih =>
    unfold skipBlankLines
    split
    · exact Nat.le_succ_of_le ih
    · simp

/-- What follows a backslash at the end of a line, from the next text on. -/
def continued? (t : Text) : Option Text :=
  match t.dropWhile fun c => c == ' ' || c == '\t' with
  | '\n' :: _ => some (skipBlankLines t)
  | '\r' :: '\n' :: _ => some (skipBlankLines t)
  | _ => none

theorem length_le_of_continued? {t r : Text} (h : continued? t = some r) :
    r.length ≤ t.length := by
  unfold continued? at h
  split at h <;> cases h <;> exact length_skipBlankLines_le t

/-- The end of a string over several lines: three quotes close it, with up to two more in front of
them as text. -/
def closing? (q : Char) : Text → Option (Text × Text)
  | a :: b :: c :: t =>
    if a = q ∧ b = q ∧ c = q then
      match t with
      | d :: e :: t' =>
        if d = q ∧ e = q then some ([q, q], t')
        else if d = q then some ([q], e :: t')
        else some ([], t)
      | [d] => if d = q then some ([q], []) else some ([], [d])
      | [] => some ([], [])
    else none
  | _ => none

/-- The rest of a basic string over several lines, and what follows it. -/
def basicLines? : Text → Option (Text × Text)
  | [] => none
  | '\\' :: t =>
    match h : continued? t with
    | some rest =>
      have := length_le_of_continued? h
      basicLines? rest
    | none =>
      match readEscape? t with
      | some (c, n) => prepend [c] (basicLines? (t.drop n))
      | none => none
  | '\r' :: '\n' :: t => prepend ['\r', '\n'] (basicLines? t)
  | c :: t =>
    match closing? '"' (c :: t) with
    | some r => some r
    | none => if c = '\n' ∨ isTextChar c then prepend [c] (basicLines? t) else none
termination_by t => t.length

def literalLines? : Text → Option (Text × Text)
  | [] => none
  | '\r' :: '\n' :: t => prepend ['\r', '\n'] (literalLines? t)
  | c :: t =>
    match closing? '\'' (c :: t) with
    | some r => some r
    | none => if c = '\n' ∨ isTextChar c then prepend [c] (literalLines? t) else none

/-- A string at the start of a text, and what follows it. -/
def quoted? : Text → Option (Text × Text)
  | '"' :: '"' :: '"' :: t => basicLines? (skipLineBreak t)
  | '\'' :: '\'' :: '\'' :: t => literalLines? (skipLineBreak t)
  | '"' :: t => basic? t
  | '\'' :: t => literal? t
  | _ => none

end Stencil.Toml
