import Stencil.Statement.Error
import Stencil.Statement.Region

namespace Stencil

/-- A kind of statement. -/
inductive Keyword
  /-- Inserts a value as final text. -/
  | escape
  /-- Inserts a value and scans it again. -/
  | eval
  /-- Chooses a branch. -/
  | conditional
  /-- Renders its block once for each element. -/
  | foreach
  /-- Binds its block as it is written. -/
  | declare
  deriving DecidableEq, Repr

namespace Keyword

def word : Keyword → String
  | .escape => "escape"
  | .eval => "eval"
  | .conditional => "if"
  | .foreach => "foreach"
  | .declare => "declare"

def all : List Keyword := [.escape, .eval, .conditional, .foreach, .declare]

/-- The kind that a word stands for. The empty word stands for the first. -/
def ofText? (t : Text) : Option Keyword :=
  if t.isEmpty then some .escape else all.find? fun k => k.word.toList == t

theorem ofText?_word (k : Keyword) : ofText? k.word.toList = some k := by
  cases k <;> decide

end Keyword

/-- A statement that is delimited but not run. -/
structure Statement where
  /-- What stands between the marker and the parameters or the block. -/
  keyword : Text
  /-- What stands between the parentheses, if there are any. -/
  parameters : Option Text
  /-- What stands between the braces. -/
  block : Text
  /-- What stands between the braces of the other branch, if there is one. -/
  elseBlock : Option Text
  deriving DecidableEq, Repr

namespace Statement

def elseText : Text := "else".toList

/-- Whether a text begins with another branch that is set apart by blanks, in front of it or in
front of its brace. -/
def isDetachedElse (t : Text) : Bool :=
  match Text.strip? elseText (Text.trimStart t) with
  | some rest => (Text.trimStart rest).head? == some Pair.braces.opener
  | none => false

/-- The other branch that a text begins with, if there is one. A conditional refuses one that is
set apart. -/
def readElse (keyword : Text) (parameters : Option Text) (t : Text) :
    Except SyntaxError (Option Text × Text) :=
  match Text.strip? elseText t with
  | some (c :: rest) =>
    if c = Pair.braces.opener then
      match Pair.braces.interior? (c :: rest) with
      | some (block, rest) => .ok (some block, rest)
      | none => .error .missingClosingBrace
    else refuseDetached t
  | _ => refuseDetached t
where
  /-- No branch, unless one is set apart. -/
  refuseDetached (t : Text) : Except SyntaxError (Option Text × Text) :=
    if keyword = "if".toList ∧ isDetachedElse t then
      .error (.invalidConnective (parameters.getD []))
    else .ok (none, t)

/-- The rest of a statement from the opening brace of its block on. -/
def readBlocks (keyword : Text) (parameters : Option Text) (t : Text) :
    Except SyntaxError (Statement × Text) :=
  match Pair.braces.interior? t with
  | none => .error .missingClosingBrace
  | some (block, rest) =>
    match readElse keyword parameters rest with
    | .error e => .error e
    | .ok (elseBlock, rest) => .ok (⟨keyword, parameters, block, elseBlock⟩, rest)

/-- The statement that stands in front of the end of a text, given what follows its marker, and
the text after it. Parameters count only in front of the first brace, and what stands between them
and the block is passed over. -/
def read (t : Text) : Except SyntaxError (Statement × Text) :=
  match Text.cutAt? Pair.braces.opener t with
  | none => .error .missingOpeningBrace
  | some (front, behind) =>
    match Text.cutAt? Pair.parens.opener front with
    | none => readBlocks front none (Pair.braces.opener :: behind)
    | some (keyword, _) =>
      match Pair.parens.interior? (t.drop keyword.length) with
      | none => .error .missingClosingParen
      | some (parameters, rest) =>
        match Text.cutAt? Pair.braces.opener rest with
        | none => .error .missingOpeningBrace
        | some (_, behind) => readBlocks keyword (some parameters) (Pair.braces.opener :: behind)

/-- A statement with its place in a document, in byte offsets. -/
structure Located where
  statement : Statement
  /-- The offset of the marker. -/
  marker : Nat
  /-- The offset behind the marker. -/
  start : Nat
  /-- The offset behind the last brace. -/
  stop : Nat
  deriving DecidableEq, Repr

/-- The statement whose marker stands in front of `start`. -/
def locate (document : Text) (start : Nat) : Except SyntaxError Located :=
  match Text.splitAt? document start with
  | none => .error .missingOpeningBrace
  | some (_, t) =>
    match read t with
    | .error e => .error e
    | .ok (statement, rest) =>
      .ok ⟨statement, start - 1, start, Text.size document - rest.size⟩

end Statement

/-- The character that introduces every statement. -/
def marker : Char := '$'

namespace Escape

def opening : Text := ['$', '$', '\x7b']

def closing : Text := ['\x7d', '$', '$']

/-- The interior of an escape and what follows it, given what follows the opening. -/
def interior? (t : Text) : Option (Text × Text) := Text.cutText? closing t

/-- The byte offset of the first marker from `cursor` on. -/
def marker? (document : Text) (cursor : Nat) : Option Nat := do
  let (_, t) ← Text.splitAt? document cursor
  let (before, _) ← Text.cutAt? marker t
  pure (cursor + before.size)

/-- Whether an escape opens at a byte offset. -/
def opensAt (document : Text) (index : Nat) : Bool :=
  match Text.splitAt? document index with
  | some (_, t) => t.startsWith opening
  | none => false

/-- The document without the opening and closing of the escape at `index`, and the bytes of the
interior that now stands there. -/
def unwrap (document : Text) (index : Nat) : Except SyntaxError (Text × Nat) :=
  match Text.splitAt? document index, Text.splitAt? document (index + opening.size) with
  | some (before, _), some (_, t) =>
    match interior? t with
    | some (interior, rest) => .ok (before ++ interior ++ rest, interior.size)
    | none => .error (.loneEscape index)
  | _, _ => .error (.loneEscape index)

end Escape
end Stencil
