import Stencil.Toml.Scalar
import Stencil.Toml.String
import Stencil.Toml.Table

namespace Stencil.Toml

def isSpace (c : Char) : Bool := c == ' ' || c == '\t'

def skipSpace (t : Text) : Text := t.dropWhile isSpace

/-- A text without the blanks, line breaks and comments that it begins with. -/
def skipTrivia? (comment : Bool) : Text → Option Text
  | [] => some []
  | '\n' :: t => skipTrivia? false t
  | '\r' :: '\n' :: t => skipTrivia? false t
  | c :: t =>
    if comment then if isTextChar c then skipTrivia? true t else none
    else if c = '#' then skipTrivia? true t
    else if isSpace c then skipTrivia? false t
    else some (c :: t)

/-- What follows the end of a line, in front of which a comment may stand. -/
def lineEnd? (comment : Bool) : Text → Option Text
  | [] => some []
  | '\n' :: t => some t
  | '\r' :: '\n' :: t => some t
  | c :: t =>
    if comment then if isTextChar c then lineEnd? true t else none
    else if c = '#' then lineEnd? true t
    else if isSpace c then lineEnd? false t
    else none

def isKeyChar (c : Char) : Bool := c.isAlphanum || c == '_' || c == '-'

def keyPart? : Text → Option (Text × Text)
  | '"' :: t => basic? t
  | '\'' :: t => literal? t
  | t =>
    let (part, rest) := t.span isKeyChar
    if part.isEmpty then none else some (part, rest)

/-- The parts of a dotted key, at most `n`, and what follows it. -/
def keyParts? : Nat → Text → Option (List Text × Text)
  | 0, _ => none
  | n + 1, t => do
    let (part, t) ← keyPart? t
    match skipSpace t with
    | '.' :: t =>
      let (parts, t) ← keyParts? n (skipSpace t)
      pure (part :: parts, t)
    | t => pure ([part], t)

/-- A dotted key and the blanks behind it, and what follows. -/
def key? (t : Text) : Option (List Text × Text) := keyParts? t.length t

/-- Items with commas between them up to a closing character, at most `n`. The last may have a
comma behind it, and lines may end anywhere. -/
def items? {α : Type} (item : Text → Option (α × Text)) (close : Char) :
    Nat → Text → Option (List α × Text)
  | 0, _ => none
  | n + 1, t => do
    match ← skipTrivia? false t with
    | [] => none
    | c :: t =>
      if c = close then pure ([], t)
      else
        let (x, t) ← item (c :: t)
        match ← skipTrivia? false t with
        | [] => none
        | d :: t =>
          if d = ',' then
            let (xs, t) ← items? item close n t
            pure (x :: xs, t)
          else if d = close then pure ([x], t)
          else none

/-- A key and its value. What may stand on either side of the equals sign is skipped. -/
def assignment? (skip : Text → Option Text) (value : Text → Option (Toml × Text)) (t : Text) :
    Option ((List Text × Toml) × Text) := do
  let (key, t) ← key? t
  let t ← expect? '=' (← skip t)
  let (v, t) ← value (← skip t)
  pure ((key, v), t)

/-- A value at the start of a text, and what follows it. In an inline table lines may end anywhere
but inside a key. -/
def value? : Nat → Text → Option (Toml × Text)
  | depth, t =>
    match t with
    | '"' :: _ => (quoted? t).map fun (s, r) => (.string s, r)
    | '\'' :: _ => (quoted? t).map fun (s, r) => (.string s, r)
    | '[' :: t =>
      match depth with
      | 0 => none
      | depth + 1 =>
        (items? (value? depth) ']' (t.length + 1) t).map fun (vs, r) => (.array vs, r)
    | '{' :: t =>
      match depth with
      | 0 => none
      | depth + 1 => do
        let entry := assignment? (skipTrivia? false) (value? depth)
        let (entries, r) ← items? entry '}' (t.length + 1) t
        let table ← ofAssignments? entries
        pure (.table table, r)
    | t => readScalar? t

/-- How deep arrays and inline tables nest. -/
def maxDepth : Nat := 80

inductive Line
  | assignment (key : List Text) (value : Toml)
  | header (path : List Text) (repeated : Bool)

def line? (t : Text) : Option (Line × Text) :=
  match t with
  | '[' :: '[' :: t => do
    let (path, t) ← key? (skipSpace t)
    let t ← expect? ']' t
    let t ← expect? ']' t
    pure (.header path true, t)
  | '[' :: t => do
    let (path, t) ← key? (skipSpace t)
    let t ← expect? ']' t
    pure (.header path false, t)
  | t => (assignment? (some ∘ skipSpace) (value? maxDepth) t).map fun ((k, v), t) =>
    (.assignment k v, t)

def lines? : Nat → Text → Option (List Line)
  | 0, _ => none
  | n + 1, t => do
    match ← skipTrivia? false t with
    | [] => pure []
    | c :: t =>
      let (line, t) ← line? (c :: t)
      let t ← lineEnd? false t
      let lines ← lines? n t
      pure (line :: lines)

/-- The assignments in front of the first header, and the sections. -/
def sections (lines : List Line) : List (List Text × Toml) × List Section :=
  lines.foldr
    (fun line (entries, sections) =>
      match line with
      | .assignment k v => ((k, v) :: entries, sections)
      | .header path repeated => ([], ⟨path, repeated, entries⟩ :: sections))
    ([], [])

/-- Reads a whole document, which is a table. A byte order mark in front of it is skipped. -/
def parse? (t : Text) : Option (List (Text × Toml)) := do
  let t := match t with
    | '\uFEFF' :: t => t
    | t => t
  let lines ← lines? (t.length + 1) t
  let (entries, sections) := Toml.sections lines
  ofSections? entries sections

def dateName : Text := "$__toml_private_datetime".toList

mutual

/-- A value in which tables that stand for dates are dates; none if one of them holds no date. -/
def withDates? : Toml → Option Toml
  | .array items => (itemsWithDates? items).map .array
  | .table entries =>
    match entries with
    | (name, v) :: rest =>
      if name = dateName then
        match v with
        | .string t => (datetime? t).map .datetime
        | _ => none
      else (entriesWithDates? ((name, v) :: rest)).map .table
    | [] => some (.table [])
  | v => some v

def itemsWithDates? : List Toml → Option (List Toml)
  | [] => some []
  | v :: vs => do
    let v ← withDates? v
    let vs ← itemsWithDates? vs
    pure (v :: vs)

/-- Entries whose values have their dates. -/
def entriesWithDates? : List (Text × Toml) → Option (List (Text × Toml))
  | [] => some []
  | (name, v) :: es => do
    let v ← withDates? v
    let es ← entriesWithDates? es
    pure ((name, v) :: es)

end

end Stencil.Toml
