import Stencil.Yaml.Scalar
import Stencil.Yaml.Tag

/-!
YAML texts as tokens. Block collections begin and end by indentation. Whether a token begins a key
shows only at the colon behind it, so its place is kept until then, and the tokens of the key are
put in there.
-/
namespace Stencil.Yaml

inductive Token
  | directive (directive : Directive)
  | documentStart
  | documentEnd
  | blockSequenceStart
  | blockMappingStart
  | blockEnd
  | flowSequenceStart
  | flowSequenceEnd
  | flowMappingStart
  | flowMappingEnd
  | blockEntry
  | flowEntry
  | key
  | value
  | alias (name : Text)
  | anchor (name : Text)
  | tag (tag : Tag)
  | scalar (plain : Bool) (text : Text)

structure Place where
  /-- The number of bytes in front. -/
  index : Nat
  line : Nat
  column : Nat

def Place.next (p : Place) (c : Char) : Place :=
  let index := p.index + c.utf8Size
  if isBreak c then ⟨index, p.line + 1, 0⟩ else ⟨index, p.line, p.column + 1⟩

/-- A place where a key without a question mark may begin. -/
structure KeyStart where
  place : Place
  /-- The number of tokens in front. -/
  count : Nat
  /-- Whether nothing but a key can stand there. -/
  required : Bool

/-- Whether a key cannot begin so far in front of a place: it is at most 1024 bytes long and all on
one line. -/
def KeyStart.isStale (k : KeyStart) (p : Place) : Bool :=
  k.place.line < p.line || k.place.index + 1024 < p.index

/-- A text that is read up to some place. -/
structure Lexer where
  rest : Text
  place : Place
  /-- The columns of the open block collections, the innermost first. -/
  indents : List Nat
  /-- Where a key may have begun, in the innermost flow collection or outside any. -/
  keyStart : Option KeyStart
  /-- The same for what is around it, the innermost first. -/
  outer : List (Option KeyStart)
  /-- Whether a key may begin here. -/
  keyAllowed : Bool
  /-- The number of tokens. -/
  count : Nat
  /-- The tokens, the last first. -/
  tokens : List Token

namespace Lexer

def start (t : Text) : Lexer := ⟨t, ⟨0, 0, 0⟩, [], none, [], true, 0, []⟩

def inFlow (s : Lexer) : Bool := !s.outer.isEmpty

/-- The least column of something inside the innermost block collection. -/
def least (s : Lexer) : Nat := s.indents.head?.elim 0 (· + 1)

def moveTo (s : Lexer) (rest : Text) : Lexer :=
  { s with
    rest
    place := (s.rest.take (s.rest.length - rest.length)).foldl Place.next s.place }

def emit (s : Lexer) (t : Token) : Lexer :=
  { s with tokens := t :: s.tokens, count := s.count + 1 }

/-- Adds a token behind the first `count`. -/
def emitAt (s : Lexer) (count : Nat) (t : Token) : Lexer :=
  let later := s.count - count
  { s with tokens := s.tokens.take later ++ t :: s.tokens.drop later, count := s.count + 1 }

def allowKey (s : Lexer) (allowed : Bool) : Lexer := { s with keyAllowed := allowed }

def dropKey? (s : Lexer) : Option Lexer :=
  if s.keyStart.any KeyStart.required then none else some { s with keyStart := none }

def saveKey? (s : Lexer) : Option Lexer :=
  if s.keyAllowed then do
    let required := !s.inFlow && s.indents.head? == some s.place.column
    let s ← s.dropKey?
    pure { s with keyStart := some ⟨s.place, s.count, required⟩ }
  else some s

/-- Gives up the keys that began too far in front. -/
def dropStale? (s : Lexer) : Option Lexer :=
  let fresh? (k : Option KeyStart) : Option (Option KeyStart) :=
    match k with
    | none => some none
    | some k => if k.isStale s.place then if k.required then none else some none else some (some k)
  do
    let keyStart ← fresh? s.keyStart
    let outer ← s.outer.mapM fresh?
    pure { s with keyStart, outer }

/-- Opens a block collection at a column with its token behind the first `count`, if it is indented
further than the innermost one. -/
def openBlock (s : Lexer) (column count : Nat) (t : Token) : Lexer :=
  if !s.inFlow && s.least ≤ column then { s.emitAt count t with indents := column :: s.indents }
  else s

/-- Ends the block collections that are indented to a column or further. -/
def endBlocks (s : Lexer) (column : Nat) : Lexer :=
  if s.inFlow then s
  else
    let open' := s.indents.dropWhile (column ≤ ·)
    let ended := s.indents.length - open'.length
    { s with
      indents := open'
      tokens := List.replicate ended .blockEnd ++ s.tokens
      count := s.count + ended }

/-- What skipping between tokens has to know. -/
structure Trivia where
  keyAllowed : Bool
  lineStart : Bool
  comment : Bool

/-- What follows blanks, comments and line breaks, and whether a key may begin there. A tab may
stand where no key may begin, and in flow collections. A byte order mark may begin a line, of which
it takes a column. -/
def skipTrivia (flow : Bool) : Trivia → Text → Text × Bool
  | s, [] => ([], s.keyAllowed)
  | s, c :: t =>
    if isBreak c then skipTrivia flow ⟨s.keyAllowed || !flow, true, false⟩ t
    else if s.comment || c == '#' then skipTrivia flow ⟨s.keyAllowed, false, true⟩ t
    else if c == ' ' || (c == '\t' && (flow || !s.keyAllowed)) ||
        (s.lineStart && c == '\uFEFF') then
      skipTrivia flow ⟨s.keyAllowed, false, false⟩ t
    else (c :: t, s.keyAllowed)

/-- Goes on to the start of the next token, and ends the block collections that it is not in. -/
def toNext? (s : Lexer) : Option Lexer := do
  let trivia : Trivia := ⟨s.keyAllowed, s.place.column == 0, false⟩
  let (rest, keyAllowed) := skipTrivia s.inFlow trivia s.rest
  let s ← ((s.moveTo rest).allowKey keyAllowed).dropStale?
  pure (s.endBlocks (s.place.column + 1))

/-- A directive or a mark between documents, behind which no block collection goes on. -/
def topLevel? (s : Lexer) (t : Token) (rest : Text) : Option Lexer := do
  let s ← (s.endBlocks 0).dropKey?
  pure (((s.allowKey false).moveTo rest).emit t)

def openFlow? (s : Lexer) (t : Token) (rest : Text) : Option Lexer := do
  let s ← s.saveKey?
  let s := { s with keyStart := none, outer := s.keyStart :: s.outer }
  pure (((s.allowKey true).moveTo rest).emit t)

def closeFlow? (s : Lexer) (t : Token) (rest : Text) : Option Lexer := do
  let s ← s.dropKey?
  let s := match s.outer with
    | k :: ks => { s with keyStart := k, outer := ks }
    | [] => s
  pure (((s.allowKey false).moveTo rest).emit t)

def flowEntry? (s : Lexer) (rest : Text) : Option Lexer := do
  let s ← s.dropKey?
  pure (((s.allowKey true).moveTo rest).emit .flowEntry)

def blockEntry? (s : Lexer) (rest : Text) : Option Lexer := do
  if !s.inFlow && !s.keyAllowed then none
  let s ← (s.openBlock s.place.column s.count .blockSequenceStart).dropKey?
  pure (((s.allowKey true).moveTo rest).emit .blockEntry)

def key? (s : Lexer) (rest : Text) : Option Lexer := do
  if !s.inFlow && !s.keyAllowed then none
  let s ← (s.openBlock s.place.column s.count .blockMappingStart).dropKey?
  pure (((s.allowKey (!s.inFlow)).moveTo rest).emit .key)

/-- A colon in front of a value. What may have been a key is one. -/
def value? (s : Lexer) (rest : Text) : Option Lexer :=
  match s.keyStart with
  | some k =>
    let s := (s.emitAt k.count .key).openBlock k.place.column k.count .blockMappingStart
    let s := { s with keyStart := none }
    some (((s.allowKey false).moveTo rest).emit .value)
  | none => do
    if !s.inFlow && !s.keyAllowed then none
    let s := s.openBlock s.place.column s.count .blockMappingStart
    pure (((s.allowKey (!s.inFlow)).moveTo rest).emit .value)

/-- A token that may begin a key. -/
def node? (s : Lexer) (t : Token) (rest : Text) : Option Lexer := do
  let s ← s.saveKey?
  pure (((s.allowKey false).moveTo rest).emit t)

/-- The name of an anchor or alias, and what follows it. -/
def name? (t : Text) : Option (Text × Text) :=
  let (name, rest) := t.span isWordChar
  if !name.isEmpty && (atGap rest || rest.head?.any "?:,]\x7d%@\x60".toList.contains) then
    some (name, rest)
  else none

/-- A tag, which ends in front of a gap or a comma in a flow collection. -/
def tag? (s : Lexer) : Option Lexer := do
  let (t, rest) ← Yaml.tag? s.rest
  if atGap rest || (s.inFlow && rest.head? == some ',') then s.node? (.tag t) rest else none

def block? (s : Lexer) (folded : Bool) (rest : Text) : Option Lexer := do
  let s ← s.dropKey?
  let (text, rest) ← readBlock? folded s.least rest
  pure (((s.allowKey true).moveTo rest).emit (.scalar false text))

def quoted? (s : Lexer) (single : Bool) (rest : Text) : Option Lexer := do
  let (text, rest) ← readQuoted? single rest
  s.node? (.scalar false text) rest

/-- A plain scalar. Behind a line break a key may begin. -/
def plain? (s : Lexer) : Option Lexer := do
  let p ← readPlain? s.inFlow s.least s.rest
  let s ← s.node? (.scalar true p.text) p.rest
  pure (s.allowKey p.atLine)

def token? (s : Lexer) : Option Lexer :=
  match s.rest with
  | [] => none
  | c :: t =>
    let lineStart := s.place.column == 0
    if lineStart && c == '%' then
      (directive? t).bind fun (d, rest) => s.topLevel? (.directive d) rest
    else if lineStart && isMarker '-' s.rest then s.topLevel? .documentStart (t.drop 2)
    else if lineStart && isMarker '.' s.rest then s.topLevel? .documentEnd (t.drop 2)
    else if c == '[' then s.openFlow? .flowSequenceStart t
    else if c == '{' then s.openFlow? .flowMappingStart t
    else if c == ']' then s.closeFlow? .flowSequenceEnd t
    else if c == '}' then s.closeFlow? .flowMappingEnd t
    else if c == ',' then s.flowEntry? t
    else if c == '-' && atGap t then s.blockEntry? t
    else if c == '?' && (s.inFlow || atGap t) then s.key? t
    else if c == ':' && (s.inFlow || atGap t) then s.value? t
    else if c == '*' then (name? t).bind fun (name, rest) => s.node? (.alias name) rest
    else if c == '&' then (name? t).bind fun (name, rest) => s.node? (.anchor name) rest
    else if c == '!' then s.tag?
    else if c == '|' && !s.inFlow then s.block? false t
    else if c == '>' && !s.inFlow then s.block? true t
    else if c == '\'' then s.quoted? true t
    else if c == '"' then s.quoted? false t
    else if startsPlain s.inFlow s.rest then s.plain?
    else none

def run? : Nat → Lexer → Option (List Token)
  | 0, _ => none
  | n + 1, s => do
    let s ← s.toNext?
    if s.rest.isEmpty then
      let s ← (s.endBlocks 0).dropKey?
      pure s.tokens.reverse
    else run? n (← s.token?)

end Lexer

def tokens? (t : Text) : Option (List Token) :=
  if t.all isAllowed then Lexer.run? (t.length + 1) (.start t) else none

end Stencil.Yaml
