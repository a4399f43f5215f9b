import Stencil.Number.Decimal
import Stencil.Text.Basic

namespace Stencil.Yaml

def isBlank (c : Char) : Bool := c == ' ' || c == '\t'

def isBreak (c : Char) : Bool :=
  c == '\n' || c == '\r' || c == '\x85' || c == '\u2028' || c == '\u2029'

def isWordChar (c : Char) : Bool := c.isAlphanum || c == '_' || c == '-'

def isAllowed (c : Char) : Bool :=
  let n := c.toNat
  c == '\t' || c == '\n' || c == '\r' || (0x20 ≤ n && n ≤ 0x7E) || n == 0x85 ||
    (0xA0 ≤ n && n ≤ 0xFFFD) || 0x10000 ≤ n

/-- Whether a text is empty or begins with a blank or a break. -/
def atGap (t : Text) : Bool := t.head?.all fun c => isBlank c || isBreak c

/-- Whether a text begins with three given characters and a gap. -/
def isMarker (mark : Char) (t : Text) : Bool :=
  ((Text.strip? [mark, mark, mark] t).map atGap).getD false

/-- Whether a text begins with a mark between documents, if it stands at the start of a line. -/
def isDocumentMarker (t : Text) : Bool := isMarker '-' t || isMarker '.' t

/-- The line break as which a break counts. -/
def normalBreak (c : Char) : Char := if c == '\u2028' || c == '\u2029' then c else '\n'

def lineBreak : Text → Text × Text
  | '\r' :: '\n' :: t => (['\n'], t)
  | c :: t => if isBreak c then ([normalBreak c], t) else ([], c :: t)
  | [] => ([], [])

def breaks : Text → Text
  | [] => []
  | '\r' :: '\n' :: t => '\n' :: breaks t
  | c :: t => if isBreak c then normalBreak c :: breaks t else breaks t

/-- A run of blanks and breaks, folded. -/
def fold (run : Text) : Text :=
  match breaks run with
  | [] => run
  | ['\n'] => [' ']
  | '\n' :: bs => bs
  | bs => bs

def takeRun (t : Text) : Text × Text := t.span fun c => isBlank c || isBreak c

/-- The column behind a run that holds a break. -/
def columnAfter (run : Text) : Nat := (run.reverse.takeWhile fun c => !isBreak c).length

/-- What follows a comment or blanks at the end of a line, and the break; none if the line does not
end there. -/
def lineEnd? (t : Text) : Option Text :=
  let t := t.dropWhile isBlank
  let t := if t.head? == some '#' then t.dropWhile fun c => !isBreak c else t
  match t with
  | [] => some []
  | c :: _ => if isBreak c then some (lineBreak t).2 else none

/-- Characters with a meaning of their own inside flow collections. -/
def isFlowIndicator (c : Char) : Bool :=
  c == ',' || c == '[' || c == ']' || c == '{' || c == '}'

/-- Characters that do not begin a plain scalar by themselves. -/
def isIndicator (c : Char) : Bool := isFlowIndicator c || "-?:#&*!|>'\"%@\x60".toList.contains c

/-- Whether a plain scalar begins here. -/
def startsPlain (flow : Bool) (t : Text) : Bool :=
  match t with
  | [] => false
  | c :: r =>
    if c == '-' then !r.head?.any isBlank
    else if c == '?' || c == ':' then !flow && !atGap r
    else !isBlank c && !isBreak c && !isIndicator c

/-- The characters up to the next gap or indicator, and what follows them. In a flow collection no
colon may touch an indicator. -/
def plainWord? (flow : Bool) : Text → Option (Text × Text)
  | [] => some ([], [])
  | c :: t =>
    let clash := c == ':' && t.head?.any fun d => isFlowIndicator d || d == '?'
    if isBlank c || isBreak c then some ([], c :: t)
    else if flow && clash then none
    else if (c == ':' && atGap t) || (flow && isFlowIndicator c) then some ([], c :: t)
    else (plainWord? flow t).map fun (w, r) => (c :: w, r)

/-- Whether a tab stands in front of a column in a line of a run. -/
def hasTabBefore (indent column : Nat) : Text → Bool
  | [] => false
  | c :: t =>
    if isBreak c then hasTabBefore indent 0 t
    else (c == '\t' && column < indent) || hasTabBefore indent (column + 1) t

/-- A plain scalar as it was read. -/
structure Plain where
  text : Text
  /-- Whether line breaks behind it were passed. -/
  atLine : Bool
  rest : Text

/-- The words of a plain scalar, at most `n`, with `gap` in front of the first. -/
def plainWords? (flow : Bool) (indent : Nat) : Nat → (gap : Text) → Text → Option Plain
  | 0, _, _ => none
  | n + 1, gap, t => do
    let atLine := gap.any isBreak
    let stop : Plain := ⟨[], atLine, t⟩
    if (atLine && columnAfter gap == 0 && isDocumentMarker t) || t.head? == some '#' then pure stop
    else
      let (word, rest) ← plainWord? flow t
      if word.isEmpty then pure stop
      else
        let front := fold gap ++ word
        let (run, after) := takeRun rest
        if run.isEmpty then pure ⟨front, false, rest⟩
        else if hasTabBefore indent indent run then none
        else if !flow && run.any isBreak && columnAfter run < indent then
          pure ⟨front, true, after⟩
        else
          let p ← plainWords? flow indent n run after
          pure { p with text := front ++ p.text }

/-- A plain scalar at the start of a text, where lines that go on are indented at least so far. -/
def readPlain? (flow : Bool) (indent : Nat) (t : Text) : Option Plain :=
  plainWords? flow indent (t.length + 1) [] t

def escape? : Char → Option Char
  | '0' => some '\x00'
  | 'a' => some '\x07'
  | 'b' => some '\x08'
  | 't' => some '\t'
  | '\t' => some '\t'
  | 'n' => some '\n'
  | 'v' => some '\x0b'
  | 'f' => some '\x0c'
  | 'r' => some '\r'
  | 'e' => some '\x1b'
  | ' ' => some ' '
  | '"' => some '"'
  | '/' => some '/'
  | '\\' => some '\\'
  | 'N' => some '\x85'
  | '_' => some '\xa0'
  | 'L' => some '\u2028'
  | 'P' => some '\u2029'
  | _ => none

def hexWidth? : Char → Option Nat
  | 'x' => some 2
  | 'u' => some 4
  | 'U' => some 8
  | _ => none

def readEscape? : Text → Option (Char × Text)
  | [] => none
  | c :: t =>
    match hexWidth? c with
    | some width =>
      let ds := t.take width
      if ds.length = width then
        match Number.natural? 16 ds with
        | some n => if n.isValidChar then some (Char.ofNat n, t.drop width) else none
        | none => none
      else none
    | none => (escape? c).map fun e => (e, t)

/-- The rest of a quoted scalar in at most `n` steps, and what follows it. At the start of a line
no document may end. -/
def quoted? (single : Bool) : Nat → Bool → Text → Option (Text × Text)
  | 0, _, _ => none
  | n + 1, lineStart, t =>
    if lineStart && isDocumentMarker t then none
    else match t with
      | [] => none
      | c :: t =>
        let into (front : Text) (lineStart : Bool) (t : Text) :=
          (quoted? single n lineStart t).map fun (s, r) => (front ++ s, r)
        if isBlank c || isBreak c then
          let (run, rest) := takeRun (c :: t)
          into (fold run) (run.getLast?.any isBreak) rest
        else if single then
          if c = '\'' then
            match t with
            | '\'' :: t => into ['\''] false t
            | t => some ([], t)
          else into [c] false t
        else if c = '"' then some ([], t)
        else if c = '\\' then
          if t.head?.any isBreak then
            let (run, rest) := takeRun (lineBreak t).2
            into (breaks run) (run.getLast?.all isBreak) rest
          else match readEscape? t with
            | some (e, rest) => into [e] false rest
            | none => none
        else into [c] false t

/-- The scalar after an opening quote, and what follows it. -/
def readQuoted? (single : Bool) (t : Text) : Option (Text × Text) :=
  quoted? single (t.length + 1) false t

/-- What happens to the line breaks at the end of a block scalar. -/
inductive Chomp
  | strip
  | clip
  | keep
  deriving DecidableEq, Repr

/-- The chomping indicator that a text begins with, and what follows it. -/
def chomp? : Text → Option (Chomp × Text)
  | '+' :: t => some (.keep, t)
  | '-' :: t => some (.strip, t)
  | _ => none

/-- The indentation indicator that a text begins with, and what follows it. Zero is an error. -/
def increment? : Text → Option (Option Nat × Text)
  | c :: t =>
    if c = '0' then none
    else match Number.digit? 10 c with
      | some d => some (some d, t)
      | none => some (none, c :: t)
  | [] => some (none, [])

/-- The indicators of a header, in either order, and what follows the header's line. -/
def blockHeader? (t : Text) : Option (Chomp × Option Nat × Text) := do
  match chomp? t with
  | some (chomp, t) =>
    let (increment, t) ← increment? t
    pure (chomp, increment, ← lineEnd? t)
  | none =>
    let (increment, t) ← increment? t
    let (chomp, t) := match increment with
      | some _ => (chomp? t).getD (.clip, t)
      | none => (.clip, t)
    pure (chomp, increment, ← lineEnd? t)

/-- Lines of spaces alone. -/
structure BlankLines where
  breaks : Text
  /-- The most spaces in front of any of them and of the line behind them. -/
  widest : Nat
  /-- The spaces in front of the line behind them, up to the indentation. -/
  column : Nat
  rest : Text

/-- The blank lines that a text begins with, where `column` spaces of the first line are passed. If
the indentation is given, spaces count up to it. No tab stands in front of it. -/
def blankLines? (indent : Option Nat) (column widest : Nat) : Text → Option BlankLines
  | [] => some ⟨[], max widest column, column, []⟩
  | '\r' :: '\n' :: t =>
    (blankLines? indent 0 (max widest column) t).map fun b => { b with breaks := '\n' :: b.breaks }
  | c :: t =>
    let inside := indent.all fun n => column < n
    if c = ' ' ∧ inside then blankLines? indent (column + 1) widest t
    else if c = '\t' ∧ inside then none
    else if isBreak c then
      (blankLines? indent 0 (max widest column) t).map fun b =>
        { b with breaks := normalBreak c :: b.breaks }
    else some ⟨[], max widest column, column, c :: t⟩

/-- A line of a block scalar. -/
structure BlockLine where
  text : Text
  /-- The break at its end, if any. -/
  ending : Text
  /-- The breaks of the blank lines behind it. -/
  blank : Text

/-- Whether a line is indented further than its scalar. -/
def BlockLine.isIndented (l : BlockLine) : Bool := l.text.head?.any isBlank

/-- The lines at an indentation, at most `n`, and what follows them. -/
def blockLines? (indent : Nat) : Nat → (column : Nat) → Text → Option (List BlockLine × Text)
  | 0, _, _ => none
  | n + 1, column, t =>
    if t.isEmpty || column != indent then some ([], t)
    else do
      let (text, t) := t.span fun c => !isBreak c
      let (ending, t) := lineBreak t
      let b ← blankLines? (some indent) 0 0 t
      let (lines, t) ← blockLines? indent n b.column b.rest
      pure (⟨text, ending, b.breaks⟩ :: lines, t)

/-- The text of lines. In a folded scalar the break between two lines that are not indented
further becomes a space, or nothing if blank lines follow it. -/
def joinLines (folded : Bool) (chomp : Chomp) : List BlockLine → Text
  | [] => []
  | [l] => l.text ++ match chomp with
    | .strip => []
    | .clip => l.ending
    | .keep => l.ending ++ l.blank
  | l :: m :: ls =>
    let between :=
      if folded && l.ending == ['\n'] && !l.isIndented && !m.isIndented then
        if l.blank.isEmpty then [' '] else l.blank
      else l.ending ++ l.blank
    l.text ++ between ++ joinLines folded chomp (m :: ls)

/-- A block scalar after its first character, and what follows it. Lines belong to it that are
indented as far as its first, and at least to `least`; the header may fix how far. -/
def readBlock? (folded : Bool) (least : Nat) (t : Text) : Option (Text × Text) := do
  let (chomp, increment, t) ← blockHeader? t
  let fixed := increment.map fun n => least - 1 + n
  let b ← blankLines? fixed 0 0 t
  let indent := fixed.getD (max (max b.widest least) 1)
  let (lines, rest) ← blockLines? indent (b.rest.length + 1) b.column b.rest
  let front := if lines.isEmpty && chomp != .keep then [] else b.breaks
  pure (front ++ joinLines folded chomp lines, rest)

end Stencil.Yaml
