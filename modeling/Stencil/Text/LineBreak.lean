import Stencil.Text.Basic

namespace Stencil.Text

/-- What a character is to the lines that it stands on. -/
inductive LineClass
  | lineEnd
  | space
  /-- Stands on the character in front of it. -/
  | mark
  | glue
  | opening
  | closing
  /-- A closing parenthesis or bracket. -/
  | parenthesis
  | quote
  | exclamation
  /-- A point, a comma or a colon. -/
  | infixMark
  | slash
  | hyphen
  /-- Allows a line to end behind it. -/
  | separator
  /-- A mark in front of numbers, such as a currency. -/
  | prefixMark
  /-- A mark behind numbers, such as a percent sign. -/
  | postfixMark
  | digit
  | letter
  | ideograph
  /-- A character that begins no line, such as a small kana. -/
  | nonStarter
  deriving DecidableEq, Repr

namespace LineClass

/-- Characters of Japanese that begin no line. -/
def kana : Text :=
  "ぁぃぅぇぉっゃゅょゎゕゖ゛゜ゝゞ゠ァィゥェォッャュョヮヵヶ・ーヽヾ〜々".toList

/-- Ranges of characters beyond ASCII that are no letters. -/
def ranges : List (Nat × Nat × LineClass) :=
  [(0x85, 0x85, lineEnd), (0xA0, 0xA0, glue), (0xA1, 0xA1, opening), (0xA2, 0xA2, postfixMark),
    (0xA3, 0xA5, prefixMark), (0xAB, 0xAB, quote), (0xAD, 0xAD, hyphen), (0xB0, 0xB0, postfixMark),
    (0xB1, 0xB1, prefixMark), (0xBB, 0xBB, quote), (0xBF, 0xBF, opening), (0x300, 0x36F, mark),
    (0x2000, 0x2006, separator), (0x2007, 0x2007, glue), (0x2008, 0x200A, separator),
    (0x200D, 0x200D, mark), (0x2010, 0x2010, separator), (0x2011, 0x2011, glue),
    (0x2012, 0x2013, separator), (0x2018, 0x2019, quote), (0x201A, 0x201A, opening),
    (0x201B, 0x201D, quote), (0x201E, 0x201E, opening), (0x201F, 0x201F, quote),
    (0x2028, 0x2029, lineEnd), (0x202F, 0x202F, glue), (0x2030, 0x2037, postfixMark),
    (0x2039, 0x203A, quote), (0x2060, 0x2060, glue), (0x20A0, 0x20CF, prefixMark),
    (0x20D0, 0x20F0, mark), (0x2E80, 0x2FFF, ideograph), (0x3000, 0x3000, separator),
    (0x3001, 0x3002, closing), (0x3003, 0x3007, ideograph),
    (0x3041, 0x30FF, ideograph), (0x3100, 0x4DBF, ideograph),
    (0x4E00, 0x9FFF, ideograph), (0xAC00, 0xD7A3, ideograph), (0xF900, 0xFAFF, ideograph),
    (0xFE00, 0xFE0F, mark), (0xFEFF, 0xFEFF, glue), (0xFF01, 0xFF01, exclamation),
    (0xFF08, 0xFF08, opening), (0xFF09, 0xFF09, closing), (0xFF0C, 0xFF0C, closing),
    (0xFF0E, 0xFF0E, closing), (0xFF1A, 0xFF1B, nonStarter), (0xFF1F, 0xFF1F, exclamation),
    (0xFF02, 0xFF5E, ideograph), (0x1F300, 0x1FAFF, ideograph), (0x20000, 0x3FFFD, ideograph)]

def ofChar (c : Char) : LineClass :=
  if c == ' ' then space
  else if c.isDigit then digit
  else if "\n\x0b\x0c\r".toList.contains c then lineEnd
  else if c == '\t' || c == '|' then separator
  else if c.toNat < 0x20 || c == '\x7f' then mark
  else if c == '!' || c == '?' then exclamation
  else if c == '"' || c == '\'' then quote
  else if "$+\\".toList.contains c then prefixMark
  else if c == '%' then postfixMark
  else if "([\x7b".toList.contains c then opening
  else if c == ')' || c == ']' then parenthesis
  else if c == '}' then closing
  else if ",.:;".toList.contains c then infixMark
  else if c == '-' then hyphen
  else if c == '/' then slash
  else if kana.contains c then nonStarter
  else if "〈《「『【〔〖〘〚".toList.contains c then opening
  else if "〉》」』】〕〗〙〛".toList.contains c then closing
  else
    (ranges.findSome? fun (low, high, k) =>
      if low ≤ c.toNat && c.toNat ≤ high then some k else none).getD letter

/-- Whether no line begins with a character, also behind spaces. -/
def beginsNoLine : LineClass → Bool
  | lineEnd | closing | parenthesis | exclamation | infixMark | slash => true
  | _ => false

/-- Whether two characters stay on one line although spaces stand between them. -/
def joinsOverSpaces (k following : LineClass) : Bool :=
  following.beginsNoLine || match k, following with
    | opening, _ => true
    | quote, opening => true
    | closing, nonStarter | parenthesis, nonStarter => true
    | _, _ => false

/-- Whether two characters side by side stay on one line. A line does not end behind a hyphen,
which is for words alone to say. -/
def joins (k following : LineClass) : Bool :=
  joinsOverSpaces k following || match k, following with
    | hyphen, _ | glue, _ | quote, _ => true
    | separator, glue => false
    | _, glue | _, quote | _, separator | _, hyphen | _, nonStarter => true
    | letter, letter | letter, digit | digit, letter | digit, digit => true
    | prefixMark, letter | postfixMark, letter | letter, prefixMark | letter, postfixMark => true
    | prefixMark, ideograph | ideograph, postfixMark => true
    | prefixMark, digit | postfixMark, digit | digit, prefixMark | digit, postfixMark => true
    | prefixMark, opening | postfixMark, opening => true
    | closing, prefixMark | closing, postfixMark => true
    | parenthesis, prefixMark | parenthesis, postfixMark => true
    | infixMark, digit | slash, digit | infixMark, letter => true
    | letter, opening | digit, opening | parenthesis, letter | parenthesis, digit => true
    | _, _ => false

end LineClass

/-- What stands in front of a place in a text: the last character but spaces, if any, and whether
there are spaces behind it. -/
structure LinePlace where
  last : Option LineClass
  spaced : Bool

namespace LinePlace

def start : LinePlace := ⟨none, false⟩

/-- Whether a line may end at a place in front of a character that is no space. -/
def mayEnd (p : LinePlace) (following : LineClass) : Bool :=
  match p.last with
  | some .lineEnd => true
  | some k => !(if p.spaced then k.joinsOverSpaces following else k.joins following)
  | none => p.spaced && !following.beginsNoLine

/-- Whether a line may end at a place, and the place behind the next character. A mark is a letter
where it stands on nothing. -/
def next (p : LinePlace) (c : Char) : Bool × LinePlace :=
  match LineClass.ofChar c with
  | .space => if p.last == some .lineEnd then (true, ⟨none, true⟩) else (false, ⟨p.last, true⟩)
  | .mark =>
    if p.spaced || p.last.isNone || p.last == some .lineEnd then
      (p.mayEnd .letter, ⟨some .letter, false⟩)
    else (false, p)
  | k => (p.mayEnd k, ⟨some k, false⟩)

end LinePlace

def consPiece (c : Char) : List Text → List Text
  | [] => [[c]]
  | p :: ps => (c :: p) :: ps

@[simp] theorem flatten_consPiece (c : Char) (ps : List Text) :
    (consPiece c ps).flatten = c :: ps.flatten := by
  cases ps <;> simp [consPiece]

/-- The pieces of a text between the places where a line may end. -/
def linePieces (p : LinePlace) : Text → List Text
  | [] => [[]]
  | c :: t =>
    let (mayEnd, p) := p.next c
    let pieces := consPiece c (linePieces p t)
    if mayEnd then [] :: pieces else pieces

/-- The pieces are the text. -/
theorem flatten_linePieces (p : LinePlace) (t : Text) : (linePieces p t).flatten = t := by
  induction t generalizing p with
  | nil => rfl
  | cons c t ih =>
    rw [linePieces]
    cases p.next c with
    | mk mayEnd p => cases mayEnd <;> simp [ih]

end Stencil.Text
