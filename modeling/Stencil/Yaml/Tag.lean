import Stencil.Yaml.Scalar
import Stencil.Number.Decimal

namespace Stencil.Yaml

/-- A tag as it is written: a handle, which a directive may define, and a suffix. The handle is
empty if the suffix is the whole tag. Both are octets, each a character below 256. -/
structure Tag where
  handle : Text
  suffix : Text
  deriving DecidableEq, Repr

/-- The characters of tags. The last three stand only where no flow collection could take them. -/
def isTagChar (flowChars : Bool) (c : Char) : Bool :=
  isWordChar c || ";/?:@&=+$.!~*'()".toList.contains c || (flowChars && ",[]".toList.contains c)

/-- An octet that is written as a percent sign and two digits, and what follows it. -/
def octet? : Text → Option (Nat × Text)
  | '%' :: a :: b :: t => (Number.natural? 16 [a, b]).map fun n => (n, t)
  | _ => none

/-- How many octets a character has that begins with a given one. -/
def octets? (first : Nat) : Option Nat :=
  if first < 0x80 then some 1
  else if first < 0xC0 then none
  else if first < 0xE0 then some 2
  else if first < 0xF0 then some 3
  else if first < 0xF8 then some 4
  else none

/-- The octets of a character behind its first, and what follows them. -/
def moreOctets? : Nat → Text → Option (Text × Text)
  | 0, t => some ([], t)
  | n + 1, t => do
    let (o, t) ← octet? t
    if o / 0x40 = 2 then (moreOctets? n t).map fun (os, t) => (Char.ofNat o :: os, t) else none

/-- The octets of a character, each after a percent sign, and what follows them. -/
def escaped? (t : Text) : Option (Text × Text) := do
  let (first, t) ← octet? t
  let n ← octets? first
  (moreOctets? (n - 1) t).map fun (os, t) => (Char.ofNat first :: os, t)

/-- The octets of a tag, of at most `n` characters, and what follows them. -/
def tagOctets? (flowChars : Bool) : Nat → Text → Option (Text × Text)
  | 0, t => some ([], t)
  | n + 1, t =>
    match t with
    | [] => some ([], [])
    | c :: rest =>
      if c = '%' then do
        let (e, t) ← escaped? t
        let (cs, t) ← tagOctets? flowChars n t
        pure (e ++ cs, t)
      else if isTagChar flowChars c then
        (tagOctets? flowChars n rest).map fun (cs, t) => (c :: cs, t)
      else some ([], t)

/-- The octets in front of the first that is zero, where a part of a tag ends. -/
def untilZero (t : Text) : Text := t.takeWhile (· != '\x00')

/-- A part of a tag that is written in one character at least, and what follows it. -/
def tagText? (flowChars : Bool) (t : Text) : Option (Text × Text) :=
  ((tagOctets? flowChars t.length t).filter fun (cs, _) => !cs.isEmpty).map fun (cs, t) =>
    (untilZero cs, t)

/-- A handle between exclamation marks at the start of a text, and what follows it. -/
def handle? : Text → Option (Text × Text)
  | '!' :: t =>
    match t.span isWordChar with
    | (name, '!' :: rest) => some ('!' :: name ++ ['!'], rest)
    | _ => none
  | _ => none

/-- A tag at the start of a text, and what follows it: verbatim in brackets, with a handle, local
behind one exclamation mark, or that mark alone. -/
def tag? : Text → Option (Tag × Text)
  | '!' :: '<' :: t => do
    let (suffix, t) ← tagText? true t
    match t with
    | '>' :: t => pure (⟨[], suffix⟩, t)
    | _ => none
  | t =>
    match handle? t with
    | some (handle, t) => (tagText? false t).map fun (suffix, t) => (⟨handle, suffix⟩, t)
    | none => do
      let (suffix, t) ← tagOctets? false t.length (t.drop 1)
      let suffix := untilZero suffix
      pure (if suffix.isEmpty then ⟨[], ['!']⟩ else ⟨['!'], suffix⟩, t)

/-- Whether a tag is local: it begins with an exclamation mark, and what follows is UTF-8. -/
def isLocal : Text → Bool
  | '!' :: t => (ByteArray.mk (t.map fun c => c.toNat.toUInt8).toArray).validateUTF8
  | _ => false

/-- A line that settles how a document is read. -/
inductive Directive
  | version (major minor : Nat)
  | handle (handle replacement : Text)

/-- A part of a version number: at most nine digits. -/
def versionPart? (t : Text) : Option (Nat × Text) :=
  let (ds, rest) := Number.digits t
  if ds.isEmpty || 9 < ds.length then none else some (Number.ofDigits 10 ds, rest)

/-- A directive after its percent sign, and what follows its line. -/
def directive? (t : Text) : Option (Directive × Text) := do
  let (name, t) := t.span isWordChar
  if !atGap t then none
  let t := t.dropWhile isBlank
  if name = "YAML".toList then
    let (major, t) ← versionPart? t
    match t with
    | '.' :: t =>
      let (minor, t) ← versionPart? t
      pure (.version major minor, ← lineEnd? t)
    | _ => none
  else if name = "TAG".toList then
    let (handle, t) ← match handle? t with
      | some r => some r
      | none => match t with
        | '!' :: t => some (['!'], t)
        | _ => none
    if !t.head?.any isBlank then none
    let (replacement, t) ← tagText? true (t.dropWhile isBlank)
    if !atGap t then none
    pure (.handle handle replacement, ← lineEnd? t)
  else none

end Stencil.Yaml
