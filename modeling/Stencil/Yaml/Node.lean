import Stencil.Yaml.Token

namespace Stencil.Yaml

structure Properties where
  anchor : Option Text
  /-- The tag, with its handle resolved. -/
  tag : Option Text
  deriving DecidableEq, Repr

/-- A node, in which aliases refer to anchors by `ref`. A mapping keeps the order of its entries. -/
inductive Node (ref : Type)
  | alias (anchor : ref)
  | scalar (properties : Properties) (plain : Bool) (text : Text)
  | sequence (properties : Properties) (items : List (Node ref))
  | mapping (properties : Properties) (entries : List (Node ref × Node ref))

/-- A node as it is written, with the names of anchors. -/
abbrev NamedNode := Node Text

namespace NamedNode

def blank : NamedNode := .scalar ⟨none, none⟩ true []

end NamedNode

/-- What the handles of tags stand for. -/
abbrev Handles := List (Text × Text)

def Tag.resolve? (handles : Handles) (t : Tag) : Option Text :=
  if t.handle.isEmpty then some t.suffix
  else (handles.lookup t.handle).map (· ++ t.suffix)

def takeAnchor : List Token → Option Text × List Token
  | .anchor name :: ts => (some name, ts)
  | ts => (none, ts)

def takeTag : List Token → Option Tag × List Token
  | .tag t :: ts => (some t, ts)
  | ts => (none, ts)

/-- The properties that tokens begin with, in either order, and what follows them. -/
def properties? (handles : Handles) (ts : List Token) : Option (Properties × List Token) :=
  let (anchor, tag, rest) := match takeAnchor ts with
    | (some a, ts) =>
      let (tag, ts) := takeTag ts
      (some a, tag, ts)
    | (none, ts) =>
      let (tag, ts) := takeTag ts
      if tag.isSome then
        let (anchor, ts) := takeAnchor ts
        (anchor, tag, ts)
      else (none, none, ts)
  match tag with
  | none => some (⟨anchor, none⟩, rest)
  | some t => (t.resolve? handles).map fun t => (⟨anchor, some t⟩, rest)

/-- Where nodes may stand. -/
inductive Position
  /-- In a flow collection. -/
  | flow
  /-- In a block collection. -/
  | block
  /-- In a block mapping, where a sequence needs no further indentation. -/
  | entry
  deriving DecidableEq, Repr

/-- Whether tokens begin with one that ends the value of a block mapping or the item of a sequence
in one. -/
def endsEntry : List Token → Bool
  | .key :: _ | .value :: _ | .blockEnd :: _ => true
  | _ => false

/-- Whether tokens begin with one that ends the item of a flow sequence. -/
def endsFlowItem : List Token → Bool
  | .flowEntry :: _ | .flowSequenceEnd :: _ => true
  | _ => false

/-- Whether tokens begin with one that ends the value of a flow mapping. -/
def endsFlowValue : List Token → Bool
  | .flowEntry :: _ | .flowMappingEnd :: _ => true
  | _ => false

/-- Whether tokens begin with a colon. -/
def startsValue : List Token → Bool
  | .value :: _ => true
  | _ => false

mutual

/-- A node at the start of tokens, and what follows it. -/
def node? (handles : Handles) : Nat → Position → List Token → Option (NamedNode × List Token)
  | 0, _, _ => none
  | n + 1, position, ts =>
    match ts with
    | .alias name :: ts => some (.alias name, ts)
    | ts => do
      let (properties, ts) ← properties? handles ts
      match ts with
      | .blockEntry :: _ =>
        if position = .entry then
          let (items, ts) ← openItems? handles n ts
          pure (.sequence properties items, ts)
        else content? handles n position properties ts
      | ts => content? handles n position properties ts

/-- The content of a node behind its properties, and what follows it. -/
def content? (handles : Handles) :
    Nat → Position → Properties → List Token → Option (NamedNode × List Token)
  | 0, _, _, _ => none
  | n + 1, position, p, ts =>
    match ts with
    | .scalar plain text :: ts =>
      some (.scalar p plain text, ts)
    | .flowSequenceStart :: ts => do
      let (items, ts) ← flowItems? handles n ts
      pure (.sequence p items, ts)
    | .flowMappingStart :: ts => do
      let (entries, ts) ← flowEntries? handles n ts
      pure (.mapping p entries, ts)
    | .blockSequenceStart :: ts =>
      if position = .flow then bare? p (.blockSequenceStart :: ts)
      else do
        let (items, ts) ← items? handles n ts
        pure (.sequence p items, ts)
    | .blockMappingStart :: ts =>
      if position = .flow then bare? p (.blockMappingStart :: ts)
      else do
        let (entries, ts) ← entries? handles n ts
        pure (.mapping p entries, ts)
    | ts => bare? p ts

/-- A node of properties alone. -/
def bare? (p : Properties) (ts : List Token) : Option (NamedNode × List Token) :=
  if p.anchor.isSome || p.tag.isSome then some (.scalar p true [], ts) else none

def items? (handles : Handles) : Nat → List Token → Option (List NamedNode × List Token)
  | 0, _ => none
  | n + 1, ts =>
    match ts with
    | .blockEnd :: ts => some ([], ts)
    | .blockEntry :: ts => do
      let (item, ts) ← match ts with
        | .blockEntry :: _ | .blockEnd :: _ => some (NamedNode.blank, ts)
        | ts => node? handles n .block ts
      let (items, ts) ← items? handles n ts
      pure (item :: items, ts)
    | _ => none

/-- The items of a sequence that is not indented in its mapping, and what follows the last. -/
def openItems? (handles : Handles) : Nat → List Token → Option (List NamedNode × List Token)
  | 0, _ => none
  | n + 1, ts =>
    match ts with
    | .blockEntry :: ts => do
      let (item, ts) ← match ts with
        | .blockEntry :: _ => some (NamedNode.blank, ts)
        | ts => if endsEntry ts then some (NamedNode.blank, ts) else node? handles n .block ts
      let (items, ts) ← openItems? handles n ts
      pure (item :: items, ts)
    | ts => some ([], ts)

def entries? (handles : Handles) : Nat → List Token →
    Option (List (NamedNode × NamedNode) × List Token)
  | 0, _ => none
  | n + 1, ts =>
    match ts with
    | .blockEnd :: ts => some ([], ts)
    | .key :: ts => do
      let (key, ts) ←
        if endsEntry ts then some (NamedNode.blank, ts) else node? handles n .entry ts
      let (value, ts) ← match ts with
        | .value :: ts =>
          if endsEntry ts then some (NamedNode.blank, ts) else node? handles n .entry ts
        | ts => some (NamedNode.blank, ts)
      let (entries, ts) ← entries? handles n ts
      pure ((key, value) :: entries, ts)
    | _ => none

/-- The items of a flow sequence, and what follows its end. An item with a colon is a mapping of
its own. -/
def flowItems? (handles : Handles) : Nat → List Token → Option (List NamedNode × List Token)
  | 0, _ => none
  | n + 1, ts =>
    match ts with
    | .flowSequenceEnd :: ts => some ([], ts)
    | ts => do
      let (item, ts) ← match ts with
        | .key :: ts => do
          let (entry, ts) ← flowPair? handles n ts
          pure (.mapping ⟨none, none⟩ [entry], ts)
        | ts => node? handles n .flow ts
      match ts with
      | .flowEntry :: ts =>
        let (items, ts) ← flowItems? handles n ts
        pure (item :: items, ts)
      | .flowSequenceEnd :: ts => pure ([item], ts)
      | _ => none

/-- A key and its value as an item of a flow sequence, and what follows them. A blank key takes the
token behind it with it. -/
def flowPair? (handles : Handles) : Nat → List Token → Option ((NamedNode × NamedNode) × List Token)
  | 0, _ => none
  | n + 1, ts => do
    let (key, ts) ←
      if startsValue ts || endsFlowItem ts then some (NamedNode.blank, ts.drop 1)
      else node? handles n .flow ts
    let (value, ts) ← match ts with
      | .value :: ts =>
        if endsFlowItem ts then some (NamedNode.blank, ts) else node? handles n .flow ts
      | ts => some (NamedNode.blank, ts)
    pure ((key, value), ts)

def flowEntries? (handles : Handles) :
    Nat → List Token → Option (List (NamedNode × NamedNode) × List Token)
  | 0, _ => none
  | n + 1, ts =>
    match ts with
    | .flowMappingEnd :: ts => some ([], ts)
    | ts => do
      let (entry, ts) ← match ts with
        | .key :: ts => do
          let (key, ts) ←
            if startsValue ts || endsFlowValue ts then some (NamedNode.blank, ts)
            else node? handles n .flow ts
          let (value, ts) ← match ts with
            | .value :: ts =>
              if endsFlowValue ts then some (NamedNode.blank, ts) else node? handles n .flow ts
            | ts => some (NamedNode.blank, ts)
          pure ((key, value), ts)
        | ts => do
          let (key, ts) ← node? handles n .flow ts
          pure ((key, NamedNode.blank), ts)
      match ts with
      | .flowEntry :: ts =>
        let (entries, ts) ← flowEntries? handles n ts
        pure (entry :: entries, ts)
      | .flowMappingEnd :: ts => pure ([entry], ts)
      | _ => none

end

/-- The directives of a document. -/
structure Preamble where
  version : Bool
  handles : Handles

def preamble? (p : Preamble) : List Token → Option (Preamble × List Token)
  | .directive (.version major minor) :: ts =>
    if p.version || major != 1 || (minor != 1 && minor != 2) then none
    else preamble? { p with version := true } ts
  | .directive (.handle h replacement) :: ts =>
    if (p.handles.lookup h).isSome then none
    else preamble? { p with handles := p.handles ++ [(h, replacement)] } ts
  | ts => some (p, ts)

/-- The handles that need no directive. -/
def defaultHandles : Handles := [(['!'], ['!']), ("!!".toList, "tag:yaml.org,2002:".toList)]

def endsDocument : List Token → Bool
  | [] | .directive _ :: _ | .documentStart :: _ | .documentEnd :: _ => true
  | _ => false

def skipEnds : List Token → List Token
  | .documentEnd :: ts => skipEnds ts
  | ts => ts

/-- The node of the only document of tokens; none in it if there are no tokens. -/
def ofTokens? (ts : List Token) : Option (Option NamedNode) := do
  let n := 4 * ts.length + 4
  let starts := match ts with
    | .directive _ :: _ | .documentStart :: _ => true
    | _ => false
  if ts.isEmpty then pure none
  else
    let (node, ts) ←
      if starts then do
        let (p, ts) ← preamble? ⟨false, []⟩ ts
        match ts with
        | .documentStart :: ts =>
          if endsDocument ts then pure (NamedNode.blank, ts)
          else node? (p.handles ++ defaultHandles) n .block ts
        | _ => none
      else node? defaultHandles n .block ts
    if (skipEnds ts).isEmpty then pure (some node) else none

end Stencil.Yaml
