import Stencil.Bindings
import Stencil.Json.Basic
import Stencil.Number.Decimal
import Stencil.Yaml.Node

namespace Stencil.Yaml

def isNull (t : Text) : Bool :=
  t = "null".toList || t = "Null".toList || t = "NULL".toList || t = "~".toList

def boolean? (t : Text) : Option Bool :=
  if t = "true".toList ∨ t = "True".toList ∨ t = "TRUE".toList then some true
  else if t = "false".toList ∨ t = "False".toList ∨ t = "FALSE".toList then some false
  else none

/-- A text without the sign it begins with, if any. -/
def unsigned (t : Text) : Text :=
  match t with
  | '+' :: t => t
  | '-' :: t => t
  | t => t

/-- Digits with a leading zero, which write no number. -/
def isPadded (t : Text) : Bool :=
  let ds := unsigned t
  1 < ds.length && ds.head? == some '0' && ds.all (Number.isDigit 10)

/-- The magnitude of an integer in base ten, or behind `0x`, `0o` or `0b` in another. -/
def magnitude? (t : Text) : Option Nat :=
  match t with
  | '0' :: 'x' :: ds => Number.natural? 16 ds
  | '0' :: 'o' :: ds => Number.natural? 8 ds
  | '0' :: 'b' :: ds => Number.natural? 2 ds
  | ds => if isPadded ds then none else Number.natural? 10 ds

def integer? (t : Text) : Option Int :=
  match t with
  | '-' :: t => (magnitude? t).map fun n => -n
  | '+' :: t => (magnitude? t).map fun n => n
  | t => (magnitude? t).map fun n => n

/-- What an integer means: none is one of more than 128 bits, which is no integer, and an integer
of more than 64 bits has no meaning. -/
def meaning? (n : Int) : Option (Option Json) :=
  if -2 ^ 63 ≤ n ∧ n < 2 ^ 64 then some (some (.integer n))
  else if -2 ^ 127 ≤ n ∧ n < 2 ^ 128 then some none
  else none

def float? (t : Text) : Option Json :=
  let positive := match t with
    | '+' :: t => t
    | t => t
  let infinite (t : Text) := t = ".inf".toList || t = ".Inf".toList || t = ".INF".toList
  if infinite positive || (t.head? == some '-' && infinite (t.drop 1)) then some .null
  else if t = ".nan".toList ∨ t = ".NaN".toList ∨ t = ".NAN".toList then some .null
  else if t.head? == some '+' && positive.head?.any fun c => c == '+' || c == '-' then none
  else (Number.parse? positive).bind fun x => if x.isFinite then some (.real x) else none

/-- What a plain scalar without a tag means. Its other forms are strings. -/
def plain? (t : Text) : Option Json :=
  if t.isEmpty || isNull t then some .null
  else match boolean? t with
    | some b => some (.bool b)
    | none => match (integer? t).bind meaning? with
      | some m => m
      | none => if isPadded t then some (.string t) else some ((float? t).getD (.string t))

def coreTag (kind : String) : Text := ("tag:yaml.org,2002:" ++ kind).toList

/-- What a scalar means. Local tags have no meaning, those that only look local count for nothing
where the scalar is plain, and others that are unknown make it a string. -/
def scalar? (p : Properties) (isPlain : Bool) (t : Text) : Option Json :=
  match p.tag with
  | none => if isPlain then plain? t else some (.string t)
  | some tag =>
    if tag = coreTag "bool" then (boolean? t).map .bool
    else if tag = coreTag "int" then ((integer? t).bind meaning?).bind id
    else if tag = coreTag "float" then float? t
    else if tag = coreTag "null" then if isNull t then some .null else none
    else if isLocal tag then none
    else if isPlain && tag.head? == some '!' then plain? t
    else some (.string t)

/-- The numbers of the names that were anchored so far. -/
abbrev Anchors := Bindings Nat

/-- Numbers an anchor, if there is one, by how many names were anchored before. So a name that is
anchored again shares its number with the next new name. -/
def Anchors.take (a : Anchors) : Option Text → Option Nat × Anchors
  | none => (none, a)
  | some name => (some a.length, a.insert name a.length)

/-- A node that refers to anchors by number. -/
abbrev NumberedNode := Node Nat

/-- What numbering yields: a tree, the numbers so far, and the nodes that carry one, in order. -/
structure Numbered (α : Type) where
  tree : α
  anchors : Anchors
  targets : List (Nat × NumberedNode)

/-- Puts a node in front of what its number may lead to. -/
def Numbered.carry (r : Numbered NumberedNode) (number : Option Nat) : Numbered NumberedNode :=
  match number with
  | some k => { r with targets := (k, r.tree) :: r.targets }
  | none => r

mutual

/-- Numbers the anchors of a node and refers its aliases to them. An alias needs an anchor in front
of it. -/
def number? (a : Anchors) : NamedNode → Option (Numbered NumberedNode)
  | .alias name => (a.find? name).map fun k => ⟨.alias k, a, []⟩
  | .scalar p plain text =>
    let (k, a) := a.take p.anchor
    some (Numbered.carry ⟨.scalar p plain text, a, []⟩ k)
  | .sequence p items =>
    let (k, a) := a.take p.anchor
    (numberItems? a items).map fun r =>
      Numbered.carry ⟨.sequence p r.tree, r.anchors, r.targets⟩ k
  | .mapping p entries =>
    let (k, a) := a.take p.anchor
    (numberEntries? a entries).map fun r =>
      Numbered.carry ⟨.mapping p r.tree, r.anchors, r.targets⟩ k

def numberItems? (a : Anchors) : List NamedNode → Option (Numbered (List NumberedNode))
  | [] => some ⟨[], a, []⟩
  | n :: ns => do
    let first ← number? a n
    let rest ← numberItems? first.anchors ns
    pure ⟨first.tree :: rest.tree, rest.anchors, first.targets ++ rest.targets⟩

def numberEntries? (a : Anchors) :
    List (NamedNode × NamedNode) → Option (Numbered (List (NumberedNode × NumberedNode)))
  | [] => some ⟨[], a, []⟩
  | (k, v) :: es => do
    let key ← number? a k
    let value ← number? key.anchors v
    let rest ← numberEntries? value.anchors es
    pure ⟨(key.tree, value.tree) :: rest.tree, rest.anchors,
      key.targets ++ value.targets ++ rest.targets⟩

end

mutual

/-- How many scalars and aliases a node holds, and starts and ends of collections. -/
def Node.events {ref : Type} : Node ref → Nat
  | .alias _ => 1
  | .scalar _ _ _ => 1
  | .sequence _ items => eventsOfItems items + 2
  | .mapping _ entries => eventsOfEntries entries + 2

def eventsOfItems {ref : Type} : List (Node ref) → Nat
  | [] => 0
  | n :: ns => n.events + eventsOfItems ns

def eventsOfEntries {ref : Type} : List (Node ref × Node ref) → Nat
  | [] => 0
  | (k, v) :: es => k.events + v.events + eventsOfEntries es

end

/-- Reading with a number of aliases that may still be followed. -/
abbrev Following := StateT Nat Option

/-- The node that an alias leads to; any other node leads to itself. -/
def follow (targets : List (Nat × NumberedNode)) : NumberedNode → Following NumberedNode
  | .alias k => do
    match ← get with
    | 0 => failure
    | n + 1 =>
      set n
      targets.reverse.lookup k
  | n => pure n

/-- A key: the text of a scalar, whatever it means. -/
def keyText (targets : List (Nat × NumberedNode)) (n : NumberedNode) : Following Text := do
  match ← follow targets n with
  | .scalar _ _ t => pure t
  | _ => failure

/-- Whether a collection has a meaning with its tag: any but a local one. -/
def isCollectionTag (p : Properties) : Bool := p.tag.all fun t => !isLocal t

/-- What a node means, with collections nested so deep. -/
def json (targets : List (Nat × NumberedNode)) : Nat → NumberedNode → Following Json
  | depth, n => do
    match ← follow targets n with
    | .scalar p plain t => scalar? p plain t
    | .sequence p items =>
      match depth with
      | 0 => failure
      | depth + 1 =>
        if isCollectionTag p then
          let items ← items.mapM (json targets depth)
          pure (.array items)
        else failure
    | .mapping p entries =>
      match depth with
      | 0 => failure
      | depth + 1 =>
        if isCollectionTag p then
          let members ← entries.mapM fun (k, v) => do
            let name ← keyText targets k
            let value ← json targets depth v
            pure (name, value)
          pure (.object (Bindings.ofList members))
        else failure
    | .alias _ => failure

/-- How deep collections nest. -/
def maxDepth : Nat := 128

/-- Reads a text that holds one document at most; none means null. At most a hundred aliases are
followed for each event of the document. -/
def parse? (t : Text) : Option Json := do
  match ← ofTokens? (← tokens? t) with
  | none => pure .null
  | some node =>
    let r ← number? [] node
    let (v, _) ← (json r.targets maxDepth r.tree).run (node.events * 100)
    pure v

end Stencil.Yaml
