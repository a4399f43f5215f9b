import Stencil.Expr.Parser
import Stencil.Scope
import Stencil.Text.Basic

namespace Stencil

namespace Value

/-- The number that a value counts as in arithmetic. Blank strings count as zero, and lists and
maps as nothing. -/
def toNumber? : Value → Option Number
  | .null => some 0
  | .bool b => some (if b then 1 else 0)
  | .number x => some x
  | .string t =>
    let t := Text.trim t
    if t.isEmpty then some 0 else Number.parse? t
  | .list _ => none
  | .map _ => none

/-- Whether a value turns addition into joining texts. -/
def isTextual : Value → Bool
  | .string _ => true
  | .list _ => true
  | .map _ => true
  | _ => false

/-- The member of a value under a name. Null has no members, and what is missing elsewhere is
null. -/
def member? (target : Value) (name : Text) : Option Value :=
  match target with
  | .null => none
  | .map entries => some ((Bindings.find? entries name).getD .null)
  | .string t => some (if name = "length".toList then .ofNat t.length else .null)
  | .list items => some (if name = "length".toList then .ofNat items.length else .null)
  | _ => some .null

/-- A position in a list: an integer that is not negative. -/
def position? (x : Number) : Option Nat :=
  match x.toInt? with
  | some n => if 0 ≤ n then some n.toNat else none
  | none => none

/-- What stands in a value at a position or under a name. -/
def lookup? (target index : Value) : Option Value :=
  match target, index with
  | .null, _ => none
  | .list items, .number x => some (((position? x).bind (items[·]?)).getD .null)
  | .string t, .number x => some ((((position? x).bind (t[·]?)).map .ofChar).getD .null)
  | target, .string name => member? target name
  | _, _ => some .null

/-- The order of two values: of strings by their characters, of others by the numbers they count
as. The outer option is empty where a value counts as no number, the inner one for NaN. -/
def compare? (left right : Value) : Option (Option Ordering) :=
  match left, right with
  | .string s, .string t =>
    some (some (if s < t then .lt else if s = t then .eq else .gt))
  | left, right => do
    let x ← left.toNumber?
    let y ← right.toNumber?
    pure (x.compare? y)

end Value

def UnaryOp.result? (op : UnaryOp) (v : Value) : Option Value :=
  match op with
  | .not => some (.bool !v.isTruthy)
  | .negate => v.toNumber?.map fun x => .number (-x)
  | .plus => v.toNumber?.map .number

namespace BinaryOp

def arithmetic? (f : Number → Number → Number) (left right : Value) : Option Value := do
  let x ← left.toNumber?
  let y ← right.toNumber?
  pure (.number (f x y))

/-- Whether two values stand in one of the given orders. -/
def ordered? (orders : List Ordering) (left right : Value) : Option Value :=
  (left.compare? right).map fun o => .bool (o.any fun o => orders.contains o)

def result? (op : BinaryOp) (left right : Value) : Option Value :=
  match op with
  | .add =>
    if left.isTextual || right.isTextual then some (.string (left.text ++ right.text))
    else arithmetic? (· + ·) left right
  | .subtract => arithmetic? (· - ·) left right
  | .multiply => arithmetic? (· * ·) left right
  | .divide => arithmetic? (· / ·) left right
  | .remainder => arithmetic? (· % ·) left right
  | .less => ordered? [.lt] left right
  | .lessEqual => ordered? [.lt, .eq] left right
  | .greater => ordered? [.gt] left right
  | .greaterEqual => ordered? [.gt, .eq] left right
  | .equal => some (.bool (left.equal right))
  | .notEqual => some (.bool !left.equal right)

end BinaryOp

/-- Whether the first operand decides, so that the second is not evaluated. -/
def LogicalOp.decides (op : LogicalOp) (left : Value) : Bool :=
  match op with
  | .and => !left.isTruthy
  | .or => left.isTruthy

namespace Expr

mutual

/-- The value of an expression, if it has one. -/
def eval? (scope : Scope) : Expr → Option Value
  | .null => some .null
  | .bool b => some (.bool b)
  | .number x => some (.number x)
  | .string t => some (.string t)
  | .list items => (evalItems? scope items).map .list
  | .ident name => scope.find? name
  | .member target name => do
    let v ← eval? scope target
    v.member? name
  | .index target position => do
    let v ← eval? scope target
    let i ← eval? scope position
    v.lookup? i
  | .unary op operand => do
    let v ← eval? scope operand
    op.result? v
  | .binary op left right => do
    let v ← eval? scope left
    let w ← eval? scope right
    op.result? v w
  | .logical op left right => do
    let v ← eval? scope left
    if op.decides v then pure v else eval? scope right
  | .conditional condition yes no => do
    let v ← eval? scope condition
    if v.isTruthy then eval? scope yes else eval? scope no

def evalItems? (scope : Scope) : List Expr → Option (List Value)
  | [] => some []
  | e :: es => do
    let v ← eval? scope e
    let vs ← evalItems? scope es
    pure (v :: vs)

end

end Expr

/-- The value of a source in a scope. A source without tokens is null. -/
def evaluate? (source : Text) (scope : Scope) : Option Value :=
  match Expr.parse source with
  | .ok none => some .null
  | .ok (some e) => e.eval? scope
  | .error _ => none

end Stencil
