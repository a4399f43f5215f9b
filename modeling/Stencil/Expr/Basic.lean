import Stencil.Text.Basic
import Stencil.Number.Binary

namespace Stencil

inductive UnaryOp
  | not
  | negate
  | plus
  deriving DecidableEq, Repr

/-- Operators between operands that are both evaluated. -/
inductive BinaryOp
  | add
  | subtract
  | multiply
  | divide
  | remainder
  | less
  | lessEqual
  | greater
  | greaterEqual
  | equal
  | notEqual
  deriving DecidableEq, Repr

/-- Operators that evaluate the second operand only if the first does not decide. -/
inductive LogicalOp
  | and
  | or
  deriving DecidableEq, Repr

inductive Expr
  | null
  | bool (value : Bool)
  | number (value : Number)
  | string (value : Text)
  | list (items : List Expr)
  | ident (name : Text)
  | member (target : Expr) (name : Text)
  | index (target position : Expr)
  | unary (op : UnaryOp) (operand : Expr)
  | binary (op : BinaryOp) (left right : Expr)
  | logical (op : LogicalOp) (left right : Expr)
  | conditional (condition yes no : Expr)
  deriving Inhabited

namespace Expr

mutual

/-- The number of nodes on the longest path of a tree; a leaf has height one. -/
def height : Expr → Nat
  | .null => 1
  | .bool _ => 1
  | .number _ => 1
  | .string _ => 1
  | .ident _ => 1
  | .list items => heightItems items + 1
  | .member target _ => height target + 1
  | .index target position => max (height target) (height position) + 1
  | .unary _ operand => height operand + 1
  | .binary _ left right => max (height left) (height right) + 1
  | .logical _ left right => max (height left) (height right) + 1
  | .conditional condition yes no => max (height condition) (max (height yes) (height no)) + 1

def heightItems : List Expr → Nat
  | [] => 0
  | e :: es => max (height e) (heightItems es)

end

end Expr
end Stencil
