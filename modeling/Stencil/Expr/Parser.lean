import Stencil.Expr.Basic
import Stencil.Expr.Token

/-!
Reading tokens as expressions. From the loosest to the tightest: the conditional, the binary levels
from or to multiplication, each associating to the left, prefix operators, member and index access,
and what stands alone. Every part takes the depth that is left to it: a group, a link of a chain, a
prefix operator and an access each take one level from what they contain.
-/
namespace Stencil.Expr

/-- Why tokens are no expression. -/
inductive ParseError
  /-- A token stands where none of its kind can; `left` tokens remain from it on. -/
  | unexpected (left : Nat)
  /-- The tokens end too early. -/
  | unexpectedEnd
  /-- The expression nests too deep. -/
  | tooDeep
  deriving DecidableEq, Repr

/-- The levels of operators between operands, from the loosest to the tightest. -/
inductive Level
  | or
  | and
  | equality
  | comparison
  | additive
  | multiplicative
  deriving DecidableEq, Repr

namespace Level

def tighter? : Level → Option Level
  | .or => some .and
  | .and => some .equality
  | .equality => some .comparison
  | .comparison => some .additive
  | .additive => some .multiplicative
  | .multiplicative => none

def above : Level → Nat
  | .or => 5
  | .and => 4
  | .equality => 3
  | .comparison => 2
  | .additive => 1
  | .multiplicative => 0

theorem above_le (l : Level) : l.above ≤ 5 := by
  cases l <;> decide

@[simp] theorem above_or : above .or = 5 := rfl

theorem above_of_tighter? {l m : Level} (h : l.tighter? = some m) : m.above < l.above := by
  cases l <;> cases h <;> decide

end Level

/-- An operator between operands, as the expression that it makes of them. -/
def joined? : Level → Token → Option (Expr → Expr → Expr)
  | .or, .or => some (.logical .or)
  | .and, .and => some (.logical .and)
  | .equality, .equal => some (.binary .equal)
  | .equality, .notEqual => some (.binary .notEqual)
  | .comparison, .less => some (.binary .less)
  | .comparison, .lessEqual => some (.binary .lessEqual)
  | .comparison, .greater => some (.binary .greater)
  | .comparison, .greaterEqual => some (.binary .greaterEqual)
  | .additive, .plus => some (.binary .add)
  | .additive, .minus => some (.binary .subtract)
  | .multiplicative, .star => some (.binary .multiply)
  | .multiplicative, .slash => some (.binary .divide)
  | .multiplicative, .percent => some (.binary .remainder)
  | _, _ => none

def leadingOp? : Token → Option UnaryOp
  | .bang => some .not
  | .minus => some .negate
  | .plus => some .plus
  | _ => none

/-- A token that is an expression by itself. -/
def leaf? : Token → Option Expr
  | .null => some .null
  | .true => some (.bool true)
  | .false => some (.bool false)
  | .number x => some (.number x)
  | .string t => some (.string t)
  | .ident name => some (.ident name)
  | _ => none

/-- The failure at the first of the given tokens. -/
def stuck : List Token → ParseError
  | [] => .unexpectedEnd
  | ts => .unexpected ts.length

def expect (token : Token) : List Token → Except ParseError (List Token)
  | t :: ts => if t = token then .ok ts else .error (stuck (t :: ts))
  | [] => .error .unexpectedEnd

namespace Parser

/-- The items of a list up to its closing bracket; a comma may stand after the last. Each item
takes a token, so `n` of them are enough for fewer than `n` tokens. -/
def items (item : List Token → Except ParseError (Expr × List Token)) :
    Nat → List Token → Except ParseError (List Expr × List Token)
  | 0, _ => .error .unexpectedEnd
  | n + 1, ts => do
    let (e, ts) ← item ts
    match ts with
    | .bracketClose :: ts => pure ([e], ts)
    | ts =>
      let ts ← expect .comma ts
      match ts with
      | .bracketClose :: ts => pure ([e], ts)
      | ts =>
        let (es, ts) ← items item n ts
        pure (e :: es, ts)

mutual

/-- A conditional, or what stands in its place, one level deeper. -/
def expression (depth : Nat) (ts : List Token) :
    Except ParseError (Expr × List Token) :=
  match depth with
  | 0 => .error .tooDeep
  | depth + 1 => ternary depth ts
termination_by 17 * depth

/-- A condition, with the two branches of a question after it. -/
def ternary (depth : Nat) (ts : List Token) :
    Except ParseError (Expr × List Token) := do
  let (condition, ts) ← chain .or depth ts
  match ts with
  | .question :: ts =>
    let (yes, ts) ← expression depth ts
    let ts ← expect .colon ts
    let (no, ts) ← expression depth ts
    pure (.conditional condition yes no, ts)
  | ts => pure (condition, ts)
termination_by 17 * depth + 16

/-- Operands of a level with operators between them. -/
def chain (level : Level) (depth : Nat) (ts : List Token) :
    Except ParseError (Expr × List Token) := do
  let (left, ts) ← operand level depth ts
  links level depth left ts
termination_by 17 * depth + 2 * level.above + 5

/-- An operand of a level: a chain of the next tighter level. -/
def operand (level : Level) (depth : Nat) (ts : List Token) :
    Except ParseError (Expr × List Token) :=
  match h : level.tighter? with
  | some tighter =>
    have := Level.above_of_tighter? h
    chain tighter depth ts
  | none => unary depth ts
termination_by 17 * depth + 2 * level.above + 4

/-- The rest of a chain after its left operand, each link one level deeper than the last. -/
def links (level : Level) (depth : Nat) (left : Expr) (ts : List Token) :
    Except ParseError (Expr × List Token) :=
  match ts with
  | [] => .ok (left, [])
  | t :: rest =>
    match joined? level t with
    | none => .ok (left, t :: rest)
    | some join =>
      match depth with
      | 0 => .error .tooDeep
      | depth + 1 => do
        have := level.above_le
        let (right, rest) ← operand level depth rest
        links level depth (join left right) rest
termination_by 17 * depth

/-- Operators in front of an operand. -/
def unary (depth : Nat) (ts : List Token) :
    Except ParseError (Expr × List Token) :=
  match ts with
  | [] => postfixed depth []
  | t :: rest =>
    match leadingOp? t with
    | none => postfixed depth (t :: rest)
    | some op =>
      match depth with
      | 0 => .error .tooDeep
      | depth + 1 => do
        let (e, rest) ← unary depth rest
        pure (.unary op e, rest)
termination_by 17 * depth + 3

/-- What stands alone, with the accesses after it. -/
def postfixed (depth : Nat) (ts : List Token) :
    Except ParseError (Expr × List Token) := do
  let (e, ts) ← primary depth ts
  accesses depth e ts
termination_by 17 * depth + 2

/-- The accesses after an expression, each one level deeper than the last. -/
def accesses (depth : Nat) (target : Expr) (ts : List Token) :
    Except ParseError (Expr × List Token) :=
  match ts with
  | .dot :: ts =>
    match depth with
    | 0 => .error .tooDeep
    | depth + 1 =>
      match ts with
      | .ident name :: ts => accesses depth (.member target name) ts
      | ts => .error (stuck ts)
  | .bracketOpen :: ts =>
    match depth with
    | 0 => .error .tooDeep
    | depth + 1 => do
      let (position, ts) ← expression depth ts
      let ts ← expect .bracketClose ts
      accesses depth (.index target position) ts
  | ts => .ok (target, ts)
termination_by 17 * depth + 1

/-- A leaf, a group or a list. -/
def primary (depth : Nat) (ts : List Token) :
    Except ParseError (Expr × List Token) :=
  match ts with
  | [] => .error .unexpectedEnd
  | .parenOpen :: ts => do
    let (e, ts) ← expression depth ts
    let ts ← expect .parenClose ts
    pure (e, ts)
  | .bracketOpen :: .bracketClose :: ts => .ok (.list [], ts)
  | .bracketOpen :: ts => do
    let (es, ts) ← items (expression depth) (ts.length + 1) ts
    pure (.list es, ts)
  | t :: ts =>
    match leaf? t with
    | some e => .ok (e, ts)
    | none => .error (stuck (t :: ts))
termination_by 17 * depth + 1

end

end Parser

/-- The greatest height of an expression. -/
def maxDepth : Nat := 100

def ofTokens (ts : List Token) : Except ParseError Expr := do
  let (e, rest) ← Parser.expression maxDepth ts
  match rest with
  | [] => pure e
  | ts => .error (stuck ts)

/-- Why a source is no expression, with the bytes where it fails. -/
inductive SourceError
  | unrecognized (span : Span)
  | unexpected (span : Span)
  | unexpectedEnd
  | tooDeep
  deriving DecidableEq, Repr

/-- The failure of tokens with the given spans. -/
def ParseError.locate (spans : List Span) : ParseError → SourceError
  | .unexpected left =>
    match spans[spans.length - left]? with
    | some span => .unexpected span
    | none => .unexpectedEnd
  | .unexpectedEnd => .unexpectedEnd
  | .tooDeep => .tooDeep

/-- Reads a source as an expression. A source without tokens is none. -/
def parse (source : Text) : Except SourceError (Option Expr) :=
  match Token.tokenize source with
  | .error span => .error (.unrecognized span)
  | .ok [] => .ok none
  | .ok tokens =>
    match ofTokens (tokens.map (·.1)) with
    | .ok e => .ok (some e)
    | .error err => .error (err.locate (tokens.map (·.2)))

end Stencil.Expr
