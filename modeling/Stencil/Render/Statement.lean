import Stencil.Diagnostic
import Stencil.Expr.Eval
import Stencil.Statement.Basic

namespace Stencil

/-- A diagnostic with the number of loops around the text that it is about. Its offset counts in
that text. -/
structure Report where
  depth : Nat
  diagnostic : Diagnostic
  deriving DecidableEq, Repr

/-- A report about the text at hand. -/
def Report.here (cause : Cause) (index : Option Nat) : Report := ⟨0, ⟨cause, index⟩⟩

/-- A report as it is seen from around a loop. -/
def Report.inLoop (r : Report) : Report := { r with depth := r.depth + 1 }

inductive Outcome
  /-- Text that is not scanned. -/
  | final (text : Text)
  /-- Text that is scanned for statements. -/
  | again (text : Text)
  deriving DecidableEq, Repr

def Outcome.text : Outcome → Text
  | .final t => t
  | .again t => t

structure Execution where
  outcome : Outcome
  scope : Scope
  reports : List Report

/-- How a text is rendered in a scope: the result with its reports, or nothing if the rounds do not
suffice. -/
abbrev Renderer := Scope → Text → Option (Text × List Report)

/-- Every answer of `render` is an answer of `wider`. -/
def Renderer.Extends (render wider : Renderer) : Prop :=
  ∀ scope text result, render scope text = some result → wider scope text = some result

namespace Statement

/-- The value of a source, or the empty string and a report. -/
def evaluated (source : Text) (scope : Scope) : Value × List Report :=
  match evaluate? source scope with
  | some v => (v, [])
  | none => (.string [], [.here (.failed (.expression source)) none])

/-- A statement that fails: it leaves nothing and changes nothing. -/
def failed (scope : Scope) (start : Nat) (e : EvalError) : Execution :=
  ⟨.again [], scope, [.here (.failed e) (some start)]⟩

/-- What stands between the variable of a loop and its collection. -/
def inText : Text := " in ".toList

/-- Renders a block for each element, in a scope of its own, one after another. -/
def loop (render : Renderer) (scope : Scope) (name block : Text) :
    List Value → Option (Text × List Report)
  | [] => some ([], [])
  | v :: vs => do
    let (text, reports) ← render (scope.insert name v) block
    let (texts, more) ← loop render scope name block vs
    pure (text ++ texts, reports ++ more)

def runForeach (render : Renderer) (s : Statement) (start : Nat) (scope : Scope) :
    Option Execution :=
  let parameters := s.parameters.getD []
  match Text.cutText? inText parameters with
  | none => some (failed scope start (.invalidForeach parameters))
  | some (name, source) =>
    let (collection, reports) := evaluated source scope
    match collection.elements? with
    | none => some (failed scope start (.notIterable collection.kind))
    | some elements => do
      let (text, more) ← loop render scope (Text.trim name) s.block elements
      pure ⟨.again text, scope, reports ++ more.map Report.inLoop⟩

/-- Runs a declaration, which binds its block as it is written. -/
def runDeclare (s : Statement) (start : Nat) (scope : Scope) : Execution :=
  let name := Text.trim (s.parameters.getD [])
  if name.isEmpty then failed scope start .invalidDeclare
  else ⟨.again [], scope.insert name (.string s.block), []⟩

/-- Runs a statement, given the byte offset behind its marker. Nothing comes out only where the
rounds of a loop do not suffice. -/
def run (render : Renderer) (s : Statement) (start : Nat) (scope : Scope) : Option Execution :=
  match Keyword.ofText? s.keyword with
  | none => some (failed scope start (.unknownStatement s.keyword))
  | some .escape =>
    let (v, reports) := evaluated s.block scope
    some ⟨.final v.text, scope, reports⟩
  | some .eval =>
    let (v, reports) := evaluated s.block scope
    some ⟨.again v.text, scope, reports⟩
  | some .conditional =>
    let (v, reports) := evaluated (s.parameters.getD []) scope
    some ⟨.again (if v.isTruthy then s.block else s.elseBlock.getD []), scope, reports⟩
  | some .foreach => runForeach render s start scope
  | some .declare => some (runDeclare s start scope)

theorem loop_extends {render wider : Renderer} (h : Renderer.Extends render wider)
    {scope : Scope} {name block : Text} {vs : List Value} {r : Text × List Report}
    (hr : loop render scope name block vs = some r) : loop wider scope name block vs = some r := by
  induction vs generalizing r with
  | nil => exact hr
  | cons v vs ih =>
    simp only [loop, Option.bind_eq_bind, Option.bind_eq_some_iff] at hr ⊢
    obtain ⟨a, ha, b, hb, hab⟩ := hr
    exact ⟨a, h _ _ _ ha, b, ih hb, hab⟩

theorem run_extends {render wider : Renderer} (h : Renderer.Extends render wider)
    {s : Statement} {start : Nat} {scope : Scope} {e : Execution}
    (he : s.run render start scope = some e) : s.run wider start scope = some e := by
  unfold run at he ⊢
  split at he <;> try exact he
  unfold runForeach at he ⊢
  dsimp only at he ⊢
  split at he
  · exact he
  · split at he
    · exact he
    · simp only [Option.bind_eq_bind, Option.bind_eq_some_iff] at he ⊢
      obtain ⟨a, ha, hab⟩ := he
      exact ⟨a, loop_extends h ha, hab⟩

end Statement
end Stencil
