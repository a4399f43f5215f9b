import Stencil.Engine

namespace Stencil.Engine

/-- The variables that a document declares, whatever the engine holds. -/
def collect? (rounds : Nat) (_ : Engine) (document : Text) : Option Declarations :=
  declarations? rounds document

/-- One thing to do with an engine. -/
inductive Operation
  | new
  | withGlobals (globals : Scope)
  | loadGlobals (document : Text)
  | collect (document : Text)
  | render (document : Text) (scope : Scope)
  | renderWithDiagnostics (document : Text) (scope : Scope)

/-- What an operation gives back. -/
inductive Answer
  /-- Nothing but the engine. -/
  | done
  | diagnostics (ds : List Diagnostic)
  | declarations (d : Declarations)
  | content (t : Text)
  | rendered (r : Rendered)

/-- An engine after an operation, and the answer. Nothing comes out only where the rounds do not
suffice for the operation's document. -/
def perform? (rounds : Nat) (engine : Engine) : Operation → Option (Engine × Answer)
  | .new => some (.new, .done)
  | .withGlobals globals => some (⟨globals⟩, .done)
  | .loadGlobals document =>
    (loadGlobals? rounds document).map fun (loaded, ds) => (loaded, .diagnostics ds)
  | .collect document =>
    (engine.collect? rounds document).map fun d => (engine, .declarations d)
  | .render document scope =>
    (engine.render? rounds document scope).map fun r => (engine, .content r.content)
  | .renderWithDiagnostics document scope =>
    (engine.render? rounds document scope).map fun r => (engine, .rendered r)

/-- An engine after operations one after another, and their answers. -/
def performAll? (rounds : Nat) (engine : Engine) : List Operation → Option (Engine × List Answer)
  | [] => some (engine, [])
  | o :: operations => do
    let (engine, answer) ← engine.perform? rounds o
    let (engine, answers) ← engine.performAll? rounds operations
    pure (engine, answer :: answers)

end Stencil.Engine
