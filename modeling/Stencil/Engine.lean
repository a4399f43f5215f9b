import Stencil.Render.Scan

namespace Stencil

structure Rendered where
  content : Text
  diagnostics : List Diagnostic

def Rendered.hasErrors (r : Rendered) : Bool := r.diagnostics.any Diagnostic.isError

structure Declarations where
  scope : Scope
  diagnostics : List Diagnostic

/-- Renders a document in a scope, in at most so many rounds. Nothing comes out only where they do
not suffice, and some documents need more than any number. -/
def render? (rounds : Nat) (document : Text) (scope : Scope) : Option Rendered :=
  (Scan.run rounds (Scan.start scope document)).map fun s =>
    ⟨s.done, s.reports.map Report.diagnostic⟩

/-- The variables that a document declares, in a scope that is empty at first. -/
def declarations? (rounds : Nat) (document : Text) : Option Declarations :=
  (Scan.run rounds (Scan.start .empty document)).map fun s =>
    ⟨s.scope, s.reports.map Report.diagnostic⟩

/-- Renders documents over global variables. -/
structure Engine where
  globals : Scope

namespace Engine

def new : Engine := ⟨.empty⟩

def render? (rounds : Nat) (engine : Engine) (document : Text) (scope : Scope) :
    Option Rendered :=
  Stencil.render? rounds document (engine.globals.overlay scope)

/-- Replaces the global variables by the declarations of a document. The diagnostics end with the
number of declarations. -/
def loadGlobals? (rounds : Nat) (document : Text) : Option (Engine × List Diagnostic) :=
  (declarations? rounds document).map fun d =>
    (⟨d.scope⟩, d.diagnostics ++ [⟨.loaded d.scope.size, none⟩])

end Engine

/-- What an engine tells its host while it works, down to the level that a verbose command shows. -/
inductive Event
  | rendering (length : Nat)
  | collecting (length : Nat)
  | loaded (count : Nat)
  | raised (diagnostic : Diagnostic)
  deriving DecidableEq, Repr

namespace Event

/-- A diagnostic is an event when it is raised. -/
def ofRender (document : Text) (r : Rendered) : List Event :=
  .rendering document.size :: r.diagnostics.map .raised

/-- The events of loading global variables. The last diagnostic, which counts them, is raised when
they are there. -/
def ofLoad (document : Text) (engine : Engine) (ds : List Diagnostic) : List Event :=
  .collecting document.size :: ds.dropLast.map .raised ++
    .loaded engine.globals.size :: ds.getLast?.toList.map .raised

end Event
end Stencil
