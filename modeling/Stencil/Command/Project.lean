import Stencil.Command.Effect

namespace Stencil.Command

/-- How a command shows what it does. -/
structure Display where
  color : Bool
  verbose : Bool
  deriving DecidableEq, Repr

def reportLines (lines : List Text) : List Effect := lines.map fun l => .report (line l)

def reportDiagnostics (d : Display) (label : Text) (ds : List Diagnostic) : List Effect :=
  reportLines (diagnosticLines d.color d.verbose label ds)

/-- Events show in a verbose command, unless the environment has a filter of its own for them. -/
def traces (d : Display) (events : List Event) : List Effect :=
  if d.verbose then events.map .trace else []

/-- A project that is loaded. -/
structure Project where
  files : Files
  engine : Engine
  scope : Scope
  /-- What was reported while it was loaded. -/
  reports : List Effect

namespace Project

/-- The document of global variables with its path: the one that is asked for, or the config's. -/
def globalsDocument (files : Files) (asked : Option Text) (config : Option Config) :
    Except ProjectError (Option (Text × Text)) :=
  match asked, config with
  | some path, _ =>
    match files.read? path with
    | some t => .ok (some (path, t))
    | none => .error .io
  | none, some c =>
    (c.globalsDocument files).map fun document =>
      c.globals.bind fun path => document.map fun t => (path, t)
  | none, none => .ok none

def loadEngine? (rounds : Nat) (d : Display) : Option (Text × Text) →
    Option (Engine × List Effect)
  | none => some (.new, [])
  | some (path, t) =>
    (Engine.loadGlobals? rounds t).map fun (e, ds) =>
      (e, traces d (Event.ofLoad t e ds) ++ reportDiagnostics d path ds)

def scopeLine (scope : Scope) : Text :=
  "Scope variables: ".toList ++ Text.join [',', ' '] scope.names

/-- What a project needs before its global variables are rendered: the scope, and their document. -/
def read (files : Files) (asked : Option Text) :
    Except ProjectError (Scope × Option (Text × Text)) := do
  let config ← Config.load files
  let scope ← match config with
    | some c => c.loadScope files
    | none => .ok .empty
  let globals ← globalsDocument files asked config
  pure (scope, globals)

/-- Loads the project of files. Nothing comes out only where the rounds do not suffice. -/
def load? (rounds : Nat) (d : Display) (files : Files) (asked : Option Text) :
    Option (Except ProjectError Project) :=
  match read files asked with
  | .error e => some (.error e)
  | .ok (scope, globals) =>
    (loadEngine? rounds d globals).map fun (engine, reports) =>
      let names := if d.verbose then reportLines [scopeLine scope] else []
      .ok ⟨files, engine, scope, reports ++ names⟩

/-- The render of a document of the project, if its file can be read. -/
def render? (rounds : Nat) (p : Project) (path : Text) :
    Option (Except ProjectError Rendered) :=
  match p.files.read? path with
  | some t => (p.engine.render? rounds t p.scope).map .ok
  | none => some (.error .io)

/-- What a render of a document reports: events and diagnostics. -/
def renderReports (d : Display) (p : Project) (path : Text) (r : Rendered) : List Effect :=
  traces d (Event.ofRender ((p.files.read? path).getD []) r) ++ reportDiagnostics d path r.diagnostics

end Project
end Stencil.Command
