import Stencil.Engine
import Stencil.Project.Config
import Stencil.Text.Wrap

namespace Stencil.Command

/-- One thing that a command does. -/
inductive Effect
  /-- Prints to standard output. -/
  | print (t : Text)
  /-- Prints to standard error. -/
  | report (t : Text)
  /-- Shows an event of the engine, if anyone listens, in the listener's own layout. -/
  | trace (e : Event)
  | write (path content : Text)
  deriving DecidableEq, Repr

/-- What a command does, and its exit code if all of that succeeds. -/
structure Outcome where
  effects : List Effect
  code : Nat
  deriving DecidableEq, Repr

def failureCode : Nat := 2

/-- The console and the files. -/
structure Session where
  tree : FileTree
  output : Text
  errors : Text

namespace Session

def start (tree : FileTree) : Session := ⟨tree, [], []⟩

/-- A session after one effect, if it succeeds. The console has paths too, and nobody listens to
events. -/
def perform? (s : Session) : Effect → Option Session
  | .print t => some { s with output := s.output ++ t }
  | .report t => some { s with errors := s.errors ++ t }
  | .trace _ => some s
  | .write path content =>
    if path = "/dev/stdout".toList then some { s with output := s.output ++ content }
    else if path = "/dev/stderr".toList then some { s with errors := s.errors ++ content }
    else (s.tree.write? path (.text content)).map fun tree => { s with tree }

def performAll (s : Session) : List Effect → Session × Bool
  | [] => (s, true)
  | e :: es =>
    match s.perform? e with
    | some s => s.performAll es
    | none => (s, false)

def run (s : Session) (o : Outcome) : Session × Nat :=
  let (s, succeeded) := s.performAll o.effects
  (s, if succeeded then o.code else failureCode)

end Session

def line (t : Text) : Text := t ++ ['\n']

/-- The lines of diagnostics, each under the label of its document. Those that are no errors are
left out unless asked for. -/
def diagnosticLines (color verbose : Bool) (label : Text) (ds : List Diagnostic) : List Text :=
  (ds.filter fun d => d.isError || verbose).flatMap fun d =>
    (label ++ [':']) :: (d.lines color).map String.toList

/-- Lines with `first` in front of the first and `next` in front of the others. -/
def withFronts (first next : Text) : List Text → List Text
  | [] => []
  | l :: ls => (first ++ l) :: ls.map (next ++ ·)

def painted (color : Bool) (code : String) (t : Text) : Text :=
  if color then ("\x1b[" ++ code ++ "m").toList ++ t ++ "\x1b[0m".toList else t

/-- The lines of a failure: its code, its wording and what to do about it, in 78 columns. -/
def failureLines (color : Bool) (e : ProjectError) : List Text :=
  let red := painted color "31"
  let front (c : Char) := [' ', ' '] ++ red [c] ++ [' ']
  let message :=
    withFronts (front (if color then '×' else 'x')) (front (if color then '│' else '|'))
      (Text.wrap 74 e.message.toList)
  let help := match e.help? with
    | some h =>
      let front := painted color "36" "  help: ".toList
      withFronts front (List.replicate 8 ' ') (Text.wrap 70 h.toList)
    | none => []
  [red e.code.toList, []] ++ message ++ help ++ [[]]

end Stencil.Command
