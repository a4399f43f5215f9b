import Stencil.Command.Arguments
import Stencil.Command.Project
import Stencil.Json.Printer

namespace Stencil.Command

/-- The outcome of a command that could not go on, after some effects. -/
def failed (d : Display) (effects : List Effect) (e : ProjectError) : Outcome :=
  ⟨effects ++ reportLines (failureLines d.color e), failureCode⟩

def renderEffects (d : Display) (p : Project) (folder file : Text) (output : Option Text)
    (r : Rendered) : List Effect :=
  let reports := p.renderReports d file r
  match output with
  | none => reports ++ [.print r.content]
  | some path =>
    let notice := if d.verbose then reportLines ["Wrote ".toList ++ path] else []
    reports ++ .write (Path.join folder path) r.content :: notice

def render? (rounds : Nat) (d : Display) (folder file : Text) (output : Option Text)
    (p : Project) : Option Outcome :=
  (p.render? rounds file).map fun
    | .error e => failed d p.reports e
    | .ok r => ⟨p.reports ++ renderEffects d p folder file output r, 0⟩

def okMark (d : Display) : Text := if d.color then "\x1b[32mok\x1b[39m".toList else "ok".toList

def errorCount (r : Rendered) : Nat := (r.diagnostics.filter Diagnostic.isError).length

def checkEffects (d : Display) (p : Project) (file : Text) (r : Rendered) : List Effect :=
  let reports := p.renderReports d file r
  let verdict :=
    if 0 < errorCount r then
      reportLines (failureLines d.color (.render file (errorCount r)))
    else if d.verbose then [.print (line (okMark d ++ ' ' :: file))]
    else []
  reports ++ verdict

/-- What came of checking documents: the effects, how many had errors, and what stopped it. -/
structure Checked where
  effects : List Effect
  failures : Nat
  stopped : Option ProjectError

def checkAll? (rounds : Nat) (d : Display) (p : Project) : List Text → Option Checked
  | [] => some ⟨[], 0, none⟩
  | file :: files =>
    (p.render? rounds file).bind fun
      | .error e => some ⟨[], 0, some e⟩
      | .ok r =>
        (checkAll? rounds d p files).map fun c =>
          ⟨checkEffects d p file r ++ c.effects, (if 0 < errorCount r then 1 else 0) + c.failures,
            c.stopped⟩

/-- The last line of a check of so many documents. -/
def summary (failures count : Nat) : Effect :=
  if 0 < failures then
    .report (line ("Check failed: ".toList ++ Text.ofNat failures ++ " of ".toList ++
      Text.ofNat count ++ " document(s) reported errors.".toList))
  else
    .print (line ("Check passed: ".toList ++ Text.ofNat count ++
      " document(s) rendered without errors.".toList))

def check? (rounds : Nat) (d : Display) (files : List Text) (p : Project) : Option Outcome :=
  (checkAll? rounds d p files).map fun c =>
    match c.stopped with
    | some e => failed d (p.reports ++ c.effects) e
    | none =>
      ⟨p.reports ++ c.effects ++ [summary c.failures files.length],
        if 0 < c.failures then 1 else 0⟩

def globalsText (format : GlobalsFormat) (globals : Scope) : Text :=
  match format with
  | .text =>
    if globals.size = 0 then line "No global declarations.".toList
    else globals.bindings.flatMap fun (name, v) => line (name ++ " = ".toList ++ v.text)
  | .json => line globals.toValue.toRealJson.pretty

def globals (format : GlobalsFormat) (p : Project) : Outcome :=
  ⟨p.reports ++ [.print (globalsText format p.engine.globals)], 0⟩

def noAction : Outcome :=
  ⟨reportLines ["No subcommand specified. Run \x60dollar --help\x60 for usage.".toList], 1⟩

/-- The outcome of arguments. Colors show only if they may and are not refused. -/
def run? (rounds : Nat) (files : Files) (mayColor : Bool) (a : Arguments) : Option Outcome :=
  let d : Display := ⟨mayColor && !a.noColor, a.verbose⟩
  match a.action with
  | none => some noAction
  | some action =>
    let folder := a.path.getD []
    (Project.load? rounds d (files.under folder) a.globals).bind fun
      | .error e => some (failed d [] e)
      | .ok p =>
        match action with
        | .render file output => render? rounds d folder file output p
        | .check files => check? rounds d files p
        | .globals format => some (globals format p)

def usage : Text :=
  ("Usage: dollar [OPTIONS] [COMMAND]\n\n" ++
    "Commands:\n" ++
    "  render <FILE> [-o <OUTPUT>]      Render a document and print the result\n" ++
    "  check <FILES>...                 Render documents and fail if any reported an error\n" ++
    "  globals [--format <text|json>]   Print the global variables\n\n" ++
    "Options:\n" ++
    "  -p, --path <PATH>        The folder of the project\n" ++
    "  -g, --globals <GLOBALS>  The document that declares the global variables\n" ++
    "  -v, --verbose            Report more\n" ++
    "      --no-color           Report without colors\n" ++
    "  -h, --help               Print this text\n" ++
    "  -V, --version            Print the version\n").toList

/-- The outcome of a command line. In a verbose one the engine's events are effects of their own. -/
def runLine? (rounds : Nat) (files : Files) (mayColor : Bool) (arguments : List Text) :
    Option Outcome :=
  match Request.ofList? arguments with
  | none =>
    some ⟨reportLines ["error: the arguments are not valid; see \x60dollar --help\x60".toList],
      failureCode⟩
  | some .help => some ⟨[.print usage], 0⟩
  | some .version => some ⟨[.print (line "dollar 0.1.0".toList)], 0⟩
  | some (.run a) => run? rounds files mayColor a

end Stencil.Command
