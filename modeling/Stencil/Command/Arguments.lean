import Stencil.Text.Basic

namespace Stencil.Command

inductive GlobalsFormat
  | text
  | json
  deriving DecidableEq, Repr

def GlobalsFormat.ofText? (t : Text) : Option GlobalsFormat :=
  if t = "text".toList then some .text else if t = "json".toList then some .json else none

inductive Action
  /-- Render a document, to a file or to the console. -/
  | render (file : Text) (output : Option Text)
  /-- Render documents and tell whether statements failed. -/
  | check (files : List Text)
  /-- Print the global variables. -/
  | globals (format : GlobalsFormat)
  deriving DecidableEq, Repr

structure Arguments where
  /-- What to do, if anything. -/
  action : Option Action
  /-- The folder of the project; without it, the folder at hand. -/
  path : Option Text
  verbose : Bool
  noColor : Bool
  /-- The document that declares the global variables, in place of the config's. -/
  globals : Option Text
  deriving DecidableEq, Repr

/-- The documents that a run reads, besides those of the config. -/
def Arguments.documents (a : Arguments) : List Text :=
  a.globals.toList ++ match a.action with
    | some (.render file _) => [file]
    | some (.check files) => files
    | some (.globals _) => []
    | none => []

/-- What arguments ask for. -/
inductive Request
  | run (arguments : Arguments)
  | help
  | version
  deriving DecidableEq, Repr

inductive Verb
  | render
  | check
  | globals
  deriving DecidableEq, Repr

def Verb.ofText? (t : Text) : Option Verb :=
  if t = "render".toList then some .render
  else if t = "check".toList then some .check
  else if t = "globals".toList then some .globals
  else none

/-- Whether a verb takes a file behind so many. -/
def Verb.takesFile (v : Verb) (given : Nat) : Bool :=
  match v with
  | .render => given = 0
  | .check => true
  | .globals => false

inductive Flag
  | path
  | globals
  | output
  | format
  | verbose
  | noColor
  | help
  | version
  deriving DecidableEq, Repr

namespace Flag

def ofLong? (t : Text) : Option Flag :=
  [("path", Flag.path), ("globals", .globals), ("output", .output), ("format", .format),
    ("verbose", .verbose), ("no-color", .noColor), ("help", .help), ("version", .version)].findSome?
    fun (name, f) => if t = name.toList then some f else none

def ofShort? : Char → Option Flag
  | 'p' => some .path
  | 'g' => some .globals
  | 'o' => some .output
  | 'v' => some .verbose
  | 'h' => some .help
  | 'V' => some .version
  | _ => none

def takesValue : Flag → Bool
  | .path | .globals | .output | .format => true
  | _ => false

/-- Whether an option may have a value: formats have names, and no other value is empty. -/
def admits (f : Flag) (value : Text) : Bool :=
  match f with
  | .format => (GlobalsFormat.ofText? value).isSome
  | f => !f.takesValue || !value.isEmpty

/-- Whether an option may stand behind a verb, or in front of any. -/
def allowed (f : Flag) (verb : Option Verb) : Bool :=
  match f with
  | .output => verb = some .render
  | .format => verb = some .globals
  | .version => verb = none
  | _ => true

end Flag

/-- The options given on one side of the verb, each with its value, which is empty for a switch. -/
abbrev Options := List (Flag × Text)

structure Reading where
  verb : Option Verb
  /-- The options in front of the verb. -/
  before : Options
  /-- The options behind the verb. -/
  behind : Options
  /-- The arguments that are no options, the last first. -/
  files : List Text
  /-- Whether no option may follow. -/
  filesOnly : Bool

/-- What stops reading early. -/
inductive Stop
  | help
  | version
  | invalid
  deriving DecidableEq, Repr

namespace Reading

/-- Adds an option. None is given twice on one side of the verb. -/
def addOption (r : Reading) (f : Flag) (value : Text) : Except Stop Reading :=
  let given := if r.verb.isSome then r.behind else r.before
  if !f.allowed r.verb then .error .invalid
  else if f = .help then .error .help
  else if f = .version then .error .version
  else if (given.lookup f).isSome || !f.admits value then .error .invalid
  else if r.verb.isSome then .ok { r with behind := (f, value) :: given }
  else .ok { r with before := (f, value) :: given }

/-- Adds an argument that is no option: the verb or a file, if the verb takes one more. -/
def addFile (r : Reading) (t : Text) : Except Stop Reading :=
  match r.verb with
  | some v =>
    if t.isEmpty || !v.takesFile r.files.length then .error .invalid
    else .ok { r with files := t :: r.files }
  | none =>
    match Verb.ofText? t with
    | some v => if r.filesOnly then .error .invalid else .ok { r with verb := some v }
    | none => .error .invalid

/-- Whether an argument is an option or the mark behind which none stands. -/
def isOption (t : Text) : Bool := t.head? == some '-' && 1 < t.length

/-- Adds an option that takes the next argument as its value, and yields the rest. -/
def addWithNext (r : Reading) (f : Flag) (rest : List Text) :
    Except Stop (Reading × List Text) :=
  match rest with
  | [] => .error .invalid
  | value :: rest =>
    if isOption value then .error .invalid else (r.addOption f value).map fun r => (r, rest)

/-- Adds the options of letters behind a dash. The first that takes a value takes what follows it,
also behind an equals sign, or the next argument. -/
def addLetters (r : Reading) (rest : List Text) : Text → Except Stop (Reading × List Text)
  | [] => .ok (r, rest)
  | c :: t =>
    match Flag.ofShort? c with
    | none => .error .invalid
    | some f =>
      if !f.allowed r.verb then .error .invalid
      else if f.takesValue then
        match t with
        | [] => r.addWithNext f rest
        | '=' :: value => (r.addOption f value).map fun r => (r, rest)
        | value => (r.addOption f value).map fun r => (r, rest)
      else (r.addOption f []).bind fun r => addLetters r rest t

/-- Adds the option of a long name, with its value behind an equals sign or in the next argument. -/
def addLong (r : Reading) (rest : List Text) (t : Text) : Except Stop (Reading × List Text) :=
  let (name, value?) := match Text.cutAt? '=' t with
    | some (name, value) => (name, some value)
    | none => (t, none)
  match Flag.ofLong? name with
  | none => .error .invalid
  | some f =>
    if !f.allowed r.verb then .error .invalid
    else match f.takesValue, value? with
      | true, some value => (r.addOption f value).map fun r => (r, rest)
      | true, none => r.addWithNext f rest
      | false, some _ => .error .invalid
      | false, none => (r.addOption f []).map fun r => (r, rest)

/-- What follows the word that asks for help: the name of an action at most. -/
def helpOn (rest : List Text) : Stop :=
  match rest with
  | [] => .help
  | [t] => if (Verb.ofText? t).isSome || t = "help".toList then .help else .invalid
  | _ => .invalid

/-- Reads arguments, at most `n`. -/
def readAll (r : Reading) : Nat → List Text → Except Stop Reading
  | 0, _ => .ok r
  | _ + 1, [] => .ok r
  | n + 1, t :: rest =>
    if r.verb = none ∧ r.filesOnly = false ∧ t = "help".toList then .error (helpOn rest)
    else if r.filesOnly || !isOption t then (r.addFile t).bind fun r => r.readAll n rest
    else match t with
      | ['-', '-'] => { r with filesOnly := true }.readAll n rest
      | '-' :: '-' :: t => (r.addLong rest t).bind fun (r, rest) => r.readAll n rest
      | t => (r.addLetters rest (t.drop 1)).bind fun (r, rest) => r.readAll n rest

/-- The value of an option, where one behind the verb wins. -/
def value? (r : Reading) (f : Flag) : Option Text := (r.behind.lookup f).or (r.before.lookup f)

def action? (r : Reading) : Except Stop (Option Action) :=
  match r.verb, r.files.reverse with
  | none, _ => .ok none
  | some .render, file :: _ => .ok (some (.render file (r.value? .output)))
  | some .check, file :: files => .ok (some (.check (file :: files)))
  | some .globals, _ =>
    .ok (some (.globals (((r.value? .format).bind GlobalsFormat.ofText?).getD .text)))
  | _, [] => .error .invalid

end Reading

/-- Reads arguments; none if they are not valid. -/
def Request.ofList? (arguments : List Text) : Option Request :=
  let read := (Reading.mk none [] [] [] false).readAll arguments.length arguments
  match read.bind fun r => r.action?.map fun action => (r, action) with
  | .ok (r, action) =>
    some (.run ⟨action, r.value? .path, (r.value? .verbose).isSome, (r.value? .noColor).isSome,
      r.value? .globals⟩)
  | .error .help => some .help
  | .error .version => some .version
  | .error .invalid => none

end Stencil.Command
