import Stencil.Json.Reader
import Stencil.Project.Files
import Stencil.Scope
import Stencil.Toml.Reader
import Stencil.Value.Document
import Stencil.Yaml.Reader

namespace Stencil

inductive ProjectError
  /-- A file that cannot be read or written. -/
  | io
  /-- A config file that is not valid. -/
  | configParse (reason : String)
  /-- A data file that cannot be read or does not have its format. -/
  | dataFile (path : Text) (reason : String)
  | unsupportedFormat (format : Text)
  /-- A document with so many errors. -/
  | render (file : Text) (count : Nat)
  deriving DecidableEq, Repr

namespace ProjectError

def message : ProjectError → String
  | .io => "the file cannot be read or written"
  | .configParse reason => "failed to parse config file: " ++ reason
  | .dataFile path reason =>
    "failed to load data file `" ++ String.ofList path ++ "`: " ++ reason
  | .unsupportedFormat f => "unsupported data file format: `" ++ String.ofList f ++ "`"
  | .render file count =>
    "rendering `" ++ String.ofList file ++ "` produced " ++ String.ofList (Text.ofNat count) ++
      " error(s)"

def code : ProjectError → String
  | .io => "dollar::io_error"
  | .configParse _ => "dollar::config_parse"
  | .dataFile _ _ => "dollar::data_file"
  | .unsupportedFormat _ => "dollar::unsupported_format"
  | .render _ _ => "dollar::render"

def help? : ProjectError → Option String
  | .configParse _ =>
    some "check that dollar.toml is valid TOML with `globals`, [data] and/or [scope] entries"
  | .unsupportedFormat _ => some "supported formats: text, json, toml, yaml, yml"
  | .render _ _ =>
    some "fix the statements reported above; run with `--verbose` for more detail"
  | _ => none

end ProjectError

inductive DataFormat
  | text
  | json
  | toml
  | yaml
  deriving DecidableEq, Repr

namespace DataFormat

/-- The format of a name, which is in lower case. -/
def ofText? (t : Text) : Option DataFormat :=
  if ["text", "string", "raw", "txt"].any fun name => t = name.toList then some .text
  else if t = "json".toList then some .json
  else if t = "toml".toList then some .toml
  else if t = "yaml".toList ∨ t = "yml".toList then some .yaml
  else none

/-- The value of a text, if it is well formed. -/
def read? : DataFormat → Text → Option Value
  | .text, t => some (.string t)
  | .json, t => (Json.parse? t).map .ofJson
  | .toml, t =>
    ((Toml.parse? t).bind Toml.entriesWithDates?).map fun entries => .ofToml (.table entries)
  | .yaml, t => (Yaml.parse? t).map .ofJson

end DataFormat

/-- The value of the data file at a path, from its text and the name of its format. -/
def readData (text format path : Text) : Except ProjectError Value :=
  match DataFormat.ofText? format with
  | none => .error (.unsupportedFormat format)
  | some f =>
    match f.read? text with
    | some v => .ok v
    | none => .error (.dataFile path "the text does not have this format")

inductive DataSource
  /-- A file with the format of its extension. -/
  | plain (path : Text)
  | typed (path format : Text)
  deriving DecidableEq, Repr

namespace DataSource

def path : DataSource → Text
  | .plain p => p
  | .typed p _ => p

/-- The name of the format, in lower case. -/
def format : DataSource → Text
  | .plain p => (Path.fileExtension p).map Char.toLower
  | .typed _ f => (Text.trim f).map Char.toLower

/-- The data source that a config gives: a path, or a path and a format, by name or in order. -/
def ofToml? : Toml → Option DataSource
  | .string p => some (.plain p)
  | .table entries =>
    match entries.lookup "path".toList, entries.lookup "format".toList with
    | some (.string p), some (.string f) => some (.typed p f)
    | _, _ => none
  | .array [.string p, .string f] => some (.typed p f)
  | _ => none

def load (s : DataSource) (files : Files) : Except ProjectError Value :=
  match files.read? s.path with
  | some t => readData t s.format s.path
  | none => .error (.dataFile s.path "the file cannot be read")

end DataSource

structure Config where
  /-- The document that declares the global variables. -/
  globals : Option Text
  /-- Data files under the names of their variables. -/
  data : Bindings DataSource
  /-- Values under the names of their variables. -/
  scope : Bindings Toml
  dataOrdered : data.Ordered
  scopeOrdered : scope.Ordered

namespace Config

/-- A field that is a path, if it is there. -/
def path? : Option Toml → Option (Option Text)
  | none => some none
  | some (.string p) => some (some p)
  | some _ => none

/-- The entries of a field that is a table; none if it is not there. A date is a table of its text
under the name that is reserved for dates. -/
def table? : Option Toml → Option (List (Text × Toml))
  | none => some []
  | some (.table entries) => some entries
  | some (.datetime d) => some [(Toml.dateName, .string d.text)]
  | some _ => none

/-- The config of a document. Fields of other names count for nothing. -/
def ofToml? (entries : List (Text × Toml)) : Option Config := do
  let globals ← path? (entries.lookup "globals".toList)
  let data ← table? (entries.lookup "data".toList)
  let data ← data.mapM fun (name, v) => (DataSource.ofToml? v).map fun s => (name, s)
  let scope ← table? (entries.lookup "scope".toList)
  let scope ← Toml.entriesWithDates? scope
  pure ⟨globals, Bindings.ofList data, Bindings.ofList scope, Bindings.ordered_ofList data,
    Bindings.ordered_ofList scope⟩

/-- Where the config of a project may be; the first of them that is there counts. -/
def places : List Text :=
  ["dollar.toml".toList, ".dollar.toml".toList, ".config/dollar.toml".toList]

def find? (files : Files) : Option Text := places.find? fun p => (files p).isSome

def load (files : Files) : Except ProjectError (Option Config) :=
  match find? files with
  | none => .ok none
  | some path =>
    match files.read? path with
    | none => .error .io
    | some t =>
      match (Toml.parse? t).bind ofToml? with
      | some c => .ok (some c)
      | none => .error (.configParse "the text is not a config")

def paths (c : Config) : List Text := c.data.map (·.2.path) ++ c.globals.toList

/-- The variables of data files, added to a scope one after another. -/
def loadData (files : Files) : Bindings DataSource → Scope → Except ProjectError Scope
  | [], scope => .ok scope
  | (name, source) :: rest, scope =>
    match source.load files with
    | .ok v => loadData files rest (scope.insert name v)
    | .error e => .error e

/-- The scope of a project's documents: the data files, and over them the values of the config. -/
def loadScope (c : Config) (files : Files) : Except ProjectError Scope :=
  (loadData files c.data .empty).map fun scope =>
    c.scope.foldl (fun scope (name, v) => scope.insert name (.ofToml v)) scope

def globalsDocument (c : Config) (files : Files) : Except ProjectError (Option Text) :=
  match c.globals with
  | none => .ok none
  | some path =>
    match files.read? path with
    | some t => .ok (some t)
    | none => .error .io

end Config
end Stencil
