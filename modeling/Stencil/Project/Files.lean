import Stencil.Bindings
import Stencil.Text.Basic

namespace Stencil

namespace Path

def isAbsolute (path : Text) : Bool := path.head? == some '/'

/-- A path inside a folder; the empty path is the folder at hand. -/
def join (folder path : Text) : Text :=
  if isAbsolute path || folder.isEmpty then path
  else if folder.getLast? == some '/' then folder ++ path
  else folder ++ '/' :: path

def fileName? (path : Text) : Option Text :=
  let parts := (Text.splitOn '/' path).filter fun p => !p.isEmpty && p != ['.']
  parts.getLast?.filter (· != ['.', '.'])

/-- What stands behind the last point of a name; a point in front of a name does not count. -/
def nameExtension (name : Text) : Text :=
  let parts := Text.splitOn '.' name
  match parts.getLast? with
  | some last => if name.length ≤ last.length + 1 then [] else last
  | none => []

/-- The extension of the file that a path names. -/
def fileExtension (path : Text) : Text := (fileName? path).elim [] nameExtension

end Path

inductive Content
  | text (text : Text)
  /-- Bytes that are not UTF-8. -/
  | binary
  deriving DecidableEq, Repr

def Content.ofBytes (bytes : ByteArray) : Content :=
  match String.fromUTF8? bytes with
  | some s => .text s.toList
  | none => .binary

/-- What each path leads to, if it leads to a file. -/
abbrev Files := Text → Option Content

namespace Files

def under (files : Files) (folder : Text) : Files := fun path => files (Path.join folder path)

def read? (files : Files) (path : Text) : Option Text :=
  match files path with
  | some (.text t) => some t
  | _ => none

/-- The files of a list; the first counts where a path stands twice. -/
def ofList (entries : List (Text × Content)) : Files := fun path => entries.lookup path

end Files

inductive FileTree
  | file (content : Content)
  | folder (entries : List (Text × FileTree))

namespace FileTree

def empty : FileTree := .folder []

def isFolder : FileTree → Bool
  | .folder _ => true
  | .file _ => false

/-- What stands under names, each in the folder under the names in front of it. -/
def find? : FileTree → List Text → Option FileTree
  | tree, [] => some tree
  | .folder entries, name :: names =>
    match Bindings.find? entries name with
    | some tree => tree.find? names
    | none => none
  | .file _, _ :: _ => none

/-- Puts a file under names, with the folders that it needs. -/
def insert (content : Content) : List Text → FileTree → FileTree
  | [], _ => .file content
  | name :: names, .folder entries =>
    let inner := (Bindings.find? entries name).getD empty
    .folder (Bindings.insert entries name (inner.insert content names))
  | name :: names, .file _ => .folder [(name, empty.insert content names)]

theorem find?_insert (tree : FileTree) (names : List Text) (content : Content) :
    (tree.insert content names).find? names = some (.file content) := by
  induction names generalizing tree with
  | nil => cases tree <;> rfl
  | cons name names ih =>
    cases tree with
    | file c => simp [insert, find?, Bindings.find?, ih]
    | folder entries => simp [insert, find?, Bindings.find?_insert, ih]

/-- The names to which parts of a path lead from the folder under `names`. -/
def walk? (tree : FileTree) (names : List Text) : List Text → Option (List Text)
  | [] => some names
  | part :: parts =>
    if ((tree.find? names).map isFolder).getD false then
      if part = [] ∨ part = ['.'] then walk? tree names parts
      else if part = ['.', '.'] then
        if names.isEmpty then none else walk? tree names.dropLast parts
      else walk? tree (names ++ [part]) parts
    else none

/-- The names to which a path leads. Paths out of the tree lead nowhere. -/
def locate? (tree : FileTree) (path : Text) : Option (List Text) :=
  if Path.isAbsolute path then none else tree.walk? [] (Text.splitOn '/' path)

/-- The file that keeps nothing of what is written to it. -/
def nullPath : Text := "/dev/null".toList

def files (tree : FileTree) : Files := fun path =>
  if path = nullPath ∨ path = "/dev/stdin".toList then some (.text [])
  else match (tree.locate? path).bind tree.find? with
  | some (.file content) => some content
  | _ => none

/-- The tree after a file was written, if its folder is there and it is none itself. -/
def write? (tree : FileTree) (path : Text) (content : Content) : Option FileTree :=
  if path = nullPath then some tree
  else (tree.locate? path).bind fun names =>
    if ((tree.find? names).map isFolder).getD false then none
    else some (tree.insert content names)

def ofList (entries : List (Text × Content)) : FileTree :=
  entries.foldl (fun tree (path, content) => tree.insert content (Text.splitOn '/' path)) empty

end FileTree
end Stencil
