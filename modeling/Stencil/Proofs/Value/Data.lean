import Stencil.Proofs.Value.Documents
import Stencil.Value.Document

namespace Stencil

namespace Bindings

variable {α β : Type} (φ : α → β)

theorem map_insert (b : Bindings α) (name : Text) (v : α) :
    (b.insert name v).map (fun e => (e.1, φ e.2)) =
      insert (b.map fun e => (e.1, φ e.2)) name (φ v) := by
  induction b with
  | nil => rfl
  | cons e b ih =>
    rw [List.map_cons, insert, insert]
    split
    · rfl
    · split
      · rfl
      · rw [List.map_cons, ih]

theorem map_ofList (entries : List (Text × α)) :
    (ofList entries).map (fun e => (e.1, φ e.2)) = ofList (entries.map fun e => (e.1, φ e.2)) := by
  have hoverlay : ∀ b : Bindings α, (b.overlay entries).map (fun e => (e.1, φ e.2)) =
      overlay (b.map fun e => (e.1, φ e.2)) (entries.map fun e => (e.1, φ e.2)) := by
    induction entries with
    | nil => exact fun b => rfl
    | cons e entries ih =>
      intro b
      have hstep := ih (b.insert e.1 e.2)
      rw [map_insert] at hstep
      exact hstep
  exact hoverlay []

end Bindings

/-- A tree of data. Tables may list their names in any order. -/
inductive Data
  | string (value : Text)
  | boolean (value : Bool)
  | integer (value : Int64)
  | float (value : Number) (finite : value.isFinite = true)
  | array (items : List Data)
  | table (entries : List (Text × Data))

/-- The nodes of some kind of tree, each made of what its parts are made to. -/
structure Nodes (α : Type) where
  string : Text → α
  boolean : Bool → α
  integer : Int64 → α
  float : Number → α
  array : List α → α
  table : Bindings α → α

namespace Nodes

def toml : Nodes Toml where
  string := .string
  boolean := .boolean
  integer n := .integer n.toInt
  float := .float
  array := .array
  table := .table

def json : Nodes Json where
  string := .string
  boolean := .bool
  integer n := .integer n.toInt
  float := .real
  array := .array
  table := .object

def value : Nodes Value where
  string := .string
  boolean := .bool
  integer n := .ofInt n.toInt
  float := .number
  array := .list
  table := .map

/-- A conversion takes each kind of node to the one of the same kind, with its parts converted. -/
structure Converts {α β : Type} (φ : α → β) (f : Nodes α) (g : Nodes β) : Prop where
  string : ∀ t, φ (f.string t) = g.string t
  boolean : ∀ b, φ (f.boolean b) = g.boolean b
  integer : ∀ n, φ (f.integer n) = g.integer n
  float : ∀ x, φ (f.float x) = g.float x
  array : ∀ items, φ (f.array items) = g.array (items.map φ)
  table : ∀ entries, φ (f.table entries) = g.table (entries.map fun e => (e.1, φ e.2))

end Nodes

namespace Data

mutual

/-- What a tree of data is made to. -/
def write {α : Type} (f : Nodes α) : Data → α
  | .string t => f.string t
  | .boolean b => f.boolean b
  | .integer n => f.integer n
  | .float x _ => f.float x
  | .array items => f.array (writeItems f items)
  | .table entries => f.table (Bindings.ofList (writeEntries f entries))

def writeItems {α : Type} (f : Nodes α) : List Data → List α
  | [] => []
  | d :: ds => write f d :: writeItems f ds

def writeEntries {α : Type} (f : Nodes α) : List (Text × Data) → List (Text × α)
  | [] => []
  | (n, d) :: ds => (n, write f d) :: writeEntries f ds

end

variable {α β : Type} {φ : α → β} {f : Nodes α} {g : Nodes β}

mutual

theorem write_of_converts (h : Nodes.Converts φ f g) : ∀ d : Data, φ (d.write f) = d.write g
  | .string t => h.string t
  | .boolean b => h.boolean b
  | .integer n => h.integer n
  | .float x _ => h.float x
  | .array items => by rw [write, h.array, writeItems_of_converts h items, write]
  | .table entries => by
    rw [write, h.table, Bindings.map_ofList, writeEntries_of_converts h entries, write]

theorem writeItems_of_converts (h : Nodes.Converts φ f g) :
    ∀ ds : List Data, (writeItems f ds).map φ = writeItems g ds
  | [] => rfl
  | d :: ds => by
    rw [writeItems, List.map_cons, write_of_converts h d, writeItems_of_converts h ds, writeItems]

theorem writeEntries_of_converts (h : Nodes.Converts φ f g) : ∀ ds : List (Text × Data),
    (writeEntries f ds).map (fun e => (e.1, φ e.2)) = writeEntries g ds
  | [] => rfl
  | (n, d) :: ds => by
    rw [writeEntries, List.map_cons, write_of_converts h d, writeEntries_of_converts h ds,
      writeEntries]

end

end Data

namespace Value

theorem ofTomlItems_eq_map (vs : List Toml) : ofTomlItems vs = vs.map ofToml :=
  eq_map_of_cons rfl (fun _ _ => rfl) vs

theorem ofTomlEntries_eq_map (vs : List (Text × Toml)) :
    ofTomlEntries vs = vs.map fun e => (e.1, ofToml e.2) :=
  eq_map_of_cons rfl (fun _ _ => rfl) vs

theorem converts_ofToml : Nodes.Converts ofToml .toml .value where
  string _ := rfl
  boolean _ := rfl
  integer _ := rfl
  float _ := rfl
  array items := congrArg list (ofTomlItems_eq_map items)
  table entries := congrArg map (ofTomlEntries_eq_map entries)

theorem converts_ofJson : Nodes.Converts ofJson .json .value where
  string _ := rfl
  boolean _ := rfl
  integer _ := rfl
  float _ := rfl
  array items := congrArg list (ofJsonItems_eq_map items)
  table entries := congrArg map (ofJsonMembers_eq_map entries)

theorem ofToml_write (d : Data) : ofToml (d.write .toml) = d.write .value :=
  Data.write_of_converts converts_ofToml d

theorem ofJson_write (d : Data) : ofJson (d.write .json) = d.write .value :=
  Data.write_of_converts converts_ofJson d

end Value
end Stencil
