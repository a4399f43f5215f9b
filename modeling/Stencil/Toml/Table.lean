import Stencil.Toml.Basic

namespace Stencil.Toml

/-- How a table came to be, which settles what may still be added to it. -/
inductive Origin
  /-- By a header of its own. -/
  | header
  /-- By the header of a table inside it. -/
  | implied
  /-- By a dotted key. -/
  | dotted
  deriving DecidableEq, Repr

/-- A part of a document that is not complete. -/
inductive Node
  | leaf (value : Toml)
  | table (origin : Origin) (entries : List (Text × Node))
  /-- The tables of a repeated header; only the last takes more. -/
  | tables (earlier : List Toml) (last : List (Text × Node))

mutual

def Node.toToml : Node → Toml
  | .leaf v => v
  | .table _ entries => .table (toEntries entries)
  | .tables earlier last => .array (earlier ++ [.table (toEntries last)])

def toEntries : List (Text × Node) → List (Text × Toml)
  | [] => []
  | (k, n) :: rest => (k, n.toToml) :: toEntries rest

end

/-- Assigns a value to a dotted key. The key may pass through tables of headers that stand inside,
but the table it ends in is its own. -/
def assign? (value : Toml) : List Text → Bindings Node → Option (Bindings Node)
  | [], _ => none
  | [k], b => if (b.find? k).isNone then some (b.insert k (.leaf value)) else none
  | k :: k' :: ks, b =>
    match b.find? k with
    | none => (assign? value (k' :: ks) []).map fun c => b.insert k (.table .dotted c)
    | some (.table .dotted c) =>
      (assign? value (k' :: ks) c).map fun c => b.insert k (.table .dotted c)
    | some (.table .implied c) =>
      if ks.isEmpty then none
      else (assign? value (k' :: ks) c).map fun c => b.insert k (.table .implied c)
    | some (.tables earlier last) =>
      if ks.isEmpty then none
      else (assign? value (k' :: ks) last).map fun c => b.insert k (.tables earlier c)
    | _ => none

def assignAll? (entries : List (List Text × Toml)) (b : Bindings Node) : Option (Bindings Node) :=
  entries.foldlM (fun b (k, v) => assign? v k b) b

/-- A header with the assignments below it. -/
structure Section where
  path : List Text
  /-- Whether the header opens one more table of an array. -/
  repeated : Bool
  entries : List (List Text × Toml)

namespace Section

/-- Opens the table of a section under the last name of its path, and fills it. -/
def fill? (s : Section) (k : Text) (b : Bindings Node) : Option (Bindings Node) :=
  let opened? : Option (List Toml × Bindings Node) :=
    match s.repeated, b.find? k with
    | _, none => some ([], [])
    | true, some (.tables earlier last) => some (earlier ++ [.table (toEntries last)], [])
    | false, some (.table .implied c) => some ([], c)
    | _, _ => none
  opened?.bind fun (earlier, c) =>
    (assignAll? s.entries c).map fun c =>
      b.insert k (if s.repeated then .tables earlier c else .table .header c)

/-- Adds a section to a document. Its path passes through tables of any kind. -/
def addTo? (s : Section) : List Text → Bindings Node → Option (Bindings Node)
  | [], _ => none
  | [k], b => s.fill? k b
  | k :: k' :: ks, b =>
    match b.find? k with
    | none => (s.addTo? (k' :: ks) []).map fun c => b.insert k (.table .implied c)
    | some (.table o c) => (s.addTo? (k' :: ks) c).map fun c => b.insert k (.table o c)
    | some (.tables earlier last) =>
      (s.addTo? (k' :: ks) last).map fun c => b.insert k (.tables earlier c)
    | some (.leaf _) => none

end Section

/-- The table of assignments alone. -/
def ofAssignments? (entries : List (List Text × Toml)) : Option (List (Text × Toml)) :=
  (assignAll? entries []).map toEntries

/-- The table of a document: assignments, then sections. -/
def ofSections? (entries : List (List Text × Toml)) (sections : List Section) :
    Option (List (Text × Toml)) := do
  let b ← assignAll? entries []
  let b ← sections.foldlM (fun b s => s.addTo? s.path b) b
  pure (toEntries b)

end Stencil.Toml
