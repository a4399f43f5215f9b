import Stencil.Value.Document

namespace Stencil

/-- The variables in sight, in the order of their names. -/
structure Scope where
  bindings : Bindings Value
  ordered : bindings.Ordered

namespace Scope

def empty : Scope := ⟨[], List.Pairwise.nil⟩

instance : Inhabited Scope := ⟨empty⟩

def find? (s : Scope) (name : Text) : Option Value := s.bindings.find? name

def insert (s : Scope) (name : Text) (value : Value) : Scope :=
  ⟨s.bindings.insert name value, s.ordered.insert name value⟩

/-- A copy of `s` with every variable of `child` bound over it. -/
def overlay (s child : Scope) : Scope :=
  ⟨s.bindings.overlay child.bindings, s.ordered.overlay child.bindings⟩

/-- The scope of a list of variables; the last wins where a name stands twice. -/
def ofList (entries : List (Text × Value)) : Scope :=
  ⟨Bindings.ofList entries, Bindings.ordered_ofList entries⟩

def size (s : Scope) : Nat := s.bindings.length

def names (s : Scope) : List Text := s.bindings.names

def toValue (s : Scope) : Value := .map s.bindings

/-- Equality of scopes: equal values under the same names. -/
def equal (s t : Scope) : Bool := Value.equalEntries s.bindings t.bindings

@[simp] theorem find?_empty (name : Text) : empty.find? name = none := rfl

theorem find?_insert (s : Scope) (name : Text) (value : Value) (k : Text) :
    (s.insert name value).find? k = if name = k then some value else s.find? k :=
  Bindings.find?_insert ..

theorem find?_overlay (s child : Scope) (k : Text) :
    (s.overlay child).find? k = (child.find? k).or (s.find? k) :=
  Bindings.find?_overlay child.ordered ..

/-- A scope is settled by what it binds to each name. -/
theorem ext_find? {s t : Scope} (h : ∀ k, s.find? k = t.find? k) : s = t := by
  obtain ⟨a, ha⟩ := s
  obtain ⟨b, hb⟩ := t
  have : a = b := ha.ext hb h
  subst this
  rfl

end Scope
end Stencil
