import Stencil.Proofs.Number.Canonical
import Stencil.Proofs.Value.Equality
import Stencil.Value.Document

namespace Stencil

namespace Value

mutual

/-- The value with null in place of each number in it that is not finite. -/
def finite : Value → Value
  | .null => .null
  | .bool b => .bool b
  | .number x => if x.isFinite then .number x else .null
  | .string t => .string t
  | .list items => .list (finiteItems items)
  | .map entries => .map (finiteEntries entries)

def finiteItems : List Value → List Value
  | [] => []
  | v :: vs => finite v :: finiteItems vs

def finiteEntries : List (Text × Value) → List (Text × Value)
  | [] => []
  | (n, v) :: vs => (n, finite v) :: finiteEntries vs

end

/-- What goes over a list item by item is a map. -/
theorem eq_map_of_cons {α β : Type} {f : α → β} {g : List α → List β} (hnil : g [] = [])
    (hcons : ∀ a as, g (a :: as) = f a :: g as) (as : List α) : g as = as.map f := by
  induction as with
  | nil => exact hnil
  | cons a as ih => rw [hcons, ih, List.map_cons]

theorem finiteItems_eq_map (vs : List Value) : finiteItems vs = vs.map finite :=
  eq_map_of_cons rfl (fun _ _ => rfl) vs

theorem finiteEntries_eq_map (vs : List (Text × Value)) :
    finiteEntries vs = vs.map fun e => (e.1, e.2.finite) :=
  eq_map_of_cons rfl (fun _ _ => rfl) vs

theorem toJsonItems_eq_map (number : Number → Json) (vs : List Value) :
    toJsonItems number vs = vs.map (toJsonWith number) :=
  eq_map_of_cons rfl (fun _ _ => rfl) vs

theorem toJsonEntries_eq_map (number : Number → Json) (vs : List (Text × Value)) :
    toJsonEntries number vs = vs.map fun e => (e.1, e.2.toJsonWith number) :=
  eq_map_of_cons rfl (fun _ _ => rfl) vs

theorem ofJsonItems_eq_map (vs : List Json) : ofJsonItems vs = vs.map ofJson :=
  eq_map_of_cons rfl (fun _ _ => rfl) vs

theorem ofJsonMembers_eq_map (vs : List (Text × Json)) :
    ofJsonMembers vs = vs.map fun e => (e.1, ofJson e.2) :=
  eq_map_of_cons rfl (fun _ _ => rfl) vs

/-- The value that comes back from the document of a value. -/
def returned (v : Value) : Value := ofJson v.toJson

theorem returned_list (vs : List Value) : (list vs).returned = .list (vs.map returned) := by
  simp only [returned, toJson, toJsonWith, ofJson, toJsonItems_eq_map, ofJsonItems_eq_map,
    List.map_map]
  rfl

theorem returned_map (vs : List (Text × Value)) :
    (map vs).returned = .map (vs.map fun e => (e.1, e.2.returned)) := by
  simp only [returned, toJson, toJsonWith, ofJson, toJsonEntries_eq_map, ofJsonMembers_eq_map,
    List.map_map]
  rfl

/-- A number comes back up to the sign of zero, if it is finite, and as null otherwise. -/
theorem returned_number (x : Number) :
    x.isFinite = false ∧ (number x).returned = .null ∨
      x.isFinite = true ∧ ∃ y, (number x).returned = .number y ∧
        (y = x ∨ y.isZero = true ∧ x.isZero = true) := by
  have hreturned : (number x).returned = ofJson (Json.ofNumber x) := rfl
  rw [hreturned, Json.ofNumber]
  cases hint : x.toInt? with
  | none =>
    cases hfinite : x.isFinite with
    | false => exact .inl ⟨rfl, rfl⟩
    | true => exact .inr ⟨rfl, x, rfl, .inl rfl⟩
  | some n =>
    have hvalue := Number.toInt?_eq_some_iff.1 hint
    have hfinite : x.isFinite = true := by
      by_contra h
      rw [Number.value?_eq_none_iff.2 (Bool.eq_false_iff.2 h)] at hvalue
      cases hvalue
    refine .inr ⟨hfinite, ?_⟩
    dsimp only
    split
    · next hsmall =>
      exact ⟨Number.ofInt n, rfl, Number.eq_or_isZero_of_value? (Number.value?_ofInt hsmall) hvalue⟩
    · exact ⟨x, rfl, .inl rfl⟩

theorem children_returned (v : Value) : v.returned.children = v.children.map returned := by
  cases v with
  | null => rfl
  | bool b => rfl
  | number x => rcases returned_number x with ⟨-, h⟩ | ⟨-, y, h, -⟩ <;> rw [h] <;> rfl
  | string t => rfl
  | list items => rw [returned_list, children, children]
  | map entries => simp only [returned_map, children, List.map_map, Function.comp_def]

theorem names_returned (v : Value) : v.returned.names = v.names := by
  cases v with
  | null => rfl
  | bool b => rfl
  | number x => rcases returned_number x with ⟨-, h⟩ | ⟨-, y, h, -⟩ <;> rw [h] <;> rfl
  | string t => rfl
  | list items => rw [returned_list]; rfl
  | map entries => simp only [returned_map, names, Bindings.names, List.map_map, Function.comp_def]

theorem children_finite (v : Value) : v.finite.children = v.children.map finite := by
  cases v with
  | number x => rw [finite]; split <;> rfl
  | list items => rw [finite, finiteItems_eq_map, children, children]
  | map entries =>
    simp only [finite, finiteEntries_eq_map, children, List.map_map, Function.comp_def]
  | _ => rfl

/-- What stands at a path in the image of a value is the image of what stands there. -/
theorem at?_map {f : Value → Value} (hf : ∀ v, (f v).children = v.children.map f) (v : Value)
    (path : List Nat) : (f v).at? path = (v.at? path).map f := by
  induction path generalizing v with
  | nil => rfl
  | cons i path ih =>
    rw [at?, at?, hf, List.getElem?_map]
    cases v.children[i]? with
    | none => rfl
    | some c => exact ih c

theorem matches_returned_finite (v : Value) : v.returned.Matches v.finite := by
  cases v with
  | null => exact .null
  | bool b => exact .bool b
  | number x =>
    rcases returned_number x with ⟨hx, h⟩ | ⟨hx, y, h, hy⟩
    · rw [h, finite, hx]
      exact .null
    · rw [h, finite, hx]
      refine .number (Number.close_iff_compare?_or_near.1 ?_)
      rcases hy with rfl | ⟨hy, hx⟩
      · exact Number.close_self y
      · exact Number.close_of_isZero hy hx
  | string t => exact .string t
  | list items =>
    rw [returned_list, finite, finiteItems_eq_map]
    exact .list (by rw [List.length_map, List.length_map])
  | map entries =>
    rw [returned_map, finite, finiteEntries_eq_map]
    exact .map (by simp only [Bindings.names, List.map_map, Function.comp_def])

theorem returned_equal_finite (v : Value) : v.returned.equal v.finite = true := by
  induction v using children_induction with
  | step v ih =>
    refine equal_iff.2 ⟨matches_returned_finite v, ?_⟩
    rw [children_returned, children_finite, List.forall₂_map_left_iff, List.forall₂_map_right_iff,
      List.forall₂_same]
    exact ih

theorem finite_eq_self {v : Value}
    (h : ∀ path x, v.at? path = some (.number x) → x.isFinite = true) : v.finite = v := by
  induction v using children_induction with
  | step v ih =>
    have hchildren : ∀ c ∈ v.children, c.finite = c := by
      intro c hc
      obtain ⟨i, hi⟩ := List.mem_iff_getElem?.1 hc
      refine ih c hc fun path x hx => h (i :: path) x ?_
      rw [at?, hi]
      exact hx
    cases v with
    | number x => rw [finite, if_pos (h [] x rfl)]
    | list items =>
      rw [finite, finiteItems_eq_map]
      exact congrArg list ((List.map_congr_left hchildren).trans (List.map_id _))
    | map entries =>
      rw [finite, finiteEntries_eq_map]
      refine congrArg map ((List.map_congr_left fun e he => ?_).trans (List.map_id _))
      rw [hchildren e.2 (List.mem_map_of_mem he)]
      rfl
    | _ => rfl

/-- A value comes back from its document with null in place of the numbers that are not finite. -/
theorem ofJson_toJson_equal_finite (v : Value) :
    (ofJson v.toJson).equal v.finite = true ∧
    (∀ path, Option.Rel (fun a b => a.equal b.finite = true ∧
      a.children.length = b.children.length ∧ a.names = b.names)
      ((ofJson v.toJson).at? path) (v.at? path)) ∧
    ((∀ path x, v.at? path = some (.number x) → x.isFinite = true) →
      (ofJson v.toJson).equal v = true) := by
  refine ⟨returned_equal_finite v, fun path => ?_, fun h => ?_⟩
  · change Option.Rel _ (v.returned.at? path) (v.at? path)
    rw [at?_map children_returned]
    cases v.at? path with
    | none => exact .none
    | some a =>
      refine .some ⟨returned_equal_finite a, ?_, names_returned a⟩
      rw [children_returned, List.length_map]
  · have hequal := returned_equal_finite v
    rwa [finite_eq_self h] at hequal

/-- Two integers on either side of 2 ^ 53 and zero with a sign come back, and infinity does not. -/
theorem ofJson_toJson_equal_finite_integers :
    let v := list [number ⟨0x8000000000000000⟩, number ⟨0x433fffffffffffff⟩,
      number ⟨0x4340000000000001⟩]
    let w := map [(['v'], v), (['w'], number (.infinity false))]
    (ofJson v.toJson).equal v = true ∧
      (ofJson w.toJson).equal (map [(['v'], v), (['w'], .null)]) = true ∧
      ∃ a, (ofJson w.toJson).at? [0] = some a ∧ a.children.length = 3 := by
  intro v w
  obtain ⟨-, -, hv⟩ := ofJson_toJson_equal_finite v
  obtain ⟨hw, hpath, -⟩ := ofJson_toJson_equal_finite w
  refine ⟨hv fun path x hx => ?_, hw, ?_⟩
  · match path with
    | [] => change some (list _) = some (number x) at hx; cases hx
    | [0] => cases hx; decide
    | [1] => cases hx; decide
    | [2] => cases hx; decide
    | 0 :: _ :: _ | 1 :: _ :: _ | 2 :: _ :: _ => cases hx
    | (_ + 3) :: _ => cases hx
  · have hinner : Option.Rel _ ((ofJson w.toJson).at? [0]) (some v) := hpath [0]
    cases hinner with
    | some h => exact ⟨_, rfl, h.2.1⟩

end Value
end Stencil
