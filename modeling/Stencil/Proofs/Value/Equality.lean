import Mathlib.Data.List.Forall2
import Stencil.Expr.Eval

namespace Stencil

namespace Number

/-- At most two steps lead from one of the numbers to the other in the order of all bit patterns, in
which the least follows the greatest. -/
def Near (x y : Number) : Prop :=
  ∃ d, d ≤ 2 ∧ ((x.rank + d) % 2 ^ 64 = y.rank ∨ (y.rank + d) % 2 ^ 64 = x.rank)

theorem close_iff_near {x y : Number} : x.close y = true ↔ x.Near y := by
  have hx := x.rank_lt
  have hy := y.rank_lt
  rw [close_iff]
  constructor
  · intro h
    rcases Nat.le_total 2 ((x.rank + 2 ^ 64 + 2 - y.rank) % 2 ^ 64) with hle | hle
    · exact ⟨(x.rank + 2 ^ 64 + 2 - y.rank) % 2 ^ 64 - 2, by omega, .inr (by omega)⟩
    · exact ⟨2 - (x.rank + 2 ^ 64 + 2 - y.rank) % 2 ^ 64, by omega, .inl (by omega)⟩
  · rintro ⟨d, hd, h⟩
    omega

/-- Numbers that compare equal are near, so there are no further close ones among them. -/
theorem close_iff_compare?_or_near {x y : Number} :
    x.close y = true ↔ x.compare? y = some .eq ∨ x.Near y := by
  rw [close_iff_near]
  constructor
  · exact .inr
  · rintro (h | h)
    · exact close_iff_near.1 (close_of_compare? h)
    · exact h

end Number

namespace Value

/-- The values that a value holds, in order. -/
def children : Value → List Value
  | .list items => items
  | .map entries => entries.map (·.2)
  | _ => []

/-- The names that a value binds. -/
def names : Value → List Text
  | .map entries => Bindings.names entries
  | _ => []

/-- What stands in a value at a path of positions. -/
def at? : Value → List Nat → Option Value
  | v, [] => some v
  | v, i :: path => v.children[i]?.bind fun c => c.at? path

/-- Two values are alike up to what they hold: of one kind, and the same truth value or string,
numbers that compare equal or are near, lists of one length or maps of the same names. -/
inductive Matches : Value → Value → Prop
  | null : Matches .null .null
  | bool (b : Bool) : Matches (.bool b) (.bool b)
  | number {x y : Number} (h : x.compare? y = some .eq ∨ x.Near y) : Matches (.number x) (.number y)
  | string (t : Text) : Matches (.string t) (.string t)
  | list {vs ws : List Value} (h : vs.length = ws.length) : Matches (.list vs) (.list ws)
  | map {vs ws : List (Text × Value)} (h : Bindings.names vs = Bindings.names ws) :
    Matches (.map vs) (.map ws)

variable {v w : Value}

theorem sizeOf_lt_of_mem_children {c : Value} (h : c ∈ v.children) : sizeOf c < sizeOf v := by
  cases v with
  | list items =>
    have hlt : sizeOf c < sizeOf items := List.sizeOf_lt_of_mem h
    rw [list.sizeOf_spec]
    omega
  | map entries =>
    obtain ⟨e, he, rfl⟩ := List.mem_map.1 h
    have hlt := List.sizeOf_lt_of_mem he
    have hentry : sizeOf e = 1 + sizeOf e.1 + sizeOf e.2 := rfl
    rw [map.sizeOf_spec]
    omega
  | _ => exact absurd h List.not_mem_nil

/-- A property that a value has if all that it holds have it is one of every value. -/
theorem children_induction {motive : Value → Prop}
    (step : ∀ v, (∀ c ∈ v.children, motive c) → motive v) (v : Value) : motive v :=
  step v fun c hc =>
    have : sizeOf c < sizeOf v := sizeOf_lt_of_mem_children hc
    children_induction step c
termination_by sizeOf v

theorem equalItems_iff {vs ws : List Value} :
    equalItems vs ws = true ↔ List.Forall₂ (fun a b => a.equal b = true) vs ws := by
  induction vs generalizing ws with
  | nil => cases ws <;> simp [equalItems]
  | cons v vs ih => cases ws <;> simp [equalItems, ih]

theorem equalEntries_iff {vs ws : List (Text × Value)} : equalEntries vs ws = true ↔
    Bindings.names vs = Bindings.names ws ∧
      List.Forall₂ (fun a b => a.equal b = true) (vs.map (·.2)) (ws.map (·.2)) := by
  induction vs generalizing ws with
  | nil => cases ws <;> simp [equalEntries, Bindings.names]
  | cons e vs ih =>
    cases ws with
    | nil => simp [equalEntries, Bindings.names]
    | cons f ws =>
      simp only [equalEntries, Bindings.names, Bool.and_eq_true, beq_iff_eq, ih, List.map_cons,
        List.cons.injEq, List.forall₂_cons]
      tauto

/-- Values are equal if they match and hold equal values. -/
theorem equal_iff : v.equal w = true ↔
    v.Matches w ∧ List.Forall₂ (fun a b => a.equal b = true) v.children w.children := by
  constructor
  · intro h
    unfold equal at h
    split at h
    · exact ⟨.null, .nil⟩
    · obtain rfl := eq_of_beq h
      exact ⟨.bool _, .nil⟩
    · exact ⟨.number (Number.close_iff_compare?_or_near.1 h), .nil⟩
    · obtain rfl := eq_of_beq h
      exact ⟨.string _, .nil⟩
    · have hitems := equalItems_iff.1 h
      exact ⟨.list hitems.length_eq, hitems⟩
    · obtain ⟨hnames, hvalues⟩ := equalEntries_iff.1 h
      exact ⟨.map hnames, hvalues⟩
    · cases h
  · rintro ⟨hmatch, hchildren⟩
    cases hmatch with
    | null => rfl
    | bool b => exact beq_self_eq_true b
    | number h => exact Number.close_iff_compare?_or_near.2 h
    | string t => exact beq_self_eq_true t
    | list h => exact equalItems_iff.2 hchildren
    | map h => exact equalEntries_iff.2 ⟨h, hchildren⟩

theorem Matches.symm (h : v.Matches w) : w.Matches v := by
  cases h with
  | null => exact .null
  | bool b => exact .bool b
  | number h =>
    rw [← Number.close_iff_compare?_or_near, Number.close_comm,
      Number.close_iff_compare?_or_near] at h
    exact .number h
  | string t => exact .string t
  | list h => exact .list h.symm
  | map h => exact .map h.symm

theorem Matches.kind_eq (h : v.Matches w) : v.kind = w.kind := by
  cases h <;> rfl

theorem Matches.names_eq (h : v.Matches w) : v.names = w.names := by
  cases h with
  | map h => exact h
  | _ => rfl

theorem forall₂_iff_rel_getElem? {R : Value → Value → Prop} {vs ws : List Value} :
    List.Forall₂ R vs ws ↔ ∀ i : Nat, Option.Rel R vs[i]? ws[i]? := by
  constructor
  · intro h i
    induction h generalizing i with
    | nil => exact .none
    | cons hfirst _ ih =>
      cases i with
      | zero => exact .some hfirst
      | succ i => exact ih i
  · intro h
    induction vs generalizing ws with
    | nil =>
      cases ws with
      | nil => exact .nil
      | cons w ws => cases h 0
    | cons v vs ih =>
      cases ws with
      | nil => cases h 0
      | cons w ws =>
        obtain ⟨hfirst⟩ := h 0
        exact .cons hfirst (ih fun i => h (i + 1))

/-- Equal values have equal values, or none, wherever a path leads. -/
theorem rel_at?_of_equal (h : v.equal w = true) (path : List Nat) :
    Option.Rel (fun a b => a.equal b = true) (v.at? path) (w.at? path) := by
  induction path generalizing v w with
  | nil => exact .some h
  | cons i path ih =>
    have hchild := forall₂_iff_rel_getElem?.1 (equal_iff.1 h).2 i
    rw [at?, at?]
    generalize v.children[i]? = c at hchild ⊢
    generalize w.children[i]? = d at hchild ⊢
    cases hchild with
    | none => exact .none
    | some h => exact ih h

theorem rel_imp {R S : Value → Value → Prop} (hRS : ∀ a b, R a b → S a b) {a b : Option Value}
    (h : Option.Rel R a b) : Option.Rel S a b := by
  cases h with
  | none => exact .none
  | some h => exact .some (hRS _ _ h)

/-- Values are equal exactly if they match at every path into them. -/
theorem equal_iff_forall_at? :
    v.equal w = true ↔ ∀ path, Option.Rel Matches (v.at? path) (w.at? path) := by
  constructor
  · intro h path
    exact rel_imp (fun a b hab => (equal_iff.1 hab).1) (rel_at?_of_equal h path)
  · intro h
    induction v using children_induction generalizing w with
    | step v ih =>
      obtain ⟨hmatch⟩ := h []
      refine equal_iff.2 ⟨hmatch, forall₂_iff_rel_getElem?.2 fun i => ?_⟩
      have hchild : ∀ path, Option.Rel Matches (v.children[i]?.bind (·.at? path))
          (w.children[i]?.bind (·.at? path)) := fun path => h (i :: path)
      cases hv : v.children[i]? <;> cases hw : w.children[i]? <;> rw [hv, hw] at hchild
      · exact .none
      · cases hchild []
      · cases hchild []
      · next c d => exact .some (ih c (List.mem_of_getElem? hv) hchild)

theorem equal_symm (h : v.equal w = true) : w.equal v = true := by
  rw [equal_iff_forall_at?] at h ⊢
  intro path
  have hrel := h path
  generalize v.at? path = a at hrel ⊢
  generalize w.at? path = b at hrel ⊢
  cases hrel with
  | none => exact .none
  | some h => exact .some h.symm

theorem equal_comm (v w : Value) : v.equal w = w.equal v :=
  Bool.eq_iff_iff.2 ⟨equal_symm, equal_symm⟩

/-- Equality is reflexive and symmetric, and it is the match at every path. -/
theorem equal_refl_comm_at? (v w : Value) :
    v.equal v = true ∧ v.equal w = w.equal v ∧
    (v.equal w = true ↔ ∀ path, Option.Rel Matches (v.at? path) (w.at? path)) ∧
    (v.equal w = true → ∀ path, Option.Rel (fun a b => a.equal b = true ∧ a.kind = b.kind ∧
      a.children.length = b.children.length ∧ a.names = b.names) (v.at? path) (w.at? path)) ∧
    ∀ scope (left right : Expr),
      (left.eval? scope = some v → right.eval? scope = some w →
        (Expr.binary .equal left right).eval? scope = some (.bool (v.equal w)) ∧
        (Expr.binary .notEqual right left).eval? scope = some (.bool !v.equal w)) ∧
      ((Expr.binary .equal left right).eval? scope = none ↔
        (Expr.binary .notEqual right left).eval? scope = none) := by
  refine ⟨equal_self v, equal_comm v w, equal_iff_forall_at?, fun h path => ?_, ?_⟩
  · refine rel_imp (fun a b hab => ?_) (rel_at?_of_equal h path)
    obtain ⟨hmatch, hchildren⟩ := equal_iff.1 hab
    exact ⟨hab, hmatch.kind_eq, hchildren.length_eq, hmatch.names_eq⟩
  · intro scope left right
    constructor
    · intro hleft hright
      constructor
      · rw [Expr.eval?, hleft, hright]
        rfl
      · rw [Expr.eval?, hleft, hright, equal_comm v w]
        rfl
    · rw [Expr.eval?, Expr.eval?]
      cases left.eval? scope <;> cases right.eval? scope <;> simp [BinaryOp.result?]

/-- A list with NaN and with a map in it, whose numbers are two steps apart. -/
theorem equal_refl_comm_at?_steps :
    let v := list [number (.nan true), map [(['a'], number ⟨0x3ff0000000000000⟩)]]
    let w := list [number (.nan true), map [(['a'], number ⟨0x3ff0000000000002⟩)]]
    let scope := Scope.ofList [(['v'], v), (['w'], w)]
    w.equal v = true ∧
      (∃ a b, v.at? [1, 0] = some a ∧ w.at? [1, 0] = some b ∧ a.equal b = true) ∧
      (Expr.binary .equal (.ident ['v']) (.ident ['w'])).eval? scope = some (.bool true) ∧
      (Expr.binary .notEqual (.ident ['w']) (.ident ['v'])).eval? scope = some (.bool false) := by
  intro v w scope
  have h : v.equal w = true := by decide
  obtain ⟨-, hcomm, -, hsame, hanswers⟩ := equal_refl_comm_at? v w
  obtain ⟨hequal, hunequal⟩ := (hanswers scope (.ident ['v']) (.ident ['w'])).1 rfl rfl
  rw [h] at hcomm hequal hunequal
  have hinner : Option.Rel _ (some (number ⟨0x3ff0000000000000⟩))
    (some (number ⟨0x3ff0000000000002⟩)) := hsame h [1, 0]
  cases hinner with
  | some hinner => exact ⟨hcomm.symm, ⟨_, _, rfl, rfl, hinner.1⟩, hequal, hunequal⟩

end Value
end Stencil
