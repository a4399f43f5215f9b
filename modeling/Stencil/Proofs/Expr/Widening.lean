import Stencil.Expr.Eval

namespace Stencil

namespace Scope

/-- Every variable of the first scope is one of the second, with the same value. -/
instance : HasSubset Scope :=
  ⟨fun s t => ∀ name value, s.find? name = some value → t.find? name = some value⟩

variable {s t : Scope}

theorem subset_insert_of_free {name : Text} (h : s.find? name = none) (value : Value) :
    s ⊆ s.insert name value := by
  intro k v hv
  rw [find?_insert]
  split
  · next hk =>
    rw [← hk, h] at hv
    cases hv
  · exact hv

theorem subset_insert (h : s ⊆ t) (name : Text) (value : Value) :
    s.insert name value ⊆ t.insert name value := by
  intro k v hv
  rw [find?_insert] at hv ⊢
  split
  · next hk => simpa [hk] using hv
  · next hk =>
    rw [if_neg hk] at hv
    exact h k v hv

theorem subset_overlay (h : s ⊆ t) (child : Scope) : s.overlay child ⊆ t.overlay child := by
  intro k v hv
  rw [find?_overlay] at hv ⊢
  cases hc : child.find? k with
  | none =>
    rw [hc, Option.none_or] at hv
    exact h k v hv
  | some w => simpa [hc] using hv

end Scope

namespace Expr

variable {s t : Scope}

mutual

theorem eval?_of_subset (h : s ⊆ t) :
    ∀ (e : Expr) {v : Value}, e.eval? s = some v → e.eval? t = some v
  | .null, _, hv => hv
  | .bool _, _, hv => hv
  | .number _, _, hv => hv
  | .string _, _, hv => hv
  | .ident name, v, hv => h name v hv
  | .list items, v, hv => by
    simp only [eval?, Option.map_eq_some_iff] at hv ⊢
    obtain ⟨vs, hvs, rfl⟩ := hv
    exact ⟨vs, evalItems?_of_subset h items hvs, rfl⟩
  | .member target name, v, hv => by
    simp only [eval?, Option.bind_eq_bind, Option.bind_eq_some_iff] at hv ⊢
    obtain ⟨w, hw, hv⟩ := hv
    exact ⟨w, eval?_of_subset h target hw, hv⟩
  | .index target position, v, hv => by
    simp only [eval?, Option.bind_eq_bind, Option.bind_eq_some_iff] at hv ⊢
    obtain ⟨w, hw, i, hi, hv⟩ := hv
    exact ⟨w, eval?_of_subset h target hw, i, eval?_of_subset h position hi, hv⟩
  | .unary op operand, v, hv => by
    simp only [eval?, Option.bind_eq_bind, Option.bind_eq_some_iff] at hv ⊢
    obtain ⟨w, hw, hv⟩ := hv
    exact ⟨w, eval?_of_subset h operand hw, hv⟩
  | .binary op left right, v, hv => by
    simp only [eval?, Option.bind_eq_bind, Option.bind_eq_some_iff] at hv ⊢
    obtain ⟨l, hl, r, hr, hv⟩ := hv
    exact ⟨l, eval?_of_subset h left hl, r, eval?_of_subset h right hr, hv⟩
  | .logical op left right, v, hv => by
    simp only [eval?, Option.bind_eq_bind, Option.bind_eq_some_iff] at hv ⊢
    obtain ⟨l, hl, hv⟩ := hv
    refine ⟨l, eval?_of_subset h left hl, ?_⟩
    split
    · next hd => simpa [hd] using hv
    · next hd =>
      rw [if_neg hd] at hv
      exact eval?_of_subset h right hv
  | .conditional condition yes no, v, hv => by
    simp only [eval?, Option.bind_eq_bind, Option.bind_eq_some_iff] at hv ⊢
    obtain ⟨c, hc, hv⟩ := hv
    refine ⟨c, eval?_of_subset h condition hc, ?_⟩
    split
    · next ht =>
      rw [if_pos ht] at hv
      exact eval?_of_subset h yes hv
    · next ht =>
      rw [if_neg ht] at hv
      exact eval?_of_subset h no hv

theorem evalItems?_of_subset (h : s ⊆ t) :
    ∀ (es : List Expr) {vs : List Value}, evalItems? s es = some vs → evalItems? t es = some vs
  | [], _, hvs => hvs
  | e :: es, vs, hvs => by
    simp only [evalItems?, Option.bind_eq_bind, Option.bind_eq_some_iff] at hvs ⊢
    obtain ⟨w, hw, ws, hws, hvs⟩ := hvs
    exact ⟨w, eval?_of_subset h e hw, ws, evalItems?_of_subset h es hws, hvs⟩

end

end Expr

/-- What a source comes to in a scope it comes to in a wider one. -/
theorem evaluate?_of_subset {s t : Scope} (h : s ⊆ t) {source : Text} {v : Value}
    (hv : evaluate? source s = some v) : evaluate? source t = some v := by
  unfold evaluate? at hv ⊢
  split at hv
  · exact hv
  · next e _ => exact Expr.eval?_of_subset h e hv
  · cases hv

end Stencil
