import Stencil.Proofs.Expr.Widening

namespace Stencil

/-- Entries over bindings win as they do alone. -/
theorem Bindings.find?_overlay_ofList {α : Type} (b : Bindings α) (entries : List (Text × α))
    (k : Text) :
    (b.overlay entries).find? k = ((Bindings.ofList entries).find? k).or (b.find? k) := by
  induction entries generalizing b with
  | nil => simp [overlay, ofList]
  | cons e entries ih =>
    have hb : (b.overlay (e :: entries)).find? k =
        ((Bindings.ofList entries).find? k).or ((b.insert e.1 e.2).find? k) := ih _
    have hnil : (Bindings.ofList (e :: entries)).find? k =
        ((Bindings.ofList entries).find? k).or ((insert [] e.1 e.2).find? k) := ih _
    rw [hb, hnil, find?_insert, find?_insert, Option.or_assoc]
    by_cases hk : e.1 = k
    · simp [hk]
    · simp [hk]

theorem Bindings.Ordered.find?_of_mem {α : Type} {b : Bindings α} (h : b.Ordered) {e : Text × α}
    (he : e ∈ b) : b.find? e.1 = some e.2 := by
  induction b with
  | nil => cases he
  | cons f b ih =>
    obtain ⟨hhead, htail⟩ := List.pairwise_cons.1 h
    rcases List.mem_cons.1 he with rfl | he
    · exact if_pos rfl
    · have hne : f.1 ≠ e.1 := fun heq => List.lt_irrefl f.1 (heq ▸ hhead e he)
      rw [Bindings.find?, if_neg hne]
      exact ih htail he

theorem Bindings.mem_names_iff {α : Type} {b : Bindings α} {name : Text} :
    name ∈ b.names ↔ ∃ v, b.find? name = some v := by
  induction b with
  | nil => simp [names]
  | cons e b ih =>
    have hnames : name ∈ Bindings.names (e :: b) ↔ name = e.1 ∨ name ∈ names b := List.mem_cons
    rw [hnames, ih, find?]
    by_cases he : e.1 = name
    · simp [he]
    · simp [he, Ne.symm he]

theorem Bindings.mem_of_find? {α : Type} {b : Bindings α} {name : Text} {v : α}
    (h : b.find? name = some v) : (name, v) ∈ b := by
  induction b with
  | nil => cases h
  | cons e b ih =>
    rw [find?] at h
    split at h
    · next he =>
      obtain rfl := Option.some.inj h
      exact he ▸ List.mem_cons_self
    · exact List.mem_cons_of_mem _ (ih h)

theorem Bindings.Ordered.find?_tail {α : Type} {e : Text × α} {b : Bindings α}
    (h : Bindings.Ordered (e :: b)) : b.find? e.1 = none :=
  find?_eq_none_of_lt (List.pairwise_cons.1 h).1

namespace Scope

theorem find?_ofList_append (a b : List (Text × Value)) (k : Text) :
    (ofList (a ++ b)).find? k = ((ofList b).find? k).or ((ofList a).find? k) := by
  have happend : Bindings.ofList (a ++ b) = (Bindings.ofList a).overlay b := List.foldl_append
  change (Bindings.ofList (a ++ b)).find? k = _
  rw [happend, Bindings.find?_overlay_ofList]
  rfl

/-- Under a name stands the last value that is listed for it. -/
theorem find?_ofList (entries : List (Text × Value)) (k : Text) :
    (ofList entries).find? k = entries.reverse.lookup k := by
  induction entries with
  | nil => rfl
  | cons e entries ih =>
    have happend := find?_ofList_append [e] entries k
    have hone : (ofList [e]).find? k = [e].lookup k := by
      rw [show ofList [e] = empty.insert e.1 e.2 from rfl, find?_insert, find?_empty,
        List.lookup_cons]
      by_cases hk : e.1 = k
      · simp [hk]
      · have hne : (k == e.1) = false := beq_eq_false_iff_ne.2 (Ne.symm hk)
        simp [hk, hne]
    rw [List.singleton_append] at happend
    rw [happend, ih, hone, List.reverse_cons, List.lookup_append]

theorem ofList_bindings (s : Scope) : ofList s.bindings = s := by
  apply ext_find?
  intro k
  have h := Bindings.find?_overlay s.ordered [] k
  rw [Bindings.find?_nil, Option.or_none] at h
  exact h

theorem find?_of_mem_bindings {s : Scope} {e : Text × Value} (he : e ∈ s.bindings) :
    s.find? e.1 = some e.2 :=
  s.ordered.find?_of_mem he

@[simp] theorem overlay_ofList_nil (s : Scope) : s.overlay (ofList []) = s := rfl

@[simp] theorem empty_overlay (s : Scope) : empty.overlay s = s := by
  apply ext_find?
  intro k
  rw [find?_overlay, find?_empty, Option.or_none]

theorem overlay_ofList_append (s : Scope) (a b : List (Text × Value)) :
    (s.overlay (ofList a)).overlay (ofList b) = s.overlay (ofList (a ++ b)) := by
  apply ext_find?
  intro k
  rw [find?_overlay, find?_overlay, find?_overlay, find?_ofList_append, Option.or_assoc]

/-- Layering a scope over another changes nothing exactly if everything in it is there. -/
theorem overlay_eq_self_iff {s child : Scope} : s.overlay child = s ↔ child ⊆ s := by
  constructor
  · intro h name value hv
    rw [← h, find?_overlay, hv]
    rfl
  · intro h
    apply ext_find?
    intro k
    rw [find?_overlay]
    cases hc : child.find? k with
    | none => rfl
    | some v => exact (h k v hc).symm

theorem ofList_eq_empty_iff {entries : List (Text × Value)} :
    ofList entries = .empty ↔ entries = [] := by
  constructor
  · intro h
    rcases List.eq_nil_or_concat entries with rfl | ⟨front, e, rfl⟩
    · rfl
    · have hlast := find?_ofList_append front [e] e.1
      have he : (ofList [e]).find? e.1 = some e.2 := by
        rw [show ofList [e] = empty.insert e.1 e.2 from rfl, find?_insert, if_pos rfl]
      rw [← List.concat_eq_append, h, he] at hlast
      cases hlast
  · intro h
    rw [h]
    rfl

end Scope
end Stencil
