import Stencil.Proofs.Statement.Grammar

namespace Stencil

/-- Text without a marker, in which no block opens and no region ends. -/
structure Text.Inert (t : Text) : Prop where
  marker : Stencil.marker ∉ t
  opener : Pair.braces.opener ∉ t
  closer : Pair.braces.closer ∉ t
  paren : Pair.parens.closer ∉ t

namespace Pair

variable {p : Pair} {r : Text}

theorem close?_eq_none_of_not_mem (h : p.closer ∉ r) (d : Nat) : p.close? d r = none := by
  cases hc : p.close? d r with
  | none => rfl
  | some q =>
    have hr : r = q.1 ++ p.closer :: q.2 := (append_of_close? hc).1
    apply absurd _ h
    rw [hr]
    simp

/-- A region ends in front of a text that closes none, or it does not end at all. -/
theorem close?_append_of_not_mem (h : p.closer ∉ r) (d : Nat) (t : Text) :
    p.close? d (t ++ r) = (p.close? d t).map fun (a, b) => (a, b ++ r) := by
  fun_induction close? p d t with
  | case1 d => exact close?_eq_none_of_not_mem h d
  | case2 d t ih =>
    simp only [List.cons_append, close?, if_true, ih, Option.map_map]
    rfl
  | case3 t hc =>
    rw [List.cons_append, close?, if_neg hc, if_pos rfl]
    rfl
  | case4 t d hc ih =>
    rw [List.cons_append, close?, if_neg hc, if_pos rfl]
    dsimp only
    rw [ih, Option.map_map, Option.map_map]
    rfl
  | case5 d c t ho hc ih =>
    simp only [List.cons_append, close?, if_neg ho, if_neg hc, ih, Option.map_map]
    rfl

theorem interior?_append_of_not_mem (h : p.closer ∉ r) (t : Text) :
    p.interior? (t ++ r) = (p.interior? t).map fun (a, b) => (a, b ++ r) := by
  cases t with
  | nil =>
    cases r with
    | nil => rfl
    | cons c r =>
      have hr : p.closer ∉ r := fun hm => h (List.mem_cons_of_mem c hm)
      have hnone := close?_eq_none_of_not_mem hr 0
      simp [interior?, hnone]
  | cons c t =>
    rw [List.cons_append, interior?, interior?]
    by_cases hc : c = p.opener
    · rw [if_pos hc, if_pos hc]
      exact close?_append_of_not_mem h 0 t
    · rw [if_neg hc, if_neg hc]
      rfl

end Pair

namespace Statement

variable {keyword r : Text} {parameters : Option Text}

theorem offersBranch_append_iff (h : Pair.braces.opener ∉ r) (t : Text) :
    OffersBranch (t ++ r) ↔ OffersBranch t := by
  constructor
  · intro ho
    obtain ⟨before, between, rest, hbefore, hbetween, ht⟩ := ho
    -- The brace of the branch stands in front of `r`, so all of the branch does.
    rcases List.append_eq_append_iff.1 ht with ⟨u, -, hr⟩ | ⟨u, hu, hrest⟩
    · apply absurd _ h
      rw [hr]
      simp
    · cases u with
      | nil =>
        apply absurd _ h
        rw [← List.nil_append r, ← hrest]
        exact List.mem_cons_self
      | cons c u =>
        obtain ⟨rfl, -⟩ := List.cons.inj hrest
        exact ⟨before, between, u, hbefore, hbetween, hu⟩
  · intro ho
    obtain ⟨before, between, rest, hbefore, hbetween, rfl⟩ := ho
    exact ⟨before, between, rest ++ r, hbefore, hbetween, by simp⟩

theorem isDetachedElse_append (h : Pair.braces.opener ∉ r) (t : Text) :
    isDetachedElse (t ++ r) = isDetachedElse t := by
  rw [Bool.eq_iff_iff, isDetachedElse_iff, isDetachedElse_iff]
  exact offersBranch_append_iff h t

theorem refuseDetached_append (h : Pair.braces.opener ∉ r) (t : Text) :
    readElse.refuseDetached keyword parameters (t ++ r) =
      (readElse.refuseDetached keyword parameters t).map fun (branch, rest) =>
        (branch, rest ++ r) := by
  unfold readElse.refuseDetached
  rw [isDetachedElse_append h]
  split <;> rfl

theorem readElse_append (h : r.Inert) (t : Text) :
    readElse keyword parameters (t ++ r) =
      (readElse keyword parameters t).map fun (branch, rest) => (branch, rest ++ r) := by
  have hstarts : Text.startsWith (t ++ r) joinedElse = Text.startsWith t joinedElse := by
    have hs := Text.strip?_append_of_not_mem h.opener elseText t
    rw [Text.startsWith, Text.startsWith, joinedElse, hs, Option.isSome_map]
  by_cases hj : Text.startsWith t joinedElse = true
  · obtain ⟨u, rfl⟩ := startsWith_joinedElse_iff.1 hj
    have hs := Text.strip?_append elseText (Pair.braces.opener :: u)
    have hsr := Text.strip?_append elseText (Pair.braces.opener :: (u ++ r))
    have hi := Pair.interior?_append_of_not_mem h.closer (Pair.braces.opener :: u)
    rw [List.cons_append] at hi
    rw [List.append_assoc, List.cons_append]
    simp only [readElse, hs, hsr, if_true, hi]
    cases Pair.braces.interior? (Pair.braces.opener :: u) <;> rfl
  · rw [readElse_of_not_joined hj, readElse_of_not_joined (hstarts ▸ hj)]
    exact refuseDetached_append h.opener t

theorem readBlocks_append (h : r.Inert) (t : Text) :
    readBlocks keyword parameters (t ++ r) =
      (readBlocks keyword parameters t).map fun (s, rest) => (s, rest ++ r) := by
  unfold readBlocks
  rw [Pair.interior?_append_of_not_mem h.closer]
  cases Pair.braces.interior? t with
  | none => rfl
  | some p =>
    simp only [Option.map_some, readElse_append h]
    cases readElse keyword parameters p.2 <;> rfl

/-- Reading finds in front of text that completes nothing what it finds without it. -/
theorem read_append_inert (h : r.Inert) (t : Text) :
    read (t ++ r) = (read t).map fun (s, rest) => (s, rest ++ r) := by
  unfold read
  rw [Text.cutAt?_append_of_not_mem h.opener]
  cases hc : Text.cutAt? Pair.braces.opener t with
  | none => rfl
  | some p =>
    obtain ⟨front, behind⟩ := p
    obtain ⟨ht, -⟩ := Text.append_of_cutAt? hc
    simp only [Option.map_some]
    cases hk : Text.cutAt? Pair.parens.opener front with
    | none => exact readBlocks_append h (Pair.braces.opener :: behind)
    | some q =>
      obtain ⟨keyword, inner⟩ := q
      obtain ⟨hfront, -⟩ := Text.append_of_cutAt? hk
      have hlen : keyword.length ≤ t.length := by
        rw [ht, hfront]
        simp only [List.length_append]
        omega
      simp only [List.drop_append_of_le_length hlen, Pair.interior?_append_of_not_mem h.paren]
      cases Pair.parens.interior? (t.drop keyword.length) with
      | none => rfl
      | some i =>
        simp only [Option.map_some, Text.cutAt?_append_of_not_mem h.opener]
        cases Text.cutAt? Pair.braces.opener i.2 with
        | none => rfl
        | some g => exact readBlocks_append h (Pair.braces.opener :: g.2)

end Statement
end Stencil
