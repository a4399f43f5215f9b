import Stencil.Proofs.Render.Moved

namespace Stencil.Scan

/-- Nothing in the text at hand was malformed so far. What loops found in their blocks does not
count. -/
def WellFormed (s : Scan) : Prop :=
  ∀ r ∈ s.reports, r.depth = 0 → ∀ e, r.diagnostic.cause ≠ .malformed e

def followedBy (s : Scan) (r : Text) : Scan := { s with rest := s.rest ++ r }

theorem not_wellFormed_report (s : Scan) (passed rest : Text) (e : SyntaxError)
    (index : Option Nat) : ¬ (s.report passed rest (.malformed e) index).WellFormed := by
  intro h
  exact h (.here (.malformed e) index) (by simp [report]) rfl e rfl

theorem reports_of_round {render : Renderer} {s t : Scan} {before behind : Text}
    (h : s.round render before behind = some t) : ∃ more, t.reports = s.reports ++ more := by
  unfold round at h
  split at h
  · cases h
    unfold escape
    split
    · exact ⟨[], by simp⟩
    · exact ⟨_, rfl⟩
  · unfold statement at h
    dsimp only at h
    split at h
    · cases h
      exact ⟨_, rfl⟩
    · simp only [Option.bind_eq_bind, Option.bind_eq_some_iff] at h
      obtain ⟨e, -, he⟩ := h
      split at he <;> cases he <;> exact ⟨_, rfl⟩

theorem Step.wellFormed {s t : Scan} (h : Step s t) (ht : t.WellFormed) : s.WellFormed := by
  obtain ⟨before, behind, n, -, hn⟩ := h
  obtain ⟨more, hm⟩ := reports_of_round hn
  intro r hr
  exact ht r (by simp [hm, hr])

theorem Ends.wellFormed {s t : Scan} (h : Ends s t) (ht : t.WellFormed) : s.WellFormed := by
  induction h with
  | done => exact ht
  | step h _ ih => exact h.wellFormed (ih ht)

theorem escape_followedBy {s : Scan} {before inside : Text}
    (h : (s.escape before inside).WellFormed) (r : Text) :
    (s.followedBy r).escape before (inside ++ r) = (s.escape before inside).followedBy r := by
  unfold escape at h ⊢
  split at h
  · next i rest hi =>
    have hr : Escape.interior? (inside ++ r) = some (i, rest ++ r) :=
      Text.cutText?_append_right hi r
    simp [hr, followedBy]
  · exact absurd h (not_wellFormed_report _ _ _ _ _)

/-- A round that finds nothing malformed does not look past the end, where a marker stands. -/
theorem round_followedBy {render : Renderer} {s t : Scan} {before behind : Text}
    (h : s.round render before behind = some t) (ht : t.WellFormed) {r : Text}
    (hr : r = [] ∨ ∃ u, r = marker :: u) :
    (s.followedBy r).round render before (behind ++ r) = some (t.followedBy r) := by
  unfold round at h ⊢
  cases hs : Text.strip? Escape.opening (marker :: behind) with
  | some inside =>
    simp only [hs, Option.some.injEq] at h
    subst h
    have hi : Text.strip? Escape.opening (marker :: (behind ++ r)) = some (inside ++ r) := by
      rw [Text.strip?_eq_some_iff, ← List.append_assoc, ← Text.strip?_eq_some_iff.1 hs]
      rfl
    simp only [hi, escape_followedBy ht r]
  | none =>
    simp only [hs] at h
    unfold statement at h
    dsimp only at h
    cases hread : Statement.read behind with
    | error e =>
      simp only [hread, Option.some.injEq] at h
      subst h
      exact absurd ht (not_wellFormed_report _ _ _ _ _)
    | ok p =>
      obtain ⟨st, rest⟩ := p
      -- What was read is long enough to tell that no escape opens here.
      have hlen : Escape.opening.length ≤ (marker :: behind).length := by
        have := Statement.two_le_length_of_read hread
        simp [Escape.opening]
        omega
      have hi : Text.strip? Escape.opening (marker :: (behind ++ r)) = none := by
        rw [← List.cons_append, Text.strip?_append_of_length_le hlen, hs]
        rfl
      simp only [hread, Option.bind_eq_bind, Option.bind_eq_some_iff] at h
      obtain ⟨e, he, hu⟩ := h
      simp only [hi]
      unfold statement
      simp only [Statement.read_append hread hr, Option.bind_eq_bind, Option.bind_eq_some_iff]
      refine ⟨e, he, ?_⟩
      cases ho : e.outcome with
      | final text =>
        simp only [ho, Option.pure_def, Option.some.injEq] at hu ⊢
        rw [← hu]
        rfl
      | again text =>
        simp only [ho, Option.pure_def, Option.some.injEq] at hu ⊢
        rw [← hu]
        simp [followedBy]

theorem Step.followedBy {s t : Scan} (h : Step s t) (ht : t.WellFormed) {r : Text}
    (hr : r = [] ∨ ∃ u, r = marker :: u) : Step (s.followedBy r) (t.followedBy r) := by
  obtain ⟨before, behind, n, hc, hn⟩ := h
  exact ⟨before, behind ++ r, n, Text.cutAt?_append_right hc r, round_followedBy hn ht hr⟩

/-- Behind a scan that finds nothing malformed, the further text is scanned from where it ends. -/
theorem Ends.followedBy_iff {s t u : Scan} (h : Ends s t) (ht : t.WellFormed) {r : Text}
    (hr : r = [] ∨ ∃ u, r = marker :: u) :
    Ends (s.followedBy r) u ↔ Ends (t.followedBy r) u := by
  induction h with
  | done h => exact ends_advance h
  | step h hu ih => rw [(h.followedBy (hu.wellFormed ht) hr).ends_iff, ih ht]

end Scan

/-- Behind a well-formed document another one renders as it does alone, in the scope it is left. -/
theorem renders_append_iff {scope : Scope} {first second : Text} {r s : Scan}
    (hr : Renders scope first r) (hw : r.WellFormed)
    (hm : second = [] ∨ ∃ u, second = marker :: u) :
    Renders scope (first ++ second) s ↔
      ∃ t, Renders r.scope second t ∧ s = t.after r.done r.reports := by
  have hstart : Renders scope (first ++ second) s ↔
      ((Scan.start scope first).followedBy second).Ends s := Iff.rfl
  have hend : r.followedBy second = ⟨r.done, second, r.scope, r.reports⟩ := by
    simp [Scan.followedBy, hr.rest]
  rw [hstart, Scan.Ends.followedBy_iff hr hw hm, hend]
  exact Scan.ends_iff_renders

/-- A declaration, and behind it a marker without a statement. -/
theorem renders_append_iff_declare :
    Renders .empty ("a$declare(x)\x7b5\x7d".toList ++ "$y".toList)
      ⟨"a$y".toList, [], Scope.empty.insert ['x'] (.string ['5']),
        [.here (.malformed .missingOpeningBrace) (some 1)]⟩ := by
  have hr : Renders .empty "a$declare(x)\x7b5\x7d".toList
      ⟨['a'], [], Scope.empty.insert ['x'] (.string ['5']), []⟩ :=
    renders_iff_run.2 ⟨2, rfl⟩
  have hs : Renders (Scope.empty.insert ['x'] (.string ['5'])) "$y".toList
      ⟨['$', 'y'], [], Scope.empty.insert ['x'] (.string ['5']),
        [.here (.malformed .missingOpeningBrace) (some 0)]⟩ :=
    renders_iff_run.2 ⟨2, rfl⟩
  exact (renders_append_iff hr (by simp [Scan.WellFormed]) (.inr ⟨['y'], rfl⟩)).2 ⟨_, hs, rfl⟩

end Stencil
