import Stencil.Proofs.Statement.Inert
import Stencil.Proofs.Render.Composition

namespace Stencil

namespace Scan

variable {r : Text}

/-- A scan with its last text at the end. -/
def closedBy (s : Scan) (r : Text) : Scan := { s with done := s.done ++ r }

theorem escape_followedBy_inert (h : r.Inert) (s : Scan) (before inside : Text) :
    (s.followedBy r).escape before (inside ++ r) = (s.escape before inside).followedBy r := by
  have hi : Escape.interior? (inside ++ r) =
      (Escape.interior? inside).map (Prod.map id (· ++ r)) :=
    Text.cutText?_append_of_not_mem h.marker ['\x7d', '$'] inside
  unfold escape
  rw [hi]
  cases Escape.interior? inside <;> rfl

theorem statement_followedBy_inert (h : r.Inert) (render : Renderer) (s : Scan)
    (before behind : Text) :
    (s.followedBy r).statement render before (behind ++ r) =
      (s.statement render before behind).map fun t => t.followedBy r := by
  have hread := Statement.read_append_inert h behind
  unfold statement
  dsimp only
  rw [hread]
  cases Statement.read behind with
  | error e => rfl
  | ok p =>
    obtain ⟨st, rest⟩ := p
    have hdone : (s.followedBy r).done = s.done := rfl
    have hscope : (s.followedBy r).scope = s.scope := rfl
    simp only [Except.map, hdone, hscope, Option.bind_eq_bind, Option.map_bind]
    congr 1
    funext e
    cases ho : e.outcome <;> simp [followedBy, ho]

theorem round_followedBy_inert (h : r.Inert) (render : Renderer) (s : Scan) (before behind : Text) :
    (s.followedBy r).round render before (behind ++ r) =
      (s.round render before behind).map fun t => t.followedBy r := by
  have hopen : Text.strip? Escape.opening (marker :: (behind ++ r)) =
      (Text.strip? Escape.opening (marker :: behind)).map (· ++ r) :=
    Text.strip?_append_of_not_mem h.opener [marker, marker] (marker :: behind)
  unfold round
  rw [hopen]
  cases Text.strip? Escape.opening (marker :: behind) with
  | none => exact statement_followedBy_inert h render s before behind
  | some inside => simp [escape_followedBy_inert h]

/-- In front of text that completes nothing the rounds are those without it. -/
theorem step_followedBy_iff (h : r.Inert) {s t : Scan} :
    Step (s.followedBy r) t ↔ ∃ u, Step s u ∧ t = u.followedBy r := by
  have hcut := Text.cutAt?_append_of_not_mem h.marker s.rest
  constructor
  · intro hstep
    obtain ⟨before, behind, n, hc, hn⟩ := hstep
    obtain ⟨⟨front, rest⟩, hs, heq⟩ := Option.map_eq_some_iff.1 (hcut.symm.trans hc)
    obtain ⟨rfl, rfl⟩ := Prod.mk.inj heq
    rw [round_followedBy_inert h] at hn
    obtain ⟨u, hu, hut⟩ := Option.map_eq_some_iff.1 hn
    exact ⟨u, ⟨front, rest, n, hs, hu⟩, hut.symm⟩
  · intro hstep
    obtain ⟨u, ⟨before, behind, n, hc, hn⟩, rfl⟩ := hstep
    refine ⟨before, behind ++ r, n, ?_, ?_⟩
    · show Text.cutAt? marker (s.rest ++ r) = some (before, behind ++ r)
      rw [hcut, hc]
      rfl
    · rw [round_followedBy_inert h, hn]
      rfl

/-- In front of text that completes nothing a scan ends as it ends without it. -/
theorem ends_followedBy_iff (h : r.Inert) {s t : Scan} :
    Ends (s.followedBy r) t ↔ ∃ u, Ends s u ∧ t = u.closedBy r := by
  apply ends_map_iff (f := fun s => s.followedBy r) (g := fun s => s.closedBy r)
  · intro s t
    exact step_followedBy_iff h
  · intro s hm
    exact List.mem_append_left r hm
  · intro s hm
    have hrest : marker ∉ (s.followedBy r).rest := by
      show marker ∉ s.rest ++ r
      simp [hm, h.marker]
    have hdone := Ends.done hrest
    simpa [followedBy, closedBy, content] using hdone

end Scan

/-- Text without markers in front, and text that completes nothing behind, change nothing. -/
theorem renders_surrounded_iff {scope : Scope} {front back document : Text}
    (hfront : marker ∉ front) (hback : back.Inert) {s : Scan} :
    Renders scope (front ++ document ++ back) s ↔
      ∃ r, Renders scope document r ∧
        s = ⟨front ++ r.done ++ back, [], r.scope, r.reports.map (Report.moved front.size)⟩ := by
  have hadvance : Renders scope (front ++ document ++ back) s ↔
      Scan.Ends ⟨front, document ++ back, scope, []⟩ s := by
    rw [List.append_assoc]
    exact Scan.ends_advance hfront
  have hbehind : Scan.Ends ⟨front, document ++ back, scope, []⟩ s ↔
      ∃ t, Renders scope (document ++ back) t ∧ s = t.after front [] := Scan.ends_iff_renders
  have hends : ∀ t, Renders scope (document ++ back) t ↔
      ∃ r, Renders scope document r ∧ t = r.closedBy back := by
    intro t
    show ((Scan.start scope document).followedBy back).Ends t ↔ _
    exact Scan.ends_followedBy_iff hback
  have hafter : ∀ r, Renders scope document r → (r.closedBy back).after front [] =
      ⟨front ++ r.done ++ back, [], r.scope, r.reports.map (Report.moved front.size)⟩ := by
    intro r hr
    simp [Scan.closedBy, Scan.after, hr.rest]
  rw [hadvance, hbehind]
  constructor
  · intro h
    obtain ⟨t, ht, rfl⟩ := h
    obtain ⟨r, hr, rfl⟩ := (hends t).1 ht
    exact ⟨r, hr, hafter r hr⟩
  · intro h
    obtain ⟨r, hr, rfl⟩ := h
    exact ⟨_, (hends _).2 ⟨r, hr, rfl⟩, (hafter r hr).symm⟩

/-- An escape that never closes, and parameters without an end, in front of more text. -/
theorem renders_surrounded_iff_malformed :
    Renders .empty ("é".toList ++ "$$\x7ba $if(b".toList ++ " (c else".toList)
      ⟨"é$$\x7ba $if(b (c else".toList, [], .empty,
        [.here (.malformed (.loneEscape 2)) none,
          .here (.malformed .missingOpeningBrace) (some 7)]⟩ := by
  have hback : Text.Inert " (c else".toList := ⟨by decide, by decide, by decide, by decide⟩
  have hr : Renders .empty "$$\x7ba $if(b".toList ⟨"$$\x7ba $if(b".toList, [], .empty,
      [.here (.malformed (.loneEscape 0)) none,
        .here (.malformed .missingOpeningBrace) (some 5)]⟩ :=
    renders_iff_run.2 ⟨3, rfl⟩
  exact (renders_surrounded_iff (by decide) hback).2 ⟨_, hr, rfl⟩

end Stencil
