import Stencil.Engine
import Stencil.Proofs.Text.Cut

namespace Stencil

/-- Every answer within some rounds is an answer within more. -/
theorem Scan.render_of_le {rounds more : Nat} (hle : rounds ≤ more) :
    Renderer.Extends (Scan.render rounds) (Scan.render more) := by
  intro scope text result h
  cases rounds with
  | zero => simp [Scan.render] at h
  | succ rounds =>
    obtain ⟨n, rfl⟩ : ∃ n, more = n + 1 := ⟨more - 1, by omega⟩
    rw [Scan.render] at h ⊢
    split at h
    · simp at h
    · next u hu => simpa [Scan.run_of_le (by omega : rounds ≤ n) hu] using h

namespace Scan

/-- One round, with whatever number of rounds its loops take. -/
def Step (s t : Scan) : Prop :=
  ∃ before behind rounds, Text.cutAt? marker s.rest = some (before, behind) ∧
    s.round (render rounds) before behind = some t

/-- A scan comes to its end. -/
inductive Ends : Scan → Scan → Prop
  | done {s : Scan} (h : marker ∉ s.rest) : Ends s { s with done := s.content, rest := [] }
  | step {s t u : Scan} (h : Step s t) (ht : Ends t u) : Ends s u

theorem Step.unique {s t u : Scan} (ht : Step s t) (hu : Step s u) : t = u := by
  obtain ⟨before, behind, n, hc, hn⟩ := ht
  obtain ⟨before', behind', m, hc', hm⟩ := hu
  rw [hc, Option.some.injEq, Prod.mk.injEq] at hc'
  obtain ⟨rfl, rfl⟩ := hc'
  have hn' := round_extends (render_of_le (Nat.le_max_left n m)) hn
  have hm' := round_extends (render_of_le (Nat.le_max_right n m)) hm
  rw [hn', Option.some.injEq] at hm'
  exact hm'

theorem Step.mem {s t : Scan} (h : Step s t) : marker ∈ s.rest := by
  obtain ⟨before, behind, n, hc, -⟩ := h
  rw [(Text.append_of_cutAt? hc).1]
  simp

/-- A scan and what one round makes of it have the same end. -/
theorem Step.ends_iff {s t u : Scan} (h : Step s t) : Ends s u ↔ Ends t u := by
  constructor
  · intro hs
    cases hs with
    | done hd => exact absurd h.mem hd
    | step hs hu => rwa [h.unique hs]
  · exact Ends.step h

theorem ends_iff_of_not_mem {s u : Scan} (h : marker ∉ s.rest) :
    Ends s u ↔ u = { s with done := s.content, rest := [] } := by
  constructor
  · intro hs
    cases hs with
    | done => rfl
    | step hs _ => exact absurd hs.mem h
  · intro h
    subst h
    exact Ends.done h

theorem Ends.unique {s t u : Scan} (ht : Ends s t) (hu : Ends s u) : t = u := by
  induction ht with
  | done h => exact ((ends_iff_of_not_mem h).1 hu).symm
  | step h _ ih => exact ih (h.ends_iff.1 hu)

theorem Ends.rest {s t : Scan} (h : Ends s t) : t.rest = [] := by
  induction h with
  | done => rfl
  | step _ _ ih => exact ih

theorem ends_of_run {rounds : Nat} {s t : Scan} (h : run rounds s = some t) : Ends s t := by
  induction rounds generalizing s with
  | zero => simp [run] at h
  | succ rounds ih =>
    rw [run] at h
    split at h
    · next hc =>
      cases h
      exact Ends.done (Text.cutAt?_eq_none_iff.1 hc)
    · next before behind hc =>
      split at h
      · simp at h
      · next u hu => exact Ends.step ⟨before, behind, rounds, hc, hu⟩ (ih h)

/-- A scan ends exactly where enough rounds lead. -/
theorem ends_iff_run {s t : Scan} : Ends s t ↔ ∃ rounds, run rounds s = some t := by
  constructor
  · intro h
    induction h with
    | done h => exact ⟨1, by simp [run, Text.cutAt?_eq_none_iff.2 h]⟩
    | @step s t u h _ ih =>
      obtain ⟨before, behind, n, hc, hn⟩ := h
      obtain ⟨m, hm⟩ := ih
      have hr := round_extends (render_of_le (Nat.le_max_left n m)) hn
      refine ⟨max n m + 1, ?_⟩
      rw [run, hc]
      simp only [hr]
      exact run_of_le (Nat.le_max_right n m) hm
  · intro h
    obtain ⟨rounds, h⟩ := h
    exact ends_of_run h

/-- Two scans whose rounds agree end alike. -/
theorem ends_congr {s t u : Scan} (hstep : ∀ v, Step s v ↔ Step t v)
    (hmem : marker ∈ s.rest ↔ marker ∈ t.rest) (hcontent : s.content = t.content)
    (hscope : s.scope = t.scope) (hreports : s.reports = t.reports) : Ends s u ↔ Ends t u := by
  by_cases h : marker ∈ s.rest
  · constructor
    · intro hs
      cases hs with
      | done hd => exact absurd h hd
      | step hs hu => exact Ends.step ((hstep _).1 hs) hu
    · intro ht
      cases ht with
      | done hd => exact absurd (hmem.1 h) hd
      | step ht hu => exact Ends.step ((hstep _).2 ht) hu
  · rw [ends_iff_of_not_mem h, ends_iff_of_not_mem (mt hmem.2 h), hcontent, hscope, hreports]

/-- The image of a scan ends in that of its end, if both take the same rounds. -/
theorem ends_map_iff {f g : Scan → Scan} (hstep : ∀ s t, Step (f s) t ↔ ∃ u, Step s u ∧ t = f u)
    (hrest : ∀ s, marker ∈ s.rest → marker ∈ (f s).rest)
    (hend : ∀ s, marker ∉ s.rest → Ends (f s) (g { s with done := s.content, rest := [] }))
    {s t : Scan} : Ends (f s) t ↔ ∃ u, Ends s u ∧ t = g u := by
  constructor
  · intro h
    generalize hs : f s = s' at h
    induction h generalizing s with
    | done h =>
      subst hs
      have hm := mt (hrest s) h
      exact ⟨_, Ends.done hm, (Ends.done h).unique (hend s hm)⟩
    | step h _ ih =>
      subst hs
      obtain ⟨u, hu, rfl⟩ := (hstep _ _).1 h
      obtain ⟨v, hv, rfl⟩ := ih rfl
      exact ⟨v, Ends.step hu hv, rfl⟩
  · intro h
    obtain ⟨u, hu, rfl⟩ := h
    induction hu with
    | done h => exact hend _ h
    | step h _ ih => exact Ends.step ((hstep _ _).2 ⟨_, h, rfl⟩) ih

theorem round_advance (render : Renderer) (s : Scan) (p before behind : Text) :
    s.round render (p ++ before) behind =
      Scan.round render { s with done := s.done ++ p } before behind := by
  simp only [round, escape, statement, report, List.append_assoc]

/-- Text without a marker is passed over. -/
theorem ends_advance {done p rest : Text} {scope : Scope} {reports : List Report} {t : Scan}
    (hp : marker ∉ p) :
    Ends ⟨done, p ++ rest, scope, reports⟩ t ↔ Ends ⟨done ++ p, rest, scope, reports⟩ t := by
  apply ends_congr
  · intro v
    constructor
    · intro h
      obtain ⟨before, behind, n, hc, hn⟩ := h
      rw [Text.cutAt?_append_left hp] at hc
      obtain ⟨⟨a, b⟩, ha, hab⟩ := Option.map_eq_some_iff.1 hc
      simp only [Prod.mk.injEq] at hab
      obtain ⟨rfl, rfl⟩ := hab
      rw [round_advance] at hn
      exact ⟨a, b, n, ha, hn⟩
    · intro h
      obtain ⟨before, behind, n, hc, hn⟩ := h
      refine ⟨p ++ before, behind, n, ?_, ?_⟩
      · simp only at hc
        rw [Text.cutAt?_append_left hp, hc]
        rfl
      · rw [round_advance]
        exact hn
  · simp [hp]
  · simp [content]
  · rfl
  · rfl

end Scan

/-- A text renders in a scope to a finished scan: its text, the scope it leaves and its reports. -/
def Renders (scope : Scope) (document : Text) (result : Scan) : Prop :=
  (Scan.start scope document).Ends result

theorem Renders.unique {scope : Scope} {document : Text} {r u : Scan} (hr : Renders scope document r)
    (hu : Renders scope document u) : r = u :=
  Scan.Ends.unique hr hu

theorem renders_iff_run {scope : Scope} {document : Text} {r : Scan} :
    Renders scope document r ↔ ∃ rounds, Scan.run rounds (Scan.start scope document) = some r :=
  Scan.ends_iff_run

/-- The engine's answers, in whatever number of rounds, are the renders over its globals. -/
theorem Engine.render?_eq_some_iff {engine : Engine} {document : Text} {scope : Scope}
    {answer : Rendered} :
    (∃ rounds, engine.render? rounds document scope = some answer) ↔
      ∃ r, Renders (engine.globals.overlay scope) document r ∧
        answer = ⟨r.done, r.reports.map Report.diagnostic⟩ := by
  constructor
  · intro h
    obtain ⟨rounds, h⟩ := h
    obtain ⟨r, hr, ha⟩ := Option.map_eq_some_iff.1 h
    exact ⟨r, renders_iff_run.2 ⟨rounds, hr⟩, ha.symm⟩
  · intro h
    obtain ⟨r, hr, rfl⟩ := h
    obtain ⟨rounds, h⟩ := renders_iff_run.1 hr
    exact ⟨rounds, Option.map_eq_some_iff.2 ⟨r, h, rfl⟩⟩

theorem Engine.render?_of_le {rounds more : Nat} (hle : rounds ≤ more) {engine : Engine}
    {document : Text} {scope : Scope} {answer : Rendered}
    (h : engine.render? rounds document scope = some answer) :
    engine.render? more document scope = some answer := by
  obtain ⟨r, hr, rfl⟩ := Option.map_eq_some_iff.1 h
  exact Option.map_eq_some_iff.2 ⟨r, Scan.run_of_le hle hr, rfl⟩

/-- The declarations of a document are those that its render leaves in the empty scope. -/
theorem declarations?_eq_some_iff {document : Text} {d : Declarations} :
    (∃ rounds, declarations? rounds document = some d) ↔
      ∃ r, Renders .empty document r ∧ d = ⟨r.scope, r.reports.map Report.diagnostic⟩ := by
  constructor
  · intro h
    obtain ⟨rounds, h⟩ := h
    obtain ⟨r, hr, hd⟩ := Option.map_eq_some_iff.1 h
    exact ⟨r, renders_iff_run.2 ⟨rounds, hr⟩, hd.symm⟩
  · intro h
    obtain ⟨r, hr, rfl⟩ := h
    obtain ⟨rounds, h⟩ := renders_iff_run.1 hr
    exact ⟨rounds, Option.map_eq_some_iff.2 ⟨r, h, rfl⟩⟩

theorem Engine.loadGlobals?_of_le {rounds more : Nat} (hle : rounds ≤ more) {document : Text}
    {loaded : Engine × List Diagnostic} (h : loadGlobals? rounds document = some loaded) :
    loadGlobals? more document = some loaded := by
  obtain ⟨d, hd, rfl⟩ := Option.map_eq_some_iff.1 h
  obtain ⟨r, hr, rfl⟩ := Option.map_eq_some_iff.1 hd
  have hmore : declarations? more document = some ⟨r.scope, r.reports.map Report.diagnostic⟩ :=
    Option.map_eq_some_iff.2 ⟨r, Scan.run_of_le hle hr, rfl⟩
  exact Option.map_eq_some_iff.2 ⟨_, hmore, rfl⟩

/-- What a loop gets from rendering its block is a render of the block. -/
theorem Scan.render_eq_some_iff {scope : Scope} {text : Text} {p : Text × List Report} :
    (∃ rounds, Scan.render rounds scope text = some p) ↔
      ∃ r, Renders scope text r ∧ p = (r.done, r.reports) := by
  constructor
  · intro h
    obtain ⟨rounds, h⟩ := h
    cases rounds with
    | zero => simp [Scan.render] at h
    | succ rounds =>
      rw [Scan.render] at h
      split at h
      · simp at h
      · next r hr => exact ⟨r, renders_iff_run.2 ⟨rounds, hr⟩, (Option.some.inj h).symm⟩
  · intro h
    obtain ⟨r, hr, rfl⟩ := h
    obtain ⟨rounds, h⟩ := renders_iff_run.1 hr
    exact ⟨rounds + 1, by rw [Scan.render, h]⟩

end Stencil
