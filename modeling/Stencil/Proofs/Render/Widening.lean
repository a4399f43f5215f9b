import Stencil.Proofs.Expr.Widening
import Stencil.Proofs.Render.Composition
import Stencil.Proofs.Render.Finality

namespace Stencil

/-- No report is about a source without a value. -/
def AllEvaluated (rs : List Report) : Prop :=
  ∀ r ∈ rs, ∀ source, r.diagnostic.cause ≠ .failed (.expression source)

theorem allEvaluated_append {rs more : List Report} :
    AllEvaluated (rs ++ more) ↔ AllEvaluated rs ∧ AllEvaluated more := by
  simp [AllEvaluated, or_imp, forall_and]

theorem allEvaluated_inLoop {rs : List Report} :
    AllEvaluated (rs.map Report.inLoop) ↔ AllEvaluated rs := by
  simp [AllEvaluated, Report.inLoop]

/-- What a renderer answers in a scope without missing a value, it answers in every wider one. -/
def Renderer.Steady (render : Renderer) : Prop :=
  ∀ {s t : Scope}, s ⊆ t → ∀ {text : Text} {p : Text × List Report},
    render s text = some p → AllEvaluated p.2 → render t text = some p

def Execution.inScope (e : Execution) (scope : Scope) : Execution := { e with scope }

def Scan.inScope (s : Scan) (scope : Scope) : Scan := { s with scope }

namespace Statement

variable {render : Renderer} {s t : Scope}

theorem evaluated_of_subset (h : s ⊆ t) {source : Text} (he : AllEvaluated (evaluated source s).2) :
    evaluated source t = evaluated source s := by
  cases hv : evaluate? source s with
  | some v => simp only [evaluated, hv, evaluate?_of_subset h hv]
  | none =>
    have hreport := he (.here (.failed (.expression source)) none) (by simp [evaluated, hv]) source
    exact absurd rfl hreport

theorem loop_of_subset (hr : render.Steady) (h : s ⊆ t) {name block : Text} {vs : List Value}
    {p : Text × List Report} (hp : loop render s name block vs = some p) (he : AllEvaluated p.2) :
    loop render t name block vs = some p := by
  induction vs generalizing p with
  | nil => exact hp
  | cons v vs ih =>
    simp only [loop, Option.bind_eq_bind, Option.bind_eq_some_iff] at hp ⊢
    obtain ⟨a, ha, b, hb, hab⟩ := hp
    obtain rfl : (a.1 ++ b.1, a.2 ++ b.2) = p := by simpa using hab
    obtain ⟨hea, heb⟩ := allEvaluated_append.1 he
    exact ⟨a, hr (Scope.subset_insert h name v) ha hea, b, ih hb heb, hab⟩

/-- A source without a value has no elements, but it is not refused for that. -/
theorem evaluated_eq_of_elements?_eq_none {source : Text}
    (h : (evaluated source s).1.elements? = none) : (evaluated source s).2 = [] := by
  cases hv : evaluate? source s with
  | some v => simp only [evaluated, hv]
  | none =>
    simp only [evaluated, hv] at h
    cases h

theorem runForeach_of_subset (hr : render.Steady) (h : s ⊆ t) {st : Statement} {start : Nat}
    {e : Execution} (he : st.runForeach render start s = some e) (hall : AllEvaluated e.reports) :
    st.runForeach render start t = some (e.inScope t) ∧ e.scope = s := by
  unfold runForeach at he ⊢
  dsimp only at he ⊢
  cases hcut : Text.cutText? inText (st.parameters.getD []) with
  | none =>
    simp only [hcut, Option.some.injEq] at he ⊢
    subst he
    exact ⟨rfl, rfl⟩
  | some p =>
    obtain ⟨name, source⟩ := p
    simp only [hcut] at he ⊢
    cases hes : (evaluated source s).1.elements? with
    | none =>
      have hnil : AllEvaluated (evaluated source s).2 := by
        simp [evaluated_eq_of_elements?_eq_none hes, AllEvaluated]
      rw [evaluated_of_subset h hnil]
      simp only [hes, Option.some.injEq] at he ⊢
      subst he
      exact ⟨rfl, rfl⟩
    | some es =>
      simp only [hes, Option.bind_eq_bind, Option.bind_eq_some_iff] at he
      obtain ⟨p, hp, he⟩ := he
      obtain rfl := Option.some.inj he
      obtain ⟨hev, hloop⟩ := allEvaluated_append.1 hall
      refine ⟨?_, rfl⟩
      rw [evaluated_of_subset h hev]
      simp only [hes, loop_of_subset hr h hp (allEvaluated_inLoop.1 hloop)]
      rfl

/-- A statement does in a wider scope what it does in the narrow one. -/
theorem run_of_subset (hr : render.Steady) (h : s ⊆ t) {st : Statement} {start : Nat}
    {e : Execution} (he : st.run render start s = some e) (hall : AllEvaluated e.reports) :
    ∃ scope, st.run render start t = some (e.inScope scope) ∧ e.scope ⊆ scope := by
  unfold run at he ⊢
  split at he
  · obtain rfl := Option.some.inj he
    exact ⟨t, rfl, h⟩
  · obtain rfl := Option.some.inj he
    rw [evaluated_of_subset h hall]
    exact ⟨t, rfl, h⟩
  · obtain rfl := Option.some.inj he
    rw [evaluated_of_subset h hall]
    exact ⟨t, rfl, h⟩
  · obtain rfl := Option.some.inj he
    rw [evaluated_of_subset h hall]
    exact ⟨t, rfl, h⟩
  · obtain ⟨hrun, hscope⟩ := runForeach_of_subset hr h he hall
    exact ⟨t, hrun, hscope ▸ h⟩
  · obtain rfl := Option.some.inj he
    unfold runDeclare
    dsimp only
    split
    · exact ⟨t, rfl, h⟩
    · exact ⟨_, rfl, Scope.subset_insert h _ _⟩

end Statement

namespace Scan

theorem reports_of_run {rounds : Nat} {s t : Scan} (h : run rounds s = some t) :
    ∃ more, t.reports = s.reports ++ more := by
  induction rounds generalizing s with
  | zero => simp [run] at h
  | succ rounds ih =>
    rw [run] at h
    split at h
    · cases h
      exact ⟨[], by simp⟩
    · split at h
      · cases h
      · next u hu =>
        obtain ⟨more, hm⟩ := reports_of_round hu
        obtain ⟨last, hl⟩ := ih h
        exact ⟨more ++ last, by rw [hl, hm, List.append_assoc]⟩

theorem round_of_subset {render : Renderer} (hr : render.Steady) {s u : Scan} {scope : Scope}
    (h : s.scope ⊆ scope) {before behind : Text} (hu : s.round render before behind = some u)
    (hall : AllEvaluated u.reports) :
    ∃ wider, (s.inScope scope).round render before behind = some (u.inScope wider) ∧
      u.scope ⊆ wider := by
  unfold round at hu ⊢
  split at hu
  · next inside _ =>
    obtain rfl := Option.some.inj hu
    refine ⟨scope, ?_, ?_⟩
    · unfold escape
      split <;> rfl
    · unfold escape
      split <;> exact h
  · unfold statement at hu ⊢
    dsimp only at hu ⊢
    split at hu
    · obtain rfl := Option.some.inj hu
      exact ⟨scope, rfl, h⟩
    · next st rest _ =>
      simp only [Option.bind_eq_bind, Option.bind_eq_some_iff] at hu ⊢
      obtain ⟨e, he, hu⟩ := hu
      have hreports : AllEvaluated e.reports := by
        split at hu <;> obtain rfl := Option.some.inj hu <;>
          exact (allEvaluated_append.1 hall).2
      obtain ⟨wider, hrun, hscope⟩ := Statement.run_of_subset hr h he hreports
      cases ho : e.outcome with
      | final text =>
        simp only [ho, Option.pure_def, Option.some.injEq] at hu
        subst hu
        exact ⟨wider, ⟨_, hrun, by simp only [Execution.inScope, ho]; rfl⟩, hscope⟩
      | again text =>
        simp only [ho, Option.pure_def, Option.some.injEq] at hu
        subst hu
        exact ⟨wider, ⟨_, hrun, by simp only [Execution.inScope, ho]; rfl⟩, hscope⟩

/-- Scans of so many rounds that miss no value end alike in wider scopes. -/
def Steady (rounds : Nat) : Prop :=
  ∀ {s u : Scan} {scope : Scope}, s.scope ⊆ scope → run rounds s = some u →
    AllEvaluated u.reports →
      ∃ wider, run rounds (s.inScope scope) = some (u.inScope wider) ∧ u.scope ⊆ wider

theorem Steady.render {rounds : Nat} (h : Steady rounds) :
    Renderer.Steady (Scan.render (rounds + 1)) := by
  intro s t hst text p hp hall
  rw [Scan.render] at hp ⊢
  split at hp
  · cases hp
  · next u hu =>
    obtain rfl := Option.some.inj hp
    obtain ⟨wider, hrun, -⟩ := h (show (start s text).scope ⊆ t from hst) hu hall
    have hstart : run rounds (start t text) = some (u.inScope wider) := hrun
    rw [hstart]
    rfl

/-- The two scans take the same rounds, those of their loops included. -/
theorem steady (rounds : Nat) : Steady rounds := by
  induction rounds using Nat.strongRecOn with
  | ind rounds ih =>
    intro s u scope h hu hall
    cases rounds with
    | zero => simp [run] at hu
    | succ rounds =>
      have hrender : Renderer.Steady (Scan.render rounds) := by
        cases rounds with
        | zero =>
          intro s t _ text p hp
          cases hp
        | succ rounds => exact Steady.render (ih rounds (by omega))
      have hrest : (s.inScope scope).rest = s.rest := rfl
      rw [run] at hu ⊢
      rw [hrest]
      split at hu
      · next hc =>
        obtain rfl := Option.some.inj hu
        exact ⟨scope, rfl, h⟩
      · next before behind hc =>
        split at hu
        · cases hu
        · next v hv =>
          obtain ⟨more, hm⟩ := reports_of_run hu
          have hfirst : AllEvaluated v.reports := by
            rw [hm] at hall
            exact (allEvaluated_append.1 hall).1
          obtain ⟨wider, hround, hscope⟩ := round_of_subset hrender h hv hfirst
          obtain ⟨last, hrun, hlast⟩ := ih rounds (Nat.lt_succ_self _) hscope hu hall
          exact ⟨last, by simp only [hround, hrun], hlast⟩

end Scan

/-- More variables change nothing where every source has a value. -/
theorem renders_of_subset {s t : Scope} (h : s ⊆ t) :
    (∀ document r, Renders s document r → AllEvaluated r.reports →
      ∃ wider, Renders t document (r.inScope wider) ∧ r.scope ⊆ wider) ∧
    ∀ rounds document caller answer, (Engine.mk s).render? rounds document caller = some answer →
      (∀ d ∈ answer.diagnostics, ∀ source, d.cause ≠ .failed (.expression source)) →
      (Engine.mk t).render? rounds document caller = some answer := by
  refine ⟨?_, ?_⟩
  · intro document r hr hall
    obtain ⟨rounds, hrun⟩ := renders_iff_run.1 hr
    have hstart : (Scan.start s document).scope ⊆ t := h
    obtain ⟨wider, hwider, hscope⟩ := Scan.steady rounds hstart hrun hall
    exact ⟨wider, renders_iff_run.2 ⟨rounds, hwider⟩, hscope⟩
  · intro rounds document caller answer hanswer hall
    obtain ⟨r, hrun, rfl⟩ := Option.map_eq_some_iff.1 hanswer
    have hreports : AllEvaluated r.reports := by
      intro report hreport
      exact hall report.diagnostic (List.mem_map_of_mem hreport)
    have hstart : (Scan.start (s.overlay caller) document).scope ⊆ t.overlay caller :=
      Scope.subset_overlay h caller
    obtain ⟨wider, hwider, -⟩ := Scan.steady rounds hstart hrun hreports
    exact Option.map_eq_some_iff.2 ⟨_, hwider, rfl⟩

/-- A declaration and a name, with a further name in scope. -/
theorem renders_of_subset_declare :
    let narrow := Scope.empty.insert ['x'] (.string ['v'])
    let wide := narrow.insert ['y'] (.string ['w'])
    let document := "$declare(z)\x7b1\x7d$\x7bx\x7d".toList
    (∃ scope, Renders wide document ⟨['v'], [], scope, []⟩ ∧
      narrow.insert ['z'] (.string ['1']) ⊆ scope) ∧
    ∃ rounds, (Engine.mk wide).render? rounds document .empty = some ⟨['v'], []⟩ := by
  intro narrow wide document
  have hfree : narrow.find? ['y'] = none := by
    rw [Scope.find?_insert, if_neg (by decide), Scope.find?_empty]
  have hwide : narrow ⊆ wide := Scope.subset_insert_of_free hfree _
  have hname : Token.IsName ['x'] := ⟨by decide, by simp⟩
  let declared := narrow.insert ['z'] (.string ['1'])
  have hx : declared.find? ['x'] = some (.string ['v']) := by
    rw [Scope.find?_insert, if_neg (by decide), Scope.find?_insert, if_pos rfl]
  have hdeclare : Scan.Step (Scan.start narrow document)
      ⟨[], marker :: Pair.braces.enclose ['x'], declared, []⟩ :=
    ⟨[], "declare(z)\x7b1\x7d$\x7bx\x7d".toList, 0, rfl, rfl⟩
  have hinsert : Scan.Step ⟨[], [] ++ marker :: (Pair.braces.enclose ['x'] ++ []), declared, []⟩
      ⟨['v'], [], declared, []⟩ := Scan.step_name (by simp) hname (by decide) hx (by decide)
  have hr : Renders narrow document ⟨['v'], [], declared, []⟩ :=
    hdeclare.ends_iff.2 (hinsert.ends_iff.2 (Scan.Ends.done (by simp)))
  have hoverlay : narrow.overlay .empty = narrow := rfl
  obtain ⟨rounds, hanswer⟩ := Engine.render?_eq_some_iff.2 ⟨_, hoverlay ▸ hr, rfl⟩
  refine ⟨(renders_of_subset hwide).1 document _ hr (by simp [AllEvaluated]), rounds, ?_⟩
  exact (renders_of_subset hwide).2 rounds document .empty _ hanswer (by simp)

end Stencil
