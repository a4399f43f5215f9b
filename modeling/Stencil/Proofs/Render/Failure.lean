import Stencil.Proofs.Expr.Spelling
import Stencil.Proofs.Render.Execution

namespace Stencil

/-- The reports of an execution without those from inside the loop that it is. -/
def Execution.own (e : Execution) : List Report := e.reports.filter (·.depth == 0)

namespace Statement

/-- The source whose value a statement asks for. -/
def source? (st : Statement) : Option Text :=
  match Keyword.ofText? st.keyword with
  | some .escape => some st.block
  | some .eval => some st.block
  | some .conditional => some (st.parameters.getD [])
  | some .foreach => (Text.cutText? inText (st.parameters.getD [])).map Prod.snd
  | some .declare => none
  | none => none

/-- How a statement fails, as it is reported. -/
inductive FailsWith (st : Statement) (start : Nat) (scope : Scope) : Report → Prop
  | unknown (hk : Keyword.ofText? st.keyword = none) :
      FailsWith st start scope (.here (.failed (.unknownStatement st.keyword)) (some start))
  | expression {source : Text} (hs : st.source? = some source)
      (hv : evaluate? source scope = none) :
      FailsWith st start scope (.here (.failed (.expression source)) none)
  | noSeparator (hk : Keyword.ofText? st.keyword = some .foreach)
      (hcut : Text.cutText? inText (st.parameters.getD []) = none) :
      FailsWith st start scope
        (.here (.failed (.invalidForeach (st.parameters.getD []))) (some start))
  | notIterable {name source : Text} {v : Value}
      (hk : Keyword.ofText? st.keyword = some .foreach)
      (hcut : Text.cutText? inText (st.parameters.getD []) = some (name, source))
      (hv : evaluate? source scope = some v) (hes : v.elements? = none) :
      FailsWith st start scope (.here (.failed (.notIterable v.kind)) (some start))
  | unnamed (hk : Keyword.ofText? st.keyword = some .declare)
      (hname : Text.trim (st.parameters.getD []) = []) :
      FailsWith st start scope (.here (.failed .invalidDeclare) (some start))

/-- What a statement leaves in its place when it fails: a condition without a value is false. -/
def fallback (st : Statement) : Text :=
  if Keyword.ofText? st.keyword = some .conditional then st.elseBlock.getD [] else []

/-- An execution that is nothing but a failure. -/
def GivesUp (st : Statement) (scope : Scope) (r : Report) (e : Execution) : Prop :=
  e.reports = [r] ∧ e.scope = scope ∧ e.outcome.text = st.fallback

variable {render : Renderer} {st : Statement} {start : Nat} {scope : Scope}
  {e : Execution} {r : Report}

theorem evaluated_of_eq_some {source : Text} {v : Value} (h : evaluate? source scope = some v) :
    evaluated source scope = (v, []) := by
  simp [evaluated, h]

theorem evaluated_of_eq_none {source : Text} (h : evaluate? source scope = none) :
    evaluated source scope = (.string [], [.here (.failed (.expression source)) none]) := by
  simp [evaluated, h]

/-- A statement other than a loop makes its outcome of the value of its source. -/
theorem run_of_source? {source : Text} (hs : st.source? = some source)
    (hk : Keyword.ofText? st.keyword ≠ some .foreach) (render : Renderer) :
    ∃ outcome : Value → Outcome, (outcome (.string [])).text = st.fallback ∧
      st.run render start scope =
        some ⟨outcome (evaluated source scope).1, scope, (evaluated source scope).2⟩ := by
  unfold source? at hs
  split at hs
  · next hescape =>
    obtain rfl := Option.some.inj hs
    refine ⟨fun v => .final v.text, ?_, by simp only [run, hescape]⟩
    simp [fallback, hescape, Outcome.text, Value.text]
  · next heval =>
    obtain rfl := Option.some.inj hs
    refine ⟨fun v => .again v.text, ?_, by simp only [run, heval]⟩
    simp [fallback, heval, Outcome.text, Value.text]
  · next hconditional =>
    obtain rfl := Option.some.inj hs
    refine ⟨fun v => .again (if v.isTruthy then st.block else st.elseBlock.getD []), ?_,
      by simp only [run, hconditional]⟩
    simp [fallback, hconditional, Outcome.text, Value.isTruthy]
  · next hforeach => exact absurd hforeach hk
  · simp at hs
  · simp at hs

/-- The empty string in place of a value has no elements. -/
theorem run_of_evaluate?_eq_none {source : Text} (hs : st.source? = some source)
    (hv : evaluate? source scope = none) (render : Renderer) :
    ∃ e, st.run render start scope = some e ∧
      st.GivesUp scope (.here (.failed (.expression source)) none) e := by
  have heval := evaluated_of_eq_none hv
  by_cases hk : Keyword.ofText? st.keyword = some .foreach
  · simp only [source?, hk] at hs
    obtain ⟨⟨name, code⟩, hcut, rfl⟩ := Option.map_eq_some_iff.1 hs
    refine ⟨⟨.again [], scope, [.here (.failed (.expression code)) none]⟩, ?_, ?_⟩
    · simp [run, hk, runForeach, hcut, heval, Value.elements?, loop]
    · simp [GivesUp, fallback, hk, Outcome.text]
  · obtain ⟨outcome, htext, hrun⟩ : ∃ outcome : Value → Outcome, _ ∧
        st.run render start scope = _ := run_of_source? hs hk render
    rw [heval] at hrun
    exact ⟨_, hrun, rfl, rfl, htext⟩

theorem givesUp_of_failed {err : EvalError} (hk : Keyword.ofText? st.keyword ≠ some .conditional)
    (he : st.run render start scope = some (failed scope start err)) :
    ∃ e, st.run render start scope = some e ∧
      st.GivesUp scope (.here (.failed err) (some start)) e := by
  refine ⟨_, he, ?_⟩
  simp [GivesUp, failed, fallback, hk, Outcome.text]

theorem FailsWith.run (h : st.FailsWith start scope r) (render : Renderer) :
    ∃ e, st.run render start scope = some e ∧ st.GivesUp scope r e := by
  cases h with
  | unknown hk =>
    apply givesUp_of_failed (by simp [hk])
    simp [Statement.run, hk]
  | expression hs hv => exact run_of_evaluate?_eq_none hs hv render
  | noSeparator hk hcut =>
    apply givesUp_of_failed (by simp [hk])
    simp [Statement.run, hk, runForeach, hcut]
  | notIterable hk hcut hv hes =>
    apply givesUp_of_failed (by simp [hk])
    simp [Statement.run, hk, runForeach, hcut, evaluated_of_eq_some hv, hes]
  | unnamed hk hname =>
    apply givesUp_of_failed (by simp [hk])
    simp [Statement.run, hk, runDeclare, hname]

theorem FailsWith.givesUp (h : st.FailsWith start scope r)
    (he : st.run render start scope = some e) : st.GivesUp scope r e := by
  obtain ⟨e', he', hf⟩ := h.run render
  rw [he] at he'
  obtain rfl := Option.some.inj he'
  exact hf

theorem FailsWith.unique {r' : Report} (h : st.FailsWith start scope r)
    (h' : st.FailsWith start scope r') : r = r' := by
  obtain ⟨e, he, hf⟩ := h.run fun _ _ => none
  have hr' : e.reports = [r'] := (h'.givesUp he).1
  rw [hf.1] at hr'
  simpa using hr'

theorem FailsWith.depth_eq (h : st.FailsWith start scope r) : r.depth = 0 := by
  cases h <;> rfl

theorem FailsWith.own_eq (h : st.FailsWith start scope r)
    (he : st.run render start scope = some e) : e.own = [r] := by
  simp [Execution.own, (h.givesUp he).1, h.depth_eq]

/-- The reports of rendered blocks are not those of the loop around them. -/
theorem own_inLoop (reports : List Report) :
    (reports.map Report.inLoop).filter (·.depth == 0) = [] := by
  rw [List.filter_eq_nil_iff]
  intro r hr
  obtain ⟨inner, -, rfl⟩ := List.mem_map.1 hr
  simp [Report.inLoop]

theorem evaluated_of_not_failsWith {source : Text} (hn : ∀ r, ¬ st.FailsWith start scope r)
    (hs : st.source? = some source) :
    ∃ v, evaluate? source scope = some v ∧ evaluated source scope = (v, []) := by
  cases hv : evaluate? source scope with
  | none => exact absurd (.expression hs hv) (hn _)
  | some v => exact ⟨v, rfl, evaluated_of_eq_some hv⟩

/-- Where nothing fails there is nothing to report, apart from what is reported in a loop. -/
theorem own_eq_nil (hn : ∀ r, ¬ st.FailsWith start scope r)
    (he : st.run render start scope = some e) : e.own = [] := by
  by_cases hforeach : Keyword.ofText? st.keyword = some .foreach
  · cases hcut : Text.cutText? inText (st.parameters.getD []) with
    | none => exact absurd (.noSeparator hforeach hcut) (hn _)
    | some parts =>
      obtain ⟨name, source⟩ := parts
      have hs : st.source? = some source := by simp [source?, hforeach, hcut]
      obtain ⟨v, hv, heval⟩ := evaluated_of_not_failsWith hn hs
      cases hes : v.elements? with
      | none => exact absurd (.notIterable hforeach hcut hv hes) (hn _)
      | some es =>
        simp only [run, hforeach, runForeach, hcut, heval, hes, Option.bind_eq_bind,
          Option.bind_eq_some_iff] at he
        obtain ⟨p, -, he⟩ := he
        obtain rfl := Option.some.inj he
        exact own_inLoop p.2
  cases hs : st.source? with
  | some source =>
    obtain ⟨v, -, heval⟩ := evaluated_of_not_failsWith hn hs
    obtain ⟨outcome, -, hrun⟩ := run_of_source? hs hforeach render
    rw [he, heval] at hrun
    rw [Option.some.inj hrun]
    rfl
  | none =>
    cases hk : Keyword.ofText? st.keyword with
    | none => exact absurd (.unknown hk) (hn _)
    | some keyword =>
      have hdeclare : keyword = .declare := by
        cases keyword <;> simp_all [source?]
      subst hdeclare
      have hname : Text.trim (st.parameters.getD []) ≠ [] := fun h => hn _ (.unnamed hk h)
      simp [run, hk, runDeclare, hname] at he
      rw [← he]
      rfl

theorem exists_render_eq_none {name block : Text} {es : List Value}
    (h : loop render scope name block es = none) : ∃ inner, render inner block = none := by
  induction es with
  | nil => simp [loop] at h
  | cons v es ih =>
    cases hr : render (scope.insert name v) block with
    | none => exact ⟨_, hr⟩
    | some p =>
      apply ih
      cases hl : loop render scope name block es with
      | none => rfl
      | some q => simp [loop, hr, hl] at h

/-- Only a loop whose block is not rendered comes to nothing. -/
theorem exists_render_of_run_eq_none (h : st.run render start scope = none) :
    ∃ inner, render inner st.block = none := by
  unfold run at h
  split at h
  · simp at h
  · simp at h
  · simp at h
  · simp at h
  · unfold runForeach at h
    dsimp only at h
    split at h
    · simp at h
    · split at h
      · simp at h
      · simp only [Option.bind_eq_bind, Option.bind_eq_none_iff] at h
        apply exists_render_eq_none
        apply Option.eq_none_iff_forall_ne_some.2
        intro p hp
        simpa using h p hp
  · simp at h

/-- A statement reports one failure of its own if it fails, and none otherwise. -/
theorem run_reports_once (render : Renderer) (st : Statement) (start : Nat) (scope : Scope) :
    (∀ e, st.run render start scope = some e →
      e.own.length ≤ 1 ∧ (∀ r, e.own = [r] ↔ st.FailsWith start scope r) ∧
      (Keyword.ofText? st.keyword ≠ some .declare → e.scope = scope)) ∧
    (∀ r, st.FailsWith start scope r → ∃ e, st.run render start scope = some e ∧
      e.reports = [r] ∧ e.scope = scope ∧
      e.outcome.text = if Keyword.ofText? st.keyword = some .conditional
        then st.elseBlock.getD [] else []) ∧
    (st.run render start scope = none → ∃ inner, render inner st.block = none) := by
  refine ⟨?_, fun r h => h.run render, exists_render_of_run_eq_none⟩
  intro e he
  have hscope : Keyword.ofText? st.keyword ≠ some .declare → e.scope = scope := by
    intro hk
    rw [(runs_of_run he).scope_eq, binding?_eq_none rfl hk]
    rfl
  by_cases hf : ∃ r, st.FailsWith start scope r
  · obtain ⟨r, hr⟩ := hf
    have hown : e.own = [r] := hr.own_eq he
    refine ⟨by simp [hown], ?_, hscope⟩
    intro r'
    rw [hown]
    constructor
    · intro h
      obtain rfl : r = r' := by simpa using h
      exact hr
    · intro hr'
      rw [hr.unique hr']
  · have hown : e.own = [] := own_eq_nil (fun r hr => hf ⟨r, hr⟩) he
    refine ⟨by simp [hown], ?_, hscope⟩
    intro r
    simp only [hown, List.nil_eq, reduceCtorEq, false_iff]
    exact fun hr => hf ⟨r, hr⟩

/-- A loop over an unbound name, whose only failure is the missing value. -/
theorem run_reports_once_unbound :
    let st : Statement := ⟨"foreach".toList, some "x in missing".toList, "$\x7by\x7d".toList, none⟩
    ∃ e, st.run (fun _ _ => none) 1 .empty = some e ∧
      e.own = [.here (.failed (.expression "missing".toList)) none] ∧
      e.reports = e.own ∧ e.scope = .empty ∧ e.outcome.text = [] := by
  intro st
  have hv : evaluate? "missing".toList .empty = none :=
    evaluate?_name (by decide) (by decide) .empty
  have hf : st.FailsWith 1 .empty (.here (.failed (.expression "missing".toList)) none) :=
    .expression (by decide) hv
  obtain ⟨hran, hfails, -⟩ := run_reports_once (fun _ _ => none) st 1 .empty
  obtain ⟨e, he, hreports, hscope, htext⟩ := hfails _ hf
  have hown := ((hran e he).2.1 _).2 hf
  exact ⟨e, he, hown, hreports.trans hown.symm, hscope, htext⟩

end Statement
end Stencil
