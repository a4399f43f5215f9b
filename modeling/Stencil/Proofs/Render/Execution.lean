import Stencil.Proofs.Scope.Overlay
import Stencil.Proofs.Render.Rounds

namespace Stencil.Statement

/-- What a statement binds: a declaration with a name binds its block. -/
def binding? (st : Statement) : Option (Text × Value) :=
  let name := Text.trim (st.parameters.getD [])
  if Keyword.ofText? st.keyword = some .declare ∧ name ≠ [] then some (name, .string st.block)
  else none

/-- What a statement leaves to be scanned is not written in it: it is a value, or rendered. -/
def Imports (st : Statement) : Prop :=
  Keyword.ofText? st.keyword = some .eval ∨ Keyword.ofText? st.keyword = some .foreach

instance (st : Statement) : Decidable st.Imports := inferInstanceAs (Decidable (_ ∨ _))

/-- What an execution comes to. -/
inductive Runs (render : Renderer) (st : Statement) (start : Nat) (scope : Scope) : Execution → Prop
  | failed (e : EvalError) (h : st.binding? = none) :
      Runs render st start scope (failed scope start e)
  | escape (h : Keyword.ofText? st.keyword = some .escape) :
      Runs render st start scope
        ⟨.final (evaluated st.block scope).1.text, scope, (evaluated st.block scope).2⟩
  | eval (h : Keyword.ofText? st.keyword = some .eval) :
      Runs render st start scope
        ⟨.again (evaluated st.block scope).1.text, scope, (evaluated st.block scope).2⟩
  | conditional (h : Keyword.ofText? st.keyword = some .conditional) :
      Runs render st start scope
        ⟨.again (if (evaluated (st.parameters.getD []) scope).1.isTruthy then st.block
            else st.elseBlock.getD []), scope, (evaluated (st.parameters.getD []) scope).2⟩
  | foreach {name source : Text} {es : List Value} {p : Text × List Report}
      (h : Keyword.ofText? st.keyword = some .foreach)
      (hcut : Text.cutText? inText (st.parameters.getD []) = some (name, source))
      (hes : (evaluated source scope).1.elements? = some es)
      (hp : loop render scope (Text.trim name) st.block es = some p) :
      Runs render st start scope
        ⟨.again p.1, scope, (evaluated source scope).2 ++ p.2.map Report.inLoop⟩
  | declare {name : Text} {v : Value} (h : st.binding? = some (name, v)) :
      Runs render st start scope ⟨.again [], scope.insert name v, []⟩

variable {render : Renderer} {st : Statement} {start : Nat} {scope : Scope} {e : Execution}

theorem binding?_eq_none {k : Option Keyword} (h : Keyword.ofText? st.keyword = k)
    (hk : k ≠ some .declare) : st.binding? = none := by
  rw [binding?, if_neg]
  rw [h]
  exact fun hd => hk hd.1

theorem runs_runForeach (hk : Keyword.ofText? st.keyword = some .foreach)
    (h : st.runForeach render start scope = some e) : st.Runs render start scope e := by
  have hnone : st.binding? = none := binding?_eq_none hk (by decide)
  unfold runForeach at h
  dsimp only at h
  split at h
  · obtain rfl := Option.some.inj h
    exact .failed _ hnone
  · next hcut =>
    split at h
    · obtain rfl := Option.some.inj h
      exact .failed _ hnone
    · next hes =>
      simp only [Option.bind_eq_bind, Option.bind_eq_some_iff] at h
      obtain ⟨p, hp, h⟩ := h
      obtain rfl := Option.some.inj h
      exact .foreach hk hcut hes hp

theorem runs_runDeclare (hk : Keyword.ofText? st.keyword = some .declare) :
    st.Runs render start scope (st.runDeclare start scope) := by
  unfold runDeclare
  dsimp only
  split
  · next hn =>
    have hnone : st.binding? = none := by
      rw [binding?, if_neg]
      exact fun hd => hd.2 (List.isEmpty_iff.1 hn)
    exact .failed _ hnone
  · next hn =>
    have hname : Text.trim (st.parameters.getD []) ≠ [] := fun h => hn (List.isEmpty_iff.2 h)
    exact .declare (if_pos ⟨hk, hname⟩)

theorem runs_of_run (h : st.run render start scope = some e) : st.Runs render start scope e := by
  unfold run at h
  split at h
  · next hk =>
    obtain rfl := Option.some.inj h
    exact .failed _ (binding?_eq_none hk (by decide))
  · next hk =>
    obtain rfl := Option.some.inj h
    exact .escape hk
  · next hk =>
    obtain rfl := Option.some.inj h
    exact .eval hk
  · next hk =>
    obtain rfl := Option.some.inj h
    exact .conditional hk
  · next hk => exact runs_runForeach hk h
  · next hk =>
    obtain rfl := Option.some.inj h
    exact runs_runDeclare hk

/-- An execution binds what the statement binds, and changes nothing else in the scope. -/
theorem Runs.scope_eq (h : st.Runs render start scope e) :
    e.scope = scope.overlay (Scope.ofList st.binding?.toList) := by
  cases h with
  | failed err h => rw [h]; rfl
  | escape h => rw [binding?_eq_none h (by decide)]; rfl
  | eval h => rw [binding?_eq_none h (by decide)]; rfl
  | conditional h => rw [binding?_eq_none h (by decide)]; rfl
  | foreach h => rw [binding?_eq_none h (by decide)]; rfl
  | declare h => rw [h]; rfl

/-- Only an inserted value is passed over. -/
theorem Runs.passed (h : st.Runs render start scope e) :
    Keyword.ofText? st.keyword = some .escape ∨ e.outcome.passed = [] := by
  cases h with
  | escape h => exact .inl h
  | _ => exact .inr rfl

theorem Runs.scanned (h : st.Runs render start scope e) :
    st.Imports ∨ e.outcome.scanned.Sublist (st.block ++ st.elseBlock.getD []) := by
  cases h with
  | eval h => exact .inl (.inl h)
  | foreach h => exact .inl (.inr h)
  | conditional h =>
    right
    simp only [Outcome.scanned]
    split
    · exact List.sublist_append_left _ _
    · exact List.sublist_append_right _ _
  | _ => exact .inr (List.nil_sublist _)

/-- About the text at hand an execution reports only what fails. -/
theorem Runs.reports (h : st.Runs render start scope e) {r : Report} (hr : r ∈ e.reports)
    (hd : r.depth = 0) : ∃ err, r.diagnostic.cause = .failed err := by
  have hevaluated : ∀ source, r ∈ (evaluated source scope).2 →
      ∃ err, r.diagnostic.cause = .failed err := by
    intro source hr
    unfold evaluated at hr
    split at hr
    · cases hr
    · rw [List.mem_singleton.1 hr]
      exact ⟨_, rfl⟩
  cases h with
  | failed err h =>
    rw [List.mem_singleton.1 hr]
    exact ⟨_, rfl⟩
  | escape h => exact hevaluated _ hr
  | eval h => exact hevaluated _ hr
  | conditional h => exact hevaluated _ hr
  | foreach h =>
    rcases List.mem_append.1 hr with hr | hr
    · exact hevaluated _ hr
    · obtain ⟨inner, -, rfl⟩ := List.mem_map.1 hr
      exact absurd hd (Nat.succ_ne_zero _)
  | declare h => cases hr

end Stencil.Statement
