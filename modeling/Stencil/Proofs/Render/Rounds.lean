import Mathlib.Logic.Relation
import Stencil.Proofs.Render.Ends

namespace Stencil

def Outcome.passed : Outcome → Text
  | .final t => t
  | .again _ => []

def Outcome.scanned : Outcome → Text
  | .final _ => []
  | .again t => t

theorem Outcome.mem_text_of_mem_passed {o : Outcome} {c : Char} (h : c ∈ o.passed) :
    c ∈ o.text := by
  cases o with
  | final t => exact h
  | again t => cases h

theorem Outcome.mem_text_of_mem_scanned {o : Outcome} {c : Char} (h : c ∈ o.scanned) :
    c ∈ o.text := by
  cases o with
  | final t => cases h
  | again t => exact h

/-- A statement that runs in a scope renders its block in another one: for an element of a loop,
once the block is rendered for those before it. -/
def Statement.Opens (st : Statement) (scope inner : Scope) : Prop :=
  Keyword.ofText? st.keyword = some .foreach ∧ ∃ name source before v after,
    Text.cutText? inText (st.parameters.getD []) = some (name, source) ∧
      (evaluated source scope).1.elements? = some (before ++ v :: after) ∧
      (∀ u ∈ before, ∃ r, Renders (scope.insert (Text.trim name) u) st.block r) ∧
      inner = scope.insert (Text.trim name) v

namespace Scan

/-- A literal escape that closes stands at the first marker. -/
def Unwraps (s : Scan) (before interior rest : Text) : Prop :=
  ∃ behind inside, Text.cutAt? marker s.rest = some (before, behind) ∧
    Text.strip? Escape.opening (marker :: behind) = some inside ∧
    Escape.interior? inside = some (interior, rest)

/-- A literal escape that never closes stands at the first marker. -/
def Gapes (s : Scan) (before inside : Text) : Prop :=
  ∃ behind, Text.cutAt? marker s.rest = some (before, behind) ∧
    Text.strip? Escape.opening (marker :: behind) = some inside ∧ Escape.interior? inside = none

/-- The first marker opens no literal escape. -/
def Marks (s : Scan) (before behind : Text) : Prop :=
  Text.cutAt? marker s.rest = some (before, behind) ∧
    Text.strip? Escape.opening (marker :: behind) = none

/-- A statement stands at the first marker. -/
def Finds (s : Scan) (before : Text) (st : Statement) (rest : Text) : Prop :=
  ∃ behind, s.Marks before behind ∧ Statement.read behind = .ok (st, rest)

/-- The statement at the first marker is executed. -/
def Executes (s : Scan) (st : Statement) (e : Execution) : Prop :=
  ∃ before rest n, s.Finds before st rest ∧
    st.run (render n) (Text.size (s.done ++ before) + 1) s.scope = some e

/-- The statement at the first marker renders its block, from another scan on. -/
def Enters (s t : Scan) : Prop :=
  ∃ before st rest inner, s.Finds before st rest ∧ st.Opens s.scope inner ∧
    t = start inner st.block

/-- What a round makes of a scan. -/
inductive Round (s : Scan) : Scan → Prop
  | unwrap {before interior rest : Text} (h : s.Unwraps before interior rest) :
      Round s ⟨s.done ++ before ++ interior, rest, s.scope, s.reports⟩
  | gape {before inside : Text} (h : s.Gapes before inside) :
      Round s (s.report (before ++ Escape.opening) inside
        (.malformed (.loneEscape (Text.size (s.done ++ before)))) none)
  | malformed {before behind : Text} {e : SyntaxError} (h : s.Marks before behind)
      (he : Statement.read behind = .error e) :
      Round s (s.report (before ++ [marker]) behind (.malformed e)
        (some (e.reportedAt (Text.size (s.done ++ before)))))
  | execute {before rest : Text} {st : Statement} {n : Nat} {e : Execution}
      (h : s.Finds before st rest)
      (he : st.run (render n) (Text.size (s.done ++ before) + 1) s.scope = some e) :
      Round s ⟨s.done ++ before ++ e.outcome.passed, e.outcome.scanned ++ rest, e.scope,
        s.reports ++ e.reports⟩

/-- The loop of a scan. -/
def Loops : Scan → Scan → Prop := Relation.ReflTransGen Step

/-- The loop of a scan, with the loops of the blocks that are rendered on the way. -/
def Visits : Scan → Scan → Prop := Relation.ReflTransGen fun s t => Step s t ∨ Enters s t

variable {s t : Scan}

theorem Loops.cases {u : Scan} (h : s.Loops t) (hu : Step s u) : t = s ∨ u.Loops t := by
  rcases Relation.ReflTransGen.cases_head h with rfl | ⟨u', hu', ht⟩
  · exact .inl rfl
  · rw [hu.unique hu']
    exact .inr ht

theorem Loops.eq_of_not_mem (h : s.Loops t) (hm : marker ∉ s.rest) : t = s := by
  rcases Relation.ReflTransGen.cases_head h with rfl | ⟨u, hu, -⟩
  · rfl
  · exact absurd hu.mem hm

theorem Unwraps.mem {before interior rest : Text} (h : s.Unwraps before interior rest) :
    marker ∈ s.rest := by
  obtain ⟨behind, inside, hc, -⟩ := h
  exact Text.mem_of_cutAt? hc

theorem Finds.mem {before rest : Text} {st : Statement} (h : s.Finds before st rest) :
    marker ∈ s.rest := by
  obtain ⟨behind, ⟨hc, -⟩, -⟩ := h
  exact Text.mem_of_cutAt? hc

theorem Executes.mem {st : Statement} {e : Execution} (h : s.Executes st e) : marker ∈ s.rest := by
  obtain ⟨before, rest, n, hf, -⟩ := h
  exact hf.mem

theorem Enters.mem (h : Enters s t) : marker ∈ s.rest := by
  obtain ⟨before, st, rest, inner, hf, -⟩ := h
  exact hf.mem

theorem Unwraps.not_mem {before interior rest : Text} (h : s.Unwraps before interior rest) :
    marker ∉ before := by
  obtain ⟨behind, inside, hc, -⟩ := h
  exact (Text.append_of_cutAt? hc).2

theorem Gapes.not_mem {before inside : Text} (h : s.Gapes before inside) : marker ∉ before := by
  obtain ⟨behind, hc, -⟩ := h
  exact (Text.append_of_cutAt? hc).2

theorem Marks.not_mem {before behind : Text} (h : s.Marks before behind) : marker ∉ before :=
  (Text.append_of_cutAt? h.1).2

theorem Finds.not_mem {before rest : Text} {st : Statement} (h : s.Finds before st rest) :
    marker ∉ before := by
  obtain ⟨behind, hm, -⟩ := h
  exact hm.not_mem

theorem Step.round (h : Step s t) : Round s t := by
  obtain ⟨before, behind, n, hc, hn⟩ := h
  unfold Scan.round at hn
  cases hs : Text.strip? Escape.opening (marker :: behind) with
  | some inside =>
    simp only [hs, escape, Option.some.injEq] at hn
    subst hn
    cases hi : Escape.interior? inside with
    | some p => exact .unwrap ⟨behind, inside, hc, hs, hi⟩
    | none => exact .gape ⟨behind, hc, hs, hi⟩
  | none =>
    simp only [hs, statement] at hn
    cases hr : Statement.read behind with
    | error e =>
      simp only [hr, Option.some.injEq] at hn
      subst hn
      exact .malformed ⟨hc, hs⟩ hr
    | ok p =>
      simp only [hr, Option.bind_eq_bind, Option.bind_eq_some_iff] at hn
      obtain ⟨e, he, ht⟩ := hn
      have hround := Round.execute ⟨behind, ⟨hc, hs⟩, hr⟩ he
      cases ho : e.outcome <;>
        simp only [ho, Outcome.passed, Outcome.scanned, List.append_nil, List.nil_append,
          Option.pure_def, Option.some.injEq] at hround ht <;>
        exact ht ▸ hround

theorem Finds.unique {before before' rest rest' : Text} {st st' : Statement}
    (h : s.Finds before st rest) (h' : s.Finds before' st' rest') :
    before = before' ∧ st = st' ∧ rest = rest' := by
  obtain ⟨behind, ⟨hc, -⟩, hr⟩ := h
  obtain ⟨behind', ⟨hc', -⟩, hr'⟩ := h'
  rw [hc] at hc'
  cases hc'
  rw [hr] at hr'
  cases hr'
  exact ⟨rfl, rfl, rfl⟩

theorem Step.of_finds {before rest : Text} {st : Statement} (h : Step s t)
    (hf : s.Finds before st rest) :
    ∃ n e, st.run (render n) (Text.size (s.done ++ before) + 1) s.scope = some e ∧
      t = ⟨s.done ++ before ++ e.outcome.passed, e.outcome.scanned ++ rest, e.scope,
        s.reports ++ e.reports⟩ := by
  obtain ⟨behind, ⟨hc, ho⟩, hr⟩ := id hf
  -- In every other kind of round something else stands at the first marker.
  cases h.round with
  | unwrap hu =>
    obtain ⟨_, _, hc', ho', -⟩ := hu
    rw [hc] at hc'
    cases hc'
    rw [ho] at ho'
    cases ho'
  | gape hg =>
    obtain ⟨_, hc', ho', -⟩ := hg
    rw [hc] at hc'
    cases hc'
    rw [ho] at ho'
    cases ho'
  | malformed hm he =>
    obtain ⟨hc', -⟩ := hm
    rw [hc] at hc'
    cases hc'
    rw [hr] at he
    cases he
  | @execute before' rest' st' n e hf' he =>
    obtain ⟨rfl, rfl, rfl⟩ := hf.unique hf'
    exact ⟨n, e, he, rfl⟩

theorem Round.step (h : Round s t) : Step s t := by
  cases h with
  | unwrap h =>
    obtain ⟨behind, inside, hc, hs, hi⟩ := h
    exact ⟨_, behind, 0, hc, by simp only [round, hs, escape, hi]⟩
  | gape h =>
    obtain ⟨behind, hc, hs, hi⟩ := h
    exact ⟨_, behind, 0, hc, by simp only [round, hs, escape, hi]⟩
  | malformed h he =>
    obtain ⟨hc, hs⟩ := h
    exact ⟨_, _, 0, hc, by simp only [round, hs, statement, he]⟩
  | @execute before rest st n e h he =>
    obtain ⟨behind, ⟨hc, hs⟩, hr⟩ := h
    refine ⟨before, behind, n, hc, ?_⟩
    simp only [round, hs, statement, hr, he, Option.bind_eq_bind, Option.bind_some]
    cases e.outcome <;> simp [Outcome.passed, Outcome.scanned]

end Scan
end Stencil
