import Stencil.Proofs.Render.Moved
import Stencil.Proofs.Statement.Written
import Stencil.Proofs.Expr.Spelling

namespace Stencil

namespace Scan

variable {done front behind rest : Text} {scope : Scope} {reports : List Report}

/-- One round on a literal escape that closes. -/
theorem step_escape {interior : Text} (hfront : marker ∉ front)
    (hi : ¬ Escape.closing <:+: interior) :
    Step ⟨done, front ++ Escape.opening ++ interior ++ Escape.closing ++ rest, scope, reports⟩
      ⟨done ++ front ++ interior, rest, scope, reports⟩ := by
  have hrest : front ++ Escape.opening ++ interior ++ Escape.closing ++ rest =
      front ++ marker :: (marker :: '\x7b' :: (interior ++ Escape.closing ++ rest)) := by
    simp [Escape.opening, marker]
  have hcut := Text.cutAt?_append (marker :: '\x7b' :: (interior ++ Escape.closing ++ rest)) hfront
  have hopen : Text.strip? Escape.opening
      (marker :: marker :: '\x7b' :: (interior ++ Escape.closing ++ rest)) =
        some (interior ++ Escape.closing ++ rest) :=
    Text.strip?_append Escape.opening _
  have hclose : Escape.interior? (interior ++ Escape.closing ++ rest) = some (interior, rest) := by
    have hc : '\x7d' ∉ [marker, marker] := by decide
    exact Text.cutText?_append_of_not_infix hc hi rest
  refine ⟨front, _, 0, hrest ▸ hcut, ?_⟩
  simp only [round, hopen, escape, hclose]

section

variable {statement : Statement} {e : Execution} {n : Nat} {text : Text}

theorem step_final (hfront : marker ∉ front)
    (hopen : Text.strip? Escape.opening (marker :: behind) = none)
    (hread : Statement.read behind = .ok (statement, rest))
    (hrun : statement.run (render n) (Text.size (done ++ front) + 1) scope = some e)
    (ho : e.outcome = .final text) :
    Step ⟨done, front ++ marker :: behind, scope, reports⟩
      ⟨done ++ front ++ text, rest, e.scope, reports ++ e.reports⟩ := by
  refine ⟨front, behind, n, Text.cutAt?_append behind hfront, ?_⟩
  simp only [round, hopen, Scan.statement, hread, hrun, Option.bind_eq_bind, Option.bind_some, ho,
    Option.pure_def]

theorem step_again (hfront : marker ∉ front)
    (hopen : Text.strip? Escape.opening (marker :: behind) = none)
    (hread : Statement.read behind = .ok (statement, rest))
    (hrun : statement.run (render n) (Text.size (done ++ front) + 1) scope = some e)
    (ho : e.outcome = .again text) :
    Step ⟨done, front ++ marker :: behind, scope, reports⟩
      ⟨done ++ front, text ++ rest, e.scope, reports ++ e.reports⟩ := by
  refine ⟨front, behind, n, Text.cutAt?_append behind hfront, ?_⟩
  simp only [round, hopen, Scan.statement, hread, hrun, Option.bind_eq_bind, Option.bind_some, ho,
    Option.pure_def]

end

end Scan

/-- Braces right behind a marker are a statement without a keyword. -/
theorem Statement.read_enclose {source rest : Text} (hb : Pair.braces.Balanced source)
    (hr : Text.startsWith rest joinedElse = false) :
    read (Pair.braces.enclose source ++ rest) = .ok (⟨[], none, source, none⟩, rest) := by
  have hw : written ⟨[], none, source, none⟩ [] = Pair.braces.enclose source := by
    simp [written, parametersText, branchText]
  rw [← hw]
  exact read_written_of_ne_if List.not_mem_nil List.not_mem_nil (by decide) (by simp) hb hr

theorem Scan.step_enclose {done front source rest : Text} {scope : Scope} {reports : List Report}
    (hfront : marker ∉ front) (hb : Pair.braces.Balanced source)
    (hr : Text.startsWith rest Statement.joinedElse = false) :
    Step ⟨done, front ++ marker :: (Pair.braces.enclose source ++ rest), scope, reports⟩
      ⟨done ++ front ++ (Statement.evaluated source scope).1.text, rest, scope,
        reports ++ (Statement.evaluated source scope).2⟩ := by
  have hopen : Text.strip? Escape.opening (marker :: (Pair.braces.enclose source ++ rest)) = none := by
    have hne : '$' ≠ Pair.braces.opener := by decide
    simp [Escape.opening, Pair.enclose, Text.strip?, marker, hne]
  have hrun : Statement.run (render 0) ⟨[], none, source, none⟩ (Text.size (done ++ front) + 1)
      scope = some ⟨.final (Statement.evaluated source scope).1.text, scope,
        (Statement.evaluated source scope).2⟩ := rfl
  exact step_final hfront hopen (Statement.read_enclose hb hr) hrun rfl

theorem Token.IsName.ne_of_mem {name : Text} (h : Token.IsName name) {p : Pair}
    (hp : ¬ Token.isNamePart p.opener ∧ ¬ Token.isNamePart p.closer) :
    ∀ c ∈ name, c ≠ p.opener ∧ c ≠ p.closer := by
  intro c hc
  have hpart := h.isNamePart hc
  constructor
  · intro h
    subst h
    exact hp.1 hpart
  · intro h
    subst h
    exact hp.2 hpart

theorem Token.IsName.balanced {name : Text} (h : Token.IsName name) {p : Pair}
    (hp : ¬ Token.isNamePart p.opener ∧ ¬ Token.isNamePart p.closer) : p.Balanced name :=
  Pair.balanced_of_forall_ne (h.ne_of_mem hp)

theorem Statement.evaluated_name {name : Text} (hname : Token.IsName name)
    (hident : Token.ofName name = .ident name) {scope : Scope} {v : Value}
    (hv : scope.find? name = some v) : evaluated name scope = (v, []) := by
  rw [evaluated, evaluate?_name hname hident, hv]

theorem Scan.step_name {done front name rest : Text} {scope : Scope} {reports : List Report}
    (hfront : marker ∉ front) (hname : Token.IsName name) (hident : Token.ofName name = .ident name)
    {v : Value} (hv : scope.find? name = some v)
    (hrest : Text.startsWith rest Statement.joinedElse = false) :
    Step ⟨done, front ++ marker :: (Pair.braces.enclose name ++ rest), scope, reports⟩
      ⟨done ++ front ++ v.text, rest, scope, reports⟩ := by
  have he := Statement.evaluated_name hname hident hv
  have hb : Pair.braces.Balanced name := hname.balanced (by decide)
  have hstep : Step ⟨done, front ++ marker :: (Pair.braces.enclose name ++ rest), scope, reports⟩ _ :=
    step_enclose hfront hb hrest
  rw [he, List.append_nil] at hstep
  exact hstep

/-- Literal escapes and inserted values are final, whatever they contain. -/
theorem renders_inserted_iff {scope : Scope} {front : Text} (hfront : marker ∉ front) (rest : Text) :
    (∀ interior, ¬ Escape.closing <:+: interior → ∀ s,
      Renders scope (front ++ Escape.opening ++ interior ++ Escape.closing ++ rest) s ↔
        ∃ t, Renders scope rest t ∧ s = t.after (front ++ interior) []) ∧
    ∀ source, Pair.braces.Balanced source → Text.startsWith rest Statement.joinedElse = false →
      (∀ v, evaluate? source scope = some v → ∀ s,
        Renders scope (front ++ marker :: (Pair.braces.enclose source ++ rest)) s ↔
          ∃ t, Renders scope rest t ∧ s = t.after (front ++ v.text) []) ∧
      (evaluate? source scope = none →
        (Cause.failed (.expression source)).message =
          "Error evaluating expression: " ++ String.ofList source ∧
        ∀ s, Renders scope (front ++ marker :: (Pair.braces.enclose source ++ rest)) s ↔
          ∃ t, Renders scope rest t ∧
            s = t.after front [.here (.failed (.expression source)) none]) := by
  refine ⟨?_, ?_⟩
  · intro interior hi s
    exact (Scan.step_escape hfront hi).ends_iff.trans Scan.ends_iff_renders
  · intro source hb hr
    have hstep : Scan.Step
        (Scan.start scope (front ++ marker :: (Pair.braces.enclose source ++ rest))) _ :=
      Scan.step_enclose hfront hb hr
    refine ⟨?_, ?_⟩
    · intro v hv s
      have he : Statement.evaluated source scope = (v, []) := by rw [Statement.evaluated, hv]
      rw [he] at hstep
      exact hstep.ends_iff.trans Scan.ends_iff_renders
    · intro hv
      refine ⟨rfl, fun s => ?_⟩
      have he : Statement.evaluated source scope =
          (.string [], [.here (.failed (.expression source)) none]) := by
        rw [Statement.evaluated, hv]
      have htext : [] ++ front ++ (Value.string []).text = front := by
        rw [show (Value.string []).text = [] from rfl, List.append_nil, List.nil_append]
      rw [he, htext] at hstep
      exact hstep.ends_iff.trans Scan.ends_iff_renders

/-- A marker in an escape, a marker in a value, and a name without a value. -/
theorem renders_inserted_iff_marker :
    Renders .empty "a$$\x7b$x\x7d$\x7d$$b".toList ⟨"a$x\x7d$b".toList, [], .empty, []⟩ ∧
      (let scope := Scope.empty.insert ['x'] (.string "$y\x7b".toList)
       Renders scope "a$\x7bx\x7db".toList ⟨"a$y\x7bb".toList, [], scope, []⟩) ∧
      Renders .empty "a$\x7bx\x7db".toList
        ⟨"ab".toList, [], .empty, [.here (.failed (.expression ['x'])) none]⟩ := by
  have ha : marker ∉ ['a'] := by decide
  have hb : ∀ scope, Renders scope ['b'] ⟨['b'], [], scope, []⟩ :=
    fun scope => renders_iff_run.2 ⟨1, rfl⟩
  have hbalanced : Pair.braces.Balanced ['x'] := by decide
  have helse : Text.startsWith ['b'] Statement.joinedElse = false := by decide
  have hname : Token.IsName ['x'] := ⟨by decide, by simp⟩
  have hlookup := evaluate?_name hname (by decide)
  refine ⟨?_, ?_, ?_⟩
  · exact ((renders_inserted_iff ha ['b']).1 ['$', 'x', '\x7d', '$'] (by decide) _).2 ⟨_, hb _, rfl⟩
  · have hv := hlookup (Scope.empty.insert ['x'] (.string "$y\x7b".toList))
    rw [Scope.find?_insert, if_pos rfl] at hv
    exact (((renders_inserted_iff ha ['b']).2 ['x'] hbalanced helse).1 _ hv _).2 ⟨_, hb _, rfl⟩
  · have hv := hlookup .empty
    rw [Scope.find?_empty] at hv
    exact ((((renders_inserted_iff ha ['b']).2 ['x'] hbalanced helse).2 hv).2 _).2 ⟨_, hb _, rfl⟩

end Stencil
