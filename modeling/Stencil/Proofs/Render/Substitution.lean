import Stencil.Proofs.Statement.Grammar
import Stencil.Proofs.Render.Finality

namespace Stencil

namespace Statement

def conditional (condition yes : Text) (no : Option Text) : Statement :=
  ⟨"if".toList, some condition, yes, no⟩

/-- A source whose value is scanned. -/
def evaluation (source : Text) : Statement := ⟨"eval".toList, none, source, none⟩

example : (conditional ['c'] ['a'] (some ['b'])).written [] =
    "if(c)\x7ba\x7delse\x7bb\x7d".toList := rfl

example : (conditional ['c'] ['a'] none).written [] = "if(c)\x7ba\x7d".toList := rfl

example : (evaluation ['c']).written [] = "eval\x7bc\x7d".toList := rfl

theorem read_conditional {condition yes rest : Text} {no : Option Text}
    (hc : Pair.parens.Balanced condition) (hy : Pair.braces.Balanced yes)
    (hn : ∀ e ∈ no, Pair.braces.Balanced e) (hrest : no = none → ¬ OffersBranch rest) :
    read ((conditional condition yes no).written [] ++ rest) =
      .ok (conditional condition yes no, rest) := by
  have hfront : Front "if".toList (some condition) [] :=
    ⟨by decide, by decide, by simpa using hc, by simp, by simp⟩
  have hjoined : no = none → ¬ joinedElse <+: rest := by
    intro h hj
    obtain ⟨r, rfl⟩ := hj
    exact hrest h ⟨[], [], r, by simp, by simp, by simp [joinedElse]⟩
  have hbegins : (conditional condition yes no).Begins [] rest
      ((conditional condition yes no).written [] ++ rest) :=
    ⟨rfl, hfront, hy, hn, hjoined, fun h _ => hrest h⟩
  exact read_eq_ok_iff_begins.2 ⟨[], hbegins⟩

theorem read_evaluation {source rest : Text} (hb : Pair.braces.Balanced source)
    (hrest : ¬ joinedElse <+: rest) :
    read ((evaluation source).written [] ++ rest) = .ok (evaluation source, rest) := by
  have hparameters : ∀ p ∈ (evaluation source).parameters, Pair.parens.Balanced p := by
    intro p hp
    cases hp
  exact read_written_of_ne_if (by decide) (by decide) (by decide) hparameters hb
    (Text.startsWith_eq_false_iff.2 hrest)

end Statement

/-- A statement written somewhere in a document stands for the text that its source chooses: with
either in that place, a document comes to the same text and scope with the same reports, or with
either it comes to no end. If the source has no value, the statement stands for another text, and is
reported in front of everything else. -/
def Substitutes (scope : Scope) (front statement rest source : Text) (choice : Value → Text)
    (otherwise : Text) : Prop :=
  (∀ v, evaluate? source scope = some v → ∀ r,
    Renders scope (front ++ statement ++ rest) r ↔ Renders scope (front ++ choice v ++ rest) r) ∧
  (evaluate? source scope = none → ∀ r,
    Renders scope (front ++ statement ++ rest) r ↔
      ∃ t, Renders scope (front ++ otherwise ++ rest) t ∧
        r = { t with reports := .here (.failed (.expression source)) none :: t.reports })

section

variable {scope : Scope} {front text rest : Text}

/-- Earlier reports stay in front of those of a document. -/
theorem Scan.ends_reports_iff (hfront : marker ∉ front) {earlier : List Report} {r : Scan} :
    Scan.Ends ⟨front, text ++ rest, scope, earlier⟩ r ↔
      ∃ t, Renders scope (front ++ text ++ rest) t ∧ r = { t with reports := earlier ++ t.reports } := by
  have hadvance : ∀ t, Renders scope (front ++ text ++ rest) t ↔
      Scan.Ends ⟨front, text ++ rest, scope, []⟩ t := by
    intro t
    rw [List.append_assoc]
    exact Scan.ends_advance hfront
  have hafter : ∀ t : Scan, t.after [] earlier = { t with reports := earlier ++ t.reports } := by
    intro t
    simp [Scan.after]
  have hstart : (Scan.mk front (text ++ rest) scope []).after [] earlier =
      ⟨front, text ++ rest, scope, earlier⟩ := by simp [Scan.after]
  rw [← hstart, Scan.ends_after_iff]
  simp only [hadvance, hafter]

/-- A statement that leaves a choice of its source to be scanned stands for that choice. -/
theorem substitutes_of_run {s : Statement} {behind source otherwise : Text} {choice : Value → Text}
    (hfront : marker ∉ front) (hopen : Text.strip? Escape.opening (marker :: (behind ++ rest)) = none)
    (hread : Statement.read (behind ++ rest) = .ok (s, rest))
    (hrun : ∀ start, s.run (Scan.render 0) start scope =
      some ⟨.again (choice (Statement.evaluated source scope).1), scope,
        (Statement.evaluated source scope).2⟩)
    (hother : choice (.string []) = otherwise) :
    Substitutes scope front (marker :: behind) rest source choice otherwise := by
  let evaluated := Statement.evaluated source scope
  have hstep : Scan.Step (Scan.start scope (front ++ marker :: (behind ++ rest)))
      ⟨front, choice evaluated.1 ++ rest, scope, evaluated.2⟩ :=
    Scan.step_again hfront hopen hread (hrun _) rfl
  have hends : ∀ r, Renders scope (front ++ (marker :: behind) ++ rest) r ↔
      ∃ t, Renders scope (front ++ choice evaluated.1 ++ rest) t ∧
        r = { t with reports := evaluated.2 ++ t.reports } := by
    intro r
    rw [List.append_assoc, List.cons_append]
    exact hstep.ends_iff.trans (Scan.ends_reports_iff hfront)
  refine ⟨fun v hv r => ?_, fun hv r => ?_⟩
  · have he : evaluated = (v, []) := by simp only [evaluated, Statement.evaluated, hv]
    rw [hends, he]
    simp
  · have he : evaluated = (.string [], [.here (.failed (.expression source)) none]) := by
      simp only [evaluated, Statement.evaluated, hv]
    rw [hends, he, ← hother]
    rfl

end

/-- A conditional and an evaluation stand for the text that their source chooses. -/
theorem substitutes_statement {front : Text} (hfront : marker ∉ front) (scope : Scope)
    (rest : Text) :
    (∀ condition yes, Pair.parens.Balanced condition → Pair.braces.Balanced yes →
      (∀ no, Pair.braces.Balanced no →
        Substitutes scope front
          (marker :: (Statement.conditional condition yes (some no)).written []) rest condition
          (fun v => if v.isTruthy then yes else no) no) ∧
      (¬ Statement.OffersBranch rest →
        Substitutes scope front
          (marker :: (Statement.conditional condition yes none).written []) rest condition
          (fun v => if v.isTruthy then yes else []) [])) ∧
    ∀ source, Pair.braces.Balanced source → ¬ Statement.joinedElse <+: rest →
      Substitutes scope front (marker :: (Statement.evaluation source).written []) rest source
        Value.text [] := by
  refine ⟨fun condition yes hc hy => ⟨fun no hn => ?_, fun hrest => ?_⟩, fun source hb hrest => ?_⟩
  · have hbranch : ∀ e ∈ some no, Pair.braces.Balanced e := by simpa using hn
    have hread : Statement.read (_ ++ rest) = .ok (_, rest) :=
      Statement.read_conditional hc hy hbranch (by simp)
    exact substitutes_of_run hfront rfl hread (fun _ => rfl) rfl
  · have hbranch : ∀ e ∈ (none : Option Text), Pair.braces.Balanced e := by simp
    have hread := Statement.read_conditional hc hy hbranch fun _ => hrest
    exact substitutes_of_run hfront rfl hread (fun _ => rfl) rfl
  · have hread := Statement.read_evaluation hb hrest
    exact substitutes_of_run hfront rfl hread (fun _ => rfl) rfl

/-- A branch and a value that are only a marker, which the rest completes to a statement. -/
theorem substitutes_statement_marker :
    let scope := (Scope.empty.insert ['x'] (.string [marker])).insert ['y'] (.string ['z'])
    Renders scope "a$if(x)\x7b$\x7delse\x7bb\x7d\x7by\x7d".toList ⟨['a', 'z'], [], scope, []⟩ ∧
      Renders scope "a$eval\x7bx\x7d\x7by\x7d".toList ⟨['a', 'z'], [], scope, []⟩ ∧
      Renders .empty "a$if(x)\x7b$\x7d\x7by\x7d".toList
        ⟨"a\x7by\x7d".toList, [], .empty, [.here (.failed (.expression ['x'])) none]⟩ := by
  intro scope
  have hfront : marker ∉ ['a'] := by decide
  have hx : Token.IsName ['x'] := ⟨by decide, by simp⟩
  have hy : Token.IsName ['y'] := ⟨by decide, by simp⟩
  have hmarker : Pair.braces.Balanced [marker] := by decide
  have hb : Pair.braces.Balanced ['b'] := by decide
  have hx' : Pair.parens.Balanced ['x'] := by decide
  have hsource : Pair.braces.Balanced ['x'] := by decide
  have hvx : evaluate? ['x'] scope = some (.string [marker]) := by
    rw [evaluate?_name hx (by decide), Scope.find?_insert, if_neg (by decide), Scope.find?_insert,
      if_pos rfl]
  have hvy : scope.find? ['y'] = some (.string ['z']) := by rw [Scope.find?_insert, if_pos rfl]
  have hnone : evaluate? ['x'] .empty = none := evaluate?_name hx (by decide) .empty
  have hrest : Renders scope ("a$".toList ++ "\x7by\x7d".toList) ⟨['a', 'z'], [], scope, []⟩ := by
    have hstep : Scan.Step ⟨[], ['a'] ++ marker :: (Pair.braces.enclose ['y'] ++ []), scope, []⟩
        ⟨['a', 'z'], [], scope, []⟩ := Scan.step_name hfront hy (by decide) hvy (by decide)
    exact hstep.ends_iff.2 (Scan.Ends.done (by simp))
  have hplain : Renders .empty "a\x7by\x7d".toList ⟨"a\x7by\x7d".toList, [], .empty, []⟩ :=
    renders_iff_run.2 ⟨1, rfl⟩
  have hbranch : ¬ Statement.OffersBranch "\x7by\x7d".toList := by
    rw [← Statement.isDetachedElse_iff]
    decide
  refine ⟨?_, ?_, ?_⟩
  · have hconditional := (substitutes_statement hfront scope "\x7by\x7d".toList).1
    exact (((hconditional ['x'] [marker] hx' hmarker).1 ['b'] hb).1 _ hvx _).2 hrest
  · have hevaluation := (substitutes_statement hfront scope "\x7by\x7d".toList).2
    exact ((hevaluation ['x'] hsource (by decide)).1 _ hvx _).2 hrest
  · have hconditional := (substitutes_statement hfront .empty "\x7by\x7d".toList).1
    exact (((hconditional ['x'] [marker] hx' hmarker).2 hbranch).2 hnone _).2 ⟨_, hplain, rfl⟩

end Stencil
