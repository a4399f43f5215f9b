import Stencil.Engine.Operation
import Stencil.Proofs.Scope.Overlay

namespace Stencil.Engine

/-- The global variables that an operation sets, if it sets any. Those that it loads from a document
are the ones that a new engine collects. -/
def Operation.sets? (rounds : Nat) : Operation → Option Scope
  | .new => some .empty
  | .withGlobals globals => some globals
  | .loadGlobals document => (Engine.new.collect? rounds document).map Declarations.scope
  | .collect _ | .render .. | .renderWithDiagnostics .. => none

/-- The global variables that the last operation to set any has set. -/
def globalsAfter (rounds : Nat) (engine : Engine) (operations : List Operation) : Scope :=
  (operations.reverse.findSome? (Operation.sets? rounds)).getD engine.globals

/-- The second operation is the first, where a document that is rendered is given a scope in which
each name has the caller's value if there is one and otherwise the global one. -/
inductive Operation.Carried (globals : Scope) : Operation → Operation → Prop
  | new : Carried globals .new .new
  | withGlobals (s : Scope) : Carried globals (.withGlobals s) (.withGlobals s)
  | loadGlobals (document : Text) : Carried globals (.loadGlobals document) (.loadGlobals document)
  | collect (document : Text) : Carried globals (.collect document) (.collect document)
  | render (document : Text) {scope merged : Scope}
      (h : ∀ name, merged.find? name = (scope.find? name).or (globals.find? name)) :
      Carried globals (.render document scope) (.render document merged)
  | renderWithDiagnostics (document : Text) {scope merged : Scope}
      (h : ∀ name, merged.find? name = (scope.find? name).or (globals.find? name)) :
      Carried globals (.renderWithDiagnostics document scope)
        (.renderWithDiagnostics document merged)

variable {rounds : Nat} {engine final : Engine} {o o' : Operation} {operations : List Operation}
  {answers : List Answer}

theorem Operation.exists_carried (globals : Scope) (o : Operation) :
    ∃ o', o.Carried globals o' := by
  have hmerged : ∀ (scope : Scope) name, (globals.overlay scope).find? name =
      (scope.find? name).or (globals.find? name) := fun scope name => Scope.find?_overlay ..
  cases o with
  | new => exact ⟨_, .new⟩
  | withGlobals s => exact ⟨_, .withGlobals s⟩
  | loadGlobals document => exact ⟨_, .loadGlobals document⟩
  | collect document => exact ⟨_, .collect document⟩
  | render document scope => exact ⟨_, .render document (hmerged scope)⟩
  | renderWithDiagnostics document scope =>
    exact ⟨_, .renderWithDiagnostics document (hmerged scope)⟩

/-- A scope with the global variables in it is rendered without them alike. -/
theorem render?_eq_new_render? {scope merged : Scope} (document : Text)
    (h : ∀ name, merged.find? name = (scope.find? name).or (engine.globals.find? name)) :
    engine.render? rounds document scope = new.render? rounds document merged := by
  have hmerged : merged = engine.globals.overlay scope := by
    apply Scope.ext_find?
    intro name
    rw [h, Scope.find?_overlay]
  have hnew : new.globals.overlay merged = merged := Scope.empty_overlay merged
  rw [render?, render?, hnew, hmerged]

/-- An operation answers as on a new engine, and sets the global variables or leaves them. -/
theorem perform?_eq_new_perform? (h : o.Carried engine.globals o') :
    engine.perform? rounds o = (new.perform? rounds o').map fun after =>
      (⟨(o.sets? rounds).getD engine.globals⟩, after.2) := by
  cases h with
  | new => rfl
  | withGlobals s => rfl
  | loadGlobals document =>
    show (loadGlobals? rounds document).map _ = ((loadGlobals? rounds document).map _).map _
    rw [loadGlobals?]
    cases hd : declarations? rounds document with
    | none => rfl
    | some d =>
      have hsets : (Operation.loadGlobals document).sets? rounds = some d.scope := by
        rw [Operation.sets?, collect?, hd]
        rfl
      rw [hsets]
      rfl
  | collect document =>
    show (declarations? rounds document).map _ = ((declarations? rounds document).map _).map _
    rw [Option.map_map]
    rfl
  | render document h =>
    rw [perform?, perform?, render?_eq_new_render? document h, Option.map_map]
    rfl
  | renderWithDiagnostics document h =>
    rw [perform?, perform?, render?_eq_new_render? document h, Option.map_map]
    rfl

theorem globalsAfter_cons : engine.globalsAfter rounds (o :: operations) =
    globalsAfter rounds ⟨(o.sets? rounds).getD engine.globals⟩ operations := by
  have hlast : (o :: operations).reverse.findSome? (Operation.sets? rounds) =
      (operations.reverse.findSome? (Operation.sets? rounds)).or (o.sets? rounds) := by
    rw [List.reverse_cons, List.findSome?_append, List.findSome?_singleton]
  rw [globalsAfter, hlast, Option.getD_or]
  rfl

theorem performAll?_cons_eq_some_iff :
    engine.performAll? rounds (o :: operations) = some (final, answers) ↔
      ∃ between answer after, engine.perform? rounds o = some (between, answer) ∧
        between.performAll? rounds operations = some (final, after) ∧
        answers = answer :: after := by
  simp only [performAll?, Option.bind_eq_bind, Option.bind_eq_some_iff, Prod.exists,
    Option.pure_def, Option.some.injEq, Prod.mk.injEq]
  constructor
  · intro h
    obtain ⟨between, answer, ho, final', after, hoperations, rfl, rfl⟩ := h
    exact ⟨between, answer, after, ho, hoperations, rfl⟩
  · intro h
    obtain ⟨between, answer, after, ho, hoperations, rfl⟩ := h
    exact ⟨between, answer, ho, final, after, hoperations, rfl, rfl⟩

/-- The answers to operations are those that a new engine gives to each of them alone, where a
document that is rendered is given the global variables that were set last before it. -/
def AnsweredAnew (rounds : Nat) (engine : Engine) (operations : List Operation)
    (answers : List Answer) : Prop :=
  answers.length = operations.length ∧
    ∀ (i : Nat) o o', operations[i]? = some o →
      o.Carried (engine.globalsAfter rounds (operations.take i)) o' →
      ∃ after answer, Engine.new.perform? rounds o' = some (after, answer) ∧
        answers[i]? = some answer

theorem answeredAnew_nil : AnsweredAnew rounds engine [] answers ↔ answers = [] := by
  constructor
  · intro h
    exact List.length_eq_zero_iff.1 h.1
  · rintro rfl
    refine ⟨rfl, fun i o o' ho => ?_⟩
    cases ho

theorem answeredAnew_cons : AnsweredAnew rounds engine (o :: operations) answers ↔
    ∃ answer after, answers = answer :: after ∧
      (∀ o', o.Carried engine.globals o' →
        ∃ e, Engine.new.perform? rounds o' = some (e, answer)) ∧
      AnsweredAnew rounds ⟨(o.sets? rounds).getD engine.globals⟩ operations after := by
  constructor
  · intro h
    obtain ⟨hlength, hanswers⟩ := h
    obtain ⟨answer, after, rfl⟩ := List.exists_cons_of_length_eq_add_one hlength
    refine ⟨answer, after, rfl, fun o' ho' => ?_, Nat.succ.inj hlength, fun i p p' hp hp' => ?_⟩
    · obtain ⟨e, a, hperform, ha⟩ := hanswers 0 o o' rfl ho'
      obtain rfl : answer = a := Option.some.inj ha
      exact ⟨e, hperform⟩
    · rw [← globalsAfter_cons, ← List.take_succ_cons] at hp'
      exact hanswers (i + 1) p p' hp hp'
  · intro h
    obtain ⟨answer, after, rfl, hfirst, hlength, hanswers⟩ := h
    refine ⟨congrArg Nat.succ hlength, fun i p p' hp hp' => ?_⟩
    cases i with
    | zero =>
      obtain rfl : o = p := Option.some.inj hp
      obtain ⟨e, hperform⟩ := hfirst p' hp'
      exact ⟨e, answer, hperform, rfl⟩
    | succ i =>
      rw [List.take_succ_cons, globalsAfter_cons] at hp'
      exact hanswers i p p' hp hp'

theorem perform?_eq_some_iff {after : Engine} {answer : Answer} :
    engine.perform? rounds o = some (after, answer) ↔
      after = ⟨(o.sets? rounds).getD engine.globals⟩ ∧
        ∀ o', o.Carried engine.globals o' →
          ∃ e, Engine.new.perform? rounds o' = some (e, answer) := by
  constructor
  · intro h
    refine ⟨?_, fun o' ho' => ?_⟩
    · obtain ⟨o', ho'⟩ := o.exists_carried engine.globals
      rw [perform?_eq_new_perform? ho', Option.map_eq_some_iff] at h
      obtain ⟨e, -, he⟩ := h
      exact (Prod.ext_iff.1 he).1.symm
    · rw [perform?_eq_new_perform? ho', Option.map_eq_some_iff] at h
      obtain ⟨e, hnew, he⟩ := h
      obtain rfl : e.2 = answer := (Prod.ext_iff.1 he).2
      exact ⟨e.1, hnew⟩
  · intro h
    obtain ⟨rfl, hanswer⟩ := h
    obtain ⟨o', ho'⟩ := o.exists_carried engine.globals
    obtain ⟨e, hnew⟩ := hanswer o' ho'
    rw [perform?_eq_new_perform? ho', hnew]
    rfl

/-- Each operation answers as on a new engine that holds the global variables set last. -/
theorem performAll?_eq_some_iff : engine.performAll? rounds operations = some (final, answers) ↔
    final.globals = engine.globalsAfter rounds operations ∧
      AnsweredAnew rounds engine operations answers := by
  induction operations generalizing engine answers with
  | nil =>
    rw [answeredAnew_nil]
    constructor
    · intro h
      cases h
      exact ⟨rfl, rfl⟩
    · intro h
      obtain ⟨hglobals, rfl⟩ := h
      obtain rfl : final = engine := congrArg Engine.mk hglobals
      rfl
  | cons o operations ih =>
    -- The others find the global variables that the first leaves.
    rw [performAll?_cons_eq_some_iff, answeredAnew_cons, globalsAfter_cons]
    constructor
    · intro h
      obtain ⟨between, answer, after, ho, hoperations, rfl⟩ := h
      obtain ⟨rfl, hanswer⟩ := perform?_eq_some_iff.1 ho
      obtain ⟨hglobals, hafter⟩ := ih.1 hoperations
      exact ⟨hglobals, answer, after, rfl, hanswer, hafter⟩
    · intro h
      obtain ⟨hglobals, answer, after, rfl, hanswer, hafter⟩ := h
      exact ⟨_, answer, after, perform?_eq_some_iff.2 ⟨rfl, hanswer⟩, ih.2 ⟨hglobals, hafter⟩, rfl⟩

/-- The text of a document, if an answer gives it. -/
def Answer.text? : Answer → Option Text
  | .content t => some t
  | .rendered r => some r.content
  | .done | .diagnostics _ | .declarations _ => none

/-- A render that declares a name, and a load that neither keeps the globals nor reads them. -/
theorem performAll?_eq_some_iff_reload :
    ∃ final answers, new.performAll? 4 [.withGlobals (.ofList [(['a'], .string ['1'])]),
        .render "$\x7ba\x7d$declare(b)\x7b2\x7d".toList .empty,
        .loadGlobals "$\x7ba\x7d$declare(c)\x7b3\x7d".toList,
        .render "$\x7ba\x7d$\x7bc\x7d".toList (.ofList [(['a'], .string ['4'])])] =
          some (final, answers) ∧
      final.globals.names = [['c']] ∧
      answers.map Answer.text? = [none, some ['1'], none, some ['4', '3']] ∧
      ∃ e answer, new.perform? 4 (.render "$\x7ba\x7d$\x7bc\x7d".toList
          (.ofList [(['a'], .string ['4']), (['c'], .string ['3'])])) = some (e, answer) ∧
        answers[3]? = some answer := by
  have hrun : (new.performAll? 4 [.withGlobals (.ofList [(['a'], .string ['1'])]),
      .render "$\x7ba\x7d$declare(b)\x7b2\x7d".toList .empty,
      .loadGlobals "$\x7ba\x7d$declare(c)\x7b3\x7d".toList,
      .render "$\x7ba\x7d$\x7bc\x7d".toList (.ofList [(['a'], .string ['4'])])]).map
        (fun p => (p.1.globals.names, p.2.map Answer.text?)) =
          some ([['c']], [none, some ['1'], none, some ['4', '3']]) := by
    decide +kernel
  obtain ⟨⟨final, answers⟩, hperform, hshown⟩ := Option.map_eq_some_iff.1 hrun
  obtain ⟨hnames, htexts⟩ := Prod.ext_iff.1 hshown
  obtain ⟨-, -, hanswers⟩ := performAll?_eq_some_iff.1 hperform
  refine ⟨final, answers, hperform, hnames, htexts, ?_⟩
  exact hanswers 3 _ _ rfl (.render "$\x7ba\x7d$\x7bc\x7d".toList fun name =>
    Scope.find?_overlay (.ofList [(['c'], .string ['3'])]) (.ofList [(['a'], .string ['4'])]) name)

end Stencil.Engine
