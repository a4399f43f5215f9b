import Stencil.Proofs.Text.Slice
import Stencil.Proofs.Render.Composition
import Stencil.Proofs.Render.Execution
import Stencil.Proofs.Render.Finality

namespace Stencil

/-- The offsets of the markers that a report is about, if it is one about the text at hand. -/
def Report.markers : Report → List Nat
  | ⟨0, ⟨.malformed (.loneEscape i), _⟩⟩ => [i, i + 1]
  | ⟨0, ⟨.malformed (.invalidConnective _), some i⟩⟩ => [i - 1]
  | ⟨0, ⟨.malformed _, some i⟩⟩ => [i]
  | _ => []

theorem Report.markers_reportedAt {e : SyntaxError} (h : ∀ j, e ≠ .loneEscape j) (i : Nat) :
    (Report.here (.malformed e) (some (e.reportedAt i))).markers = [i] := by
  cases e with
  | loneEscape j => exact absurd rfl (h j)
  | _ => rfl

theorem Report.markers_eq_nil {r : Report}
    (h : r.depth = 0 → ∀ e, r.diagnostic.cause ≠ .malformed e) : r.markers = [] := by
  obtain ⟨depth, cause, index⟩ := r
  cases depth with
  | succ depth => rfl
  | zero =>
    cases cause with
    | malformed e => exact absurd rfl (h rfl e)
    | _ => rfl

namespace Scan

/-- The round of a scan inserts a text as it is: the interior of a literal escape or the text of a
value. -/
def Inserts (s : Scan) (text : Text) : Prop :=
  (∃ before rest, s.Unwraps before text rest) ∨
    ∃ st e, s.Executes st e ∧ Keyword.ofText? st.keyword = some .escape ∧ e.outcome.text = text

/-- No round in the loop of a scan inserts a marker. -/
def InsertsNoMarker (s : Scan) : Prop :=
  ∀ t, s.Loops t → ∀ text, t.Inserts text → marker ∉ text

/-- The markers in front of the cursor are those that were reported. -/
def Accounted (s : Scan) : Prop :=
  Text.offsets marker s.done = s.reports.flatMap Report.markers

variable {s t : Scan}

/-- Passing over text keeps the account if the markers in it are reported. -/
theorem Accounted.advance (h : s.Accounted) {before passed rest : Text} {scope : Scope}
    {reports : List Report} (hbefore : marker ∉ before)
    (hp : (Text.offsets marker passed).map (Text.size (s.done ++ before) + ·) =
      reports.flatMap Report.markers) :
    Accounted ⟨s.done ++ before ++ passed, rest, scope, s.reports ++ reports⟩ := by
  have hdone : Text.offsets marker (s.done ++ before) = s.reports.flatMap Report.markers := by
    rw [Text.offsets_append, Text.offsets_eq_nil hbefore, List.map_nil, List.append_nil]
    exact h
  unfold Accounted
  rw [Text.offsets_append, hdone, hp, List.flatMap_append]

theorem Step.accounted (h : Step s t) (hi : s.InsertsNoMarker) (hs : s.Accounted) :
    t.Accounted := by
  have hinserts := hi s .refl
  cases h.round with
  | @unwrap before interior rest hu =>
    have hnone : Text.offsets marker interior = [] :=
      Text.offsets_eq_nil (hinserts _ (.inl ⟨_, _, hu⟩))
    have hadvance : Accounted ⟨s.done ++ before ++ interior, rest, s.scope, s.reports ++ []⟩ :=
      hs.advance hu.not_mem (by rw [hnone]; rfl)
    rwa [List.append_nil] at hadvance
  | @gape before inside hg =>
    rw [report, ← List.append_assoc]
    exact hs.advance hg.not_mem rfl
  | @malformed before behind e hm he =>
    have hlone : ∀ j, e ≠ .loneEscape j := by
      intro j hj
      exact Statement.read_ne_loneEscape (hj ▸ he)
    rw [report, ← List.append_assoc]
    refine hs.advance hm.not_mem ?_
    rw [List.flatMap_singleton, Report.markers_reportedAt hlone]
    rfl
  | @execute before rest st n e hf he =>
    have hruns := Statement.runs_of_run he
    have hpassed : marker ∉ e.outcome.passed := by
      rcases hruns.passed with hk | hnil
      · have hexecutes : s.Executes st e := ⟨before, rest, n, hf, he⟩
        exact mt Outcome.mem_text_of_mem_passed (hinserts _ (.inr ⟨st, e, hexecutes, hk, rfl⟩))
      · rw [hnil]
        exact List.not_mem_nil
    -- What an execution reports is that an evaluation failed, or it is about an inner text.
    have hreports : e.reports.flatMap Report.markers = [] := by
      rw [List.flatMap_eq_nil_iff]
      intro r hr
      apply Report.markers_eq_nil
      intro hd err hc
      obtain ⟨failure, hfailure⟩ := hruns.reports hr hd
      rw [hfailure] at hc
      cases hc
    refine hs.advance hf.not_mem ?_
    rw [Text.offsets_eq_nil hpassed, hreports]
    rfl

theorem InsertsNoMarker.step (hi : s.InsertsNoMarker) (h : Step s t) : t.InsertsNoMarker :=
  fun u hu => hi u (hu.head h)

theorem insertsNoMarker_of_step (h : Step s t) (hs : ∀ text, s.Inserts text → marker ∉ text)
    (ht : t.InsertsNoMarker) : s.InsertsNoMarker := by
  intro u hu
  rcases hu.cases h with rfl | hu
  · exact hs
  · exact ht u hu

theorem insertsNoMarker_of_not_mem (hm : marker ∉ s.rest) : s.InsertsNoMarker := by
  intro u hu text hi
  obtain rfl := hu.eq_of_not_mem hm
  rcases hi with ⟨_, _, hu⟩ | ⟨_, _, he, -⟩
  · exact absurd hu.mem hm
  · exact absurd he.mem hm

theorem Ends.accounted (h : Ends s t) (hi : s.InsertsNoMarker) (hs : s.Accounted) :
    t.Accounted := by
  induction h with
  | @done s h =>
    have hadvance : Accounted ⟨s.done ++ s.rest ++ [], [], s.scope, s.reports ++ []⟩ :=
      hs.advance h rfl
    rwa [List.append_nil, List.append_nil] at hadvance
  | step h _ ih => exact ih (hi.step h) (h.accounted hi hs)

end Scan

/-- Without inserted markers, those of a finished text are the ones that were reported, in order. -/
theorem renders_markers {scope : Scope} {document : Text} {r : Scan} (hr : Renders scope document r)
    (hi : (Scan.start scope document).InsertsNoMarker) :
    (r.reports.flatMap Report.markers).Pairwise (· < ·) ∧
      (∀ i, i ∈ r.reports.flatMap Report.markers ↔
        ∃ before behind, r.done = before ++ marker :: behind ∧ Text.size before = i) ∧
      (r.WellFormed → marker ∉ r.done) := by
  have haccount : Text.offsets marker r.done = r.reports.flatMap Report.markers :=
    Scan.Ends.accounted hr hi rfl
  rw [← haccount]
  refine ⟨Text.pairwise_offsets marker r.done, fun i => Text.mem_offsets_iff, ?_⟩
  intro hw hm
  obtain ⟨before, behind, hdone⟩ := List.append_of_mem hm
  have hmem : Text.size before ∈ Text.offsets marker r.done :=
    Text.mem_offsets_iff.2 ⟨_, _, hdone, rfl⟩
  rw [haccount, List.mem_flatMap] at hmem
  obtain ⟨report, hreport, hmarkers⟩ := hmem
  rw [Report.markers_eq_nil (hw report hreport)] at hmarkers
  cases hmarkers

/-- A literal escape, a value and a marker without a statement, at another offset than before. -/
theorem renders_markers_missing :
    let scope := Scope.empty.insert ['x'] (.string ['v'])
    let document := "$$\x7ba\x7d$$$\x7bx\x7d$y".toList
    ∃ r, Renders scope document r ∧ r.done = "av$y".toList ∧
      r.reports = [.here (.malformed .missingOpeningBrace) (some 2)] ∧
      ∀ i, i ∈ [2] ↔
        ∃ before behind, r.done = before ++ marker :: behind ∧ Text.size before = i := by
  intro scope document
  have hname : Token.IsName ['x'] := by decide
  have hx : scope.find? ['x'] = some (.string ['v']) := by rw [Scope.find?_insert, if_pos rfl]
  let first : Scan := ⟨['a'], "$\x7bx\x7d$y".toList, scope, []⟩
  let second : Scan := ⟨['a', 'v'], ['$', 'y'], scope, []⟩
  let third : Scan :=
    ⟨"av$".toList, ['y'], scope, [.here (.malformed .missingOpeningBrace) (some 2)]⟩
  have hescape : Scan.Step (Scan.start scope document) first := ⟨[], _, 0, rfl, rfl⟩
  have hvalue : Scan.Step
      ⟨['a'], [] ++ marker :: (Pair.braces.enclose ['x'] ++ ['$', 'y']), scope, []⟩ second :=
    Scan.step_name (by simp) hname (by decide) hx (by decide)
  have hmissing : Scan.Step second third := ⟨[], _, 0, rfl, rfl⟩
  have hthird : marker ∉ third.rest := by decide
  have hr : Renders scope document ⟨"av$y".toList, [], scope, third.reports⟩ :=
    hescape.ends_iff.2 (hvalue.ends_iff.2 (hmissing.ends_iff.2 (Scan.Ends.done hthird)))
  have hinserts : (Scan.start scope document).InsertsNoMarker := by
    refine Scan.insertsNoMarker_of_step hescape ?_ (Scan.insertsNoMarker_of_step hvalue ?_
      (Scan.insertsNoMarker_of_step hmissing ?_ (Scan.insertsNoMarker_of_not_mem hthird)))
    · intro text hi
      rcases hi with ⟨_, _, _, _, hc, ho, hi⟩ | ⟨_, _, ⟨_, _, _, ⟨_, ⟨hc, ho⟩, -⟩, -⟩, -⟩
      · cases hc
        cases ho
        cases hi
        decide
      · cases hc
        cases ho
    · intro text hi
      rcases hi with ⟨_, _, _, _, hc, ho, -⟩ | ⟨_, _, ⟨_, _, _, ⟨_, ⟨hc, ho⟩, hr⟩, he⟩, hk, ht⟩
      · cases hc
        cases ho
      · cases hc
        cases hr
        obtain rfl := Option.some.inj he
        have hvalue : text = (Statement.evaluated ['x'] scope).1.text := ht.symm
        rw [hvalue, Statement.evaluated, evaluate?_name hname (by decide), hx]
        decide
    · intro text hi
      rcases hi with ⟨_, _, _, _, hc, ho, -⟩ | ⟨_, _, ⟨_, _, _, ⟨_, ⟨hc, ho⟩, hr⟩, -⟩, -⟩
      · cases hc
        cases ho
      · cases hc
        cases hr
  exact ⟨_, hr, rfl, rfl, (renders_markers hr hinserts).2.1⟩

end Stencil
