import Stencil.Proofs.Render.Rounds
import Stencil.Proofs.Statement.Offsets

namespace Stencil

/-- A document under way, with the byte offset of the cursor. -/
structure Cursor where
  content : Text
  offset : Nat
  scope : Scope
  reports : List Report

namespace Cursor

def start (scope : Scope) (document : Text) : Cursor := ⟨document, 0, scope, []⟩

def report (c : Cursor) (offset : Nat) (cause : Cause) (index : Option Nat) : Cursor :=
  { c with offset, reports := c.reports ++ [.here cause index] }

/-- What an iteration comes to. -/
inductive Turn
  | finished
  /-- The rounds of a loop do not suffice. -/
  | short
  | next (c : Cursor)

def escape? (c : Cursor) (index : Nat) : Option Turn := do
  match ← Escape.unwrapAt? c.content index with
  | .ok (content, length) => pure (.next { c with content, offset := index + length })
  | .error e => pure (.next (c.report (index + Escape.opening.size) (.malformed e) none))

def statement? (render : Renderer) (c : Cursor) (index : Nat) : Option Turn := do
  match ← Statement.locateAt? c.content (index + 1) with
  | .error e => pure (.next (c.report (index + 1) (.malformed e) (some (e.reportedAt index))))
  | .ok l =>
    match l.statement.run render l.start c.scope with
    | none => pure .short
    | some e =>
      let content ← Text.replace? c.content index l.stop e.outcome.text
      pure (.next ⟨content, index + e.outcome.passed.size, e.scope, c.reports ++ e.reports⟩)

def turn? (render : Renderer) (c : Cursor) : Option Turn := do
  match ← Text.find? marker c.content c.offset with
  | none => pure .finished
  | some index =>
    let here ← Text.from? c.content index
    if here.startsWith Escape.opening then c.escape? index else c.statement? render index

mutual

def run : Nat → Cursor → Option Cursor
  | 0, _ => none
  | rounds + 1, c =>
    match c.turn? (render rounds) with
    | some .finished => some c
    | some (.next d) => run rounds d
    | _ => none

def render : Nat → Renderer
  | 0, _, _ => none
  | rounds + 1, scope, document =>
    match run rounds (start scope document) with
    | none => none
    | some c => some (c.content, c.reports)

end

def Step (c d : Cursor) : Prop := ∃ rounds, c.turn? (render rounds) = some (.next d)

/-- The statement at the first marker renders its block, from another cursor on. -/
def Enters (c d : Cursor) : Prop :=
  ∃ index here l inner, Text.find? marker c.content c.offset = some (some index) ∧
    Text.from? c.content index = some here ∧ here.startsWith Escape.opening = false ∧
    Statement.locateAt? c.content (index + 1) = some (.ok l) ∧ l.statement.Opens c.scope inner ∧
    d = start inner l.statement.block

/-- The iterations of a loop. -/
def Loops : Cursor → Cursor → Prop := Relation.ReflTransGen Step

/-- The iterations of a loop, with those of the blocks that are rendered on the way. -/
def Visits : Cursor → Cursor → Prop := Relation.ReflTransGen fun c d => Step c d ∨ Enters c d

def finish (c : Cursor) : Scan := ⟨c.content, [], c.scope, c.reports⟩

end Cursor

namespace Scan

def cursor (s : Scan) : Cursor := ⟨s.content, s.done.size, s.scope, s.reports⟩

variable {s t : Scan} {before behind inside : Text}

theorem cursor_report {passed rest : Text} (h : s.rest = passed ++ rest) (cause : Cause)
    (index : Option Nat) : (s.report passed rest cause index).cursor =
      s.cursor.report (Text.size (s.done ++ passed)) cause index := by
  simp [cursor, report, Cursor.report, content, h]

theorem escape?_cursor (hrest : s.rest = before ++ (Escape.opening ++ inside)) :
    s.cursor.escape? (Text.size (s.done ++ before)) =
      some (.next (s.escape before inside).cursor) := by
  have hcontent : s.cursor.content = s.done ++ before ++ Escape.opening ++ inside := by
    simp [cursor, content, hrest]
  unfold Cursor.escape?
  rw [hcontent, Escape.unwrapAt?_append, Escape.unwrap_append, escape]
  cases hi : Escape.interior? inside with
  | none =>
    have hpassed : s.rest = before ++ Escape.opening ++ inside := by
      rw [hrest, List.append_assoc]
    dsimp only
    rw [cursor_report hpassed, ← List.append_assoc, Text.size_append _ Escape.opening]
    rfl
  | some p =>
    simp [cursor, content, Nat.add_assoc]

theorem statement?_cursor (render : Renderer) (hrest : s.rest = before ++ marker :: behind) :
    s.cursor.statement? render (Text.size (s.done ++ before)) =
      some (match s.statement render before behind with
        | none => .short
        | some t => .next t.cursor) := by
  have hcontent : s.cursor.content = s.done ++ before ++ [marker] ++ behind := by
    simp [cursor, content, hrest]
  have hmarker : Text.size (s.done ++ before) + 1 = Text.size (s.done ++ before ++ [marker]) := by
    rw [Text.size_append _ [marker]]
    rfl
  unfold Cursor.statement?
  rw [hmarker, hcontent, Statement.locateAt?_append, Statement.locate_append, statement, ← hmarker]
  cases hr : Statement.read behind with
  | error e =>
    have hpassed : s.rest = before ++ [marker] ++ behind := by
      rw [hrest, List.append_assoc]
      rfl
    dsimp only
    rw [cursor_report hpassed, ← List.append_assoc, ← hmarker]
    rfl
  | ok p =>
    obtain ⟨st, rest⟩ := p
    obtain ⟨gap, -, hbehind⟩ := Statement.delimited_of_read hr
    let written := marker :: st.written gap
    have hdocument :
        s.done ++ before ++ [marker] ++ behind = s.done ++ before ++ written ++ rest := by
      simp [hbehind, written]
    have hstop := Text.size_sub_of_eq hdocument
    have hreplace := Text.replace?_of_eq hdocument rfl hstop
    have hscope : s.cursor.scope = s.scope := rfl
    simp only [Except.map, Option.bind_eq_bind, Option.bind_some, hscope, hreplace]
    cases st.run render (Text.size (s.done ++ before) + 1) s.scope with
    | none => rfl
    | some e =>
      obtain ⟨outcome, scope, reports⟩ := e
      cases outcome <;> simp [Outcome.text, Outcome.passed, cursor, content, Nat.add_assoc]

/-- An iteration at the cursor of a scan has its slices, and it is the round of the scan. -/
theorem turn?_cursor (render : Renderer) (s : Scan) :
    s.cursor.turn? render = some (match Text.cutAt? marker s.rest with
      | none => .finished
      | some (before, behind) =>
        match s.round render before behind with
        | none => .short
        | some t => .next t.cursor) := by
  have hfind := Text.find?_of_eq marker (rfl : s.content = s.done ++ s.rest) rfl
  have hcontent : s.cursor.content = s.content := rfl
  have hoffset : s.cursor.offset = s.done.size := rfl
  unfold Cursor.turn?
  rw [hcontent, hoffset, hfind]
  cases hc : Text.cutAt? marker s.rest with
  | none => rfl
  | some parts =>
    obtain ⟨before, behind⟩ := parts
    have hrest := (Text.append_of_cutAt? hc).1
    have hdocument : s.content = s.done ++ before ++ marker :: behind := by
      simp [content, hrest]
    have hhere := Text.from?_of_eq hdocument rfl
    simp only [Option.map_some, Option.bind_eq_bind, Option.bind_some, hhere]
    cases ho : Text.strip? Escape.opening (marker :: behind) with
    | some inside =>
      have hstarts : Text.startsWith (marker :: behind) Escape.opening = true := by
        rw [Text.startsWith, ho]
        rfl
      have hinside : s.rest = before ++ (Escape.opening ++ inside) := by
        rw [hrest, Text.strip?_eq_some_iff.1 ho]
      simp only [if_pos hstarts, round, ho]
      exact escape?_cursor hinside
    | none =>
      have hstarts : ¬ Text.startsWith (marker :: behind) Escape.opening = true := by
        rw [Text.startsWith, ho]
        exact Bool.false_ne_true
      simp only [if_neg hstarts, round, ho]
      exact statement?_cursor render hrest

theorem run_cursor (rounds : Nat) :
    (∀ s : Scan, (Cursor.run rounds s.cursor).map Cursor.finish = run rounds s) ∧
      Cursor.render rounds = render rounds := by
  -- A run renders the blocks on its way in one round less, so one induction carries both parts.
  induction rounds with
  | zero =>
    refine ⟨fun s => rfl, ?_⟩
    funext scope document
    rfl
  | succ rounds ih =>
    obtain ⟨hrun, hrender⟩ := ih
    refine ⟨?_, ?_⟩
    · intro s
      rw [Cursor.run, hrender, turn?_cursor, run]
      cases Text.cutAt? marker s.rest with
      | none => rfl
      | some parts =>
        obtain ⟨before, behind⟩ := parts
        cases hround : s.round (render rounds) before behind with
        | none => simp only [hround]; rfl
        | some t =>
          simp only [hround]
          exact hrun t
    · funext scope document
      have hstart : (Cursor.run rounds (Cursor.start scope document)).map Cursor.finish =
          run rounds (start scope document) := hrun (start scope document)
      rw [Cursor.render, render, ← hstart]
      cases Cursor.run rounds (Cursor.start scope document) <;> rfl

theorem of_cursor_step {d : Cursor} (h : s.cursor.Step d) : ∃ t, s.Step t ∧ d = t.cursor := by
  obtain ⟨rounds, h⟩ := h
  rw [(run_cursor rounds).2, turn?_cursor] at h
  cases hc : Text.cutAt? marker s.rest with
  | none => simp [hc] at h
  | some parts =>
    obtain ⟨before, behind⟩ := parts
    cases hround : s.round (render rounds) before behind with
    | none => simp [hc, hround] at h
    | some t =>
      simp only [hc, hround, Option.some.injEq, Cursor.Turn.next.injEq] at h
      exact ⟨t, ⟨before, behind, rounds, hc, hround⟩, h.symm⟩

theorem of_cursor_loops {d : Cursor} (h : s.cursor.Loops d) : ∃ t, s.Loops t ∧ d = t.cursor := by
  induction h with
  | refl => exact ⟨s, .refl, rfl⟩
  | tail _ hstep ih =>
    obtain ⟨t, ht, rfl⟩ := ih
    obtain ⟨u, hu, rfl⟩ := of_cursor_step hstep
    exact ⟨u, ht.tail hu, rfl⟩

theorem Loops.done_extends (h : s.Loops t) : s.done <+: t.done := by
  induction h with
  | refl => exact List.prefix_rfl
  | tail _ hstep ih =>
    obtain ⟨before, behind, n, -, hn⟩ := hstep
    obtain ⟨added, hadded⟩ := done_of_round hn
    exact ih.trans ⟨added, hadded.symm⟩

theorem Ends.done_extends (h : Ends s t) : s.done <+: t.done := by
  induction h with
  | done => exact List.prefix_append _ _
  | step hstep _ ih => exact (Loops.done_extends (.single hstep)).trans ih

end Scan

namespace Cursor

/-- Every cursor that a render comes to is that of a scan. -/
theorem Visits.exists_scan {scope : Scope} {document : Text} {c : Cursor}
    (h : (start scope document).Visits c) : ∃ s : Scan, c = s.cursor := by
  induction h with
  | refl => exact ⟨Scan.start scope document, rfl⟩
  | tail _ hnext ih =>
    obtain ⟨s, rfl⟩ := ih
    rcases hnext with hstep | ⟨_, _, l, inner, -, -, -, -, -, rfl⟩
    · obtain ⟨t, -, rfl⟩ := Scan.of_cursor_step hstep
      exact ⟨t, rfl⟩
    · exact ⟨Scan.start inner l.statement.block, rfl⟩

/-- A render by offsets is the render, and no iteration on its way goes out of bounds. -/
theorem visits_in_bounds {scope : Scope} {document : Text} {c : Cursor}
    (hc : (start scope document).Visits c) :
    (∀ rounds, render rounds = Scan.render rounds) ∧
    (c.offset ≤ c.content.size ∧ c.content.IsBoundary c.offset) ∧
    (∀ render, (c.turn? render).isSome) ∧
    (∀ d, c.Loops d → c.offset ≤ d.offset) ∧
    ∃ before, c.content.upTo? c.offset = some before ∧ (∀ d, c.Loops d → before <+: d.content) ∧
      ∀ rounds d, run rounds c = some d → before <+: d.content := by
  obtain ⟨s, rfl⟩ := hc.exists_scan
  have hboundary : s.cursor.content.IsBoundary s.cursor.offset :=
    Text.isBoundary_iff.2 ⟨s.done, s.rest, rfl, rfl⟩
  refine ⟨fun rounds => (Scan.run_cursor rounds).2, ⟨hboundary.le_size, hboundary⟩, ?_, ?_, ?_⟩
  · intro render
    rw [Scan.turn?_cursor]
    rfl
  · intro d hd
    obtain ⟨t, ht, rfl⟩ := Scan.of_cursor_loops hd
    obtain ⟨added, hadded⟩ := ht.done_extends
    have hsize : t.done.size = s.done.size + Text.size added := by
      rw [← hadded, Text.size_append]
    change s.done.size ≤ t.done.size
    omega
  · refine ⟨s.done, Text.upTo?_append s.done s.rest, ?_, ?_⟩
    · intro d hd
      obtain ⟨t, ht, rfl⟩ := Scan.of_cursor_loops hd
      exact ht.done_extends.trans (List.prefix_append t.done t.rest)
    · intro rounds d hd
      have hrun := (Scan.run_cursor rounds).1 s
      rw [hd] at hrun
      exact (Scan.ends_of_run hrun.symm).done_extends

/-- The cursor behind an escape that stood behind a character of two bytes. -/
theorem visits_in_bounds_escape :
    let c : Cursor := ⟨"éa$x".toList, 3, .empty, []⟩
    (start .empty "é$$\x7ba\x7d$$$x".toList).Visits c ∧ c.content.IsBoundary c.offset ∧
      (∀ render, (c.turn? render).isSome) ∧ ¬ c.content.IsBoundary 1 := by
  intro c
  have hc : (start .empty "é$$\x7ba\x7d$$$x".toList).Visits c := .single (.inl ⟨0, rfl⟩)
  obtain ⟨-, ⟨-, hboundary⟩, hturn, -⟩ := visits_in_bounds hc
  exact ⟨hc, hboundary, hturn, by decide⟩

end Cursor
end Stencil
