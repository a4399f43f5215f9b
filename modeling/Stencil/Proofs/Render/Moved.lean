import Stencil.Proofs.Render.Ends
import Stencil.Proofs.Statement.Written

namespace Stencil

/-- The cause of a report about a text with `k` more bytes in front of it. -/
def Cause.moved (k : Nat) : Cause → Cause
  | .malformed (.loneEscape i) => .malformed (.loneEscape (k + i))
  | cause => cause

def Diagnostic.moved (k : Nat) (d : Diagnostic) : Diagnostic :=
  ⟨d.cause.moved k, d.index.map (k + ·)⟩

/-- A report about the text at hand moves with the text. -/
def Report.moved (k : Nat) (r : Report) : Report :=
  if r.depth = 0 then { r with diagnostic := r.diagnostic.moved k } else r

@[simp] theorem Report.moved_inLoop (k : Nat) (r : Report) : r.inLoop.moved k = r.inLoop := by
  simp [Report.moved, Report.inLoop]

@[simp] theorem Report.moved_failed (k : Nat) (e : EvalError) (index : Option Nat) :
    (Report.here (.failed e) index).moved k = Report.here (.failed e) (index.map (k + ·)) := by
  simp [Report.moved, Report.here, Diagnostic.moved, Cause.moved]

theorem SyntaxError.reportedAt_add (k marker : Nat) (e : SyntaxError) :
    e.reportedAt (k + marker) = k + e.reportedAt marker := by
  cases e <;> simp [SyntaxError.reportedAt, Nat.add_assoc]

theorem Cause.moved_add (j k : Nat) (c : Cause) : (c.moved k).moved j = c.moved (j + k) := by
  cases c with
  | malformed e => cases e <;> simp [Cause.moved, Nat.add_assoc]
  | failed e => rfl
  | loaded n => rfl
  | note s m => rfl

theorem Report.moved_add (j k : Nat) (r : Report) : (r.moved k).moved j = r.moved (j + k) := by
  by_cases h : r.depth = 0
  · have hi : (j + ·) ∘ (k + ·) = (j + k + ·) := by funext i; simp [Nat.add_assoc]
    simp [Report.moved, h, Diagnostic.moved, Cause.moved_add, hi]
  · simp [Report.moved, h]

theorem Cause.moved_zero (c : Cause) : c.moved 0 = c := by
  cases c with
  | malformed e => cases e <;> simp [Cause.moved]
  | _ => rfl

@[simp] theorem Report.map_moved_zero (rs : List Report) : rs.map (Report.moved 0) = rs := by
  have hid : Report.moved 0 = id := by
    funext r
    have hd : r.diagnostic.moved 0 = r.diagnostic := by simp [Diagnostic.moved, Cause.moved_zero]
    rw [Report.moved, hd]
    split <;> rfl
  rw [hid, List.map_id]

def Execution.moved (k : Nat) (e : Execution) : Execution :=
  { e with reports := e.reports.map (Report.moved k) }

namespace Statement

theorem evaluated_moved (k : Nat) (source : Text) (scope : Scope) :
    (evaluated source scope).2.map (Report.moved k) = (evaluated source scope).2 := by
  unfold evaluated
  split <;> simp

theorem failed_moved (k : Nat) (scope : Scope) (start : Nat) (e : EvalError) :
    (failed scope start e).moved k = failed scope (k + start) e := by
  simp [failed, Execution.moved]

/-- Where a statement stands shows in its reports only. -/
theorem run_moved (render : Renderer) (s : Statement) (k start : Nat) (scope : Scope) :
    s.run render (k + start) scope = (s.run render start scope).map (Execution.moved k) := by
  unfold run
  split
  · simp [failed_moved]
  · simp [Execution.moved, evaluated_moved]
  · simp [Execution.moved, evaluated_moved]
  · simp [Execution.moved, evaluated_moved]
  · unfold runForeach
    dsimp only
    split
    · simp [failed_moved]
    · split
      · simp [failed_moved]
      · simp only [Option.bind_eq_bind, Option.map_bind]
        congr 1
        funext p
        simp [Execution.moved, evaluated_moved, Function.comp_def]
  · unfold runDeclare
    dsimp only
    split
    · simp [failed_moved]
    · simp [Execution.moved]

end Statement

namespace Scan

/-- A scan as part of the scan of a longer text, behind finished text and earlier reports. -/
def after (before : Text) (earlier : List Report) (s : Scan) : Scan :=
  ⟨before ++ s.done, s.rest, s.scope, earlier ++ s.reports.map (Report.moved before.size)⟩

variable {before : Text} {earlier : List Report}

theorem after_after (first : Text) (reports : List Report) (s : Scan) :
    (s.after before earlier).after first reports =
      s.after (first ++ before) (reports ++ earlier.map (Report.moved first.size)) := by
  simp [after, Report.moved_add, Function.comp_def]

theorem start_after (document : Text) (scope : Scope) :
    (start scope document).after before earlier = ⟨before, document, scope, earlier⟩ := by
  simp [after, start]

theorem escape_after (s : Scan) (front behind : Text) :
    (s.after before earlier).escape front behind = (s.escape front behind).after before earlier := by
  unfold escape
  split
  · simp [after, List.append_assoc]
  · simp [after, report, Report.moved, Report.here, Diagnostic.moved, Cause.moved]

theorem statement_after (render : Renderer) (s : Scan) (front behind : Text) :
    (s.after before earlier).statement render front behind =
      (s.statement render front behind).map (after before earlier) := by
  have hindex : Text.size ((s.after before earlier).done ++ front) =
      before.size + Text.size (s.done ++ front) := by
    simp [after]
  unfold statement
  dsimp only
  split
  · next e he =>
    have hmoved : (Cause.malformed e).moved before.size = .malformed e := by
      cases e with
      | loneEscape i => exact absurd he Statement.read_ne_loneEscape
      | _ => rfl
    have hat := SyntaxError.reportedAt_add before.size (Text.size (s.done ++ front)) e
    rw [hindex, hat]
    simp [after, report, Report.moved, Report.here, Diagnostic.moved, hmoved, List.append_assoc]
  · next st rest _ =>
    rw [hindex, Nat.add_assoc, Statement.run_moved]
    simp only [Option.bind_eq_bind, Option.bind_map, Option.map_bind]
    congr 1
    funext e
    cases ho : e.outcome <;> simp [Execution.moved, after, ho, List.append_assoc]

theorem round_after (render : Renderer) (s : Scan) (front behind : Text) :
    (s.after before earlier).round render front behind =
      (s.round render front behind).map (after before earlier) := by
  unfold round
  split
  · simp [escape_after]
  · exact statement_after render s front behind

theorem step_after_iff {s t : Scan} :
    Step (s.after before earlier) t ↔ ∃ u, Step s u ∧ t = u.after before earlier := by
  constructor
  · intro h
    obtain ⟨front, behind, n, hc, hn⟩ := h
    rw [round_after] at hn
    obtain ⟨u, hu, hut⟩ := Option.map_eq_some_iff.1 hn
    exact ⟨u, ⟨front, behind, n, hc, hu⟩, hut.symm⟩
  · intro h
    obtain ⟨u, ⟨front, behind, n, hc, hn⟩, rfl⟩ := h
    exact ⟨front, behind, n, hc, by rw [round_after, hn]; rfl⟩

/-- Behind finished text a scan ends as it ends alone. -/
theorem ends_after_iff {s t : Scan} :
    Ends (s.after before earlier) t ↔ ∃ u, Ends s u ∧ t = u.after before earlier := by
  apply ends_map_iff
  · intro s t
    exact step_after_iff
  · intro s h
    exact h
  · intro s h
    have hd := Ends.done (s := s.after before earlier) h
    simpa [Scan.after, content, List.append_assoc] using hd

/-- What follows finished text renders as it renders alone. -/
theorem ends_iff_renders {document : Text} {scope : Scope} {t : Scan} :
    Ends ⟨before, document, scope, earlier⟩ t ↔
      ∃ r, Renders scope document r ∧ t = r.after before earlier := by
  rw [← start_after]
  exact ends_after_iff

end Scan
end Stencil
