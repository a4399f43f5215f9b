import Stencil.Render.Statement
import Stencil.Statement.Basic

/-!
Rendering a text: round by round the first marker of what is still to be scanned is dealt with, and
what stands before the cursor is never touched again. The rounds may never end, so a run takes a
number of rounds; the main statements say that more of them change no answer, and that a round only
adds to the text before the cursor.
-/
namespace Stencil

/-- A text under way. -/
structure Scan where
  /-- The text before the cursor. -/
  done : Text
  /-- The text from the cursor on. -/
  rest : Text
  scope : Scope
  reports : List Report

namespace Scan

/-- The scan of a whole text. -/
def start (scope : Scope) (document : Text) : Scan := ⟨[], document, scope, []⟩

def content (s : Scan) : Text := s.done ++ s.rest

/-- Moves the cursor over `passed`, to `rest`, and adds a report. -/
def report (s : Scan) (passed rest : Text) (cause : Cause) (index : Option Nat) : Scan :=
  ⟨s.done ++ passed, rest, s.scope, s.reports ++ [.here cause index]⟩

/-- Deals with a literal escape, given the text in front of it and the text behind its opening: a
closed one leaves its interior, and one that never closes is passed over. -/
def escape (s : Scan) (before behind : Text) : Scan :=
  match Escape.interior? behind with
  | some (interior, rest) => { s with done := s.done ++ before ++ interior, rest }
  | none =>
    s.report (before ++ Escape.opening) behind
      (.malformed (.loneEscape (Text.size (s.done ++ before)))) none

/-- Deals with a statement, given the text in front of its marker and the text behind it. A marker
without a statement is passed over. -/
def statement (render : Renderer) (s : Scan) (before behind : Text) : Option Scan :=
  let index := Text.size (s.done ++ before)
  match Statement.read behind with
  | .error e =>
    some (s.report (before ++ [marker]) behind (.malformed e) (some (e.reportedAt index)))
  | .ok (st, rest) => do
    let e ← st.run render (index + 1) s.scope
    let reports := s.reports ++ e.reports
    match e.outcome with
    | .final t => pure ⟨s.done ++ before ++ t, rest, e.scope, reports⟩
    | .again t => pure ⟨s.done ++ before, t ++ rest, e.scope, reports⟩

/-- One round, given the text in front of the first marker and the text behind it. -/
def round (render : Renderer) (s : Scan) (before behind : Text) : Option Scan :=
  match Text.strip? Escape.opening (marker :: behind) with
  | some inside => some (s.escape before inside)
  | none => s.statement render before behind

mutual

/-- Scans to the end, in at most so many rounds. Each text in a loop has one round less than the
round that it is part of. -/
def run : Nat → Scan → Option Scan
  | 0, _ => none
  | rounds + 1, s =>
    match Text.cutAt? marker s.rest with
    | none => some { s with done := s.content, rest := [] }
    | some (before, behind) =>
      match s.round (render rounds) before behind with
      | none => none
      | some s => run rounds s

def render : Nat → Renderer
  | 0, _, _ => none
  | rounds + 1, scope, document =>
    match run rounds (start scope document) with
    | none => none
    | some s => some (s.done, s.reports)

end

theorem round_extends {render wider : Renderer} (h : Renderer.Extends render wider)
    {s t : Scan} {before behind : Text} (hr : s.round render before behind = some t) :
    s.round wider before behind = some t := by
  unfold round at hr ⊢
  split at hr
  · exact hr
  · unfold statement at hr ⊢
    dsimp only at hr ⊢
    split at hr
    · exact hr
    · simp only [Option.bind_eq_bind, Option.bind_eq_some_iff] at hr ⊢
      obtain ⟨e, he, ht⟩ := hr
      exact ⟨e, Statement.run_extends h he, ht⟩

theorem run_succ {rounds : Nat} {s t : Scan} (h : run rounds s = some t) :
    run (rounds + 1) s = some t := by
  induction rounds using Nat.strongRecOn generalizing s t with
  | ind rounds ih =>
    cases rounds with
    | zero => simp [run] at h
    | succ rounds =>
      have hrender : Renderer.Extends (render rounds) (render (rounds + 1)) := by
        intro scope document result hr
        cases rounds with
        | zero => simp [render] at hr
        | succ rounds =>
          rw [render] at hr ⊢
          split at hr
          · simp at hr
          · next u hu => simpa [ih rounds (by omega) hu] using hr
      rw [run] at h ⊢
      split at h
      · exact h
      · split at h
        · simp at h
        · next u hu => simpa [round_extends hrender hu] using ih rounds (by omega) h

/-- A finished scan is the same with more rounds. -/
theorem run_of_le {rounds more : Nat} (hle : rounds ≤ more) {s t : Scan}
    (h : run rounds s = some t) : run more s = some t := by
  induction hle with
  | refl => exact h
  | step _ ih => exact run_succ ih

/-- A round only adds to the text before the cursor. -/
theorem done_of_round {render : Renderer} {s t : Scan} {before behind : Text}
    (h : s.round render before behind = some t) : ∃ added, t.done = s.done ++ added := by
  unfold round at h
  split at h
  · cases h
    unfold escape
    split <;> simp [report, List.append_assoc]
  · unfold statement at h
    dsimp only at h
    split at h
    · cases h
      simp [report]
    · simp only [Option.bind_eq_bind, Option.bind_eq_some_iff] at h
      obtain ⟨e, _, he⟩ := h
      split at he <;> cases he <;> simp [List.append_assoc]

end Scan
end Stencil
