import Stencil.Command.Run

namespace Stencil.Command

def said (t : Text) : Effect := .report (t ++ ['\n'])

def Display.choose (d : Display) (plain colored : String) : Text :=
  (if d.color then colored else plain).toList

/-- What is said about a diagnostic. -/
def spoken (d : Display) (name : Text) (e : Diagnostic) : List Effect :=
  let header := if e.isError then d.choose "Templating error:" "\x1b[31mTemplating error:"
    else "Templating log:".toList
  let place := e.index.toList.map fun i => said ("at index ".toList ++ Text.ofNat i)
  [said (name ++ [':']), said header, said e.message.toList] ++ place ++
    if d.color then [said "\x1b[0m".toList] else []

/-- What a render of a document says: the diagnostics, on request also those that are no errors, and
in front of them, on request, the events. -/
def Project.told (d : Display) (p : Project) (name : Text) (r : Rendered) : List Effect :=
  let start := Event.rendering ((p.files.read? name).getD []).size
  (if d.verbose then .trace start :: r.diagnostics.map fun e => .trace (.raised e) else []) ++
    (r.diagnostics.filter fun e => e.isError || d.verbose).flatMap (spoken d name)

/-- What a check says about a document with so many errors: how many there are and an advice, on
lines of their own, or on request that there are none. -/
inductive Verdict (d : Display) (name : Text) : Nat → List Effect → Prop
  | failed {errors : Nat} {first advice : Text} {more details : List Text}
      (hwording : Text.Spells (first :: more) ("rendering `".toList ++ name ++
        "` produced ".toList ++ Text.ofNat (errors + 1) ++ " error(s)".toList))
      (hadvice : Text.Spells (advice :: details)
        "fix the statements reported above; run with `--verbose` for more detail".toList) :
      Verdict d name (errors + 1)
        ([said (d.choose "dollar::render" "\x1b[31mdollar::render\x1b[0m"), said [],
            said (d.choose "  x " "  \x1b[31m×\x1b[0m " ++ first)] ++
          more.map (fun l => said (d.choose "  | " "  \x1b[31m│\x1b[0m " ++ l)) ++
          said (d.choose "  help: " "\x1b[36m  help: \x1b[0m" ++ advice) ::
            details.map (fun l => said ("        ".toList ++ l)) ++ [said []])
  | passed (hverbose : d.verbose = true) :
      Verdict d name 0 [.print (d.choose "ok " "\x1b[32mok\x1b[39m " ++ name ++ ['\n'])]
  | silent (hverbose : d.verbose = false) : Verdict d name 0 []

variable {d : Display} {name : Text}

theorem Verdict.eq_nil {es : List Effect} (h : Verdict d name 0 es) (hverbose : d.verbose = false) :
    es = [] := by
  cases h with
  | passed h => cases hverbose.symm.trans h
  | silent => rfl

theorem reportLines_eq (lines : List Text) : reportLines lines = lines.map said := rfl

theorem map_said_lines (e : Diagnostic) :
    ((name ++ [':']) :: (e.lines d.color).map String.toList).map said = spoken d name e := by
  have hheader : (Diagnostic.header d.color e.cause.severity).toList =
      if e.isError then d.choose "Templating error:" "\x1b[31mTemplating error:"
        else "Templating log:".toList := by
    unfold Diagnostic.isError
    cases e.cause.severity <;> cases hcolor : d.color <;>
      simp [Diagnostic.header, Display.choose, hcolor]
  unfold spoken Diagnostic.lines
  rw [← hheader]
  cases e.index <;> cases hcolor : d.color <;> simp

theorem reportDiagnostics_eq (ds : List Diagnostic) : reportDiagnostics d name ds =
    (ds.filter fun e => e.isError || d.verbose).flatMap (spoken d name) := by
  rw [reportDiagnostics, diagnosticLines, reportLines_eq, List.map_flatMap]
  simp only [map_said_lines]

theorem renderReports_eq (p : Project) (r : Rendered) :
    p.renderReports d name r = p.told d name r := by
  rw [Project.renderReports, Project.told, reportDiagnostics_eq, traces, Event.ofRender,
    List.map_cons, List.map_map]
  rfl

theorem map_said_withFronts (front next l : Text) (ls : List Text) :
    (withFronts front next (l :: ls)).map said =
      said (front ++ l) :: ls.map fun l => said (next ++ l) := by
  rw [withFronts, List.map_cons, List.map_map]
  rfl

theorem reportLines_failureLines {e : ProjectError} {help : String} (hhelp : e.help? = some help)
    {first advice : Text} {more details : List Text}
    (hwording : Text.wrap 74 e.message.toList = first :: more)
    (hadvice : Text.wrap 70 help.toList = advice :: details) :
    reportLines (failureLines d.color e) =
      [said (painted d.color "31" e.code.toList), said [],
          said (d.choose "  x " "  \x1b[31m×\x1b[0m " ++ first)] ++
        more.map (fun l => said (d.choose "  | " "  \x1b[31m│\x1b[0m " ++ l)) ++
        said (d.choose "  help: " "\x1b[36m  help: \x1b[0m" ++ advice) ::
          details.map (fun l => said ("        ".toList ++ l)) ++ [said []] := by
  rw [reportLines_eq, failureLines, hhelp, hwording]
  dsimp only
  rw [hadvice]
  simp only [List.map_append, map_said_withFronts]
  unfold Display.choose
  cases d.color <;> rfl

/-- A failed render is reported with the number of errors. -/
theorem verdict_failed (errors : Nat) : Verdict d name (errors + 1)
    (reportLines (failureLines d.color (.render name (errors + 1)))) := by
  have hmessage : (ProjectError.render name (errors + 1)).message.toList = "rendering `".toList ++
      name ++ "` produced ".toList ++ Text.ofNat (errors + 1) ++ " error(s)".toList := by
    unfold ProjectError.message
    simp only [String.toList_append, String.toList_ofList]
  have hr : 'r' ∈ (ProjectError.render name (errors + 1)).message.toList := by simp [hmessage]
  have hf : 'f' ∈
      "fix the statements reported above; run with `--verbose` for more detail".toList := by
    simp
  obtain ⟨first, more, hlines, hwording⟩ :=
    Text.exists_wrap_eq_cons 74 hr (by decide) (by decide)
  obtain ⟨advice, details, hdetails, hadvice⟩ :=
    Text.exists_wrap_eq_cons 70 hf (by decide) (by decide)
  rw [reportLines_failureLines rfl hlines hdetails]
  rw [hmessage] at hwording
  have hcode : painted d.color "31" "dollar::render".toList =
      d.choose "dollar::render" "\x1b[31mdollar::render\x1b[0m" := by
    unfold Display.choose
    cases d.color <;> rfl
  rw [show (ProjectError.render name (errors + 1)).code = "dollar::render" from rfl, hcode]
  exact .failed hwording hadvice

end Stencil.Command
