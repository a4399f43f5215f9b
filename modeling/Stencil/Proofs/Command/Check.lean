import Mathlib.Data.List.Forall2
import Stencil.Command.Run
import Stencil.Proofs.Render.Ends

namespace Stencil.Command

namespace Effect

/-- What is done on the console, where everything succeeds. -/
def OnConsole : Effect → Prop
  | .print _ | .report _ | .trace _ => True
  | .write .. => False

def printed : Effect → Text
  | .print t => t
  | .report _ | .trace _ | .write .. => []

def reported : Effect → Text
  | .report t => t
  | .print _ | .trace _ | .write .. => []

end Effect

variable {d : Display} {es : List Effect}

/-- Effects on the console all succeed and leave the files alone. -/
theorem Session.performAll_of_onConsole (s : Session) (h : ∀ e ∈ es, e.OnConsole) :
    s.performAll es = (⟨s.tree, s.output ++ es.flatMap Effect.printed,
      s.errors ++ es.flatMap Effect.reported⟩, true) := by
  induction es generalizing s with
  | nil => simp [performAll]
  | cons e es ih =>
    have hrest := fun t : Session => ih t fun e he => h e (List.mem_cons_of_mem _ he)
    cases e with
    | print t =>
      rw [performAll, perform?]
      dsimp only
      rw [hrest]
      simp [Effect.printed, Effect.reported]
    | report t =>
      rw [performAll, perform?]
      dsimp only
      rw [hrest]
      simp [Effect.printed, Effect.reported]
    | trace event =>
      rw [performAll, perform?]
      dsimp only
      rw [hrest]
      simp [Effect.printed, Effect.reported]
    | write path content => exact (h _ List.mem_cons_self).elim

theorem Session.run_of_onConsole (s : Session) {o : Outcome} (h : ∀ e ∈ o.effects, e.OnConsole) :
    s.run o = (⟨s.tree, s.output ++ o.effects.flatMap Effect.printed,
      s.errors ++ o.effects.flatMap Effect.reported⟩, o.code) := by
  rw [run, performAll_of_onConsole s h]
  rfl

/-- What is printed last ends the output, and what is reported last the errors. -/
theorem Session.run_append_print (s : Session) (h : ∀ e ∈ es, e.OnConsole) (t : Text) (code : Nat) :
    (s.run ⟨es ++ [.print t], code⟩).2 = code ∧
      t <:+ (s.run ⟨es ++ [.print t], code⟩).1.output := by
  have hconsole : ∀ e ∈ es ++ [.print t], e.OnConsole :=
    List.forall_mem_append.2 ⟨h, List.forall_mem_singleton.2 trivial⟩
  rw [run_of_onConsole s hconsole]
  refine ⟨rfl, s.output ++ es.flatMap Effect.printed, ?_⟩
  simp [Effect.printed]

theorem Session.run_append_report (s : Session) (h : ∀ e ∈ es, e.OnConsole) (t : Text)
    (code : Nat) : (s.run ⟨es ++ [.report t], code⟩).2 = code ∧
      t <:+ (s.run ⟨es ++ [.report t], code⟩).1.errors := by
  have hconsole : ∀ e ∈ es ++ [.report t], e.OnConsole :=
    List.forall_mem_append.2 ⟨h, List.forall_mem_singleton.2 trivial⟩
  rw [run_of_onConsole s hconsole]
  refine ⟨rfl, s.errors ++ es.flatMap Effect.reported, ?_⟩
  simp [Effect.reported]

theorem onConsole_of_mem_reportLines {lines : List Text} {e : Effect}
    (he : e ∈ reportLines lines) : e.OnConsole := by
  obtain ⟨l, -, rfl⟩ := List.mem_map.1 he
  exact trivial

theorem onConsole_of_mem_traces {events : List Event} {e : Effect} (he : e ∈ traces d events) :
    e.OnConsole := by
  unfold traces at he
  split at he
  · obtain ⟨event, -, rfl⟩ := List.mem_map.1 he
    exact trivial
  · cases he

theorem onConsole_of_mem_renderReports {p : Project} {file : Text} {r : Rendered} {e : Effect}
    (he : e ∈ p.renderReports d file r) : e.OnConsole := by
  rcases List.mem_append.1 he with he | he
  · exact onConsole_of_mem_traces he
  · exact onConsole_of_mem_reportLines he

theorem onConsole_of_mem_checkEffects {p : Project} {file : Text} {r : Rendered} {e : Effect}
    (he : e ∈ checkEffects d p file r) : e.OnConsole := by
  rcases List.mem_append.1 he with he | he
  · exact onConsole_of_mem_renderReports he
  · split at he
    · exact onConsole_of_mem_reportLines he
    · split at he
      · obtain rfl := List.mem_singleton.1 he
        exact trivial
      · cases he

theorem errorCount_pos_iff {r : Rendered} : 0 < errorCount r ↔ r.hasErrors = true := by
  rw [errorCount, List.length_filter_pos_iff, Rendered.hasErrors, List.any_eq_true]

namespace Project

variable {rounds more : Nat} {files : Files} {asked : Option Text} {p : Project}

/-- The diagnostics that are raised while the global variables of a project are loaded. -/
def raised? (rounds : Nat) (files : Files) (asked : Option Text) : Option (List Diagnostic) :=
  match read files asked with
  | .ok (_, some (_, t)) => (Engine.loadGlobals? rounds t).map Prod.snd
  | .ok (_, none) | .error _ => some []

theorem render?_of_le (hle : rounds ≤ more) {name : Text} {r : Rendered}
    (h : p.render? rounds name = some (.ok r)) : p.render? more name = some (.ok r) := by
  unfold render? at h ⊢
  cases ht : p.files.read? name with
  | none => simp [ht] at h
  | some t =>
    simp only [ht, Option.map_eq_some_iff, Except.ok.injEq, exists_eq_right] at h ⊢
    exact Engine.render?_of_le hle h

theorem loadEngine?_of_le (hle : rounds ≤ more) {document : Option (Text × Text)}
    {loaded : Engine × List Effect} (h : loadEngine? rounds d document = some loaded) :
    loadEngine? more d document = some loaded := by
  cases document with
  | none => exact h
  | some document =>
    obtain ⟨e, he, rfl⟩ := Option.map_eq_some_iff.1 h
    exact Option.map_eq_some_iff.2 ⟨e, Engine.loadGlobals?_of_le hle he, rfl⟩

theorem load?_eq_ok_iff : load? rounds d files asked = some (.ok p) ↔
    ∃ scope document loaded, read files asked = .ok (scope, document) ∧
      loadEngine? rounds d document = some loaded ∧
      p = ⟨files, loaded.1, scope,
        loaded.2 ++ if d.verbose then reportLines [scopeLine scope] else []⟩ := by
  unfold load?
  cases read files asked with
  | error e => simp
  | ok found =>
    simp only [Option.map_eq_some_iff, Except.ok.injEq]
    constructor
    · intro h
      obtain ⟨loaded, hloaded, rfl⟩ := h
      exact ⟨found.1, found.2, loaded, rfl, hloaded, rfl⟩
    · intro h
      obtain ⟨scope, document, loaded, rfl, hloaded, rfl⟩ := h
      exact ⟨loaded, hloaded, rfl⟩

theorem load?_of_le (hle : rounds ≤ more) (h : load? rounds d files asked = some (.ok p)) :
    load? more d files asked = some (.ok p) := by
  obtain ⟨scope, document, loaded, hread, hloaded, hp⟩ := load?_eq_ok_iff.1 h
  exact load?_eq_ok_iff.2 ⟨scope, document, loaded, hread, loadEngine?_of_le hle hloaded, hp⟩

theorem onConsole_of_mem_reports (h : load? rounds d files asked = some (.ok p)) {e : Effect}
    (he : e ∈ p.reports) : e.OnConsole := by
  obtain ⟨scope, document, loaded, -, hloaded, rfl⟩ := load?_eq_ok_iff.1 h
  rcases List.mem_append.1 he with he | he
  · cases document with
    | none =>
      obtain rfl := Option.some.inj hloaded
      cases he
    | some document =>
      obtain ⟨l, -, rfl⟩ := Option.map_eq_some_iff.1 hloaded
      rcases List.mem_append.1 he with he | he
      · exact onConsole_of_mem_traces he
      · exact onConsole_of_mem_reportLines he
  · split at he
    · exact onConsole_of_mem_reportLines he
    · cases he

theorem exists_raised? (h : load? rounds d files asked = some (.ok p)) :
    ∃ raised, ∀ more, rounds ≤ more → raised? more files asked = some raised := by
  obtain ⟨scope, document, loaded, hread, hloaded, -⟩ := load?_eq_ok_iff.1 h
  cases document with
  | none =>
    refine ⟨[], fun more _ => ?_⟩
    rw [raised?, hread]
  | some document =>
    obtain ⟨l, hl, rfl⟩ := Option.map_eq_some_iff.1 hloaded
    refine ⟨l.2, fun more hle => ?_⟩
    rw [raised?, hread]
    exact Option.map_eq_some_iff.2 ⟨l, Engine.loadGlobals?_of_le hle hl, rfl⟩

end Project

section

variable {rounds : Nat} {p : Project} {names : List Text} {rs : List Rendered}

theorem checkAll?_cons {name : Text} {r : Rendered} {c : Checked}
    (h : p.render? rounds name = some (.ok r)) (hc : checkAll? rounds d p names = some c) :
    checkAll? rounds d p (name :: names) = some ⟨checkEffects d p name r ++ c.effects,
      (if r.hasErrors then 1 else 0) + c.failures, c.stopped⟩ := by
  rw [checkAll?, h, Option.bind_some, hc]
  simp only [errorCount_pos_iff]
  rfl

theorem checkAll?_of_forall
    (h : List.Forall₂ (fun name r => p.render? rounds name = some (.ok r)) names rs) :
    checkAll? rounds d p names =
      some ⟨(names.zip rs).flatMap fun e => checkEffects d p e.1 e.2, rs.countP Rendered.hasErrors,
        none⟩ := by
  induction h with
  | nil => rfl
  | cons hr _ ih =>
    rw [checkAll?_cons hr ih, List.countP_cons, Nat.add_comm]
    rfl

theorem exists_rounds_forall
    (h : List.Forall₂ (fun name r => ∃ rounds, p.render? rounds name = some (.ok r)) names rs) :
    ∃ enough, ∀ rounds, enough ≤ rounds →
      List.Forall₂ (fun name r => p.render? rounds name = some (.ok r)) names rs := by
  induction h with
  | nil => exact ⟨0, fun _ _ => .nil⟩
  | cons hr _ ih =>
    obtain ⟨first, hfirst⟩ := hr
    obtain ⟨enough, henough⟩ := ih
    refine ⟨max first enough, fun rounds hle => .cons ?_ ?_⟩
    · exact Project.render?_of_le (Nat.le_trans (Nat.le_max_left ..) hle) hfirst
    · exact henough rounds (Nat.le_trans (Nat.le_max_right ..) hle)

end

def documentEffects (d : Display) (p : Project) (names : List Text) (rs : List Rendered) :
    List Effect :=
  p.reports ++ (names.zip rs).flatMap fun e => checkEffects d p e.1 e.2

/-- What a check of documents comes to. -/
def checked (d : Display) (p : Project) (names : List Text) (rs : List Rendered) : Outcome :=
  ⟨documentEffects d p names rs ++ [summary (rs.countP Rendered.hasErrors) names.length],
    if rs.any Rendered.hasErrors then 1 else 0⟩

theorem check?_eq_checked {rounds : Nat} {p : Project} {names : List Text} {rs : List Rendered}
    (h : List.Forall₂ (fun name r => p.render? rounds name = some (.ok r)) names rs) :
    check? rounds d names p = some (checked d p names rs) := by
  have hcode : (0 < rs.countP Rendered.hasErrors) ↔ rs.any Rendered.hasErrors = true := by
    rw [List.countP_pos_iff, List.any_eq_true]
  rw [check?, checkAll?_of_forall h]
  simp only [Option.map_some, hcode]
  rfl

theorem onConsole_documentEffects {p : Project} {names : List Text} {rs : List Rendered}
    (hreports : ∀ e ∈ p.reports, e.OnConsole) :
    ∀ e ∈ documentEffects d p names rs, e.OnConsole := by
  refine List.forall_mem_append.2 ⟨hreports, fun e he => ?_⟩
  obtain ⟨f, -, he⟩ := List.mem_flatMap.1 he
  exact onConsole_of_mem_checkEffects he

def passedLine (count : Nat) : Text :=
  line ("Check passed: ".toList ++ Text.ofNat count ++
    " document(s) rendered without errors.".toList)

def failedLine (failures count : Nat) : Text :=
  line ("Check failed: ".toList ++ Text.ofNat failures ++ " of ".toList ++ Text.ofNat count ++
    " document(s) reported errors.".toList)

namespace Outcome

/-- The exit code is 0, and the last that is printed is that so many documents passed. -/
def Passed (o : Outcome) (s : Session) (count : Nat) : Prop :=
  (s.run o).2 = 0 ∧ passedLine count <:+ (s.run o).1.output

/-- The exit code is 1, and the last that is reported is how many documents failed. -/
def Failed (o : Outcome) (s : Session) (failures count : Nat) : Prop :=
  (s.run o).2 = 1 ∧ failedLine failures count <:+ (s.run o).1.errors

end Outcome

section

variable {p : Project} {names : List Text} {rs : List Rendered}

theorem passed_checked (hreports : ∀ e ∈ p.reports, e.OnConsole)
    (h : rs.any Rendered.hasErrors = false) (s : Session) :
    (checked d p names rs).Passed s names.length := by
  have hcount : rs.countP Rendered.hasErrors = 0 := by
    rw [List.countP_eq_zero]
    exact List.any_eq_false.1 h
  have hchecked : checked d p names rs =
      ⟨documentEffects d p names rs ++ [.print (passedLine names.length)], 0⟩ := by
    rw [checked, h, hcount]
    rfl
  rw [hchecked]
  exact s.run_append_print (onConsole_documentEffects hreports) _ 0

theorem failed_checked (hreports : ∀ e ∈ p.reports, e.OnConsole)
    (h : rs.any Rendered.hasErrors = true) (s : Session) :
    (checked d p names rs).Failed s (rs.countP Rendered.hasErrors) names.length := by
  have hcount : 0 < rs.countP Rendered.hasErrors := by
    rw [List.countP_pos_iff]
    exact List.any_eq_true.1 h
  have hchecked : checked d p names rs = ⟨documentEffects d p names rs ++
      [.report (failedLine (rs.countP Rendered.hasErrors) names.length)], 1⟩ := by
    rw [checked, h, summary, if_pos hcount]
    rfl
  rw [hchecked]
  exact s.run_append_report (onConsole_documentEffects hreports) _ 1

end

/-- No error was raised, neither while the global variables were loaded nor by a render. -/
def Clean (raised : List Diagnostic) (rs : List Rendered) : Prop :=
  raised.any Diagnostic.isError = false ∧ rs.any Rendered.hasErrors = false

/-- A verdict on the documents alone is right unless only the global variables raised an error. -/
theorem verdict_iff {o : Outcome} {s : Session} {failures count : Nat} {raised : List Diagnostic}
    {rs : List Rendered} (hpassed : rs.any Rendered.hasErrors = false → o.Passed s count)
    (hfailed : rs.any Rendered.hasErrors = true → o.Failed s failures count) :
    ((o.Passed s count ↔ Clean raised rs) ∧ (¬ Clean raised rs → (s.run o).2 = 1)) ↔
      (raised.any Diagnostic.isError = true → rs.any Rendered.hasErrors = true) := by
  cases hrs : rs.any Rendered.hasErrors with
  | true =>
    -- The check failed, and something did raise an error, whatever the global variables raised.
    have hcode : (s.run o).2 = 1 := (hfailed hrs).1
    have hnot : ¬ o.Passed s count := by
      intro h
      have hzero : (s.run o).2 = 0 := h.1
      omega
    have hclean : ¬ Clean raised rs := by
      intro h
      have hfalse : rs.any Rendered.hasErrors = false := h.2
      simp [hrs] at hfalse
    simp [hnot, hclean, hcode]
  | false =>
    -- The check passed, which is right only if the global variables raised no error either.
    have hpass : o.Passed s count := hpassed hrs
    have hcode : (s.run o).2 ≠ 1 := by
      have hzero : (s.run o).2 = 0 := hpass.1
      omega
    have hclean : Clean raised rs ↔ raised.any Diagnostic.isError = false := by
      rw [Clean, hrs]
      simp
    simp [hpass, hcode, hclean]

/-- A check fails for the errors of documents, and not for those of the global variables. -/
theorem runLine?_check {files : Files} {mayColor : Bool} {arguments : List Text} {a : Arguments}
    {names : List Text} {p : Project} {rs : List Rendered}
    (harguments : Request.ofList? arguments = some (.run a))
    (haction : a.action = some (.check names))
    (hload : ∃ rounds, Project.load? rounds ⟨mayColor && !a.noColor, a.verbose⟩
      (files.under (a.path.getD [])) a.globals = some (.ok p))
    (hrender : List.Forall₂ (fun name r => ∃ rounds, p.render? rounds name = some (.ok r))
      names rs) :
    ∃ o raised,
      (∃ enough, ∀ rounds, enough ≤ rounds → runLine? rounds files mayColor arguments = some o ∧
        Project.raised? rounds (files.under (a.path.getD [])) a.globals = some raised) ∧
      ∀ s : Session,
        (rs.any Rendered.hasErrors = false → o.Passed s names.length) ∧
        (rs.any Rendered.hasErrors = true →
          o.Failed s (rs.countP Rendered.hasErrors) names.length) ∧
        (((o.Passed s names.length ↔ Clean raised rs) ∧ (¬ Clean raised rs → (s.run o).2 = 1)) ↔
          (raised.any Diagnostic.isError = true → rs.any Rendered.hasErrors = true)) := by
  obtain ⟨loaded, hload⟩ := hload
  obtain ⟨enough, henough⟩ := exists_rounds_forall hrender
  obtain ⟨raised, hraised⟩ := Project.exists_raised? hload
  have hreports : ∀ e ∈ p.reports, e.OnConsole := fun e he =>
    Project.onConsole_of_mem_reports hload he
  let d : Display := ⟨mayColor && !a.noColor, a.verbose⟩
  refine ⟨checked d p names rs, raised, ⟨max loaded enough, fun rounds hle => ⟨?_, ?_⟩⟩,
    fun s => ?_⟩
  · have hmore := Project.load?_of_le (Nat.le_trans (Nat.le_max_left ..) hle) hload
    have hcheck : check? rounds d names p = some (checked d p names rs) :=
      check?_eq_checked (henough rounds (Nat.le_trans (Nat.le_max_right ..) hle))
    rw [runLine?, harguments]
    dsimp only
    rw [run?, haction]
    dsimp only
    rw [hmore]
    exact hcheck
  · exact hraised rounds (Nat.le_trans (Nat.le_max_left ..) hle)
  · have hpassed : rs.any Rendered.hasErrors = false →
        (checked d p names rs).Passed s names.length :=
      fun h => passed_checked hreports h s
    have hfailed : rs.any Rendered.hasErrors = true →
        (checked d p names rs).Failed s (rs.countP Rendered.hasErrors) names.length :=
      fun h => failed_checked hreports h s
    exact ⟨hpassed, hfailed, verdict_iff hpassed hfailed⟩

/-- The global variables raise an error, and so does one of two documents. -/
theorem runLine?_check_two_documents :
    let files := Files.ofList [("g.html".toList, .text "$bogus\x7bx\x7d".toList),
      ("a.html".toList, .text ['$']), ("b.html".toList, .text "plain".toList)]
    ∃ o, (∃ enough, ∀ rounds, enough ≤ rounds → runLine? rounds files false
        ["check".toList, "-g".toList, "g.html".toList, "a.html".toList, "b.html".toList] = some o) ∧
      ∀ s : Session, o.Failed s 1 2 := by
  intro files
  let a : Arguments :=
    ⟨some (.check ["a.html".toList, "b.html".toList]), none, false, false, some "g.html".toList⟩
  have harguments : Request.ofList? ["check".toList, "-g".toList, "g.html".toList, "a.html".toList,
      "b.html".toList] = some (.run a) := by
    decide +kernel
  let reports : List Effect := reportLines ["g.html:".toList, "Templating error:".toList,
    "Unknown statement \"bogus\"".toList, "at index 1".toList]
  have hload : Project.load? 3 ⟨false && !a.noColor, a.verbose⟩ (files.under (a.path.getD []))
      a.globals = some (.ok ⟨files.under [], .new, .empty, reports⟩) := rfl
  have hrender : List.Forall₂ (fun name r => ∃ rounds,
      Project.render? rounds ⟨files.under [], .new, .empty, reports⟩ name = some (.ok r))
      ["a.html".toList, "b.html".toList]
      [⟨['$'], [⟨.malformed .missingOpeningBrace, some 0⟩]⟩, ⟨"plain".toList, []⟩] :=
    .cons ⟨3, rfl⟩ (.cons ⟨3, rfl⟩ .nil)
  obtain ⟨o, _, ⟨enough, henough⟩, hverdict⟩ :=
    runLine?_check harguments rfl ⟨3, hload⟩ hrender
  exact ⟨o, ⟨enough, fun rounds hle => (henough rounds hle).1⟩, fun s => (hverdict s).2.1 rfl⟩

/-- A check passes although the global variables raised an error while they were loaded. -/
theorem check_passes_over_globals_error :
    let files := Files.ofList [("g.html".toList, .text "$bogus\x7bx\x7d".toList),
      ("page.html".toList, .text "plain".toList)]
    (∃ raised, Project.raised? 3 (files.under []) (some "g.html".toList) = some raised ∧
      raised.any Diagnostic.isError = true) ∧
    ∃ o, runLine? 3 files false
        ["check".toList, "--globals".toList, "g.html".toList, "page.html".toList] = some o ∧
      ∀ s : Session, o.Passed s 1 := by
  intro files
  have hraised : (Project.raised? 3 (files.under []) (some "g.html".toList)).map
      (fun raised => raised.any Diagnostic.isError) = some true := by
    decide +kernel
  have hrun : runLine? 3 files false
      ["check".toList, "--globals".toList, "g.html".toList, "page.html".toList] =
        some ⟨reportLines ["g.html:".toList, "Templating error:".toList,
          "Unknown statement \"bogus\"".toList, "at index 1".toList] ++
            [.print (passedLine 1)], 0⟩ := by
    decide +kernel
  obtain ⟨raised, hraised, herror⟩ := Option.map_eq_some_iff.1 hraised
  refine ⟨⟨raised, hraised, herror⟩, _, hrun, fun s => ?_⟩
  exact s.run_append_print (fun e he => onConsole_of_mem_reportLines he) (passedLine 1) 0

end Stencil.Command
