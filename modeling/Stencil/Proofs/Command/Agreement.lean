import Mathlib.Data.List.Zip
import Stencil.Proofs.Command.Check
import Stencil.Proofs.Command.Report

namespace Stencil.Command

def Arguments.doing (a : Arguments) (action : Action) : Arguments := { a with action }

/-- What a project renders a document to, whose file can be read. -/
def Project.Shows (p : Project) (name : Text) (r : Rendered) : Prop :=
  ∃ rounds, p.render? rounds name = some (.ok r)

/-- What a render does with the text that a document comes to. -/
def delivery (d : Display) (folder : Text) (output : Option Text) (content : Text) : List Effect :=
  match output with
  | none => [.print content]
  | some path =>
    .write (Path.join folder path) content ::
      if d.verbose then [said ("Wrote ".toList ++ path)] else []

variable {d : Display}

theorem renderEffects_eq (p : Project) (folder name : Text) (output : Option Text) (r : Rendered) :
    renderEffects d p folder name output r =
      p.told d name r ++ delivery d folder output r.content := by
  rw [← renderReports_eq]
  cases output <;> rfl

theorem exists_checkEffects_eq (p : Project) (name : Text) (r : Rendered) : ∃ verdict,
    Verdict d name (r.diagnostics.countP Diagnostic.isError) verdict ∧
      checkEffects d p name r = p.told d name r ++ verdict := by
  rw [List.countP_eq_length_filter]
  change ∃ verdict, Verdict d name (errorCount r) verdict ∧ _
  unfold checkEffects
  rw [renderReports_eq]
  refine ⟨_, ?_, rfl⟩
  cases errorCount r with
  | zero =>
    cases hverbose : d.verbose with
    | false => exact .silent hverbose
    | true =>
      have hmark : line (okMark d ++ ' ' :: name) =
          d.choose "ok " "\x1b[32mok\x1b[39m " ++ name ++ ['\n'] := by
        unfold line okMark Display.choose
        cases d.color <;> simp
      simp only [Nat.lt_irrefl, if_false, if_true, hmark]
      exact .passed hverbose
  | succ errors => exact verdict_failed errors

theorem summary_eq (failures count : Nat) : summary failures count =
    if 0 < failures then .report (failedLine failures count) else .print (passedLine count) :=
  rfl

namespace Project

variable {p : Project} {name : Text}

theorem Shows.unique {r r' : Rendered} (h : p.Shows name r) (h' : p.Shows name r') : r = r' := by
  obtain ⟨m, hm⟩ := h
  obtain ⟨n, hn⟩ := h'
  have hr := render?_of_le (Nat.le_max_left m n) hm
  have hr' := render?_of_le (Nat.le_max_right m n) hn
  simpa using hr.symm.trans hr'

/-- One render for every document, whatever else is rendered. -/
theorem exists_shown (p : Project) :
    ∃ shown : Text → Rendered, ∀ name r, p.Shows name r → p.Shows name (shown name) := by
  have hshown : ∀ name, ∃ r', ∀ r, p.Shows name r → p.Shows name r' := by
    intro name
    by_cases h : ∃ r, p.Shows name r
    · obtain ⟨r, hr⟩ := h
      exact ⟨r, fun _ _ => hr⟩
    · exact ⟨⟨[], []⟩, fun r hr => absurd ⟨r, hr⟩ h⟩
  exact ⟨fun name => (hshown name).choose, fun name => (hshown name).choose_spec⟩

end Project

/-- What a check of documents comes to, from the renders of its documents. -/
theorem checked_map {p : Project} {shown : Text → Rendered} {verdict : Text → List Effect}
    (hverdict : ∀ name, checkEffects d p name (shown name) =
      p.told d name (shown name) ++ verdict name) (names : List Text) :
    checked d p names (names.map shown) =
      let accounts := names.map fun name => p.told d name (shown name) ++ verdict name
      let failing := names.countP fun name =>
        0 < (shown name).diagnostics.countP Diagnostic.isError
      ⟨p.reports ++ accounts.flatten ++ [if 0 < failing then
        .report (failedLine failing names.length) else .print (passedLine names.length)],
        if 0 < failing then 1 else 0⟩ := by
  have heffects : documentEffects d p names (names.map shown) = p.reports ++
      (names.map fun name => p.told d name (shown name) ++ verdict name).flatten := by
    rw [documentEffects, ← List.map_prod_left_eq_zip, List.flatMap_map, List.flatMap_def]
    simp only [hverdict]
  have hfailing : (names.map shown).countP Rendered.hasErrors = names.countP fun name =>
      0 < (shown name).diagnostics.countP Diagnostic.isError := by
    rw [List.countP_map]
    apply List.countP_congr
    intro name _
    simp [Rendered.hasErrors, List.countP_pos_iff]
  have hany : (names.map shown).any Rendered.hasErrors = true ↔
      0 < (names.map shown).countP Rendered.hasErrors := by
    rw [List.countP_pos_iff, List.any_eq_true]
  simp only [checked, heffects, hany, hfailing, summary_eq]

section

variable {files : Files} {mayColor : Bool} {a : Arguments} {p : Project} {line : List Text}

theorem runLine?_of_ofList? {rounds : Nat} (hline : Request.ofList? line = some (.run a)) :
    runLine? rounds files mayColor line = run? rounds files mayColor a := by
  rw [runLine?, hline]

theorem run?_doing {rounds : Nat} {action : Action}
    (hload : Project.load? rounds ⟨mayColor && !a.noColor, a.verbose⟩
      (files.under (a.path.getD [])) a.globals = some (.ok p)) :
    run? rounds files mayColor (a.doing action) =
      match action with
      | .render name output =>
        render? rounds ⟨mayColor && !a.noColor, a.verbose⟩ (a.path.getD []) name output p
      | .check names => check? rounds ⟨mayColor && !a.noColor, a.verbose⟩ names p
      | .globals format => some (globals format p) := by
  cases action <;> simp only [run?, Arguments.doing, hload, Option.bind_some]

variable (hload : ∃ rounds, Project.load? rounds ⟨mayColor && !a.noColor, a.verbose⟩
  (files.under (a.path.getD [])) a.globals = some (.ok p))

include hload

theorem runLine?_render {name : Text} {output : Option Text} {r : Rendered} (hr : p.Shows name r)
    (hline : Request.ofList? line = some (.run (a.doing (.render name output)))) :
    ∃ enough, ∀ rounds, enough ≤ rounds → runLine? rounds files mayColor line =
      some ⟨p.reports ++ renderEffects ⟨mayColor && !a.noColor, a.verbose⟩ p (a.path.getD []) name
        output r, 0⟩ := by
  obtain ⟨loaded, hload⟩ := hload
  obtain ⟨enough, hr⟩ := hr
  refine ⟨max loaded enough, fun rounds hle => ?_⟩
  have hloaded := Project.load?_of_le (Nat.le_trans (Nat.le_max_left ..) hle) hload
  have hrender := Project.render?_of_le (Nat.le_trans (Nat.le_max_right ..) hle) hr
  rw [runLine?_of_ofList? hline, run?_doing hloaded]
  dsimp only
  rw [render?, hrender]
  rfl

theorem runLine?_checked {names : List Text} {shown : Text → Rendered}
    (hshown : ∀ name ∈ names, p.Shows name (shown name))
    (hline : Request.ofList? line = some (.run (a.doing (.check names)))) :
    ∃ enough, ∀ rounds, enough ≤ rounds → runLine? rounds files mayColor line =
      some (checked ⟨mayColor && !a.noColor, a.verbose⟩ p names (names.map shown)) := by
  obtain ⟨loaded, hload⟩ := hload
  have hrenders : List.Forall₂ (fun name r => ∃ rounds, p.render? rounds name = some (.ok r))
      names (names.map shown) := by
    rw [List.forall₂_map_right_iff, List.forall₂_same]
    exact hshown
  obtain ⟨enough, henough⟩ := exists_rounds_forall hrenders
  refine ⟨max loaded enough, fun rounds hle => ?_⟩
  have hloaded := Project.load?_of_le (Nat.le_trans (Nat.le_max_left ..) hle) hload
  rw [runLine?_of_ofList? hline, run?_doing hloaded]
  exact check?_eq_checked (henough rounds (Nat.le_trans (Nat.le_max_right ..) hle))

/-- A check shows and judges each document as a render shows it, and counts those with errors. -/
theorem runLine?_check_eq_render :
    let d : Display := ⟨mayColor && !a.noColor, a.verbose⟩
    ∃ (shown : Text → Rendered) (verdict : Text → List Effect),
      (∀ name r, p.Shows name r → r = shown name) ∧
      let errors := fun name => (shown name).diagnostics.countP Diagnostic.isError
      (∀ name, Verdict d name (errors name) (verdict name)) ∧
      (∀ name output line, (∃ r, p.Shows name r) →
        Request.ofList? line = some (.run (a.doing (.render name output))) →
        ∃ enough, ∀ rounds, enough ≤ rounds → runLine? rounds files mayColor line =
          some ⟨p.reports ++ (p.told d name (shown name) ++
            delivery d (a.path.getD []) output (shown name).content), 0⟩) ∧
      let accounts := List.map fun name => p.told d name (shown name) ++ verdict name
      let failing := List.countP fun name => 0 < errors name
      let last := fun names => if 0 < failing names then
        Effect.report (failedLine (failing names) names.length)
        else .print (passedLine names.length)
      let code := fun names => if 0 < failing names then 1 else 0
      (∀ names line, (∀ name ∈ names, ∃ r, p.Shows name r) →
        Request.ofList? line = some (.run (a.doing (.check names))) →
        ∃ enough, ∀ rounds, enough ≤ rounds → runLine? rounds files mayColor line =
          some ⟨p.reports ++ (accounts names).flatten ++ [last names], code names⟩) ∧
      ∀ names names' line line', names.Perm names' → (∀ name ∈ names, ∃ r, p.Shows name r) →
        Request.ofList? line = some (.run (a.doing (.check names))) →
        Request.ofList? line' = some (.run (a.doing (.check names'))) →
        (accounts names).Perm (accounts names') ∧
        ∃ enough, ∀ rounds, enough ≤ rounds →
          runLine? rounds files mayColor line =
            some ⟨p.reports ++ (accounts names).flatten ++ [last names], code names⟩ ∧
          runLine? rounds files mayColor line' =
            some ⟨p.reports ++ (accounts names').flatten ++ [last names], code names⟩ := by
  intro d
  obtain ⟨shown, hshown⟩ := p.exists_shown
  have hall : ∀ {names : List Text}, (∀ name ∈ names, ∃ r, p.Shows name r) →
      ∀ name ∈ names, p.Shows name (shown name) := by
    intro names hnames name hname
    obtain ⟨r, hr⟩ := hnames name hname
    exact hshown name r hr
  choose verdict hverdict heffects using
    fun name => exists_checkEffects_eq (d := d) p name (shown name)
  refine ⟨shown, verdict, fun name r hr => hr.unique (hshown name r hr), hverdict, ?_, ?_, ?_⟩
  · rintro name output line ⟨r, hr⟩ hline
    obtain ⟨enough, henough⟩ := runLine?_render hload (hshown name r hr) hline
    refine ⟨enough, fun rounds hle => ?_⟩
    rw [henough rounds hle, renderEffects_eq]
  · intro names line hnames hline
    obtain ⟨enough, henough⟩ := runLine?_checked hload (hall hnames) hline
    refine ⟨enough, fun rounds hle => ?_⟩
    rw [henough rounds hle, checked_map heffects]
  · intro names names' line line' h hnames hline hline'
    have hnames' : ∀ name ∈ names', ∃ r, p.Shows name r :=
      fun name hname => hnames name (h.mem_iff.2 hname)
    obtain ⟨m, hm⟩ := runLine?_checked hload (hall hnames) hline
    obtain ⟨n, hn⟩ := runLine?_checked hload (hall hnames') hline'
    refine ⟨h.map _, max m n, fun rounds hle => ⟨?_, ?_⟩⟩
    · rw [hm rounds (Nat.le_trans (Nat.le_max_left ..) hle), checked_map heffects]
    · rw [hn rounds (Nat.le_trans (Nat.le_max_right ..) hle), checked_map heffects, h.symm.countP_eq,
        h.symm.length_eq]

end

/-- A document with an error, in front of one without and listed twice. -/
theorem runLine?_check_eq_render_twice :
    let files := Files.ofList [(['a'], .text ['$']), (['b'], .text ['-'])]
    let told := [said ['a', ':'], said "Templating error:".toList,
      said "Missing \x7b to match $".toList, said "at index 0".toList]
    (∃ enough, ∀ rounds, enough ≤ rounds →
      runLine? rounds files false ["render".toList, ['a']] = some ⟨told ++ [.print ['$']], 0⟩) ∧
    ∃ verdict, Verdict ⟨false, false⟩ ['a'] 1 verdict ∧ ∃ enough, ∀ rounds, enough ≤ rounds →
      runLine? rounds files false ["check".toList, ['a'], ['b'], ['a']] =
        some ⟨told ++ verdict ++ (told ++ verdict) ++
          [said "Check failed: 2 of 3 document(s) reported errors.".toList], 1⟩ := by
  intro files told
  let a : Arguments := ⟨none, none, false, false, none⟩
  let p : Project := ⟨files.under [], .new, .empty, []⟩
  have hload : Project.load? 0 ⟨false && !a.noColor, a.verbose⟩ (files.under (a.path.getD []))
      a.globals = some (.ok p) := rfl
  have hfirst : p.Shows ['a'] ⟨['$'], [⟨.malformed .missingOpeningBrace, some 0⟩]⟩ := ⟨3, rfl⟩
  have hsecond : p.Shows ['b'] ⟨['-'], []⟩ := ⟨3, rfl⟩
  have hnames : ∀ name ∈ [['a'], ['b'], ['a']], ∃ r, p.Shows name r := by
    simp only [List.forall_mem_cons]
    exact ⟨⟨_, hfirst⟩, ⟨_, hsecond⟩, ⟨_, hfirst⟩, by simp⟩
  obtain ⟨shown, verdict, hshown, hverdict, hrender, hcheck, -⟩ :=
    runLine?_check_eq_render ⟨0, hload⟩
  obtain ⟨m, hm⟩ := hrender _ none ["render".toList, ['a']] ⟨_, hfirst⟩ (by decide +kernel)
  obtain ⟨n, hn⟩ := hcheck _ ["check".toList, ['a'], ['b'], ['a']] hnames (by decide +kernel)
  have ha := (hshown _ _ hfirst).symm
  have hb := (hshown _ _ hsecond).symm
  have hone : Verdict ⟨false, false⟩ ['a'] 1 (verdict ['a']) := by
    have h := hverdict ['a']
    dsimp only at h
    rw [ha] at h
    exact h
  have hnone : verdict ['b'] = [] := by
    have h := hverdict ['b']
    dsimp only at h
    rw [hb] at h
    exact h.eq_nil rfl
  refine ⟨⟨m, fun rounds hle => ?_⟩, verdict ['a'], hone, n, fun rounds hle => ?_⟩
  · rw [hm rounds hle, ha]
    rfl
  · rw [hn rounds hle]
    have herror : [(⟨.malformed .missingOpeningBrace, some 0⟩ : Diagnostic)].countP
        Diagnostic.isError = 1 := rfl
    have htold : p.told ⟨false, false⟩ ['a']
        ⟨['$'], [⟨.malformed .missingOpeningBrace, some 0⟩]⟩ = told := rfl
    have htold' : p.told ⟨false, false⟩ ['b'] ⟨['-'], []⟩ = [] := rfl
    have hlast : failedLine 2 3 =
        "Check failed: 2 of 3 document(s) reported errors.".toList ++ ['\n'] := rfl
    simp only [List.map_cons, List.map_nil, List.countP_cons, List.countP_nil, ha, hb, hnone,
      herror, Bool.false_and, a, htold, htold']
    simp [said, hlast, p]

example : runLine? 3 (Files.ofList [(['b'], .text ['-'])]) false
    ["check".toList, "-v".toList, ['b']] = some ⟨[said "Scope variables: ".toList,
      .trace (.rendering 1), .print "ok b\n".toList, .print (passedLine 1)], 0⟩ := by
  decide +kernel

end Stencil.Command
