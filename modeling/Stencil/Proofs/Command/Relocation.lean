import Stencil.Proofs.Command.Check
import Stencil.Proofs.Project.Formats

namespace Stencil.Command

variable {rounds : Nat} {d : Display}

namespace Project

variable {p : Project} {files files' : Files} {asked : Option Text} {c c' : Config}

def withFiles (p : Project) (files : Files) : Project := { p with files }

theorem render?_withFiles {path : Text} (h : p.files.read? path = files.read? path) :
    (p.withFiles files).render? rounds path = p.render? rounds path := by
  unfold render?
  rw [h]
  rfl

theorem renderReports_withFiles {path : Text} {r : Rendered}
    (h : p.files.read? path = files.read? path) :
    (p.withFiles files).renderReports d path r = p.renderReports d path r := by
  unfold renderReports
  rw [h]
  rfl

/-- What a project is, apart from its files, is what is read of it. -/
theorem load?_eq_map (h : read files asked = read files' asked) :
    load? rounds d files' asked =
      (load? rounds d files asked).map (Except.map (·.withFiles files')) := by
  unfold load?
  rw [h]
  cases read files' asked with
  | error e => rfl
  | ok found =>
    cases hengine : loadEngine? rounds d found.2 with
    | none => simp [hengine]
    | some engine => simp [hengine, Except.map, withFiles]

theorem globalsDocument_congr (hglobals : c.globals = c'.globals)
    (hread : ∀ path ∈ asked.toList ++ c.globals.toList, files.read? path = files'.read? path) :
    globalsDocument files asked (some c) = globalsDocument files' asked (some c') := by
  cases asked with
  | some path => rw [globalsDocument, globalsDocument, hread path (by simp)]
  | none =>
    simp only [globalsDocument, Config.globalsDocument, ← hglobals]
    cases hpath : c.globals with
    | none => rfl
    | some path =>
      have hpath := hread path (by simp [hpath])
      simp only [hpath]

theorem read_eq_of_relocated (hc : Config.load files = .ok (some c))
    (hc' : Config.load files' = .ok (some c')) (h : c.Relocated files c' files')
    (hglobals : c.globals = c'.globals)
    (hread : ∀ path ∈ asked.toList ++ c.globals.toList, files.read? path = files'.read? path) :
    read files asked = read files' asked := by
  unfold read
  rw [hc, hc']
  simp only [bind, Except.bind, h.loadScope_eq, globalsDocument_congr hglobals hread]

end Project

theorem checkAll?_withFiles {p : Project} {files : Files} {paths : List Text}
    (h : ∀ path ∈ paths, p.files.read? path = files.read? path) :
    checkAll? rounds d (p.withFiles files) paths = checkAll? rounds d p paths := by
  induction paths with
  | nil => rfl
  | cons path paths ih =>
    obtain ⟨hpath, hpaths⟩ := List.forall_mem_cons.1 h
    simp only [checkAll?, checkEffects, Project.render?_withFiles hpath,
      Project.renderReports_withFiles hpath, ih hpaths]

/-- A run reads of a project its scope, its global variables and the documents that it names. -/
theorem run?_eq_of_read {a : Arguments} {files files' : Files} {mayColor : Bool}
    (h : Project.read (files.under (a.path.getD [])) a.globals =
      Project.read (files'.under (a.path.getD [])) a.globals)
    (hread : ∀ path ∈ a.documents, (files.under (a.path.getD [])).read? path =
      (files'.under (a.path.getD [])).read? path) :
    run? rounds files mayColor a = run? rounds files' mayColor a := by
  unfold run?
  cases haction : a.action with
  | none => rfl
  | some action =>
    dsimp only
    rw [Project.load?_eq_map h]
    cases hload : Project.load? rounds ⟨mayColor && !a.noColor, a.verbose⟩
        (files.under (a.path.getD [])) a.globals with
    | none => rfl
    | some loaded =>
      cases loaded with
      | error e => rfl
      | ok p =>
        have hfiles : p.files = files.under (a.path.getD []) := by
          obtain ⟨scope, document, engine, -, -, rfl⟩ := Project.load?_eq_ok_iff.1 hload
          rfl
        simp only [Option.map_some, Except.map, Option.bind_some]
        cases action with
        | render file output =>
          have hfile := hread file (by simp [Arguments.documents, haction])
          rw [← hfiles] at hfile
          simp only [render?, renderEffects, Project.render?_withFiles hfile,
            Project.renderReports_withFiles hfile]
          rfl
        | check paths =>
          have hpaths : ∀ path ∈ paths, p.files.read? path =
              (files'.under (a.path.getD [])).read? path := by
            intro path hpath
            rw [hfiles]
            exact hread path (by simp [Arguments.documents, haction, hpath])
          simp only [check?, checkAll?_withFiles hpaths]
          rfl
        | globals format => rfl

/-- Data may move between formats and files: values, scopes and runs stay the same. -/
theorem formats_agree :
    (∀ tree : Data, Value.ofToml (tree.write .toml) = Value.ofJson (tree.write .json)) ∧
    (∀ (c : Config) (files : Files) (name : Text) (tree : Data) (scope : Scope),
      c.Holds files name tree → c.loadScope files = .ok scope →
      scope.find? name = some (Value.ofJson (tree.write .json))) ∧
    (∀ (c c' : Config) (files files' : Files), c.Relocated files c' files' →
      c.loadScope files = c'.loadScope files') ∧
    ∀ (a : Arguments) (files files' : Files) (c c' : Config),
      let here := files.under (a.path.getD [])
      let there := files'.under (a.path.getD [])
      Config.load here = .ok (some c) → Config.load there = .ok (some c') →
      c.Relocated here c' there → c.globals = c'.globals →
      (∀ path ∈ a.documents ++ c.globals.toList, here.read? path = there.read? path) →
      ∀ rounds mayColor, run? rounds files mayColor a = run? rounds files' mayColor a := by
  refine ⟨fun tree => ?_, fun c files name tree scope h hscope => ?_,
    fun c c' files files' h => h.loadScope_eq, ?_⟩
  · rw [Value.ofToml_write, Value.ofJson_write]
  · rw [Value.ofJson_write]
    exact (Config.find?_loadScope hscope name _).2 (h.binds_iff.2 rfl)
  · intro a files files' c c' here there hc hc' h hglobals hread rounds mayColor
    refine run?_eq_of_read (Project.read_eq_of_relocated hc hc' h hglobals fun path hpath => ?_)
      fun path hpath => hread path (List.mem_append_left _ hpath)
    refine hread path ?_
    rcases List.mem_append.1 hpath with hasked | hglobal
    · exact List.mem_append_left _ (List.mem_append_left _ hasked)
    · exact List.mem_append_right _ hglobal

/-- A table in a file of either format and in the config. -/
theorem formats_agree_table :
    let tree : Data := .table [(['n'], .array [.integer 7, .boolean true])]
    let document := "$\x7bd.n\x7d".toList
    let here := Files.ofList [("dollar.toml".toList, .text "data.d='f.json'".toList),
      ("f.json".toList, .text "\x7b\"n\":[7,true]\x7d".toList),
      (['t'], .text document)]
    let there := Files.ofList [("dollar.toml".toList, .text "data.d='f.toml'".toList),
      ("f.toml".toList, .text "n=[7,true]".toList), (['t'], .text document)]
    let c : Config := ⟨none, [(['d'], .plain "f.json".toList)], [], by decide, by decide⟩
    let inline : Config := ⟨none, [], [(['d'], tree.write .toml)], by decide, by decide⟩
    let a : Arguments := ⟨some (.render ['t'] none), none, false, false, none⟩
    Value.ofToml (tree.write .toml) = Value.ofJson (tree.write .json) ∧
      (∀ scope, c.loadScope here = .ok scope →
        scope.find? ['d'] = some (Value.ofJson (tree.write .json))) ∧
      c.loadScope here = inline.loadScope (Files.ofList []) ∧
      run? 8 here false a = run? 8 there false a := by
  intro tree document here there c inline a
  obtain ⟨htree, hbinds, hscope, hrun⟩ := formats_agree
  let c' : Config := ⟨none, [(['d'], .plain "f.toml".toList)], [], by decide, by decide⟩
  have hload : ∀ (files : Files) (path : Text)
      (hdata : Bindings.Ordered [(['d'], DataSource.plain path)]),
      (Config.load files).toOption.join.map (fun c => (c.globals, c.data, c.scope.length)) =
        some (none, [(['d'], .plain path)], 0) →
      Config.load files = .ok (some ⟨none, [(['d'], .plain path)], [], hdata, .nil⟩) := by
    intro files path hdata h
    obtain ⟨⟨globals, data, scope, _, _⟩, hc, hfields⟩ := Option.map_eq_some_iff.1 h
    simp only [Prod.mk.injEq, List.length_eq_zero_iff] at hfields
    obtain ⟨rfl, rfl, rfl⟩ := hfields
    cases hfiles : Config.load files with
    | error e => simp [hfiles, Except.toOption] at hc
    | ok found => simpa [hfiles, Except.toOption] using hc
  have hjson : Json.parse? "\x7b\"n\":[7,true]\x7d".toList =
      some (.object [(['n'], .array [.integer 7, .bool true])]) := rfl
  have htoml : Toml.parse? "n=[7,true]".toList =
      some [(['n'], .array [.integer 7, .boolean true])] := rfl
  have htable : ((Toml.parse? "n=[7,true]".toList).bind
      Toml.entriesWithDates?).map Toml.table = some (tree.write .toml) := by
    rw [htoml]
    rfl
  have hfile : c.Holds here ['d'] tree := .file rfl rfl (by decide) rfl (.json hjson)
  have hfile' : c'.Holds there ['d'] tree := .file rfl rfl (by decide) rfl (.toml htable)
  have hinline : inline.Holds (Files.ofList []) ['d'] tree := .inline rfl rfl
  have hnone : ∀ {α : Type} (x : α) (name : Text), name ≠ ['d'] →
      Bindings.find? [(['d'], x)] name = none := by
    intro α x name hname
    rw [Bindings.find?, if_neg (Ne.symm hname), Bindings.find?_nil]
  have hmoved : c.Relocated here inline (Files.ofList []) := by
    refine hfile.relocated hinline fun name hname => ⟨(hnone _ _ hname).symm, hnone _ _ hname, ?_⟩
    intro source hsource
    cases (hnone _ _ hname).symm.trans hsource
  have hunder : ∀ files : Files, files.under [] = files := by
    intro files
    funext path
    simp [Files.under, Path.join]
  have hmoved' : c.Relocated (here.under []) c' (there.under []) := by
    rw [hunder, hunder]
    refine hfile.relocated hfile' fun name hname =>
      ⟨rfl, (hnone _ _ hname).trans (hnone _ _ hname).symm, ?_⟩
    intro source hsource
    cases (hnone _ _ hname).symm.trans hsource
  have hdocument : ∀ path ∈ a.documents ++ c.globals.toList,
      (here.under []).read? path = (there.under []).read? path := by
    intro path hpath
    obtain rfl := List.mem_singleton.1 hpath
    have hhere : (here.under []).read? ['t'] = some document := rfl
    have hthere : (there.under []).read? ['t'] = some document := rfl
    exact hhere.trans hthere.symm
  exact ⟨htree tree, fun scope => hbinds _ _ _ tree scope hfile, hscope _ _ _ _ hmoved,
    hrun a here there c c' (hload _ _ _ (by decide +kernel)) (hload _ _ _ (by decide +kernel))
      hmoved' rfl hdocument 8 false⟩

end Stencil.Command
