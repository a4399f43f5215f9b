import Stencil.Proofs.Render.Isolation

namespace Stencil

/-- A block that can be declared under a name: each fits between its brackets, and the name loses
nothing when it is trimmed. -/
structure Declarable (name block : Text) : Prop where
  nonempty : name ≠ []
  first : ∀ c, name.head? = some c → Text.isBlank c = false
  last : ∀ c, name.getLast? = some c → Text.isBlank c = false
  parameters : Pair.parens.Balanced name
  block : Pair.braces.Balanced block

namespace Statement

def declaration (name block : Text) : Statement := ⟨"declare".toList, some name, block, none⟩

variable {name block rest : Text}

theorem read_declaration (hd : Declarable name block) (hrest : ¬ joinedElse <+: rest) :
    read ((declaration name block).written [] ++ rest) = .ok (declaration name block, rest) := by
  have hparameters : ∀ p ∈ (declaration name block).parameters, Pair.parens.Balanced p := by
    intro p hp
    obtain rfl : name = p := Option.some.inj hp
    exact hd.parameters
  exact read_written_of_ne_if (by decide) (by decide) (by decide) hparameters hd.block
    (Text.startsWith_eq_false_iff.2 hrest)

theorem run_declaration (hd : Declarable name block) (render : Renderer) (start : Nat)
    (scope : Scope) : (declaration name block).run render start scope =
      some ⟨.again [], scope.insert name (.string block), []⟩ := by
  have htrim : Text.trim ((declaration name block).parameters.getD []) = name :=
    Text.trim_eq_self_of_ends hd.first hd.last
  have hempty : name.isEmpty = false := List.isEmpty_eq_false_iff.2 hd.nonempty
  have hrun : (declaration name block).run render start scope =
      some ((declaration name block).runDeclare start scope) := rfl
  rw [hrun, runDeclare, htrim]
  simp only [hempty]
  rfl

/-- A statement that was read binds only what can be declared. -/
theorem declarable_of_binding? {t : Text} {st : Statement} {e : Text × Value}
    (hread : read t = .ok (st, rest)) (he : st.binding? = some e) :
    ∃ block, e.2 = .string block ∧ Declarable e.1 block := by
  obtain ⟨gap, hd, -⟩ := delimited_of_read hread
  unfold binding? at he
  dsimp only at he
  split at he
  · next h =>
    obtain rfl := Option.some.inj he
    have hparameters : Pair.parens.Balanced (st.parameters.getD []) := by
      cases hp : st.parameters with
      | none => rfl
      | some p => exact hd.parameters p hp
    refine ⟨st.block, rfl, h.2, ?_, ?_, hparameters.trim, hd.block⟩
    · intro c hc
      exact Text.isBlank_of_head?_trim hc
    · intro c hc
      exact Text.isBlank_of_getLast?_trim hc
  · cases he

end Statement

def declarationsText (ds : List (Text × Text)) : Text :=
  ds.flatMap fun d => "$declare(".toList ++ d.1 ++ ")\x7b".toList ++ d.2 ++ "\x7d".toList

theorem declarationsText_cons (d : Text × Text) (ds : List (Text × Text)) :
    declarationsText (d :: ds) =
      marker :: ((Statement.declaration d.1 d.2).written [] ++ declarationsText ds) := by
  have hdeclaration : marker :: (Statement.declaration d.1 d.2).written [] =
      "$declare(".toList ++ d.1 ++ ")\x7b".toList ++ d.2 ++ "\x7d".toList := by
    show marker :: ("declare".toList ++ (Pair.parens.enclose d.1 ++ []) ++
      Pair.braces.enclose d.2 ++ []) = _
    simp [Pair.enclose, marker, Pair.parens, Pair.braces]
  rw [declarationsText, List.flatMap_cons, ← hdeclaration]
  rfl

namespace Scope

def declared (ds : List (Text × Text)) : Scope := ofList (ds.map fun d => (d.1, .string d.2))

def declarations (s : Scope) : List (Text × Text) := s.bindings.map fun e => (e.1, e.2.text)

theorem find?_declared (ds : List (Text × Text)) (k : Text) :
    (declared ds).find? k = (ds.reverse.lookup k).map Value.string := by
  rw [declared, find?_ofList, ← List.map_reverse]
  induction ds.reverse with
  | nil => rfl
  | cons d ds ih =>
    rw [List.map_cons, List.lookup_cons, List.lookup_cons]
    cases k == d.1 with
    | true => rfl
    | false => exact ih

/-- Every variable can be declared. -/
def AllDeclarable (s : Scope) : Prop :=
  ∀ name v, s.find? name = some v → ∃ block, v = .string block ∧ Declarable name block

variable {s : Scope}

theorem AllDeclarable.of_mem (h : s.AllDeclarable) {e : Text × Value} (he : e ∈ s.bindings) :
    e.2 = .string e.2.text ∧ Declarable e.1 e.2.text := by
  obtain ⟨block, hv, hblock⟩ := h e.1 e.2 (find?_of_mem_bindings he)
  have htext : e.2.text = block := by
    rw [hv]
    rfl
  rw [htext]
  exact ⟨hv, hblock⟩

/-- Declaring what is in a scope gives the scope. -/
theorem AllDeclarable.declared_declarations (h : s.AllDeclarable) :
    declared s.declarations = s := by
  have hentries : s.declarations.map (fun d => (d.1, Value.string d.2)) = s.bindings := by
    rw [declarations, List.map_map]
    conv_rhs => rw [← List.map_id s.bindings]
    apply List.map_congr_left
    intro e he
    exact Prod.ext rfl (h.of_mem he).1.symm
  rw [declared, hentries, ofList_bindings]

end Scope

theorem not_joinedElse_declarationsText (ds : List (Text × Text)) :
    ¬ Statement.joinedElse <+: declarationsText ds := by
  cases ds with
  | nil =>
    intro h
    exact absurd (List.prefix_nil.1 h) (by decide)
  | cons d ds =>
    intro h
    rw [declarationsText_cons] at h
    have hhead : 'e' = marker := (List.cons_prefix_cons.1 h).1
    exact absurd hhead (by decide)

namespace Scan

variable {s t : Scan} {scope : Scope} {reports : List Report} {done rest name block : Text}

/-- One round on a declaration. -/
theorem step_declaration (hd : Declarable name block) (hrest : ¬ Statement.joinedElse <+: rest) :
    Step ⟨done, marker :: ((Statement.declaration name block).written [] ++ rest), scope, reports⟩
      ⟨done, rest, scope.insert name (.string block), reports⟩ := by
  have hread := Statement.read_declaration hd hrest
  have hrun := Statement.run_declaration hd (render 0) (Text.size (done ++ []) + 1) scope
  have hstep : Step
      ⟨done, [] ++ marker :: ((Statement.declaration name block).written [] ++ rest), scope,
        reports⟩
      ⟨done ++ [], [] ++ rest, scope.insert name (.string block), reports ++ []⟩ :=
    step_again List.not_mem_nil rfl hread hrun rfl
  rw [List.append_nil, List.append_nil] at hstep
  exact hstep

/-- Declarations leave nothing but what they bind. -/
theorem ends_declarations {ds : List (Text × Text)} (h : ∀ d ∈ ds, Declarable d.1 d.2) :
    Ends ⟨done, declarationsText ds, scope, reports⟩
      ⟨done, [], scope.overlay (Scope.declared ds), reports⟩ := by
  induction ds generalizing scope with
  | nil =>
    have hends := Ends.done (s := ⟨done, [], scope, reports⟩) List.not_mem_nil
    rw [content, List.append_nil] at hends
    exact hends
  | cons d ds ih =>
    have hd : Declarable d.1 d.2 := h d List.mem_cons_self
    have hds : ∀ e ∈ ds, Declarable e.1 e.2 := fun e he => h e (List.mem_cons_of_mem d he)
    have hscope : (scope.insert d.1 (.string d.2)).overlay (Scope.declared ds) =
        scope.overlay (Scope.declared (d :: ds)) := by
      have hone : scope.insert d.1 (.string d.2) =
          scope.overlay (Scope.ofList [(d.1, .string d.2)]) := rfl
      rw [hone]
      exact Scope.overlay_ofList_append ..
    have hstep : Step ⟨done, declarationsText (d :: ds), scope, reports⟩
        ⟨done, declarationsText ds, scope.insert d.1 (.string d.2), reports⟩ := by
      rw [declarationsText_cons]
      exact step_declaration hd (not_joinedElse_declarationsText ds)
    rw [← hscope]
    exact hstep.ends_iff.2 (ih hds)

theorem declarable_of_binding? {e : Text × Value} (he : s.binding? = some e) :
    ∃ block, e.2 = .string block ∧ Declarable e.1 block := by
  unfold binding? at he
  split at he
  · cases he
  · split at he
    · next hread => exact Statement.declarable_of_binding? hread he
    · cases he

/-- Whatever statements a scan comes to, it declares only what can be declared. -/
theorem Declares.declarable {entries : List (Text × Value)} (h : s.Declares entries) :
    ∀ e ∈ entries, ∃ block, e.2 = .string block ∧ Declarable e.1 block := by
  induction h with
  | done =>
    intro e he
    cases he
  | step hstep _ ih =>
    intro e he
    rcases List.mem_append.1 he with he | he
    · exact declarable_of_binding? (Option.mem_toList.1 he)
    · exact ih e he

end Scan

theorem Renders.allDeclarable {document : Text} {r : Scan} (h : Renders .empty document r) :
    r.scope.AllDeclarable := by
  obtain ⟨entries, hentries, hscope⟩ := Scan.Ends.declares h
  intro name v hv
  have hscope : r.scope = Scope.ofList entries := hscope.trans (Scope.empty_overlay _)
  rw [hscope, Scope.find?_ofList] at hv
  have hmem : (name, v) ∈ entries.reverse := by
    obtain ⟨front, back, heq, -⟩ := List.lookup_eq_some_iff.1 hv
    rw [heq]
    simp
  exact hentries.declarable (name, v) (List.mem_reverse.1 hmem)

theorem exists_declarations? {ds : List (Text × Text)} (h : ∀ d ∈ ds, Declarable d.1 d.2) :
    ∃ rounds, declarations? rounds (declarationsText ds) = some ⟨Scope.declared ds, []⟩ := by
  have hr : Renders .empty (declarationsText ds) ⟨[], [], Scope.declared ds, []⟩ := by
    have hends : Scan.Ends ⟨[], declarationsText ds, .empty, []⟩
        ⟨[], [], Scope.empty.overlay (Scope.declared ds), []⟩ := Scan.ends_declarations h
    rw [Scope.empty_overlay] at hends
    exact hends
  exact declarations?_eq_some_iff.2 ⟨_, hr, rfl⟩

/-- What a document declares can be written as declarations and collected again, name by name. -/
theorem declarations_roundtrip :
    (∀ ds : List (Text × Text), (∀ d ∈ ds, Declarable d.1 d.2) →
      ∃ rounds scope, declarations? rounds (declarationsText ds) = some ⟨scope, []⟩ ∧
        ∀ name, scope.find? name = (ds.reverse.lookup name).map Value.string) ∧
    ∀ rounds document d, declarations? rounds document = some d →
      (∀ name v, d.scope.find? name = some v →
        ∃ block, v = .string block ∧ Declarable name block) ∧
      ∃ rounds, declarations? rounds (declarationsText d.scope.declarations) = some ⟨d.scope, []⟩ ∧
        Engine.loadGlobals? rounds (declarationsText d.scope.declarations) =
          some (⟨d.scope⟩, [⟨.loaded d.scope.size, none⟩]) := by
  refine ⟨fun ds hds => ?_, fun rounds document d hd => ?_⟩
  · obtain ⟨rounds, hcollected⟩ := exists_declarations? hds
    exact ⟨rounds, Scope.declared ds, hcollected, Scope.find?_declared ds⟩
  · obtain ⟨r, hr, rfl⟩ := declarations?_eq_some_iff.1 ⟨rounds, hd⟩
    have hall : r.scope.AllDeclarable := hr.allDeclarable
    have hds : ∀ d ∈ r.scope.declarations, Declarable d.1 d.2 := by
      intro d hd
      obtain ⟨e, he, rfl⟩ := List.mem_map.1 hd
      exact (hall.of_mem he).2
    obtain ⟨rounds, hcollected⟩ := exists_declarations? hds
    rw [hall.declared_declarations] at hcollected
    refine ⟨hall, rounds, hcollected, ?_⟩
    rw [Engine.loadGlobals?, hcollected]
    rfl

/-- A name and blocks with markers and braces, and a document that ends in a marker. -/
theorem declarations_roundtrip_braces :
    (∃ rounds scope, declarations? rounds (declarationsText
        [(['a'], ['1']), ("$b\x7b".toList, "$\x7ba\x7d".toList), (['a'], "\x7b$\x7d".toList)]) =
          some ⟨scope, []⟩ ∧
      scope.find? ['a'] = some (.string "\x7b$\x7d".toList) ∧
      scope.find? "$b\x7b".toList = some (.string "$\x7ba\x7d".toList)) ∧
    declarations? 3 "$declare(x)\x7b$\x7d $".toList = some ⟨.ofList [(['x'], .string ['$'])],
      [⟨.malformed .missingOpeningBrace, some 1⟩]⟩ ∧
    ∃ rounds, Engine.loadGlobals? rounds "$declare(x)\x7b$\x7d".toList =
      some (⟨.ofList [(['x'], .string ['$'])]⟩, [⟨.loaded 1, none⟩]) := by
  have hdeclarable : ∀ d ∈ [(['a'], ['1']), ("$b\x7b".toList, "$\x7ba\x7d".toList),
      (['a'], "\x7b$\x7d".toList)], Declarable d.1 d.2 := by
    intro d hd
    simp only [List.mem_cons, List.not_mem_nil, or_false] at hd
    rcases hd with rfl | rfl | rfl
    all_goals
      refine ⟨by decide, ?_, ?_, by decide, by decide⟩
      all_goals
        intro c hc
        obtain rfl := Option.some.inj hc
        decide
  have hcollected : declarations? 3 "$declare(x)\x7b$\x7d $".toList =
      some ⟨.ofList [(['x'], .string ['$'])], [⟨.malformed .missingOpeningBrace, some 1⟩]⟩ := rfl
  refine ⟨?_, hcollected, ?_⟩
  · obtain ⟨rounds, scope, hscope, hfind⟩ := declarations_roundtrip.1 _ hdeclarable
    exact ⟨rounds, scope, hscope, hfind _, hfind _⟩
  · obtain ⟨-, rounds, -, hloaded⟩ := declarations_roundtrip.2 3 _ _ hcollected
    exact ⟨rounds, hloaded⟩

end Stencil
