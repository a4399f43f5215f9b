import Stencil.Proofs.Render.Execution
import Stencil.Proofs.Render.Loop

namespace Stencil

namespace Scan

/-- What the round of a scan binds: the declaration that stands at the first marker, if there is
one. -/
def binding? (s : Scan) : Option (Text × Value) :=
  match Text.cutAt? marker s.rest with
  | none => none
  | some (_, behind) =>
    match Text.strip? Escape.opening (marker :: behind), Statement.read behind with
    | none, .ok (st, _) => st.binding?
    | _, _ => none

/-- The declarations that a scan comes to, in order. -/
inductive Declares : Scan → List (Text × Value) → Prop
  | done {s : Scan} (h : marker ∉ s.rest) : Declares s []
  | step {s t : Scan} {entries : List (Text × Value)} (h : Step s t) (ht : Declares t entries) :
      Declares s (s.binding?.toList ++ entries)

variable {s t : Scan} {entries : List (Text × Value)}

theorem Step.scope (hstep : Step s t) :
    t.scope = s.scope.overlay (Scope.ofList s.binding?.toList) := by
  cases hstep.round with
  | unwrap hu =>
    obtain ⟨behind, inside, hc, ho, -⟩ := hu
    simp only [binding?, hc, ho]
    rfl
  | gape hg =>
    obtain ⟨behind, hc, ho, -⟩ := hg
    simp only [binding?, hc, ho]
    rfl
  | malformed hm he =>
    obtain ⟨hc, ho⟩ := hm
    simp only [binding?, hc, ho, he]
    rfl
  | execute hf he =>
    obtain ⟨behind, ⟨hc, ho⟩, hr⟩ := hf
    simp only [binding?, hc, ho, hr]
    exact (Statement.runs_of_run he).scope_eq

/-- A scan leaves its scope with the declarations that it comes to. -/
theorem Ends.declares (h : Ends s t) :
    ∃ entries, s.Declares entries ∧ t.scope = s.scope.overlay (Scope.ofList entries) := by
  induction h with
  | done h => exact ⟨[], .done h, rfl⟩
  | @step s t u h _ ih =>
    obtain ⟨entries, hentries, hscope⟩ := ih
    refine ⟨s.binding?.toList ++ entries, .step h hentries, ?_⟩
    rw [hscope, h.scope, Scope.overlay_ofList_append]

theorem Declares.eq_nil (h : s.Declares entries) (hm : marker ∉ s.rest) : entries = [] := by
  cases h with
  | done => rfl
  | step h => exact absurd h.mem hm

end Scan

theorem Scan.of_step_foreach {scope : Scope} {x source block : Text} {es : List Value} {t : Scan}
    (hx : Token.IsName x) (hsource : Pair.parens.Balanced source)
    (hes : (Statement.evaluated source scope).1.elements? = some es)
    (hb : Pair.braces.Balanced block)
    (h : (start scope (marker :: (Statement.foreach x source block).written [])).Step t) :
    ∃ rs, List.Forall₂ (fun e r => Renders (scope.insert x e) block r) es rs ∧
      t.done = [] ∧ t.rest = rs.flatMap Scan.done ∧ t.scope = scope := by
  have hread : Statement.read ((Statement.foreach x source block).written [] ++ []) =
      .ok (Statement.foreach x source block, []) :=
    Statement.read_foreach hx hsource hb rfl
  rw [List.append_nil] at hread
  have hf : (start scope (marker :: (Statement.foreach x source block).written [])).Finds []
      (Statement.foreach x source block) [] :=
    ⟨_, ⟨Text.cutAt?_append _ List.not_mem_nil, rfl⟩, hread⟩
  obtain ⟨n, e, he, rfl⟩ := h.of_finds hf
  have hrun : (Statement.foreach x source block).runForeach (render n) 1 scope = some e := he
  rw [Statement.runForeach_of_elements (Statement.cutText?_foreach hx source block) rfl hes,
    Statement.trim_name hx, Option.map_eq_some_iff] at hrun
  obtain ⟨p, hp, rfl⟩ := hrun
  obtain ⟨rs, hrs, rfl⟩ := Statement.renders_of_loop hp
  exact ⟨rs, hrs, rfl, List.append_nil _, rfl⟩

/-- A document that is a loop renders to what its unrolled text renders to. -/
theorem renders_of_foreach {scope : Scope} {x source block : Text} {es : List Value} {w : Scan}
    (hx : Token.IsName x) (hsource : Pair.parens.Balanced source)
    (hes : (Statement.evaluated source scope).1.elements? = some es)
    (hb : Pair.braces.Balanced block)
    (hw : Renders scope (marker :: (Statement.foreach x source block).written []) w) :
    ∃ rs u, List.Forall₂ (fun e r => Renders (scope.insert x e) block r) es rs ∧
      Renders scope (rs.flatMap Scan.done) u ∧ u.scope = w.scope := by
  cases hw with
  | done h => exact absurd List.mem_cons_self h
  | @step _ t _ hstep hends =>
    obtain ⟨rs, hrs, hdone, hrest, hscope⟩ := Scan.of_step_foreach hx hsource hes hb hstep
    obtain ⟨done, rest, inner, reports⟩ := t
    subst hdone hrest hscope
    obtain ⟨u, hu, rfl⟩ := Scan.ends_iff_renders.1 hends
    exact ⟨rs, u, hrs, hu, rfl⟩

/-- A loop binds around it what its unrolled text declares, and nothing that its block declares. -/
theorem scope_of_renders_foreach {scope : Scope} {x source block : Text} {es : List Value}
    {w : Scan} (hx : Token.IsName x) (hsource : Pair.parens.Balanced source)
    (hes : (Statement.evaluated source scope).1.elements? = some es)
    (hb : Pair.braces.Balanced block)
    (hw : Renders scope (marker :: (Statement.foreach x source block).written []) w) :
    ∃ rs entries, List.Forall₂ (fun e r => Renders (scope.insert x e) block r) es rs ∧
      (Scan.start scope (rs.flatMap Scan.done)).Declares entries ∧
      w.scope = scope.overlay (Scope.ofList entries) ∧
      (w.scope = scope ↔ Scope.ofList entries ⊆ scope) ∧
      (marker ∉ rs.flatMap Scan.done → w.scope = scope) ∧
      (scope = .empty → ∀ rounds d,
        declarations? rounds (marker :: (Statement.foreach x source block).written []) = some d →
          d.scope = Scope.ofList entries ∧ (d.scope = .empty ↔ entries = [])) := by
  obtain ⟨rs, u, hrs, hu, hscope⟩ := renders_of_foreach hx hsource hes hb hw
  obtain ⟨entries, hentries, hleft⟩ := Scan.Ends.declares hu
  have hw' : w.scope = scope.overlay (Scope.ofList entries) := hscope.symm.trans hleft
  refine ⟨rs, entries, hrs, hentries, hw', ?_, ?_, ?_⟩
  · rw [hw', Scope.overlay_eq_self_iff]
  · intro hm
    rw [hw', hentries.eq_nil hm, Scope.overlay_ofList_nil]
  · intro hempty rounds d hd
    subst hempty
    obtain ⟨r, hr, rfl⟩ := declarations?_eq_some_iff.1 ⟨rounds, hd⟩
    obtain rfl := hr.unique hw
    rw [Scope.empty_overlay] at hw'
    refine ⟨hw', ?_⟩
    rw [← Scope.ofList_eq_empty_iff, ← hw']

/-- A declaration in the block of a loop is dropped with the scope of the element. -/
theorem scope_of_renders_foreach_declare :
    let scope := Scope.empty.insert ['x', 's'] (.string ['a'])
    let document := "$foreach(x in xs)\x7b$declare(y)\x7bz\x7d\x7d".toList
    ∃ w, Renders scope document w ∧ w.scope = scope := by
  intro scope document
  let block := "$declare(y)\x7bz\x7d".toList
  let inner := (scope.insert ['x'] (.ofChar 'a')).insert ['y'] (.string ['z'])
  have hx : Token.IsName ['x'] := by decide
  have hxs : Token.IsName ['x', 's'] := by decide
  have hv : scope.find? ['x', 's'] = some (.string ['a']) := by
    rw [Scope.find?_insert, if_pos rfl]
  have hes : (Statement.evaluated ['x', 's'] scope).1.elements? = some [.ofChar 'a'] := by
    rw [Statement.evaluated_name hxs (by decide) hv]
    rfl
  have helement : Renders (scope.insert ['x'] (.ofChar 'a')) block ⟨[], [], inner, []⟩ :=
    renders_iff_run.2 ⟨2, rfl⟩
  have hloop : Scan.Step
      ⟨[], [] ++ marker :: ((Statement.foreach ['x'] ['x', 's'] block).written [] ++ []), scope, []⟩
      ⟨[], [], scope, []⟩ :=
    Scan.step_foreach (by simp) hx hxs (by decide) hv rfl (by decide) (by decide)
      (.cons helement .nil)
  have hw : Renders scope (marker :: (Statement.foreach ['x'] ['x', 's'] block).written []) _ :=
    hloop.ends_iff.2 (Scan.Ends.done List.not_mem_nil)
  obtain ⟨rs, entries, hrs, -, -, -, hleft, -⟩ :=
    scope_of_renders_foreach hx (by decide) hes (by decide) hw
  cases hrs with
  | cons hr hrs =>
    cases hrs
    rw [hr.unique helement] at hleft
    exact ⟨_, hw, hleft List.not_mem_nil⟩

/-- A declaration that an escape leaves in the unrolled text is bound around the loop. -/
theorem foreach_binds_unrolled_declare :
    let block := "$$\x7b$declare(y)\x7bz\x7d\x7d$$".toList
    let scope := Scope.empty.insert ['x', 's'] (.string ['a'])
    Pair.braces.Balanced block ∧
      (∃ w, Renders scope (marker :: (Statement.foreach ['x'] ['x', 's'] block).written []) w ∧
        w.scope ≠ scope) ∧
      ∃ d, declarations? 4 (marker :: (Statement.foreach ['x'] "[1]".toList block).written []) =
        some d ∧ d.scope ≠ .empty := by
  intro block scope
  refine ⟨by decide, ?_, ?_⟩
  · have hnames : (Scan.run 4 (Scan.start scope
        (marker :: (Statement.foreach ['x'] ['x', 's'] block).written []))).map
          (fun w => w.scope.names) = some [['x', 's'], ['y']] := by
      decide +kernel
    obtain ⟨w, hw, hn⟩ := Option.map_eq_some_iff.1 hnames
    refine ⟨w, renders_iff_run.2 ⟨4, hw⟩, ?_⟩
    intro h
    rw [h] at hn
    exact absurd hn (by decide)
  · have hnames : (declarations? 4
        (marker :: (Statement.foreach ['x'] "[1]".toList block).written [])).map
          (fun d => d.scope.names) = some [['y']] := by
      decide +kernel
    obtain ⟨d, hd, hn⟩ := Option.map_eq_some_iff.1 hnames
    refine ⟨d, hd, ?_⟩
    intro h
    rw [h] at hn
    exact absurd hn (by decide)

end Stencil
