import Mathlib.Data.List.Forall2
import Stencil.Proofs.Render.Finality

namespace Stencil

namespace Statement

def foreach (x source block : Text) : Statement :=
  ⟨"foreach".toList, some (x ++ inText ++ source), block, none⟩

example : (foreach ['x'] ['x', 's'] ['b']).written [] = "foreach(x in xs)\x7bb\x7d".toList := rfl

variable {x xs source block : Text}

theorem trim_name (hx : Token.IsName x) : Text.trim x = x := by
  apply Text.trim_eq_self
  intro c hc
  simpa using Token.isBlank_of_isNamePart (hx.isNamePart hc)

theorem cutText?_foreach (hx : Token.IsName x) (source block : Text) :
    Text.cutText? inText ((foreach x source block).parameters.getD []) = some (x, source) := by
  have hspace : ' ' ∉ x := by
    intro hm
    exact absurd (hx.isNamePart hm) (by decide)
  exact Text.cutText?_append_cons hspace _ _

theorem read_foreach (hx : Token.IsName x) (hsource : Pair.parens.Balanced source)
    (hb : Pair.braces.Balanced block) {rest : Text}
    (hr : Text.startsWith rest joinedElse = false) :
    read ((foreach x source block).written [] ++ rest) = .ok (foreach x source block, rest) := by
  have hin : ∀ c ∈ inText, c ≠ Pair.parens.opener ∧ c ≠ Pair.parens.closer := by
    intro c hc
    have hc : c = ' ' ∨ c = 'i' ∨ c = 'n' ∨ c = ' ' := by simpa [inText] using hc
    rcases hc with rfl | rfl | rfl | rfl <;> decide
  have hparameters : ∀ p ∈ (foreach x source block).parameters, Pair.parens.Balanced p := by
    intro p hp
    obtain rfl : x ++ inText ++ source = p := Option.some.inj hp
    rw [List.append_assoc, Pair.balanced_append_iff_left (hx.ne_of_mem (by decide)),
      Pair.balanced_append_iff_left hin]
    exact hsource
  exact read_written_of_ne_if (by decide) (by decide) (by decide) hparameters hb hr

/-- A loop renders its block for one element after another. -/
theorem loop_of_renders {scope : Scope} {es : List Value} {rs : List Scan}
    (h : List.Forall₂ (fun e r => Renders (scope.insert x e) block r) es rs) :
    ∃ n, loop (Scan.render n) scope x block es =
      some (rs.flatMap Scan.done, rs.flatMap Scan.reports) := by
  induction h with
  | nil => exact ⟨0, rfl⟩
  | @cons e r es rs he _ ih =>
    obtain ⟨m, hm⟩ := Scan.render_eq_some_iff.2 ⟨r, he, rfl⟩
    obtain ⟨n, hn⟩ := ih
    have hm' := Scan.render_of_le (Nat.le_max_left m n) _ _ _ hm
    have hn' := loop_extends (Scan.render_of_le (Nat.le_max_right m n)) hn
    exact ⟨max m n, by simp [loop, hm', hn']⟩

theorem renders_of_loop {n : Nat} {scope : Scope} {es : List Value} {p : Text × List Report}
    (h : loop (Scan.render n) scope x block es = some p) :
    ∃ rs, List.Forall₂ (fun e r => Renders (scope.insert x e) block r) es rs ∧
      p = (rs.flatMap Scan.done, rs.flatMap Scan.reports) := by
  induction es generalizing p with
  | nil => exact ⟨[], .nil, (Option.some.inj h).symm⟩
  | cons e es ih =>
    simp only [loop, Option.bind_eq_bind, Option.bind_eq_some_iff] at h
    obtain ⟨first, hfirst, more, hmore, h⟩ := h
    obtain rfl := Option.some.inj h
    obtain ⟨r, hr, rfl⟩ := Scan.render_eq_some_iff.1 ⟨n, hfirst⟩
    obtain ⟨rs, hrs, rfl⟩ := ih hmore
    exact ⟨r :: rs, .cons hr hrs, rfl⟩

theorem runForeach_of_elements {render : Renderer} {s : Statement} {scope : Scope}
    {name source : Text} {v : Value} {reports : List Report} {es : List Value}
    (hcut : Text.cutText? inText (s.parameters.getD []) = some (name, source))
    (hvalue : evaluated source scope = (v, reports)) (hes : v.elements? = some es) (start : Nat) :
    runForeach render s start scope =
      (loop render scope (Text.trim name) s.block es).map fun p =>
        ⟨.again p.1, scope, reports ++ p.2.map Report.inLoop⟩ := by
  unfold runForeach
  simp only [hcut, hvalue, hes]
  cases loop render scope (Text.trim name) s.block es <;> rfl

theorem run_foreach_elements (hx : Token.IsName x) {scope : Scope} {v : Value}
    (hvalue : evaluated source scope = (v, [])) {es : List Value} (hes : v.elements? = some es)
    {render : Renderer} {start : Nat} :
    (foreach x source block).run render start scope =
      (loop render scope x block es).map fun p =>
        ⟨.again p.1, scope, p.2.map Report.inLoop⟩ := by
  have hcut := cutText?_foreach hx source block
  have hkeyword : Keyword.ofText? "foreach".toList = some .foreach := by decide
  have hrun : (foreach x source block).run render start scope =
      runForeach render (foreach x source block) start scope := by
    unfold run
    rw [show Keyword.ofText? (foreach x source block).keyword = some .foreach from hkeyword]
  rw [hrun, runForeach_of_elements hcut hvalue hes, trim_name hx]
  rfl

theorem run_foreach (hx : Token.IsName x) (hxs : Token.IsName xs)
    (hident : Token.ofName xs = .ident xs) {scope : Scope} {v : Value}
    (hv : scope.find? xs = some v) {es : List Value} (hes : v.elements? = some es) {rs : List Scan}
    (hrs : List.Forall₂ (fun e r => Renders (scope.insert x e) block r) es rs) :
    ∃ n, ∀ start, (foreach x xs block).run (Scan.render n) start scope =
      some ⟨.again (rs.flatMap Scan.done), scope,
        (rs.flatMap Scan.reports).map Report.inLoop⟩ := by
  obtain ⟨n, hn⟩ := loop_of_renders hrs
  refine ⟨n, fun start => ?_⟩
  rw [run_foreach_elements hx (evaluated_name hxs hident hv) hes, hn]
  rfl

end Statement

def Scan.rendered (s : Scan) : Rendered := ⟨s.done, s.reports.map Report.diagnostic⟩

theorem Scan.rendered_after_iff {s t : Scan} {before before' : Text} {earlier : List Report} :
    (s.after before earlier).rendered = (t.after before' earlier).rendered ↔
      (s.after before []).rendered = (t.after before' []).rendered := by
  simp [rendered, after]

theorem Scan.step_foreach {done front x xs block rest : Text} {scope : Scope}
    {reports : List Report} (hfront : marker ∉ front) (hx : Token.IsName x) (hxs : Token.IsName xs)
    (hident : Token.ofName xs = .ident xs) {v : Value} (hv : scope.find? xs = some v)
    {es : List Value} (hes : v.elements? = some es) (hb : Pair.braces.Balanced block)
    (hrest : Text.startsWith rest Statement.joinedElse = false) {rs : List Scan}
    (hrs : List.Forall₂ (fun e r => Renders (scope.insert x e) block r) es rs) :
    Step ⟨done, front ++ marker :: ((Statement.foreach x xs block).written [] ++ rest), scope,
        reports⟩
      ⟨done ++ front, rs.flatMap Scan.done ++ rest, scope,
        reports ++ (rs.flatMap Scan.reports).map Report.inLoop⟩ := by
  obtain ⟨n, hrun⟩ := Statement.run_foreach hx hxs hident hv hes hrs
  have hread := Statement.read_foreach hx (hxs.balanced (by decide)) hb hrest
  exact step_again hfront rfl hread (hrun _) rfl

/-- A loop is unrolled, and its text is scanned once more in front of the rest. -/
theorem renders_foreach {scope : Scope} {x xs block front rest : Text} {v : Value}
    {es : List Value} {rs : List Scan} {r : Scan}
    (hx : Token.IsName x) (hxs : Token.IsName xs) (hident : Token.ofName xs = .ident xs)
    (hv : scope.find? xs = some v) (hes : v.elements? = some es)
    (hb : Pair.braces.Balanced block) (hfront : marker ∉ front)
    (hrest : Text.startsWith rest Statement.joinedElse = false)
    (hrs : List.Forall₂ (fun e r => Renders (scope.insert x e) block r) es rs)
    (hr : Renders scope rest r) :
    let document := front ++ marker :: ((Statement.foreach x xs block).written [] ++ rest)
    let text := rs.flatMap Scan.done
    let reports := (rs.flatMap Scan.reports).map Report.inLoop
    (∀ w, Renders scope document w ↔
      ∃ u, Renders scope (text ++ rest) u ∧ w = u.after front reports) ∧
    (∀ w u, Renders scope document w → Renders scope (text ++ rest) u →
      (w.rendered = (r.after (front ++ text) reports).rendered ↔
        (u.after front []).rendered = (r.after (front ++ text) []).rendered)) ∧
    (marker ∉ text → ∀ w, Renders scope document w ↔ w = r.after (front ++ text) reports) := by
  intro document text reports
  have hunroll : ∀ w, Renders scope document w ↔
      ∃ u, Renders scope (text ++ rest) u ∧ w = u.after front reports := by
    intro w
    have hstep : Scan.Step (Scan.start scope document) ⟨front, text ++ rest, scope, reports⟩ :=
      Scan.step_foreach hfront hx hxs hident hv hes hb hrest hrs
    exact hstep.ends_iff.trans Scan.ends_iff_renders
  refine ⟨hunroll, ?_, ?_⟩
  · intro w u hw hu
    obtain ⟨u', hu', rfl⟩ := (hunroll w).1 hw
    obtain rfl := hu'.unique hu
    exact Scan.rendered_after_iff
  · intro hfinal w
    have hafter : (r.after text []).after front reports = r.after (front ++ text) reports := by
      rw [Scan.after_after]
      simp
    have htext : ∀ u, Renders scope (text ++ rest) u ↔ u = r.after text [] := by
      intro u
      have hadvance : Renders scope (text ++ rest) u ↔ Scan.Ends ⟨text, rest, scope, []⟩ u :=
        Scan.ends_advance hfinal
      rw [hadvance, Scan.ends_iff_renders]
      constructor
      · intro h
        obtain ⟨r', hr', rfl⟩ := h
        rw [hr'.unique hr]
      · intro h
        subst h
        exact ⟨r, hr, rfl⟩
    rw [hunroll, ← hafter]
    constructor
    · intro h
      obtain ⟨u, hu, rfl⟩ := h
      rw [(htext u).1 hu]
    · intro h
      subst h
      exact ⟨_, (htext _).2 rfl, rfl⟩

/-- A loop over the characters of a string, which leaves no marker. -/
theorem renders_foreach_characters :
    let scope := Scope.empty.insert ['x', 's'] (.string ['a', 'b'])
    ∀ w, Renders scope "-$foreach(x in xs)\x7b$\x7bx\x7d,\x7d.".toList w ↔
      w = ⟨"-a,b,.".toList, [], scope, []⟩ := by
  intro scope
  have hx : Token.IsName ['x'] := ⟨by decide, by simp⟩
  have hxs : Token.IsName ['x', 's'] := ⟨by decide, List.forall_mem_singleton.2 (by decide)⟩
  have hv : scope.find? ['x', 's'] = some (.string ['a', 'b']) := by
    rw [Scope.find?_insert, if_pos rfl]
  have helement : ∀ c, Renders (scope.insert ['x'] (.ofChar c)) "$\x7bx\x7d,".toList
      ⟨[c, ','], [], scope.insert ['x'] (.ofChar c), []⟩ := by
    intro c
    have hc : (scope.insert ['x'] (.ofChar c)).find? ['x'] = some (.ofChar c) := by
      rw [Scope.find?_insert, if_pos rfl]
    have hstep : Scan.Step
        ⟨[], [] ++ marker :: (Pair.braces.enclose ['x'] ++ [',']), scope.insert ['x'] (.ofChar c), []⟩
        ⟨[c], [','], scope.insert ['x'] (.ofChar c), []⟩ :=
      Scan.step_name (by simp) hx (by decide) hc (by decide)
    have hcomma : marker ∉ [','] := by decide
    exact hstep.ends_iff.2 (Scan.Ends.done hcomma)
  have hrs : List.Forall₂
      (fun e r => Renders (scope.insert ['x'] e) "$\x7bx\x7d,".toList r)
      [.ofChar 'a', .ofChar 'b'] [_, _] :=
    .cons (helement 'a') (.cons (helement 'b') .nil)
  have hr : Renders scope ['.'] ⟨['.'], [], scope, []⟩ := renders_iff_run.2 ⟨1, rfl⟩
  have hfront : marker ∉ ['-'] := by decide
  exact (renders_foreach hx hxs (by decide) hv rfl (by decide) hfront (by decide) hrs hr).2.2
    (by decide)

/-- A value inserted by the block of a loop is scanned: its marker is not there in the end. -/
theorem foreach_scans_inserted_value :
    let value := "$\x7by\x7d".toList
    let scope := (Scope.empty.insert ['x', 's'] (.list [.string value])).insert ['y'] (.string ['z'])
    let inner := scope.insert ['x'] (.string value)
    Renders inner "$\x7bx\x7d".toList ⟨value, [], inner, []⟩ ∧
      Renders scope [] ⟨[], [], scope, []⟩ ∧
      Renders scope "$foreach(x in xs)\x7b$\x7bx\x7d\x7d".toList ⟨['z'], [], scope, []⟩ ∧
      ['z'] ≠ value := by
  intro value scope inner
  have hx : Token.IsName ['x'] := ⟨by decide, by simp⟩
  have hy : Token.IsName ['y'] := ⟨by decide, by simp⟩
  have hxs : Token.IsName ['x', 's'] := ⟨by decide, List.forall_mem_singleton.2 (by decide)⟩
  have hvx : inner.find? ['x'] = some (.string value) := by
    rw [Scope.find?_insert, if_pos rfl]
  have hvy : scope.find? ['y'] = some (.string ['z']) := by
    rw [Scope.find?_insert, if_pos rfl]
  have hvxs : scope.find? ['x', 's'] = some (.list [.string value]) := by
    rw [Scope.find?_insert, if_neg (by decide), Scope.find?_insert, if_pos rfl]
  have helement : Renders inner (marker :: Pair.braces.enclose ['x']) ⟨value, [], inner, []⟩ := by
    have hstep : Scan.Step ⟨[], [] ++ marker :: (Pair.braces.enclose ['x'] ++ []), inner, []⟩
        ⟨value, [], inner, []⟩ :=
      Scan.step_name (by simp) hx (by decide) hvx (by decide)
    exact hstep.ends_iff.2 (Scan.Ends.done (by simp))
  have hrest : Renders scope [] ⟨[], [], scope, []⟩ := renders_iff_run.2 ⟨1, rfl⟩
  have hrs : List.Forall₂
      (fun e r => Renders (scope.insert ['x'] e) (marker :: Pair.braces.enclose ['x']) r)
      [.string value] [⟨value, [], inner, []⟩] :=
    .cons helement .nil
  have hloop : Scan.Step
      ⟨[], [] ++ marker :: ((Statement.foreach ['x'] ['x', 's']
        (marker :: Pair.braces.enclose ['x'])).written [] ++ []), scope, []⟩
      ⟨[], value, scope, []⟩ :=
    Scan.step_foreach (by simp) hx hxs (by decide) hvxs rfl (by decide) (by decide) hrs
  have hvalue : Scan.Step ⟨[], [] ++ marker :: (Pair.braces.enclose ['y'] ++ []), scope, []⟩
      ⟨['z'], [], scope, []⟩ :=
    Scan.step_name (by simp) hy (by decide) hvy (by decide)
  refine ⟨helement, hrest, ?_, by decide⟩
  exact hloop.ends_iff.2 (hvalue.ends_iff.2 (Scan.Ends.done (by simp)))

end Stencil
