import Stencil.Proofs.Render.Execution
import Stencil.Proofs.Render.Loop

namespace Stencil

/-- The blocks of a statement that is read, and what follows it, stand in the text in order. -/
theorem Statement.sublist_of_read {t rest : Text} {st : Statement} (h : read t = .ok (st, rest)) :
    (st.block ++ st.elseBlock.getD [] ++ rest).Sublist t := by
  obtain ⟨gap, -, rfl⟩ := delimited_of_read h
  have henclose : ∀ t : Text, List.Sublist t (Pair.braces.enclose t) := by
    intro t
    exact (List.sublist_append_left t _).cons _
  have hbranch : (st.elseBlock.getD []).Sublist (branchText st.elseBlock) := by
    cases st.elseBlock with
    | none => exact List.nil_sublist _
    | some block => exact (henclose block).trans (List.sublist_append_right _ _)
  have hblock : st.block.Sublist
      (st.keyword ++ parametersText gap st.parameters ++ Pair.braces.enclose st.block) :=
    (henclose st.block).trans (List.sublist_append_right _ _)
  exact (hblock.append hbranch).append (List.Sublist.refl rest)

namespace Scan

/-- The number of markers from the cursor on. -/
def pending (s : Scan) : Nat := s.rest.count marker

/-- No round that a render visits leaves a marker to be scanned that was not in the document: the
values that it evaluates and the text that it renders contain none. -/
def Tame (s : Scan) : Prop :=
  ∀ t, s.Visits t → ∀ st e, t.Executes st e → st.Imports → marker ∉ e.outcome.text

variable {s t : Scan}

theorem pending_eq {before behind : Text} (h : Text.cutAt? marker s.rest = some (before, behind)) :
    s.pending = behind.count marker + 1 := by
  obtain ⟨hrest, hbefore⟩ := Text.append_of_cutAt? h
  rw [pending, hrest, List.count_append, List.count_eq_zero.2 hbefore, List.count_cons_self]
  omega

theorem Finds.pending {before rest : Text} {st : Statement} (h : s.Finds before st rest) :
    (st.block ++ st.elseBlock.getD []).count marker + rest.count marker < s.pending := by
  obtain ⟨behind, ⟨hc, -⟩, hr⟩ := h
  have hcount := (Statement.sublist_of_read hr).count_le marker
  rw [List.count_append] at hcount
  rw [pending_eq hc]
  omega

/-- The block of a statement has fewer markers than the text around it. -/
theorem Finds.block {before rest : Text} {st : Statement} (h : s.Finds before st rest) :
    st.block.count marker < s.pending := by
  have hpending := h.pending
  rw [List.count_append] at hpending
  omega

theorem Enters.pending (h : Enters s t) : t.pending < s.pending := by
  obtain ⟨before, st, rest, inner, hf, -, rfl⟩ := h
  exact hf.block

theorem count_inside_lt {behind inside : Text}
    (h : Text.strip? Escape.opening (marker :: behind) = some inside) :
    inside.count marker < behind.count marker + 1 := by
  have hcount := congrArg (List.count marker) (Text.strip?_eq_some_iff.1 h)
  rw [List.count_cons_self, List.count_append] at hcount
  have hopening : Escape.opening.count marker = 2 := by decide
  omega

/-- A round uses up a marker, unless it imports one. -/
theorem Step.pending (h : Step s t) : t.pending < s.pending ∨
    ∃ st e, s.Executes st e ∧ st.Imports ∧ marker ∈ e.outcome.text := by
  cases h.round with
  | @unwrap before interior rest hu =>
    obtain ⟨behind, inside, hc, ho, hi⟩ := hu
    have hcount := congrArg (List.count marker) (Text.append_of_cutText? hi)
    rw [List.count_append, List.count_append] at hcount
    have hlt := count_inside_lt ho
    left
    rw [pending_eq hc]
    change rest.count marker < _
    omega
  | gape hg =>
    obtain ⟨behind, hc, ho, -⟩ := hg
    left
    rw [pending_eq hc]
    exact count_inside_lt ho
  | @malformed before behind e hm he =>
    left
    rw [pending_eq hm.1]
    exact Nat.lt_succ_self _
  | @execute before rest st n e hf he =>
    have hpending := hf.pending
    have hcount : Scan.pending ⟨s.done ++ before ++ e.outcome.passed, e.outcome.scanned ++ rest,
        e.scope, s.reports ++ e.reports⟩ =
          e.outcome.scanned.count marker + rest.count marker :=
      List.count_append
    rcases (Statement.runs_of_run he).scanned with himports | hwritten
    · by_cases hm : marker ∈ e.outcome.text
      · exact .inr ⟨st, e, ⟨before, rest, n, hf, he⟩, himports, hm⟩
      · have hnone : marker ∉ e.outcome.scanned := mt Outcome.mem_text_of_mem_scanned hm
        left
        rw [hcount, List.count_eq_zero.2 hnone]
        omega
    · have hle := hwritten.count_le marker
      left
      rw [hcount]
      omega

theorem Tame.of_visits (h : s.Tame) (ht : s.Visits t) : t.Tame :=
  fun u hu => h u (ht.trans hu)

end Scan

namespace Statement

variable {st : Statement} {scope : Scope}

/-- The elements of a loop are rendered one after another if each is behind those before it. -/
theorem exists_renders_elements {name block : Text} {es : List Value}
    (h : ∀ before v after, es = before ++ v :: after →
      (∀ u ∈ before, ∃ r, Renders (scope.insert name u) block r) →
        ∃ r, Renders (scope.insert name v) block r) :
    ∃ rs, List.Forall₂ (fun v r => Renders (scope.insert name v) block r) es rs := by
  induction es with
  | nil => exact ⟨[], .nil⟩
  | cons v es ih =>
    obtain ⟨r, hr⟩ := h [] v es rfl (by simp)
    obtain ⟨rs, hrs⟩ := ih fun before w after hes hbefore =>
      h (v :: before) w after (by rw [hes]; rfl) (List.forall_mem_cons.2 ⟨⟨r, hr⟩, hbefore⟩)
    exact ⟨r :: rs, .cons hr hrs⟩

/-- A statement runs to an end if its block is rendered wherever it is opened. -/
theorem exists_run (h : ∀ inner, st.Opens scope inner → ∃ r, Renders inner st.block r)
    (start : Nat) : ∃ n e, st.run (Scan.render n) start scope = some e := by
  unfold run
  cases hk : Keyword.ofText? st.keyword with
  | none => exact ⟨0, _, rfl⟩
  | some keyword =>
    cases keyword with
    | foreach =>
      cases hcut : Text.cutText? inText (st.parameters.getD []) with
      | none =>
        refine ⟨0, ?_⟩
        simp only [runForeach, hcut]
        exact ⟨_, rfl⟩
      | some parts =>
        obtain ⟨name, source⟩ := parts
        cases hes : (evaluated source scope).1.elements? with
        | none =>
          refine ⟨0, ?_⟩
          simp only [runForeach, hcut, hes]
          exact ⟨_, rfl⟩
        | some es =>
          obtain ⟨rs, hrs⟩ := exists_renders_elements fun before v after heq hbefore =>
            h _ ⟨hk, name, source, before, v, after, hcut, heq ▸ hes, hbefore, rfl⟩
          obtain ⟨n, hn⟩ := loop_of_renders hrs
          refine ⟨n, ?_⟩
          simp only [runForeach_of_elements hcut rfl hes, hn]
          exact ⟨_, rfl⟩
    | _ => exact ⟨0, _, rfl⟩

end Statement

namespace Scan

variable {s t : Scan}

theorem exists_step (hm : marker ∈ s.rest) (h : ∀ t, Enters s t → ∃ u, t.Ends u) :
    ∃ t, Step s t := by
  cases hc : Text.cutAt? marker s.rest with
  | none => exact absurd hm (Text.cutAt?_eq_none_iff.1 hc)
  | some parts =>
    obtain ⟨before, behind⟩ := parts
    cases ho : Text.strip? Escape.opening (marker :: behind) with
    | some inside =>
      cases hi : Escape.interior? inside with
      | some p => exact ⟨_, (Round.unwrap ⟨behind, inside, hc, ho, hi⟩).step⟩
      | none => exact ⟨_, (Round.gape ⟨behind, hc, ho, hi⟩).step⟩
    | none =>
      cases hr : Statement.read behind with
      | error e => exact ⟨_, (Round.malformed ⟨hc, ho⟩ hr).step⟩
      | ok p =>
        obtain ⟨st, rest⟩ := p
        have hf : s.Finds before st rest := ⟨behind, ⟨hc, ho⟩, hr⟩
        obtain ⟨n, e, he⟩ := Statement.exists_run
          (fun inner hi => h _ ⟨before, st, rest, inner, hf, hi, rfl⟩)
          (Text.size (s.done ++ before) + 1)
        exact ⟨_, (Round.execute hf he).step⟩

/-- The measure is the number of markers from the cursor on, also on the way into a block. -/
theorem Tame.exists_ends (h : s.Tame) : ∃ u, s.Ends u := by
  induction hn : s.pending using Nat.strongRecOn generalizing s with
  | ind n ih =>
    by_cases hm : marker ∈ s.rest
    · have henters : ∀ t, Enters s t → ∃ u, t.Ends u := by
        intro t ht
        exact ih _ (hn ▸ ht.pending) (h.of_visits (.single (.inr ht))) rfl
      obtain ⟨t, ht⟩ := exists_step hm henters
      have hlt : t.pending < s.pending := by
        rcases ht.pending with hlt | ⟨st, e, he, hi, hmarker⟩
        · exact hlt
        · exact absurd hmarker (h s .refl st e he hi)
      obtain ⟨u, hu⟩ := ih _ (hn ▸ hlt) (h.of_visits (.single (.inl ht))) rfl
      exact ⟨u, hu.step ht⟩
    · exact ⟨_, .done hm⟩

theorem tame_of_not_mem (hm : marker ∉ s.rest) : s.Tame := by
  intro t ht st e he
  rcases Relation.ReflTransGen.cases_head ht with rfl | ⟨u, hu | hu, -⟩
  · exact absurd he.mem hm
  · exact absurd hu.mem hm
  · exact absurd hu.mem hm

theorem tame_of_step (h : Step s t)
    (hs : ∀ st e, s.Executes st e → st.Imports → marker ∉ e.outcome.text)
    (hinner : ∀ u, Enters s u → u.Tame) (ht : t.Tame) : s.Tame := by
  intro u hu
  rcases Relation.ReflTransGen.cases_head hu with rfl | ⟨v, hv | hv, hu⟩
  · exact hs
  · rw [← h.unique hv] at hu
    exact ht u hu
  · exact hinner v hv u hu

theorem Executes.unique {st st' : Statement} {e e' : Execution} (h : s.Executes st e)
    (h' : s.Executes st' e') : st = st' ∧ e = e' := by
  obtain ⟨before, rest, n, hf, he⟩ := h
  obtain ⟨before', rest', m, hf', he'⟩ := h'
  obtain ⟨rfl, rfl, rfl⟩ := hf.unique hf'
  have hn := Statement.run_extends (render_of_le (Nat.le_max_left n m)) he
  have hm := Statement.run_extends (render_of_le (Nat.le_max_right n m)) he'
  rw [hn, Option.some.injEq] at hm
  exact ⟨rfl, hm⟩

end Scan

/-- A render goes on forever only through imported text. -/
theorem ends_of_tame :
    (∀ s t : Scan, s.Step t → t.pending < s.pending ∨
      ∃ st e, s.Executes st e ∧ st.Imports ∧ marker ∈ e.outcome.text) ∧
    (∀ (s : Scan) before st rest, s.Finds before st rest → st.block.count marker < s.pending) ∧
    ∀ scope document, (Scan.start scope document).Tame →
      (∃ r, Renders scope document r) ∧
        ∀ t, (Scan.start scope document).Visits t → ∃ u, t.Ends u := by
  refine ⟨fun s t h => h.pending, fun s before st rest h => h.block, ?_⟩
  intro scope document h
  exact ⟨h.exists_ends, fun t ht => (h.of_visits ht).exists_ends⟩

/-- A loop over a string, with a block that is rendered for its character. -/
theorem ends_of_tame_foreach :
    let scope := Scope.empty.insert ['x', 's'] (.string ['a'])
    let document := "$foreach(x in xs)\x7b$\x7bx\x7d\x7d".toList
    (Scan.start scope document).Tame ∧ ∃ r, Renders scope document r := by
  intro scope document
  have hx : Token.IsName ['x'] := by decide
  have hxs : Token.IsName ['x', 's'] := by decide
  have hv : scope.find? ['x', 's'] = some (.string ['a']) := by
    rw [Scope.find?_insert, if_pos rfl]
  let inner := scope.insert ['x'] (.ofChar 'a')
  have hvx : inner.find? ['x'] = some (.ofChar 'a') := by
    rw [Scope.find?_insert, if_pos rfl]
  let block : Text := marker :: Pair.braces.enclose ['x']
  let st := Statement.foreach ['x'] ['x', 's'] block
  have hblock : Scan.Step (Scan.start inner block) ⟨['a'], [], inner, []⟩ := by
    have hstep : Scan.Step ⟨[], [] ++ marker :: (Pair.braces.enclose ['x'] ++ []), inner, []⟩
        ⟨['a'], [], inner, []⟩ :=
      Scan.step_name (by simp) hx (by decide) hvx (by decide)
    exact hstep
  have hrs : List.Forall₂ (fun e r => Renders (scope.insert ['x'] e) block r)
      [.ofChar 'a'] [⟨['a'], [], inner, []⟩] :=
    .cons (hblock.ends_iff.2 (Scan.Ends.done (by simp))) .nil
  have hfinds : (Scan.start scope document).Finds [] st [] := ⟨_, ⟨rfl, rfl⟩, rfl⟩
  have htame : (Scan.start scope document).Tame := by
    obtain ⟨n, hn⟩ := Statement.run_foreach hx hxs (by decide) hv rfl hrs
    have hexecutes : (Scan.start scope document).Executes st _ := ⟨[], [], n, hfinds, hn _⟩
    refine Scan.tame_of_step (Scan.Round.execute hfinds (hn _)).step ?_ ?_
      (Scan.tame_of_not_mem (by decide))
    · intro st' e he _
      obtain ⟨-, rfl⟩ := hexecutes.unique he
      decide
    · intro u hu
      obtain ⟨_, _, _, _, hf, hopens, rfl⟩ := hu
      obtain ⟨-, name, source, before, v, after, hcut, hes, -, rfl⟩ := hopens
      obtain ⟨-, rfl, -⟩ := hfinds.unique hf
      cases hcut
      have hone : (Statement.evaluated ['x', 's'] scope).1.elements? =
          some (before ++ v :: after) := hes
      rw [Statement.evaluated_name hxs (by decide) hv] at hone
      have hsingle : [Value.ofChar 'a'] = before ++ v :: after := Option.some.inj hone
      cases before with
      | nil =>
        cases hsingle
        refine Scan.tame_of_step hblock ?_ ?_ (Scan.tame_of_not_mem (by simp))
        · intro st' e he hi
          obtain ⟨_, _, _, ⟨_, ⟨hc, -⟩, hr⟩, -⟩ := he
          cases hc
          cases hr
          exact absurd hi (by decide)
        · intro u hu
          obtain ⟨_, _, _, _, ⟨_, ⟨hc, -⟩, hr⟩, ⟨hk, -⟩, -⟩ := hu
          cases hc
          cases hr
          cases hk
      | cons w before => simp at hsingle
  exact ⟨htame, (ends_of_tame.2.2 scope document htame).1⟩

end Stencil
