import Stencil.Proofs.Statement.Written

namespace Stencil

/-- No region of the pair ends in a text that stands behind its opening character. -/
def Pair.Unclosed (p : Pair) (t : Text) : Prop :=
  ∀ interior rest, t = interior ++ p.closer :: rest → ¬ p.Balanced interior

theorem Pair.interior?_eq_none_iff {p : Pair} (hp : p.opener ≠ p.closer) {t : Text} :
    p.interior? (p.opener :: t) = none ↔ p.Unclosed t := by
  constructor
  · intro h interior rest ht hb
    have hi : p.interior? (p.opener :: t) = some (interior, rest) := by
      rw [interior?_eq_some_iff hp, ht]
      exact ⟨rfl, hb⟩
    rw [h] at hi
    cases hi
  · intro h
    cases hi : p.interior? (p.opener :: t) with
    | none => rfl
    | some parts =>
      obtain ⟨ht, hb⟩ := (interior?_eq_some_iff hp).1 hi
      exact absurd hb (h _ _ (List.cons.inj ht).2)

namespace Statement

/-- Another branch, with any blanks in front of it and in front of its brace. -/
def OffersBranch (t : Text) : Prop :=
  ∃ before between rest, (∀ c ∈ before, Text.isBlank c) ∧ (∀ c ∈ between, Text.isBlank c) ∧
    t = before ++ elseText ++ between ++ Pair.braces.opener :: rest

theorem isDetachedElse_iff {t : Text} : isDetachedElse t = true ↔ OffersBranch t := by
  have hword : elseText = 'e' :: ['l', 's', 'e'] := rfl
  have hletter : Text.isBlank 'e' = false := by decide
  have hbrace : Text.isBlank Pair.braces.opener = false := by decide
  constructor
  · intro h
    unfold isDetachedElse at h
    split at h
    · next rest hs =>
      have hfront := Text.strip?_eq_some_iff.1 hs
      rw [hword, List.cons_append, Text.trimStart_eq_cons_iff] at hfront
      obtain ⟨before, hbefore, -, ht⟩ := hfront
      cases hr : Text.trimStart rest with
      | nil => simp [hr] at h
      | cons c behind =>
        obtain rfl : c = Pair.braces.opener := by simpa [hr] using h
        obtain ⟨between, hbetween, -, hrest⟩ := Text.trimStart_eq_cons_iff.1 hr
        exact ⟨before, between, behind, hbefore, hbetween, by simp [ht, hrest, hword]⟩
    · cases h
  · intro h
    obtain ⟨before, between, rest, hbefore, hbetween, rfl⟩ := h
    have hfront : Text.trimStart (before ++ elseText ++ between ++ Pair.braces.opener :: rest) =
        elseText ++ (between ++ Pair.braces.opener :: rest) := by
      rw [hword, List.cons_append, Text.trimStart_eq_cons_iff]
      exact ⟨before, hbefore, hletter, by simp⟩
    have hgap : Text.trimStart (between ++ Pair.braces.opener :: rest) =
        Pair.braces.opener :: rest :=
      Text.trimStart_eq_cons_iff.2 ⟨between, hbetween, hbrace, rfl⟩
    unfold isDetachedElse
    rw [hfront, Text.strip?_append]
    simp only [hgap]
    rfl

/-- What stands in front of the brace of a block: a keyword and, if there are any, parameters with
a gap behind them. -/
structure Front (keyword : Text) (parameters : Option Text) (gap : Text) : Prop where
  keyword_brace : Pair.braces.opener ∉ keyword
  keyword_paren : Pair.parens.opener ∉ keyword
  balanced : ∀ p ∈ parameters, Pair.parens.Balanced p
  gap_brace : Pair.braces.opener ∉ gap
  gap_eq_nil : parameters = none → gap = []

/-- A text begins with the parts of a statement. Nothing behind them belongs to it: another branch
that is joined to the block is part of it, and behind a condition none is set apart. -/
structure Begins (s : Statement) (gap rest t : Text) : Prop where
  text : t = s.keyword ++ parametersText gap s.parameters ++ Pair.braces.enclose s.block ++
    branchText s.elseBlock ++ rest
  front : Front s.keyword s.parameters gap
  block : Pair.braces.Balanced s.block
  branch : ∀ e ∈ s.elseBlock, Pair.braces.Balanced e
  joined : s.elseBlock = none → ¬ joinedElse <+: rest
  apart : s.elseBlock = none → s.keyword = "if".toList → ¬ OffersBranch rest

/-- The first check that a text does not pass, and what is wrong there. -/
inductive Fails : Text → SyntaxError → Prop
  | noBrace {t : Text} (h : Pair.braces.opener ∉ t) : Fails t .missingOpeningBrace
  | parameters {keyword u : Text} (hbrace : Pair.braces.opener ∉ keyword)
      (hparen : Pair.parens.opener ∉ keyword) (hu : Pair.braces.opener ∈ u)
      (h : Pair.parens.Unclosed u) : Fails (keyword ++ Pair.parens.opener :: u) .missingClosingParen
  | noBraceBehind {keyword parameters u : Text} (hbrace : Pair.braces.opener ∉ keyword)
      (hparen : Pair.parens.opener ∉ keyword) (hp : Pair.parens.Balanced parameters)
      (hin : Pair.braces.opener ∈ parameters) (h : Pair.braces.opener ∉ u) :
      Fails (keyword ++ Pair.parens.enclose parameters ++ u) .missingOpeningBrace
  | block {keyword gap u : Text} {parameters : Option Text} (hf : Front keyword parameters gap)
      (h : Pair.braces.Unclosed u) :
      Fails (keyword ++ parametersText gap parameters ++ Pair.braces.opener :: u)
        .missingClosingBrace
  | branch {keyword gap block u : Text} {parameters : Option Text}
      (hf : Front keyword parameters gap) (hb : Pair.braces.Balanced block)
      (h : Pair.braces.Unclosed u) :
      Fails (keyword ++ parametersText gap parameters ++ Pair.braces.enclose block ++ joinedElse ++ u)
        .missingClosingBrace
  | apart {gap block rest : Text} {parameters : Option Text}
      (hf : Front "if".toList parameters gap) (hb : Pair.braces.Balanced block)
      (hj : ¬ joinedElse <+: rest) (h : OffersBranch rest) :
      Fails ("if".toList ++ parametersText gap parameters ++ Pair.braces.enclose block ++ rest)
        (.invalidConnective (parameters.getD []))

variable {keyword gap rest t u : Text} {parameters : Option Text} {e : SyntaxError} {s : Statement}

/-- The parts that a text begins with are those that it is written with. -/
theorem begins_iff : s.Begins gap rest t ↔
    s.Delimited gap rest ∧ (s.parameters = none → gap = []) ∧ t = s.written gap ++ rest := by
  constructor
  · intro h
    obtain ⟨ht, hf, hblock, hbranch, hjoined, hapart⟩ := h
    refine ⟨⟨hf.keyword_brace, hf.keyword_paren, hf.balanced, hf.gap_brace, hblock, hbranch, ?_⟩,
      hf.gap_eq_nil, ht⟩
    intro he
    refine ⟨Text.startsWith_eq_false_iff.2 (hjoined he), fun hk => ?_⟩
    rw [← Bool.not_eq_true, isDetachedElse_iff]
    exact hapart he hk
  · intro h
    obtain ⟨hd, hgap, ht⟩ := h
    refine ⟨ht, ⟨hd.keyword_brace, hd.keyword_paren, hd.parameters, hd.gap, hgap⟩, hd.block,
      hd.branch, fun he => Text.startsWith_eq_false_iff.1 (hd.rest he).1, fun he hk => ?_⟩
    rw [← isDetachedElse_iff, Bool.not_eq_true]
    exact (hd.rest he).2 hk

theorem read_eq_ok_iff_begins : read t = .ok (s, rest) ↔ ∃ gap, s.Begins gap rest t := by
  rw [read_eq_ok_iff]
  constructor
  · intro h
    obtain ⟨gap, hd, ht⟩ := h
    cases hp : s.parameters with
    | none =>
      -- Without parameters the gap is not written.
      have hw : s.written gap = s.written [] := by simp [written, hp, parametersText]
      refine ⟨[], begins_iff.2 ⟨{ hd with gap := by simp }, fun _ => rfl, ?_⟩⟩
      rw [ht, hw]
    | some p => exact ⟨gap, begins_iff.2 ⟨hd, by simp [hp], ht⟩⟩
  · intro h
    obtain ⟨gap, h⟩ := h
    obtain ⟨hd, -, ht⟩ := begins_iff.1 h
    exact ⟨gap, hd, ht⟩

/-- The parts that a text begins with are the only ones. -/
theorem Begins.unique {s' : Statement} {gap' rest' : Text} (h : s.Begins gap rest t)
    (h' : s'.Begins gap' rest' t) : s = s' ∧ gap = gap' ∧ rest = rest' := by
  have hread := read_eq_ok_iff_begins.2 ⟨gap, h⟩
  rw [read_eq_ok_iff_begins.2 ⟨gap', h'⟩] at hread
  obtain ⟨rfl, rfl⟩ : s' = s ∧ rest' = rest := by simpa using hread
  refine ⟨rfl, ?_, rfl⟩
  cases hp : s'.parameters with
  | none => rw [h.front.gap_eq_nil hp, h'.front.gap_eq_nil hp]
  | some p =>
    have ht := h.text.symm.trans h'.text
    simpa [hp, parametersText] using ht

theorem Front.read (hf : Front keyword parameters gap) (u : Text) :
    read (keyword ++ parametersText gap parameters ++ Pair.braces.opener :: u) =
      readBlocks keyword parameters (Pair.braces.opener :: u) := by
  cases parameters with
  | none => simpa [parametersText] using read_append_brace hf.keyword_brace hf.keyword_paren u
  | some p =>
    simpa [parametersText] using
      read_append_parens hf.keyword_brace hf.keyword_paren (hf.balanced p rfl) hf.gap_brace u

/-- A text is read from the brace of a block on, or it fails in front of one. -/
theorem read_cases (t : Text) :
    (∃ e, read t = .error e ∧ Fails t e) ∨
      ∃ keyword parameters gap u, Front keyword parameters gap ∧
        t = keyword ++ parametersText gap parameters ++ Pair.braces.opener :: u := by
  unfold read
  split
  · next hc => exact .inl ⟨_, rfl, .noBrace (Text.cutAt?_eq_none_iff.1 hc)⟩
  · next front behind hc =>
    obtain ⟨ht, hfront⟩ := Text.append_of_cutAt? hc
    split
    · next hk =>
      have hparen := Text.cutAt?_eq_none_iff.1 hk
      refine .inr ⟨front, none, [], behind, ⟨hfront, hparen, by simp, by simp, fun _ => rfl⟩, ?_⟩
      simpa [parametersText] using ht
    · next keyword x hk =>
      obtain ⟨hx, hparen⟩ := Text.append_of_cutAt? hk
      have hbrace : Pair.braces.opener ∉ keyword := by
        intro hm
        exact hfront (by simp [hx, hm])
      let inner := x ++ Pair.braces.opener :: behind
      have ht' : t = keyword ++ Pair.parens.opener :: inner := by simp [ht, hx, inner]
      have hdrop : t.drop keyword.length = Pair.parens.opener :: inner := by simp [ht']
      rw [hdrop]
      split
      · next hi =>
        have hu := (Pair.interior?_eq_none_iff Pair.parens_ne).1 hi
        refine .inl ⟨_, rfl, ?_⟩
        rw [ht']
        exact .parameters hbrace hparen (by simp [inner]) hu
      · next p rest hi =>
        obtain ⟨hp, hb⟩ := eq_enclose_of_interior? Pair.parens_ne hi
        rw [hp, ← List.append_assoc] at ht'
        split
        · next hg =>
          have hrest := Text.cutAt?_eq_none_iff.1 hg
          refine .inl ⟨_, rfl, ?_⟩
          -- The first brace is one of the parameters.
          have hin : Pair.braces.opener ∈ p := by
            have hm : Pair.braces.opener ∈ Pair.parens.enclose p ++ rest := by
              rw [← hp]
              simp [inner]
            have hne : Pair.braces.opener ≠ Pair.parens.opener := by decide
            have hne' : Pair.braces.opener ≠ Pair.parens.closer := by decide
            simpa [Pair.enclose, hne, hne', hrest] using hm
          rw [ht']
          exact .noBraceBehind hbrace hparen hb hin hrest
        · next gap u hg =>
          obtain ⟨hrest, hgap⟩ := Text.append_of_cutAt? hg
          have hbalanced : ∀ q ∈ some p, Pair.parens.Balanced q := by simpa using hb
          refine .inr ⟨keyword, some p, gap, u, ⟨hbrace, hparen, hbalanced, hgap, by simp⟩, ?_⟩
          simp [ht', hrest, parametersText]

theorem readElse_joined_eq_error_iff :
    readElse keyword parameters (joinedElse ++ u) = .error e ↔
      Pair.braces.Unclosed u ∧ e = .missingClosingBrace := by
  have hs := Text.strip?_append elseText (Pair.braces.opener :: u)
  rw [joinedElse, List.append_assoc, List.singleton_append,
    ← Pair.interior?_eq_none_iff Pair.braces_ne]
  simp only [readElse, hs, if_true]
  cases Pair.braces.interior? (Pair.braces.opener :: u) with
  | none => simp [eq_comm]
  | some p => simp

theorem readElse_eq_error_iff : readElse keyword parameters t = .error e ↔
    (∃ u, t = joinedElse ++ u ∧ Pair.braces.Unclosed u ∧ e = .missingClosingBrace) ∨
      (¬ joinedElse <+: t ∧ keyword = "if".toList ∧ OffersBranch t ∧
        e = .invalidConnective (parameters.getD [])) := by
  by_cases hj : joinedElse <+: t
  · obtain ⟨u, rfl⟩ := hj
    rw [readElse_joined_eq_error_iff]
    simp
  · have hno : ¬ Text.startsWith t joinedElse = true := by
      rw [Bool.not_eq_true]
      exact Text.startsWith_eq_false_iff.2 hj
    have hnone :
        ¬ ∃ u, t = joinedElse ++ u ∧ Pair.braces.Unclosed u ∧ e = .missingClosingBrace := by
      intro h
      obtain ⟨u, rfl, -⟩ := h
      exact hj (List.prefix_append _ _)
    rw [readElse_of_not_joined hno, readElse.refuseDetached, ← isDetachedElse_iff]
    split
    · next hd => simp [hnone, hj, hd.1, hd.2, eq_comm]
    · next hd =>
      simp only [hnone, hj, not_false_eq_true, true_and, false_or, reduceCtorEq, false_iff]
      intro h
      exact hd ⟨h.1, h.2.1⟩

theorem readBlocks_of_unclosed (h : Pair.braces.Unclosed u) :
    readBlocks keyword parameters (Pair.braces.opener :: u) = .error .missingClosingBrace := by
  rw [readBlocks, (Pair.interior?_eq_none_iff Pair.braces_ne).2 h]

theorem readBlocks_enclose_eq_error_iff {block : Text} (hb : Pair.braces.Balanced block) :
    readBlocks keyword parameters (Pair.braces.enclose block ++ rest) = .error e ↔
      readElse keyword parameters rest = .error e := by
  rw [readBlocks, interior?_enclose Pair.braces_ne hb]
  dsimp only
  cases readElse keyword parameters rest with
  | error e' => simp
  | ok p => simp

theorem fails_of_read (h : read t = .error e) : Fails t e := by
  rcases read_cases t with ⟨e', he, hf⟩ | ⟨keyword, parameters, gap, u, hf, rfl⟩
  · rw [h] at he
    rwa [Except.error.inj he]
  · rw [hf.read] at h
    cases hi : Pair.braces.interior? (Pair.braces.opener :: u) with
    | none =>
      have hu := (Pair.interior?_eq_none_iff Pair.braces_ne).1 hi
      rw [readBlocks_of_unclosed hu] at h
      rw [← Except.error.inj h]
      exact .block hf hu
    | some p =>
      obtain ⟨block, rest⟩ := p
      obtain ⟨hu, hb⟩ := eq_enclose_of_interior? Pair.braces_ne hi
      rw [hu, readBlocks_enclose_eq_error_iff hb, readElse_eq_error_iff] at h
      rw [hu, ← List.append_assoc]
      rcases h with ⟨v, rfl, hv, rfl⟩ | ⟨hj, rfl, ho, rfl⟩
      · rw [← List.append_assoc]
        exact .branch hf hb hv
      · exact .apart hf hb hj ho

theorem Front.read_enclose (hf : Front keyword parameters gap) (block rest : Text) :
    Statement.read (keyword ++ parametersText gap parameters ++ Pair.braces.enclose block ++ rest) =
      readBlocks keyword parameters (Pair.braces.enclose block ++ rest) := by
  rw [List.append_assoc, Pair.enclose_append]
  exact hf.read _

theorem Fails.read (h : Fails t e) : Statement.read t = .error e := by
  cases h with
  | noBrace h => rw [Statement.read, Text.cutAt?_eq_none_iff.2 h]
  | parameters hbrace hparen hu h =>
    rw [read_append_paren hbrace hparen hu, (Pair.interior?_eq_none_iff Pair.parens_ne).2 h]
  | @noBraceBehind keyword parameters u hbrace hparen hp hin h =>
    have hinterior := interior?_enclose Pair.parens_ne hp u
    rw [Pair.enclose_append] at hinterior
    rw [List.append_assoc, Pair.enclose_append, List.cons_append,
      read_append_paren hbrace hparen (by simp [hin]), ← List.cons_append, hinterior]
    simp only [Text.cutAt?_eq_none_iff.2 h]
  | block hf h => rw [hf.read, readBlocks_of_unclosed h]
  | branch hf hb h =>
    rw [List.append_assoc, hf.read_enclose, readBlocks_enclose_eq_error_iff hb,
      readElse_joined_eq_error_iff]
    exact ⟨h, rfl⟩
  | apart hf hb hj h =>
    rw [hf.read_enclose, readBlocks_enclose_eq_error_iff hb, readElse_eq_error_iff]
    exact .inr ⟨hj, rfl, h, rfl⟩

theorem read_eq_error_iff : Statement.read t = .error e ↔ Fails t e :=
  ⟨fails_of_read, Fails.read⟩

theorem locate_append (front t : Text) :
    locate (front ++ t) front.size = (Statement.read t).map fun p =>
      ⟨p.1, front.size - 1, front.size, Text.size (front ++ t) - p.2.size⟩ := by
  rw [locate, Text.splitAt?_append]
  dsimp only
  cases Statement.read t <;> rfl

/-- A statement is found where its parts are written; elsewhere the first failing check decides. -/
theorem locate_append_eq_iff (front t : Text) :
    (∀ l, locate (front ++ t) front.size = .ok l ↔
      ∃ s gap rest, Begins s gap rest t ∧
        l = ⟨s, front.size - 1, front.size, Text.size (front ++ s.written gap)⟩) ∧
    (∀ s gap rest, Begins s gap rest t → ∀ s' gap' rest', Begins s' gap' rest' t →
      s = s' ∧ gap = gap' ∧ rest = rest') ∧
    ∀ e, locate (front ++ t) front.size = .error e ↔ Fails t e := by
  have hstop : ∀ {s gap rest}, Begins s gap rest t →
      Text.size (front ++ t) - rest.size = Text.size (front ++ s.written gap) := by
    intro s gap rest h
    obtain ⟨-, -, rfl⟩ := begins_iff.1 h
    rw [← List.append_assoc, Text.size_append, Nat.add_sub_cancel]
  refine ⟨fun l => ?_, fun s gap rest h s' gap' rest' h' => h.unique h', fun e => ?_⟩
  · rw [locate_append]
    constructor
    · intro h
      cases hr : Statement.read t with
      | error e => simp [hr, Except.map] at h
      | ok p =>
        obtain ⟨s, rest⟩ := p
        obtain ⟨gap, hb⟩ := read_eq_ok_iff_begins.1 hr
        refine ⟨s, gap, rest, hb, ?_⟩
        rw [hr] at h
        rw [← hstop hb]
        exact (Except.ok.inj h).symm
    · intro h
      obtain ⟨s, gap, rest, hb, rfl⟩ := h
      rw [read_eq_ok_iff_begins.2 ⟨gap, hb⟩, ← hstop hb]
      rfl
  · rw [locate_append, ← read_eq_error_iff]
    cases Statement.read t <;> simp [Except.map]

/-- A condition with a joined branch, and one with a branch that is set apart. -/
theorem locate_append_eq_iff_branch :
    locate "é$if(a) \x7bb\x7delse\x7bc\x7d".toList 3 =
        .ok ⟨⟨"if".toList, some ['a'], ['b'], some ['c']⟩, 2, 3, 19⟩ ∧
      (∀ s gap rest, Begins s gap rest "if(a) \x7bb\x7delse\x7bc\x7d".toList → gap = [' ']) ∧
      locate "$if(a)\x7bb\x7d else \x7bc\x7d".toList 1 =
        .error (.invalidConnective ['a']) := by
  have hfront : ∀ gap, Pair.braces.opener ∉ gap → Front "if".toList (some ['a']) gap := by
    intro gap hgap
    exact ⟨by decide, by decide, by simp; decide, hgap, by simp⟩
  have hbegins : Begins ⟨"if".toList, some ['a'], ['b'], some ['c']⟩ [' '] []
      "if(a) \x7bb\x7delse\x7bc\x7d".toList :=
    ⟨rfl, hfront [' '] (by decide), by decide, by simp; decide, by simp, by simp⟩
  have hfails : Fails ("if".toList ++ parametersText [] (some ['a']) ++ Pair.braces.enclose ['b'] ++
      " else \x7bc\x7d".toList) (.invalidConnective ['a']) :=
    .apart (hfront [] (by simp)) (by decide) (by decide)
      ⟨[' '], [' '], "c\x7d".toList, by simp; decide, by simp; decide, rfl⟩
  obtain ⟨hok, hunique, -⟩ := locate_append_eq_iff "é$".toList "if(a) \x7bb\x7delse\x7bc\x7d".toList
  refine ⟨?_, ?_, ?_⟩
  · have hdocument : "é$".toList ++ "if(a) \x7bb\x7delse\x7bc\x7d".toList =
        "é$if(a) \x7bb\x7delse\x7bc\x7d".toList := by decide
    have hstart : Text.size "é$".toList = 3 := by decide
    rw [hdocument, hstart] at hok
    exact (hok _).2 ⟨_, _, _, hbegins, rfl⟩
  · intro s gap rest h
    exact (hunique _ _ _ h _ _ _ hbegins).2.1
  · exact ((locate_append_eq_iff ['$'] _).2.2 _).2 hfails

end Statement
end Stencil
