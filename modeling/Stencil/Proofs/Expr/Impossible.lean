import Mathlib.Data.List.TakeDrop
import Stencil.Proofs.Expr.Lookahead

namespace Stencil.Expr

/-- Some expression begins with the tokens in front of a place, and none with the token there. -/
def ImpossibleAt (ts : List Token) (i : Nat) : Prop :=
  Viable .expression (ts.take i) ∧ ¬ Viable .expression (ts.take (i + 1))

section

variable {ts us : List Token} {t : Token} {i j n : Nat} {e : Expr}

theorem Viable.take_of_le {phrase : Phrase} (h : Viable phrase (ts.take j)) (hij : i ≤ j) :
    Viable phrase (ts.take i) := by
  have htake : (ts.take j).take i = ts.take i := by rw [List.take_take, Nat.min_eq_left hij]
  rw [← List.take_append_drop i (ts.take j), htake] at h
  exact h.of_append

theorem ImpossibleAt.unique (hi : ImpossibleAt ts i) (hj : ImpossibleAt ts j) : i = j := by
  rcases Nat.lt_trichotomy i j with hlt | heq | hgt
  · exact absurd (hj.1.take_of_le hlt) hi.2
  · exact heq
  · exact absurd (hi.1.take_of_le hgt) hj.2

theorem ImpossibleAt.not_viable (h : ImpossibleAt ts i) : ¬ Viable .expression ts := by
  intro hts
  have htake : Viable .expression (ts.take ts.length) := by rwa [List.take_length]
  rcases Nat.lt_or_ge i ts.length with hlt | hge
  · exact h.2 (htake.take_of_le hlt)
  · apply h.2
    rwa [List.take_of_length_le (Nat.le_succ_of_le hge)]

/-- Nothing is derived from tokens that the parser stops in front of, whatever is behind them. -/
theorem not_viable_of_forall
    (h : ∀ more, Parser.expression n (us ++ t :: more) ≠ .error .tooDeep ∧
      ∀ e, Parser.expression n (us ++ t :: more) ≠ .ok (e, [])) :
    ¬ Viable .expression (us ++ [t]) := by
  rintro ⟨more, e, he⟩
  rw [List.append_assoc, List.singleton_append] at he
  obtain ⟨hdeep, hok⟩ := h more
  rcases he.expression_eq n with hread | hread
  · exact hok e hread
  · exact hdeep hread

theorem impossibleAt_of_append (hV : Viable .expression us) (hn : ¬ Viable .expression (us ++ [t]))
    (more : List Token) : ImpossibleAt (us ++ t :: more) us.length := by
  have htake : (us ++ t :: more).take (us.length + 1) = us ++ [t] := by
    rw [List.take_append, List.take_of_length_le (Nat.le_succ _)]
    simp
  refine ⟨?_, ?_⟩
  · rwa [List.take_left]
  · rwa [htake]

theorem stuck_append (us : List Token) (t : Token) (more : List Token) :
    stuck (t :: more) = .unexpected ((us ++ t :: more).length - us.length) := by
  rw [stuck, List.length_append, Nat.add_sub_cancel_left]
  simp

theorem ofTokens_cases (ts : List Token) :
    (∃ e, ofTokens ts = .ok e) ∨ ofTokens ts = .error .tooDeep ∨
      ofTokens ts = .error .unexpectedEnd ∧ Viable .expression ts ∨
      ∃ i < ts.length, ImpossibleAt ts i ∧ ofTokens ts = .error (.unexpected (ts.length - i)) := by
  have hsound := Parser.spans_expression maxDepth ts
  cases Parser.predictive_expression maxDepth ts with
  | read us rest e hts h =>
    subst hts
    have hread := h rest rfl
    cases rest with
    | nil =>
      refine .inl ⟨e, ?_⟩
      rw [ofTokens, hread]
      rfl
    | cons t more =>
      obtain ⟨vs, hvs, he⟩ := hsound _ hread
      obtain rfl : us = vs := List.append_cancel_right hvs
      -- Whatever is behind `t`, what is in front of it is read and nothing more.
      have hn : ¬ Viable .expression (us ++ [t]) := by
        apply not_viable_of_forall
        intro others
        rw [h (t :: others) rfl]
        simp
      refine .inr (.inr (.inr ⟨us.length, by simp, impossibleAt_of_append he.viable hn more, ?_⟩))
      rw [ofTokens, hread, ← stuck_append]
      rfl
  | stuck us rest hts hV h =>
    subst hts
    have hstuck := h rest rfl
    cases rest with
    | nil =>
      refine .inr (.inr (.inl ⟨?_, by rwa [List.append_nil]⟩))
      rw [ofTokens, hstuck]
      rfl
    | cons t more =>
      have hn : ¬ Viable .expression (us ++ [t]) := by
        apply not_viable_of_forall
        intro others
        rw [h (t :: others) rfl]
        simp [stuck]
      refine .inr (.inr (.inr ⟨us.length, by simp, impossibleAt_of_append hV hn more, ?_⟩))
      rw [ofTokens, hstuck, ← stuck_append]
      rfl
  | deep h =>
    refine .inr (.inl ?_)
    rw [ofTokens, h]
    rfl

end

section

variable {source : Text} {tokens : List (Token × Span)}

theorem locate_unexpected {spans : List Span} {i : Nat} (hi : i < spans.length) :
    ParseError.locate spans (.unexpected (spans.length - i)) = .unexpected spans[i] := by
  have hplace : spans.length - (spans.length - i) = i := by omega
  rw [ParseError.locate, hplace, List.getElem?_eq_getElem hi]

theorem parse_cases (h : Token.tokenize source = .ok tokens) (hne : tokens ≠ []) :
    (∃ e, parse source = .ok (some e) ∧ Derives .expression (tokens.map (·.1)) e) ∨
      parse source = .error .tooDeep ∨
      parse source = .error .unexpectedEnd ∧ Viable .expression (tokens.map (·.1)) ∧
        (∀ e, ¬ Derives .expression (tokens.map (·.1)) e) ∨
      ∃ i, ∃ hi : i < tokens.length, ImpossibleAt (tokens.map (·.1)) i ∧
        parse source = .error (.unexpected tokens[i].2) := by
  rw [parse_of_tokenize h, if_neg hne]
  rcases ofTokens_cases (tokens.map (·.1)) with
    ⟨e, hread⟩ | hread | ⟨hread, hV⟩ | ⟨i, hi, himp, hread⟩
  · refine .inl ⟨e, ?_, derives_of_ofTokens hread⟩
    rw [hread]
    rfl
  · refine .inr (.inl ?_)
    rw [hread]
    rfl
  · refine .inr (.inr (.inl ⟨?_, hV, ?_⟩))
    · rw [hread]
      rfl
    · intro e he
      have hof := he.ofTokens
      rw [hread] at hof
      simp at hof
  · refine .inr (.inr (.inr ⟨i, by simpa using hi, himp, ?_⟩))
    have hlength : (tokens.map (·.1)).length = (tokens.map (·.2)).length := by simp
    rw [hlength] at hi hread
    rw [hread]
    change Except.error (ParseError.locate _ _) = _
    rw [locate_unexpected hi, List.getElem_map]

/-- A source that is not too deep fails at the first token that no expression goes on with. -/
theorem parse_fails_at_first_impossible (h : Token.tokenize source = .ok tokens)
    (hne : tokens ≠ []) :
    (∀ span, parse source = .error (.unexpected span) ↔ parse source ≠ .error .tooDeep ∧
      ∃ i t, tokens[i]? = some (t, span) ∧ Viable .expression ((tokens.take i).map (·.1)) ∧
        ¬ Viable .expression ((tokens.take (i + 1)).map (·.1))) ∧
    (parse source = .error .unexpectedEnd ↔ parse source ≠ .error .tooDeep ∧
      Viable .expression (tokens.map (·.1)) ∧ ∀ e, ¬ Derives .expression (tokens.map (·.1)) e) := by
  have hcases := parse_cases h hne
  simp only [List.map_take]
  refine ⟨fun span => ⟨?_, ?_⟩, ?_, ?_⟩
  · intro hspan
    rcases hcases with ⟨e, hread, -⟩ | hread | ⟨hread, -⟩ | ⟨i, hi, himp, hread⟩
    · simp [hread] at hspan
    · simp [hread] at hspan
    · simp [hread] at hspan
    · obtain rfl : tokens[i].2 = span := by simpa [hread] using hspan
      exact ⟨by simp [hread], i, tokens[i].1, List.getElem?_eq_getElem hi, himp.1, himp.2⟩
  · rintro ⟨hdeep, i, t, hi, hV, hn⟩
    have himp : ImpossibleAt (tokens.map (·.1)) i := ⟨hV, hn⟩
    rcases hcases with ⟨e, -, he⟩ | hread | ⟨-, hall, -⟩ | ⟨j, hj, hother, hread⟩
    · exact absurd he.viable himp.not_viable
    · exact absurd hread hdeep
    · exact absurd hall himp.not_viable
    · obtain rfl := himp.unique hother
      rw [List.getElem?_eq_getElem hj] at hi
      rw [hread, Option.some.inj hi]
  · intro hend
    rcases hcases with ⟨e, hread, -⟩ | hread | ⟨hread, hV, hn⟩ | ⟨i, hi, himp, hread⟩
    · simp [hread] at hend
    · simp [hread] at hend
    · exact ⟨by simp [hread], hV, hn⟩
    · simp [hread] at hend
  · rintro ⟨hdeep, hV, hn⟩
    rcases hcases with ⟨e, -, he⟩ | hread | ⟨hread, -⟩ | ⟨i, hi, himp, -⟩
    · exact absurd he (hn e)
    · exact absurd hread hdeep
    · exact hread
    · exact absurd hV himp.not_viable

/-- A comma may stand behind the last item of a list, but no second one. -/
theorem parse_fails_at_first_impossible_comma :
    let source := "[x,,y]".toList
    (∃ tokens, Token.tokenize source = .ok tokens ∧ tokens ≠ []) ∧
      parse source = .error (.unexpected ⟨3, 4⟩) ∧
      Viable .expression [.bracketOpen, .ident ['x'], .comma] ∧
      ¬ Viable .expression [.bracketOpen, .ident ['x'], .comma, .comma] := by
  intro source
  have hsource : Token.tokenize source = .ok [(.bracketOpen, ⟨0, 1⟩), (.ident ['x'], ⟨1, 2⟩),
      (.comma, ⟨2, 3⟩), (.comma, ⟨3, 4⟩), (.ident ['y'], ⟨4, 5⟩), (.bracketClose, ⟨5, 6⟩)] := by
    simp [source, Token.tokenize, Token.scan, Token.read, Token.isSpace, Token.isNameStart,
      Token.isNamePart, Token.ofName, Token.ofChar?, Number.isDigit, Number.digit?, Text.size,
      Char.utf8Size]
  have htokens : ofTokens [.bracketOpen, .ident ['x'], .comma, .comma, .ident ['y'],
      .bracketClose] = .error (.unexpected 3) := by
    cbv
  have hparse : parse source = .error (.unexpected ⟨3, 4⟩) := by
    rw [parse_of_tokenize hsource, if_neg (by simp)]
    simp only [List.map_cons, List.map_nil, htokens]
    rfl
  obtain ⟨hfirst, -⟩ := parse_fails_at_first_impossible hsource (by simp)
  obtain ⟨-, i, t, hi, hV, hn⟩ := (hfirst ⟨3, 4⟩).1 hparse
  obtain rfl : i = 3 := by
    rcases i with _ | _ | _ | _ | _ | _ | i <;> simp at hi ⊢
  exact ⟨⟨_, hsource, by simp⟩, hparse, hV, hn⟩

end

end Stencil.Expr
