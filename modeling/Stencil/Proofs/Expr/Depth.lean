import Stencil.Proofs.Expr.Levels
import Stencil.Proofs.Expr.Tower

namespace Stencil.Expr

/-- A source is read as an expression with so many levels. -/
def ReadsWithin (levels : Nat) (source : Text) (e : Expr) : Prop :=
  ∃ tokens, Token.tokenize source = .ok tokens ∧
    Parser.expression levels (tokens.map (·.1)) = .ok (e, [])

namespace Parser

variable {depth : Nat}

theorem unary_nil : unary depth [] = .error .unexpectedEnd := by
  rw [unary.eq_def]
  dsimp only
  rw [postfixed, primary.eq_def]
  rfl

theorem expression_nil_ne_ok (p : Expr × List Token) : expression depth [] ≠ .ok p :=
  expression_ne_ok (fun _ => ⟨_, unary_nil⟩) p

/-- Every prefix operator takes a level, and all levels are there again behind the operand. -/
theorem unary_bangs {n : Nat} {rest : List Token} (hn : n ≤ depth) (hs : Stops 0 rest) :
    ∃ e, unary depth (List.replicate n .bang ++ .ident name :: rest) = .ok (e, rest) ∧
      Deep (n + 1) e := by
  induction n generalizing depth with
  | zero =>
    refine ⟨.ident name, ?_, Deep.ident name⟩
    exact (unary_leaf rfl).trans (accesses_of_stops hs _)
  | succ n ih =>
    obtain ⟨d, rfl⟩ : ∃ d, depth = d + 1 := ⟨depth - 1, by omega⟩
    obtain ⟨e, he, hd⟩ := ih (Nat.le_of_succ_le_succ hn)
    refine ⟨.unary .not e, ?_, hd.unary .not⟩
    exact unary_of_leadingOp? rfl he

end Parser

theorem ofTokens_eq_ok_iff {ts : List Token} {e : Expr} :
    ofTokens ts = .ok e ↔ Parser.expression maxDepth ts = .ok (e, []) := by
  unfold ofTokens
  cases h : Parser.expression maxDepth ts with
  | error err => simp [bind, Except.bind]
  | ok p =>
    obtain ⟨e', rest⟩ := p
    cases rest <;> simp [bind, Except.bind, pure, Except.pure]

/-- The parser reads what can be read with `maxDepth` levels. -/
theorem parse_eq_ok_iff {source : Text} {e : Expr} :
    parse source = .ok (some e) ↔ ReadsWithin maxDepth source e := by
  unfold parse ReadsWithin
  split
  · next span h => simp [h]
  · next h =>
    have hn : Parser.expression maxDepth [] ≠ .ok (e, []) := Parser.expression_nil_ne_ok _
    simp [h, hn]
  · next tokens _ h =>
    have ht : ofTokens (tokens.map (·.1)) = .ok e ↔ _ := ofTokens_eq_ok_iff
    simp only [h, Except.ok.injEq, exists_eq_left', ← ht]
    cases ofTokens (tokens.map (·.1)) <;> simp

namespace ReadsWithin

variable {levels : Nat} {source : Text} {e : Expr}

theorem mono {more : Nat} (hle : levels ≤ more) (h : ReadsWithin levels source e) :
    ReadsWithin more source e := by
  obtain ⟨tokens, ht, he⟩ := h
  have hr := Parser.refines_expression_of_le hle (tokens.map (·.1))
  rw [he] at hr
  exact ⟨tokens, ht, hr.ok⟩

theorem height_le (h : ReadsWithin levels source e) : e.height ≤ tallest levels := by
  obtain ⟨tokens, _, he⟩ := h
  exact Parser.reads_expression levels _ _ he

end ReadsWithin

theorem exists_readsWithin_tallest (levels : Nat) (h : 0 < levels) :
    ∃ source e, ReadsWithin levels source e ∧ Deep (tallest levels) e := by
  obtain ⟨n, rfl⟩ : ∃ n, levels = n + 1 := ⟨levels - 1, by omega⟩
  obtain ⟨e, he, hd⟩ := expression_tower n (.inl rfl)
  have hplain : ∀ t ∈ tower (n + 1) [], t.Plain := plain_tower (n + 1) (by simp)
  obtain ⟨tokens, ht, hts⟩ := Token.tokenize_spelled hplain
  exact ⟨_, e, ⟨tokens, ht, by rw [hts]; exact he⟩, hd⟩

/-- A bound on the height of all that is read with so many levels is a bound on the tallest. -/
theorem forall_height_le_iff {levels bound : Nat} :
    (∀ source e, ReadsWithin levels source e → e.height ≤ bound) ↔ tallest levels ≤ bound := by
  constructor
  · intro h
    cases levels with
    | zero => exact Nat.zero_le _
    | succ n =>
      obtain ⟨source, e, hr, hd⟩ := exists_readsWithin_tallest (n + 1) (Nat.succ_pos n)
      have hle := h source e hr
      rwa [hd.height_eq] at hle
  · intro h source e hr
    exact Nat.le_trans hr.height_le h

theorem tallest_le_maxDepth_iff {levels : Nat} : tallest levels ≤ maxDepth ↔ levels ≤ 5 := by
  constructor
  · intro h
    apply Nat.le_of_not_lt
    intro hlt
    have hsix : tallest 6 ≤ tallest levels := tallest_mono hlt
    have hmax : maxDepth < tallest 6 := by decide
    omega
  · intro h
    exact Nat.le_trans (tallest_mono h) (by decide)

example : tallest maxDepth = 34849 := by rfl

theorem spelled_bangs (n : Nat) (ts : List Token) :
    Token.spelled (List.replicate n .bang ++ ts) =
      (List.replicate n ['!', ' ']).flatten ++ Token.spelled ts := by
  induction n with
  | zero => rfl
  | succ n ih =>
    rw [List.replicate_succ, List.cons_append, Token.spelled, ih]
    rfl

/-- Prefix operators and a link behind them each use the levels anew. -/
theorem readsWithin_bangs {n levels : Nat} (h : n < levels) (hpos : 1 < levels) :
    ∃ e, ReadsWithin levels
        (Token.spelled (List.replicate n .bang ++ [.ident name, .or, .ident name])) e ∧
      Deep (n + 2) e := by
  obtain ⟨depth, rfl⟩ : ∃ depth, levels = depth + 1 := ⟨levels - 1, by omega⟩
  have hplain : ∀ t ∈ List.replicate n Token.bang ++ [.ident name, .or, .ident name], t.Plain := by
    have hlink : ∀ t ∈ [Token.ident name, .or, .ident name], t.Plain := by
      intro t ht
      simp only [List.mem_cons, List.not_mem_nil, or_false] at ht
      rcases ht with rfl | rfl | rfl
      · exact plain_name
      · trivial
      · exact plain_name
    intro t ht
    rcases List.mem_append.1 ht with ht | ht
    · rw [List.eq_of_mem_replicate ht]
      trivial
    · exact hlink t ht
  obtain ⟨tokens, ht, hts⟩ := Token.tokenize_spelled hplain
  have hstops : Stops (Level.above .or) [.or, .ident name] := stops_sign .or _
  obtain ⟨e, hunary, hdeep⟩ := Parser.unary_bangs (Nat.le_of_lt_succ h) (hstops.mono (Nat.zero_le _))
  have hoperand := Parser.operand_of_unary .or hunary hstops
  have hend : Stops (Level.above .or + 1) [] := trivial
  obtain ⟨e', hlinks, hdeep'⟩ :=
    Parser.links_repeated (show 1 ≤ depth by omega) hdeep (Nat.succ_pos n) hend
  refine ⟨e', ⟨tokens, ht, ?_⟩, hdeep'⟩
  rw [hts]
  exact Parser.expression_of_chain (by rw [Parser.chain_of_operand hoperand]; exact hlinks) (by simp)

/-- What is read is at most `tallest levels` high: up to `maxDepth` with five levels, not six. -/
theorem height_le_maxDepth_iff {levels : Nat} (hle : levels ≤ maxDepth) :
    (∀ source e, parse source = .ok (some e) ↔ ReadsWithin maxDepth source e) ∧
    (∀ source e, ReadsWithin levels source e → parse source = .ok (some e) ∧
      e.height ≤ tallest levels ∧ (∀ scope, e.evalDepth scope ≤ e.height) ∧
      ((e.height ≤ maxDepth ∧ ∀ scope, e.evalDepth scope ≤ maxDepth) ↔ e.fits maxDepth)) ∧
    (0 < levels → ∃ source e, ReadsWithin levels source e ∧
      e.height = tallest levels ∧ ∀ scope, e.evalDepth scope = tallest levels) ∧
    ((∀ source e, ReadsWithin levels source e → e.fits maxDepth) ↔ levels ≤ 5) := by
  refine ⟨fun source e => parse_eq_ok_iff, ?_, ?_, ?_⟩
  · intro source e h
    have hdepth : ∀ scope, e.evalDepth scope ≤ e.height := fun scope => evalDepth_le_height scope e
    refine ⟨parse_eq_ok_iff.2 (h.mono hle), h.height_le, hdepth, ?_⟩
    rw [fits_iff_height_le]
    constructor
    · intro hb
      exact hb.1
    · intro hheight
      exact ⟨hheight, fun scope => Nat.le_trans (hdepth scope) hheight⟩
  · intro hpos
    obtain ⟨source, e, hr, hd⟩ := exists_readsWithin_tallest levels hpos
    exact ⟨source, e, hr, hd.height_eq, hd.evalDepth_eq⟩
  · simp only [fits_iff_height_le]
    rw [← tallest_le_maxDepth_iff, ← forall_height_le_iff]

/-- All levels of the parser: trees grow far beyond their number. -/
theorem height_le_maxDepth_iff_maxDepth :
    (∀ source e, parse source = .ok (some e) →
      e.height ≤ tallest maxDepth ∧ ∀ scope, e.evalDepth scope ≤ e.height) ∧
    ∃ source e, parse source = .ok (some e) ∧
      e.height = tallest maxDepth ∧ ∀ scope, e.evalDepth scope = tallest maxDepth := by
  obtain ⟨hparse, hbound, htallest, -⟩ := height_le_maxDepth_iff (Nat.le_refl maxDepth)
  refine ⟨?_, ?_⟩
  · intro source e h
    obtain ⟨-, hheight, hdepth, -⟩ := hbound source e ((hparse source e).1 h)
    exact ⟨hheight, hdepth⟩
  · obtain ⟨source, e, hr, hheight, hdepth⟩ := htallest (by decide)
    exact ⟨source, e, (hparse source e).2 hr, hheight, hdepth⟩

/-- A source whose tree is higher than `maxDepth`, and whose evaluation goes deeper. -/
theorem maxDepth_lt_height_of_parse :
    ∃ e, parse ((List.replicate 99 ['!', ' ']).flatten ++ "x || x ".toList) = .ok (some e) ∧
      maxDepth < e.height ∧ ∀ scope, maxDepth < e.evalDepth scope := by
  obtain ⟨e, hr, hd⟩ := readsWithin_bangs (show 99 < maxDepth by decide) (by decide)
  rw [spelled_bangs] at hr
  refine ⟨e, parse_eq_ok_iff.2 hr, ?_, fun scope => ?_⟩
  · rw [hd.height_eq]
    decide
  · rw [hd.evalDepth_eq]
    decide

end Stencil.Expr
