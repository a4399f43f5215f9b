import Stencil.Expr.Parser

namespace Stencil.Expr

namespace Level

theorem above_eq_of_tighter? {l m : Level} (h : l.tighter? = some m) : l.above = m.above + 1 := by
  cases l <;> cases h <;> rfl

@[elab_as_elim]
theorem byTighter {P : Level → Prop} (tightest : P .multiplicative)
    (looser : ∀ l m : Level, l.tighter? = some m → P m → P l) (l : Level) : P l := by
  have hadditive := looser .additive _ rfl tightest
  have hcomparison := looser .comparison _ rfl hadditive
  have hequality := looser .equality _ rfl hcomparison
  have hand := looser .and _ rfl hequality
  have hor := looser .or _ rfl hand
  cases l <;> assumption

end Level

/-- Nothing at the start of the tokens belongs to what stands in front of them: no access, and no
operator of a level with fewer than `n` tighter ones. -/
def Stops (n : Nat) : List Token → Prop
  | [] => True
  | t :: _ => t ≠ .dot ∧ t ≠ .bracketOpen ∧ ∀ l : Level, l.above < n → joined? l t = none

theorem Stops.mono {m n : Nat} (hle : m ≤ n) {ts : List Token} (h : Stops n ts) : Stops m ts := by
  cases ts with
  | nil => trivial
  | cons t ts => exact ⟨h.1, h.2.1, fun l hl => h.2.2 l (Nat.lt_of_lt_of_le hl hle)⟩

/-- An operator belongs to no tighter level. -/
theorem stops_of_joined? {level : Level} {t : Token} {join : Expr → Expr → Expr}
    (h : joined? level t = some join) (ts : List Token) : Stops level.above (t :: ts) := by
  cases level <;> cases t <;> simp only [joined?, reduceCtorEq] at h
  all_goals
    refine ⟨by decide, by decide, fun l hl => ?_⟩
    cases l <;> first | rfl | exact absurd hl (by decide)

/-- No chain goes on with these. -/
theorem stops_of_closing {t : Token}
    (h : t ∈ [.question, .colon, .comma, .bracketClose, .parenClose]) (n : Nat) (ts : List Token) :
    Stops n (t :: ts) := by
  simp only [List.mem_cons, List.not_mem_nil, or_false] at h
  rcases h with rfl | rfl | rfl | rfl | rfl <;>
    exact ⟨by decide, by decide, fun l _ => by cases l <;> rfl⟩

namespace Parser

variable {depth n : Nat} {ts rest : List Token} {e : Expr}

theorem accesses_of_stops (h : Stops n ts) (e : Expr) : accesses depth e ts = .ok (e, ts) := by
  cases ts with
  | nil => rw [accesses.eq_def]
  | cons t ts =>
    obtain ⟨hdot, hopen, -⟩ := h
    rw [accesses.eq_def]
    split
    · next he => exact absurd (List.cons.inj he).1 hdot
    · next he => exact absurd (List.cons.inj he).1 hopen
    · rfl

theorem links_of_stops {level : Level} (h : Stops n ts) (hl : level.above < n) (e : Expr) :
    links level depth e ts = .ok (e, ts) := by
  cases ts with
  | nil => rw [links.eq_def]
  | cons t ts =>
    rw [links.eq_def]
    simp only [h.2.2 level hl]

theorem links_of_joined? {level : Level} {t : Token} {join : Expr → Expr → Expr} {left right : Expr}
    (hj : joined? level t = some join) (h : operand level depth ts = .ok (right, rest)) :
    links level (depth + 1) left (t :: ts) = links level depth (join left right) rest := by
  rw [links.eq_def]
  simp only [hj, h]
  rfl

theorem chain_of_operand {level : Level} (h : operand level depth ts = .ok (e, rest)) :
    chain level depth ts = links level depth e rest := by
  rw [chain, h]
  rfl

theorem operand_of_tighter? {level tighter : Level} (h : level.tighter? = some tighter) :
    operand level depth ts = chain tighter depth ts := by
  rw [operand.eq_def]
  split
  · next m hm =>
    obtain rfl : m = tighter := by simpa [h] using hm.symm
    rfl
  · next hn => simp [h] at hn

theorem operand_multiplicative : operand .multiplicative depth ts = unary depth ts := by
  rw [operand.eq_def]
  rfl

/-- What a prefix expression leaves is left by each level whose operators do not go on. -/
theorem operand_of_unary (level : Level) (h : unary depth ts = .ok (e, rest))
    (hs : Stops level.above rest) : operand level depth ts = .ok (e, rest) := by
  induction level using Level.byTighter with
  | tightest => rw [operand_multiplicative, h]
  | looser level tighter ht ih =>
    have habove := Level.above_eq_of_tighter? ht
    have hlow := ih (hs.mono (by omega))
    rw [operand_of_tighter? ht, chain_of_operand hlow, links_of_stops hs (by omega)]

theorem chain_of_unary {level : Level} (h : unary depth ts = .ok (e, rest))
    (hs : Stops (level.above + 1) rest) : chain level depth ts = .ok (e, rest) := by
  rw [chain_of_operand (operand_of_unary level h (hs.mono (Nat.le_succ _))),
    links_of_stops hs (Nat.lt_succ_self _)]

theorem unary_of_leadingOp? {t : Token} {op : UnaryOp} (ht : leadingOp? t = some op)
    (h : unary depth ts = .ok (e, rest)) :
    unary (depth + 1) (t :: ts) = .ok (.unary op e, rest) := by
  rw [unary.eq_def]
  simp only [ht, h]
  rfl

theorem accesses_member {name : Text} :
    accesses (depth + 1) e (.dot :: .ident name :: ts) = accesses depth (.member e name) ts := by
  rw [accesses.eq_def]

theorem accesses_index {position : Expr}
    (h : expression depth ts = .ok (position, .bracketClose :: rest)) :
    accesses (depth + 1) e (.bracketOpen :: ts) = accesses depth (.index e position) rest := by
  rw [accesses.eq_def]
  dsimp only
  rw [h]
  rfl

theorem items_last {n : Nat} {item : List Token → Except ParseError (Expr × List Token)}
    (h : item ts = .ok (e, .bracketClose :: rest)) : items item (n + 1) ts = .ok ([e], rest) := by
  rw [items, h]
  rfl

theorem primary_list {es : List Expr} (hts : ts.head? ≠ some .bracketClose)
    (h : items (expression depth) (ts.length + 1) ts = .ok (es, rest)) :
    primary depth (.bracketOpen :: ts) = .ok (.list es, rest) := by
  rw [primary.eq_def]
  split
  · next heq => simp at heq
  · next heq => simp at heq
  · next vs heq =>
    rw [(List.cons.inj heq).2] at hts
    exact absurd rfl hts
  · next vs _ heq =>
    rw [← (List.cons.inj heq).2, h]
    rfl
  · next t vs _ _ hopen heq => exact absurd (List.cons.inj heq).1.symm hopen

theorem unary_of_primary {t : Token} (hlead : leadingOp? t = none)
    (h : primary depth (t :: ts) = .ok (e, rest)) :
    unary depth (t :: ts) = accesses depth e rest := by
  rw [unary.eq_def]
  simp only [hlead]
  rw [postfixed, h]
  rfl

theorem unary_leaf {t : Token} (h : leaf? t = some e) :
    unary depth (t :: ts) = accesses depth e ts := by
  apply unary_of_primary
  · cases t <;> simp [leaf?] at h <;> rfl
  · rw [primary.eq_def]
    cases t <;> simp [leaf?] at h <;> simp [leaf?, h]

/-- A leaf is an operand of every level, if nothing behind it belongs to it. -/
theorem operand_leaf (level : Level) {t : Token} (h : leaf? t = some e)
    (hs : Stops level.above ts) : operand level depth (t :: ts) = .ok (e, ts) := by
  apply operand_of_unary level _ hs
  rw [unary_leaf h, accesses_of_stops hs]

theorem operand_error (level : Level) {err : ParseError} (h : unary depth ts = .error err) :
    operand level depth ts = .error err := by
  induction level using Level.byTighter with
  | tightest => rw [operand_multiplicative, h]
  | looser level tighter ht ih =>
    rw [operand_of_tighter? ht, chain, ih]
    rfl

theorem expression_ne_ok (h : ∀ depth, ∃ err, unary depth ts = .error err)
    (p : Expr × List Token) : expression depth ts ≠ .ok p := by
  rw [expression.eq_def]
  split
  · simp
  · next depth =>
    obtain ⟨err, hu⟩ := h depth
    rw [ternary, chain, operand_error .or hu]
    simp [bind, Except.bind]

/-- A condition stands alone where no question follows it. -/
theorem expression_of_chain (h : chain .or depth ts = .ok (e, rest))
    (hq : rest.head? ≠ some .question) : expression (depth + 1) ts = .ok (e, rest) := by
  rw [expression.eq_def]
  dsimp only
  rw [ternary, h]
  dsimp only [bind, Except.bind]
  split
  · exact absurd rfl hq
  · rfl

theorem expression_of_branches {condition yes no : Expr} {us vs : List Token}
    (hc : chain .or depth ts = .ok (condition, .question :: us))
    (hy : expression depth us = .ok (yes, .colon :: vs))
    (hn : expression depth vs = .ok (no, rest)) :
    expression (depth + 1) ts = .ok (.conditional condition yes no, rest) := by
  rw [expression.eq_def]
  dsimp only
  rw [ternary, hc]
  dsimp only [bind, Except.bind]
  rw [hy]
  dsimp only [expect]
  rw [if_pos rfl]
  dsimp only
  rw [hn]
  rfl

theorem expression_leaf {t : Token} (h : leaf? t = some e) (hs : Stops 6 ts)
    (hq : ts.head? ≠ some .question) : expression (depth + 1) (t :: ts) = .ok (e, ts) := by
  have hu : unary depth (t :: ts) = .ok (e, ts) := by
    rw [unary_leaf h, accesses_of_stops hs]
  exact expression_of_chain (chain_of_unary hu hs) hq

end Parser
end Stencil.Expr
