import Stencil.Proofs.Expr.Completeness

namespace Stencil.Expr

namespace Phrase

/-- How tight a phrase is. -/
def rank : Phrase → Nat
  | .expression => 0
  | .chain level => 6 - level.above
  | .prefixed => 7
  | .accessed => 8
  | .single => 9
  | .items => 10

def ofRank : Nat → Phrase
  | 0 => .expression
  | 1 => .chain .or
  | 2 => .chain .and
  | 3 => .chain .equality
  | 4 => .chain .comparison
  | 5 => .chain .additive
  | 6 => .chain .multiplicative
  | 7 => .prefixed
  | 8 => .accessed
  | 9 => .single
  | _ => .items

theorem ofRank_rank (phrase : Phrase) : ofRank phrase.rank = phrase := by
  cases phrase with
  | chain level => cases level <;> rfl
  | _ => rfl

theorem rank_le_single {phrase : Phrase} (h : phrase ≠ .items) : phrase.rank ≤ rank .single := by
  cases phrase with
  | chain level => cases level <;> decide
  | items => exact absurd rfl h
  | _ => decide

theorem operands_ne_items (level : Level) : level.operands ≠ .items := by
  cases level <;> decide

theorem rank_chain_le_operands (level : Level) : rank (.chain level) ≤ level.operands.rank := by
  cases level <;> decide

end Phrase

namespace Derives

variable {ts : List Token} {e : Expr}

theorem ofRank_of_succ {n : Nat} (hn : n < 9) (h : Derives (.ofRank (n + 1)) ts e) :
    Derives (.ofRank n) ts e := by
  match n, hn, h with
  | 0, _, h => exact .condition h
  | 1, _, h => exact .operand h
  | 2, _, h => exact .operand h
  | 3, _, h => exact .operand h
  | 4, _, h => exact .operand h
  | 5, _, h => exact .operand h
  | 6, _, h => exact .operand h
  | 7, _, h => exact .plain h
  | 8, _, h => exact .alone h

/-- A phrase is also a phrase of every looser kind. -/
theorem loosen {phrase place : Phrase} (h : Derives phrase ts e) (hp : phrase ≠ .items)
    (hle : place.rank ≤ phrase.rank) : Derives place ts e := by
  have hsingle : phrase.rank ≤ 9 := Phrase.rank_le_single hp
  obtain ⟨k, hk⟩ := Nat.exists_eq_add_of_le hle
  rw [← phrase.ofRank_rank, hk] at h
  rw [hk] at hsingle
  rw [← place.ofRank_rank]
  clear hk hle
  induction k with
  | zero => exact h
  | succ k ih => exact ih (by omega) (h.ofRank_of_succ (by omega))

end Derives

/-- The tightest phrase that an expression is without parentheses around it. -/
def phrase : Expr → Phrase
  | .null | .bool _ | .number _ | .string _ | .ident _ | .list _ => .single
  | .member _ _ | .index _ _ => .accessed
  | .unary _ _ => .prefixed
  | .binary op _ _ => .chain op.level
  | .logical op _ _ => .chain op.level
  | .conditional _ _ _ => .expression

/-- The tokens of a phrase at a place, in parentheses if the place wants a tighter one. -/
def grouped (place phrase : Phrase) (ts : List Token) : List Token :=
  if phrase.rank < place.rank then .parenOpen :: (ts ++ [.parenClose]) else ts

mutual

/-- An expression as tokens, with the parentheses that it needs. -/
def tokens : Expr → List Token
  | .null => [.null]
  | .bool true => [.true]
  | .bool false => [.false]
  | .number x => [.number x]
  | .string t => [.string t]
  | .ident name => [.ident name]
  | .list items => .bracketOpen :: (itemTokens items ++ [.bracketClose])
  | .member target name => grouped .accessed target.phrase (tokens target) ++ [.dot, .ident name]
  | .index target position =>
    grouped .accessed target.phrase (tokens target) ++
      .bracketOpen :: (tokens position ++ [.bracketClose])
  | .unary op operand => op.token :: grouped .prefixed operand.phrase (tokens operand)
  | .binary op left right =>
    grouped (.chain op.level) left.phrase (tokens left) ++
      op.token :: grouped op.level.operands right.phrase (tokens right)
  | .logical op left right =>
    grouped (.chain op.level) left.phrase (tokens left) ++
      op.token :: grouped op.level.operands right.phrase (tokens right)
  | .conditional condition yes no =>
    grouped (.chain .or) condition.phrase (tokens condition) ++
      .question :: (tokens yes ++ .colon :: tokens no)

def itemTokens : List Expr → List Token
  | [] => []
  | [e] => tokens e
  | e :: e' :: es => tokens e ++ .comma :: itemTokens (e' :: es)

end

def printed (place : Phrase) (e : Expr) : List Token := grouped place e.phrase e.tokens

theorem tokens_member (target : Expr) (name : Text) :
    tokens (.member target name) = printed .accessed target ++ [.dot, .ident name] := rfl

theorem tokens_index (target position : Expr) :
    tokens (.index target position) =
      printed .accessed target ++ .bracketOpen :: (position.tokens ++ [.bracketClose]) := rfl

theorem tokens_unary (op : UnaryOp) (operand : Expr) :
    tokens (.unary op operand) = op.token :: printed .prefixed operand := rfl

theorem tokens_conditional (condition yes no : Expr) :
    tokens (.conditional condition yes no) =
      printed (.chain .or) condition ++ .question :: (yes.tokens ++ .colon :: no.tokens) := rfl

section

variable {level : Level} {t : Token} {join : Expr → Expr → Expr} (left right : Expr)

theorem phrase_of_joins (h : Joins level t join) : (join left right).phrase = .chain level := by
  cases h <;> rfl

theorem tokens_of_joins (h : Joins level t join) :
    (join left right).tokens =
      printed (.chain level) left ++ t :: printed level.operands right := by
  cases h <;> rfl

end

theorem phrase_ne_items (e : Expr) : e.phrase ≠ .items := by
  cases e <;> simp [phrase]

theorem Derives.expression {ts : List Token} {e : Expr} (h : Derives e.phrase ts e) :
    Derives .expression ts e :=
  h.loosen e.phrase_ne_items (Nat.zero_le _)

theorem Derives.printed {place : Phrase} {e : Expr} (h : Derives e.phrase e.tokens e)
    (hplace : place ≠ .items) : Derives place (printed place e) e := by
  unfold Expr.printed grouped
  split
  · exact (Derives.group h.expression).loosen (by simp) (Phrase.rank_le_single hplace)
  · next hrank => exact h.loosen e.phrase_ne_items (Nat.le_of_not_lt hrank)

mutual

theorem derives_tokens : ∀ e : Expr, Derives e.phrase e.tokens e
  | .null => .leaf .null
  | .bool true => .leaf .true
  | .bool false => .leaf .false
  | .number x => .leaf (.number x)
  | .string t => .leaf (.string t)
  | .ident name => .leaf (.ident name)
  | .list items => .list (derives_itemTokens items)
  | .member target name => .member name ((derives_tokens target).printed (by simp))
  | .index target position =>
    .index ((derives_tokens target).printed (by simp)) (derives_tokens position).expression
  | .unary op operand => .unary op ((derives_tokens operand).printed (by simp))
  | .binary op left right =>
    .link ((derives_tokens left).printed (by simp)) (.binary op)
      ((derives_tokens right).printed (Phrase.operands_ne_items _))
  | .logical op left right =>
    .link ((derives_tokens left).printed (by simp)) (.logical op)
      ((derives_tokens right).printed (Phrase.operands_ne_items _))
  | .conditional condition yes no =>
    .conditional ((derives_tokens condition).printed (by simp)) (derives_tokens yes).expression
      (derives_tokens no).expression

theorem derives_itemTokens : ∀ es : List Expr, Derives .items (itemTokens es) (.list es)
  | [] => .noItems
  | [e] => .lastItem (derives_tokens e).expression
  | e :: e' :: es => .item (derives_tokens e).expression (derives_itemTokens (e' :: es))

end

example : tokens (.binary .subtract (.ident name) (.binary .subtract (.ident name) (.ident name))) =
    [.ident name, .minus, .parenOpen, .ident name, .minus, .ident name, .parenClose] := rfl

theorem length_printed_mono {place tighter : Phrase} (hle : place.rank ≤ tighter.rank) (e : Expr) :
    (printed place e).length ≤ (printed tighter e).length := by
  unfold printed grouped
  by_cases hplace : e.phrase.rank < place.rank
  · have htighter : e.phrase.rank < tighter.rank := Nat.lt_of_lt_of_le hplace hle
    simp only [if_pos hplace, if_pos htighter, Nat.le_refl]
  · rw [if_neg hplace]
    split
    · simp only [List.length_cons, List.length_append]
      omega
    · exact Nat.le_refl _

theorem length_printed_le (place : Phrase) (e : Expr) :
    (printed place e).length ≤ e.tokens.length + 2 := by
  unfold printed grouped
  split
  · simp
  · omega

/-- The printed expression is no longer than the tokens of a phrase. -/
def PrintedWithin : Phrase → List Token → Expr → Prop
  | .items, ts, e => ∃ es, e = .list es ∧ (itemTokens es).length ≤ ts.length
  | place, ts, e => (printed place e).length ≤ ts.length

theorem printedWithin_operands {level : Level} {ts : List Token} {e : Expr} :
    PrintedWithin level.operands ts e ↔ (printed level.operands e).length ≤ ts.length := by
  cases level <;> exact Iff.rfl

theorem printedWithin_of_le {e : Expr} {ts : List Token} (h : e.tokens.length ≤ ts.length) :
    PrintedWithin e.phrase ts e := by
  have hprinted : (printed e.phrase e).length ≤ ts.length := by
    rwa [printed, grouped, if_neg (Nat.lt_irrefl _)]
  cases e <;> exact hprinted

/-- No tokens that derive an expression are fewer than the printed ones. -/
theorem printedWithin_of_derives {place : Phrase} {ts : List Token} {e : Expr}
    (h : Derives place ts e) : PrintedWithin place ts e := by
  induction h with
  | leaf h => cases h <;> exact Nat.le_refl _
  | @group ts e _ ih =>
    -- Parentheses may be printed here as well, but no more than one pair.
    have hinner : e.tokens.length ≤ ts.length := ih
    have hprinted := length_printed_le .single e
    simp only [PrintedWithin, List.length_cons, List.length_append, List.length_nil]
    omega
  | @list ts e _ ih =>
    obtain ⟨es, rfl, hes⟩ := ih
    apply printedWithin_of_le (e := .list es)
    simp only [tokens, List.length_cons, List.length_append]
    omega
  | noItems => exact ⟨[], rfl, Nat.le_refl _⟩
  | @lastItem ts e _ ih => exact ⟨[e], rfl, ih⟩
  | @item ts us e es _ _ ih ihs =>
    have he : e.tokens.length ≤ ts.length := ih
    obtain ⟨es', hes, hlength⟩ := ihs
    obtain rfl : es = es' := by simpa using hes
    refine ⟨e :: es, rfl, ?_⟩
    cases es with
    | nil =>
      simp only [itemTokens, List.length_append]
      omega
    | cons e' es =>
      simp only [itemTokens, List.length_append, List.length_cons] at hlength ⊢
      omega
  | @alone ts e _ ih =>
    have hsingle : (printed .single e).length ≤ ts.length := ih
    exact Nat.le_trans (length_printed_mono (by decide) _) hsingle
  | @member ts e name _ ih =>
    have htarget : (printed .accessed e).length ≤ ts.length := ih
    apply printedWithin_of_le (e := .member e name)
    rw [tokens_member, List.length_append, List.length_append]
    omega
  | @index ts us e position _ _ ih ihp =>
    have htarget : (printed .accessed e).length ≤ ts.length := ih
    have hposition : position.tokens.length ≤ us.length := ihp
    apply printedWithin_of_le (e := .index e position)
    simp only [tokens_index, List.length_append, List.length_cons]
    omega
  | @plain ts e _ ih =>
    have haccessed : (printed .accessed e).length ≤ ts.length := ih
    exact Nat.le_trans (length_printed_mono (by decide) _) haccessed
  | @unary ts e op _ ih =>
    have hoperand : (printed .prefixed e).length ≤ ts.length := ih
    apply printedWithin_of_le (e := .unary op e)
    rw [tokens_unary, List.length_cons, List.length_cons]
    omega
  | @operand level ts e _ ih =>
    have hoperand := printedWithin_operands.1 ih
    exact Nat.le_trans (length_printed_mono (Phrase.rank_chain_le_operands level) _) hoperand
  | @link level ts t us left right join _ hj _ ihl ihr =>
    have hleft : (printed (.chain level) left).length ≤ ts.length := ihl
    have hright := printedWithin_operands.1 ihr
    rw [← phrase_of_joins left right hj]
    apply printedWithin_of_le
    simp only [tokens_of_joins left right hj, List.length_append, List.length_cons]
    omega
  | @condition ts e _ ih =>
    have hchain : (printed (.chain .or) e).length ≤ ts.length := ih
    exact Nat.le_trans (length_printed_mono (Nat.zero_le _) _) hchain
  | @conditional ts us vs condition yes no _ _ _ ihc ihy ihn =>
    have hcondition : (printed (.chain .or) condition).length ≤ ts.length := ihc
    have hyes : yes.tokens.length ≤ us.length := ihy
    have hno : no.tokens.length ≤ vs.length := ihn
    apply printedWithin_of_le (e := .conditional condition yes no)
    simp only [tokens_conditional, List.length_append, List.length_cons]
    omega

/-- The parser is sound and complete, and reads back what is printed with the fewest parentheses. -/
theorem ofTokens_sound_complete :
    (∀ ts e, ofTokens ts = .ok e → Derives .expression ts e) ∧
    (∀ ts e, Derives .expression ts e → ofTokens ts = .ok e ∨ ofTokens ts = .error .tooDeep) ∧
    (∀ ts e, Derives .expression ts e ↔ ∃ levels, ∀ depth, Parser.expression depth ts =
      if levels ≤ depth then .ok (e, []) else .error .tooDeep) ∧
    ∀ e : Expr, Derives .expression e.tokens e ∧
      (ofTokens e.tokens = .ok e ∨ ofTokens e.tokens = .error .tooDeep) ∧
      ∀ ts, Derives .expression ts e → e.tokens.length ≤ ts.length := by
  refine ⟨fun _ _ => derives_of_ofTokens, fun _ _ h => h.ofTokens, fun _ _ => derives_iff, ?_⟩
  intro e
  have htokens : Derives .expression e.tokens e := (derives_tokens e).expression
  exact ⟨htokens, htokens.ofTokens, fun ts h => printedWithin_of_derives h⟩

/-- A tower on all levels of the parser, and a chain that associates to the left. -/
theorem ofTokens_sound_complete_tower :
    (∃ e, ofTokens (tower maxDepth []) = .ok e ∧ Derives .expression (tower maxDepth []) e) ∧
    let x := Expr.ident name
    let ts := [.ident name, .minus, .ident name, .minus, .ident name]
    let e := Expr.binary .subtract (.binary .subtract x x) x
    (ofTokens ts = .ok e ∨ ofTokens ts = .error .tooDeep) ∧ e.tokens.length ≤ 5 := by
  obtain ⟨hsound, hcomplete, -, hprinted⟩ := ofTokens_sound_complete
  refine ⟨?_, ?_⟩
  · obtain ⟨e, he, -⟩ := expression_tower 99 (.inl rfl)
    have hread : ofTokens (tower maxDepth []) = .ok e := ofTokens_eq_ok_iff.2 he
    exact ⟨e, hread, hsound _ e hread⟩
  · intro x ts e
    have hoperand : Derives (Level.operands .additive) [.ident name] x :=
      (Derives.leaf (.ident name)).loosen (by simp) (by decide)
    have hfirst : Derives (.chain .additive) [.ident name, .minus, .ident name]
        (.binary .subtract x x) := .link (.operand hoperand) (.binary .subtract) hoperand
    have hchain : Derives (.chain .additive) ts e := .link hfirst (.binary .subtract) hoperand
    have hts : Derives .expression ts e := hchain.loosen (by simp) (by decide)
    exact ⟨hcomplete ts e hts, (hprinted e).2.2 ts hts⟩

end Stencil.Expr
