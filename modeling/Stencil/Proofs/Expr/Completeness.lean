import Stencil.Proofs.Expr.Equations

namespace Stencil.Expr

theorem Parser.unary_bracketClose {depth : Nat} {ts : List Token} :
    unary depth (.bracketClose :: ts) = .error (stuck (.bracketClose :: ts)) := by
  rw [unary.eq_def]
  dsimp only [leadingOp?]
  rw [postfixed, primary.eq_def]
  rfl

/-- No expression begins with the bracket that closes a list. -/
theorem Parser.head?_ne_bracketClose {depth : Nat} {ts : List Token} {p : Expr × List Token}
    (h : expression depth ts = .ok p) : ts.head? ≠ some .bracketClose := by
  intro hhead
  obtain ⟨us, rfl⟩ := List.head?_eq_some_iff.1 hhead
  exact expression_ne_ok (fun _ => ⟨_, unary_bracketClose⟩) p h

/-- A phrase takes so many levels in front of all tokens that do not go on with it. A loop that goes
on behind it has used up some of them. -/
def Demands (levels used : Nat) : Phrase → List Token → Expr → Prop
  | .expression, ts, e => ∀ depth rest, Stops 6 rest → rest.head? ≠ some .question →
      Parser.expression depth (ts ++ rest) = demand levels depth (.ok (e, rest))
  | .chain level, ts, e => ∀ depth rest, Stops level.above rest →
      Parser.chain level depth (ts ++ rest) =
        demand levels depth (Parser.links level (depth - used) e rest)
  | .prefixed, ts, e => ∀ depth rest, Stops 0 rest →
      Parser.unary depth (ts ++ rest) = demand levels depth (.ok (e, rest))
  | .accessed, ts, e | .single, ts, e => ∀ depth rest,
      Parser.unary depth (ts ++ rest) =
        demand levels depth (Parser.accesses (depth - used) e rest)
  | .items, ts, e => ∃ es, e = .list es ∧ ∀ depth rest,
      Parser.itemsOrEnd depth (ts ++ .bracketClose :: rest) = demand levels depth (.ok (es, rest))

namespace Demands

variable {ts us vs : List Token} {e : Expr} {level : Level} {l m n k j : Nat}

theorem expression_closed (h : Demands l k .expression ts e) {t : Token}
    (ht : t ∈ [.colon, .comma, .bracketClose, .parenClose]) (depth : Nat) (rest : List Token) :
    Parser.expression depth (ts ++ t :: rest) = demand l depth (.ok (e, t :: rest)) := by
  apply h
  · exact stops_of_closing (List.mem_cons_of_mem _ ht) 6 rest
  · intro hq
    obtain rfl : t = .question := by simpa using hq
    simp at ht

theorem leaf {t : Token} (h : Leaf t e) : Demands 0 0 .single [t] e := by
  intro depth rest
  rw [List.singleton_append, Parser.unary_leaf (leaf_iff.1 h), demand_zero, Nat.sub_zero]

theorem group (h : Demands l k .expression ts e) :
    Demands l 0 .single (.parenOpen :: (ts ++ [.parenClose])) e := by
  intro depth rest
  have hinner := h.expression_closed (t := .parenClose) (by simp) depth rest
  rw [List.cons_append, List.append_assoc, List.singleton_append,
    Parser.unary_eq_accesses rfl, Parser.primary_parenOpen, hinner, demand_bind, demand_bind]
  rfl

theorem list (h : Demands l k .items ts e) :
    Demands l 0 .single (.bracketOpen :: (ts ++ [.bracketClose])) e := by
  intro depth rest
  obtain ⟨es, rfl, hitems⟩ := h
  rw [List.cons_append, List.append_assoc, List.singleton_append, Parser.unary_eq_accesses rfl,
    Parser.primary_bracketOpen_eq, hitems, demand_bind, demand_bind]
  rfl

theorem noItems : Demands 0 0 .items [] (.list []) := by
  refine ⟨[], rfl, fun depth rest => ?_⟩
  rw [demand_zero]
  rfl

/-- No item begins with the bracket that closes the list. -/
theorem itemsOrEnd_eq (h : Demands l k .expression ts e) {t : Token}
    (ht : t ∈ [.colon, .comma, .bracketClose, .parenClose]) (depth : Nat) (rest : List Token) :
    Parser.itemsOrEnd depth (ts ++ t :: rest) = demand l depth
      (Parser.itemsBehind (Parser.allItems (Parser.expression depth)) e (t :: rest)) := by
  have hread := (h.expression_closed ht l rest).trans (demand_of_le (Nat.le_refl l))
  rw [Parser.itemsOrEnd_of_head?_ne (Parser.head?_ne_bracketClose hread),
    Parser.allItems_eq (Parser.spans_expression depth), h.expression_closed ht, demand_bind]
  rfl

theorem lastItem (h : Demands l k .expression ts e) : Demands l 0 .items ts (.list [e]) := by
  refine ⟨[e], rfl, fun depth rest => ?_⟩
  rw [h.itemsOrEnd_eq (by simp)]
  rfl

theorem item {es : List Expr} (h : Demands l k .expression ts e)
    (hs : Demands m n .items us (.list es)) :
    Demands (max l m) 0 .items (ts ++ .comma :: us) (.list (e :: es)) := by
  obtain ⟨es', hes, hitems⟩ := hs
  obtain rfl : es = es' := by simpa using hes
  refine ⟨e :: es, rfl, fun depth rest => ?_⟩
  rw [List.append_assoc, List.cons_append, h.itemsOrEnd_eq (by simp), Parser.itemsBehind_comma_eq,
    hitems, demand_bind, demand_demand]
  rfl

theorem member (name : Text) (h : Demands l k .accessed ts e) :
    Demands (max l (1 + k)) (k + 1) .accessed (ts ++ [.dot, .ident name]) (.member e name) := by
  intro depth rest
  rw [List.append_assoc, h depth]
  change demand l depth (Parser.accesses (depth - k) e (.dot :: .ident name :: rest)) = _
  rw [Parser.accesses_dot, ← Nat.zero_add 1, demand_succ_sub, demand_demand, Nat.sub_sub]

theorem index {position : Expr} (h : Demands l k .accessed ts e)
    (hp : Demands m n .expression us position) :
    Demands (max l (m + 1 + k)) (k + 1) .accessed (ts ++ .bracketOpen :: (us ++ [.bracketClose]))
      (.index e position) := by
  intro depth rest
  rw [List.append_assoc, h depth, List.cons_append, List.append_assoc, List.singleton_append,
    Parser.accesses_bracketOpen, hp.expression_closed (by simp), demand_bind, demand_one_demand,
    demand_succ_sub, demand_demand, Nat.sub_sub]
  rfl

theorem plain (h : Demands l k .accessed ts e) : Demands l 0 .prefixed ts e := by
  intro depth rest hs
  rw [h depth rest, Parser.accesses_of_stops hs]

theorem unary (op : UnaryOp) (h : Demands l k .prefixed ts e) :
    Demands (l + 1) 0 .prefixed (op.token :: ts) (.unary op e) := by
  intro depth rest hs
  rw [List.cons_append, Parser.unary_token, h (depth - 1) rest hs, demand_bind, demand_one_demand]
  rfl

theorem of_operands (h : Demands l k level.operands ts e) {rest : List Token}
    (hs : Stops level.above rest) (depth : Nat) :
    Parser.operand level depth (ts ++ rest) = demand l depth (.ok (e, rest)) := by
  cases ht : level.tighter? with
  | none =>
    obtain rfl : level = .multiplicative := by cases level <;> simp [Level.tighter?] at ht; rfl
    rw [Parser.operand_multiplicative, h depth rest hs]
  | some tighter =>
    rw [Level.operands_of_tighter? ht] at h
    have habove := Level.above_eq_of_tighter? ht
    rw [Parser.operand_of_tighter? ht, h depth rest (hs.mono (by omega)),
      Parser.links_of_stops hs (by omega)]

theorem operand (h : Demands l k level.operands ts e) : Demands l 0 (.chain level) ts e := by
  intro depth rest hs
  rw [Parser.chain, h.of_operands hs, demand_bind]
  rfl

theorem link {t : Token} {left right : Expr} {join : Expr → Expr → Expr}
    (hl : Demands l k (.chain level) ts left) (hj : Joins level t join)
    (hr : Demands m n level.operands us right) :
    Demands (max l (m + 1 + k)) (k + 1) (.chain level) (ts ++ t :: us) (join left right) := by
  intro depth rest hs
  have hjoined := joins_iff.1 hj
  rw [List.append_assoc, List.cons_append, hl depth _ (stops_of_joined? hjoined _),
    Parser.links_cons hjoined, hr.of_operands hs, demand_bind, demand_one_demand, demand_succ_sub,
    demand_demand, Nat.sub_sub]
  rfl

theorem condition (h : Demands l k (.chain .or) ts e) : Demands (l + 1) 0 .expression ts e := by
  intro depth rest hs hq
  have hend : Parser.branches (depth - 1) e rest = .ok (e, rest) :=
    Parser.branches_of_no_question hq
  rw [Parser.expression_eq, h _ rest (hs.mono (by decide)), Parser.links_of_stops hs (by decide),
    demand_bind, demand_one_demand]
  exact congrArg (demand (l + 1) depth) hend

theorem conditional {condition yes no : Expr} (hc : Demands l k (.chain .or) ts condition)
    (hy : Demands m j .expression us yes) (hn : Demands n i .expression vs no) :
    Demands (max (max l m) n + 1) 0 .expression (ts ++ .question :: (us ++ .colon :: vs))
      (.conditional condition yes no) := by
  intro depth rest hs hq
  have hquestion : ∀ ts, Stops 6 (.question :: ts) := stops_of_closing (by simp) 6
  have hbranches : Parser.branches (depth - 1) condition
        (.question :: (us ++ .colon :: (vs ++ rest))) =
      demand m (depth - 1) (demand n (depth - 1) (.ok (.conditional condition yes no, rest))) := by
    change Parser.expression (depth - 1) _ >>= _ = _
    rw [hy.expression_closed (by simp), demand_bind]
    change demand m _ (Parser.expression (depth - 1) (vs ++ rest) >>= _) = _
    rw [hn _ rest hs hq, demand_bind]
    rfl
  simp only [List.append_assoc, List.cons_append]
  rw [Parser.expression_eq, hc _ _ ((hquestion _).mono (by decide)),
    Parser.links_of_stops (hquestion _) (by decide), demand_ok_bind]
  dsimp only
  rw [hbranches, demand_demand, demand_demand, demand_one_demand, Nat.max_assoc]

theorem chain (h : Demands l k .prefixed ts e) (level : Level) :
    Demands l 0 (.chain level) ts e := by
  induction level using Level.byTighter with
  | tightest => exact operand h
  | looser level tighter ht ih =>
    rw [← Level.operands_of_tighter? ht] at ih
    exact ih.operand

theorem bracketed (h : Demands l k .items ts e) :
    Demands (l + 1) 0 .expression (.bracketOpen :: (ts ++ [.bracketClose])) e :=
  condition (h.list.plain.chain .or)

theorem expression_eq (h : Demands l k .expression ts e) (depth : Nat) :
    Parser.expression depth ts = demand l depth (.ok (e, [])) := by
  have hread := h depth [] trivial (by simp)
  rwa [List.append_nil] at hread

theorem expression_eq_ok_iff (h : Demands l k .expression ts e) {depth : Nat} :
    Parser.expression depth ts = .ok (e, []) ↔ l ≤ depth := by
  rw [h.expression_eq, demand_eq_ok_iff]

end Demands

/-- What is derived takes some number of levels, whatever is behind it. -/
theorem Derives.exists_demands {phrase : Phrase} {ts : List Token} {e : Expr}
    (h : Derives phrase ts e) : ∃ levels used, Demands levels used phrase ts e := by
  induction h with
  | leaf h => exact ⟨_, _, .leaf h⟩
  | group _ ih =>
    obtain ⟨_, _, h⟩ := ih
    exact ⟨_, _, h.group⟩
  | list _ ih =>
    obtain ⟨_, _, h⟩ := ih
    exact ⟨_, _, h.list⟩
  | noItems => exact ⟨_, _, .noItems⟩
  | lastItem _ ih =>
    obtain ⟨_, _, h⟩ := ih
    exact ⟨_, _, h.lastItem⟩
  | item _ _ ih ihs =>
    obtain ⟨_, _, h⟩ := ih
    obtain ⟨_, _, hs⟩ := ihs
    exact ⟨_, _, h.item hs⟩
  | alone _ ih => exact ih
  | member name _ ih =>
    obtain ⟨_, _, h⟩ := ih
    exact ⟨_, _, h.member name⟩
  | index _ _ ih ihp =>
    obtain ⟨_, _, h⟩ := ih
    obtain ⟨_, _, hp⟩ := ihp
    exact ⟨_, _, h.index hp⟩
  | plain _ ih =>
    obtain ⟨_, _, h⟩ := ih
    exact ⟨_, _, h.plain⟩
  | unary op _ ih =>
    obtain ⟨_, _, h⟩ := ih
    exact ⟨_, _, h.unary op⟩
  | operand _ ih =>
    obtain ⟨_, _, h⟩ := ih
    exact ⟨_, _, h.operand⟩
  | link _ hj _ ihl ihr =>
    obtain ⟨_, _, hl⟩ := ihl
    obtain ⟨_, _, hr⟩ := ihr
    exact ⟨_, _, hl.link hj hr⟩
  | condition _ ih =>
    obtain ⟨_, _, h⟩ := ih
    exact ⟨_, _, h.condition⟩
  | conditional _ _ _ ihc ihy ihn =>
    obtain ⟨_, _, hc⟩ := ihc
    obtain ⟨_, _, hy⟩ := ihy
    obtain ⟨_, _, hn⟩ := ihn
    exact ⟨_, _, hc.conditional hy hn⟩

theorem derives_of_expression {levels : Nat} {ts : List Token} {e : Expr}
    (h : Parser.expression levels ts = .ok (e, [])) : Derives .expression ts e := by
  obtain ⟨us, hts, he⟩ := Parser.spans_expression levels ts _ h
  rw [List.append_nil] at hts
  rwa [hts]

/-- What is derived is read from some number of levels on, and lacks levels with fewer. -/
theorem derives_iff {ts : List Token} {e : Expr} :
    Derives .expression ts e ↔ ∃ levels, ∀ depth, Parser.expression depth ts =
      if levels ≤ depth then .ok (e, []) else .error .tooDeep := by
  constructor
  · intro h
    obtain ⟨levels, used, hlevels⟩ := h.exists_demands
    exact ⟨levels, hlevels.expression_eq⟩
  · rintro ⟨levels, h⟩
    exact derives_of_expression ((h levels).trans (if_pos (Nat.le_refl levels)))

theorem Derives.unique {ts : List Token} {e e' : Expr} (h : Derives .expression ts e)
    (h' : Derives .expression ts e') : e = e' := by
  obtain ⟨m, hm⟩ := derives_iff.1 h
  obtain ⟨n, hn⟩ := derives_iff.1 h'
  have hread := hm (max m n)
  rw [hn, if_pos (Nat.le_max_left m n), if_pos (Nat.le_max_right m n)] at hread
  simpa using hread.symm

theorem derives_of_ofTokens {ts : List Token} {e : Expr} (h : ofTokens ts = .ok e) :
    Derives .expression ts e :=
  derives_of_expression (ofTokens_eq_ok_iff.1 h)

/-- The parser reads all of what is derived, or lacks levels for it. -/
theorem Derives.expression_eq {ts : List Token} {e : Expr} (h : Derives .expression ts e)
    (n : Nat) :
    Parser.expression n ts = .ok (e, []) ∨ Parser.expression n ts = .error .tooDeep := by
  obtain ⟨levels, hread⟩ := derives_iff.1 h
  rw [hread n]
  split
  · exact .inl rfl
  · exact .inr rfl

/-- The parser refuses what is derived for no other reason than its depth. -/
theorem Derives.ofTokens {ts : List Token} {e : Expr} (h : Derives .expression ts e) :
    ofTokens ts = .ok e ∨ ofTokens ts = .error .tooDeep := by
  rcases h.expression_eq maxDepth with hread | hread
  · exact .inl (ofTokens_eq_ok_iff.2 hread)
  · right
    rw [Expr.ofTokens, hread]
    rfl

end Stencil.Expr
