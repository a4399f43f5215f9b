import Stencil.Proofs.Expr.Grammar

namespace Stencil.Expr

section

variable {α β : Type} {l m k depth : Nat} {r : Except ParseError α}

/-- What is read where so many levels are enough, and the failure for want of levels elsewhere. -/
def demand (levels depth : Nat) (r : Except ParseError α) : Except ParseError α :=
  if levels ≤ depth then r else .error .tooDeep

theorem demand_zero : demand 0 depth r = r := if_pos (Nat.zero_le depth)

theorem demand_of_le (h : l ≤ depth) : demand l depth r = r := if_pos h

theorem demand_demand : demand l depth (demand m depth r) = demand (max l m) depth r := by
  simp only [demand, Nat.max_le]
  split <;> simp [*]

theorem demand_bind {f : α → Except ParseError β} :
    demand l depth r >>= f = demand l depth (r >>= f) := by
  unfold demand
  split <;> rfl

theorem demand_ok_bind {a : α} {f : α → Except ParseError β} :
    demand l depth (.ok a) >>= f = demand l depth (f a) := demand_bind

theorem demand_succ_sub : demand (l + 1) (depth - k) r = demand (l + 1 + k) depth r := by
  have hiff : l + 1 ≤ depth - k ↔ l + 1 + k ≤ depth := by omega
  simp only [demand, hiff]

theorem demand_one_demand :
    demand 1 depth (demand l (depth - 1) r) = demand (l + 1) depth r := by
  have hiff : 1 ≤ depth ∧ l ≤ depth - 1 ↔ l + 1 ≤ depth := by omega
  simp only [demand, ← hiff]
  split <;> simp [*]

theorem demand_eq_ok_iff {a : α} : demand l depth (.ok a) = .ok a ↔ l ≤ depth := by
  unfold demand
  split <;> simp [*]

end

namespace Parser

variable {depth : Nat} {t : Token} {ts : List Token}

theorem unary_of_not_leading (ht : leadingOp? t = none) (ts : List Token) :
    unary depth (t :: ts) = postfixed depth (t :: ts) := by
  rw [unary.eq_def]
  simp only [ht]

theorem unary_token (op : UnaryOp) (ts : List Token) :
    unary depth (op.token :: ts) =
      demand 1 depth (unary (depth - 1) ts >>= fun p => pure (.unary op p.1, p.2)) := by
  have hop : leadingOp? op.token = some op := leadingOp?_eq_some_iff.2 rfl
  rw [unary.eq_def]
  simp only [hop]
  cases depth <;> rfl

theorem unary_eq_accesses (ht : leadingOp? t = none) (ts : List Token) :
    unary depth (t :: ts) = primary depth (t :: ts) >>= fun p => accesses depth p.1 p.2 := by
  rw [unary_of_not_leading ht, postfixed]

theorem primary_of_leaf? (hopen : t ≠ .parenOpen) (hlist : t ≠ .bracketOpen) (ts : List Token) :
    primary depth (t :: ts) =
      match leaf? t with
      | some e => .ok (e, ts)
      | none => .error (stuck (t :: ts)) := by
  rw [primary.eq_def]
  split
  · next heq => exact absurd heq (by simp)
  · next heq => exact absurd (List.cons.inj heq).1 hopen
  · next heq => exact absurd (List.cons.inj heq).1 hlist
  · next heq => exact absurd (List.cons.inj heq).1 hlist
  · next heq =>
    obtain ⟨rfl, rfl⟩ := List.cons.inj heq
    rfl

theorem primary_parenOpen (ts : List Token) :
    primary depth (.parenOpen :: ts) = expression depth ts >>= fun p =>
      expect .parenClose p.2 >>= fun us => pure (p.1, us) := by
  rw [primary.eq_def]

section

variable {item : List Token → Except ParseError (Expr × List Token)}
  {more : List Token → Except ParseError (List Expr × List Token)} {e : Expr}

/-- What is read behind an item of a list, where `more` reads further items. -/
def itemsBehind (more : List Token → Except ParseError (List Expr × List Token)) (e : Expr)
    (ts : List Token) : Except ParseError (List Expr × List Token) :=
  match ts with
  | .bracketClose :: ts => pure ([e], ts)
  | ts => do
    let ts ← expect .comma ts
    match ts with
    | .bracketClose :: ts => pure ([e], ts)
    | ts => do
      let (es, ts) ← more ts
      pure (e :: es, ts)

theorem items_succ (n : Nat) (ts : List Token) :
    items item (n + 1) ts = item ts >>= fun p => itemsBehind (items item n) p.1 p.2 := by
  rw [items]
  rfl

theorem itemsBehind_comma (h : ts.head? ≠ some .bracketClose) :
    itemsBehind more e (.comma :: ts) = more ts >>= fun p => pure (e :: p.1, p.2) := by
  dsimp only [itemsBehind, expect]
  rw [if_pos rfl]
  dsimp only [bind, Except.bind]
  split
  · exact absurd rfl h
  · rfl

theorem itemsBehind_other (hclose : t ≠ .bracketClose) (hcomma : t ≠ .comma) :
    itemsBehind more e (t :: ts) = .error (stuck (t :: ts)) := by
  rw [itemsBehind.eq_def]
  split
  · next heq => exact absurd (List.cons.inj heq).1 hclose
  · rw [expect, if_neg hcomma]
    rfl

theorem itemsBehind_congr {others : List Token → Except ParseError (List Expr × List Token)}
    (h : ∀ us, us.length < ts.length → more us = others us) :
    itemsBehind more e ts = itemsBehind others e ts := by
  cases ts with
  | nil => rfl
  | cons t ts =>
    by_cases hclose : t = .bracketClose
    · subst hclose
      rfl
    by_cases hcomma : t = .comma
    · subst hcomma
      by_cases hhead : ts.head? = some .bracketClose
      · obtain ⟨us, rfl⟩ := List.head?_eq_some_iff.1 hhead
        rfl
      · rw [itemsBehind_comma hhead, itemsBehind_comma hhead, h ts (Nat.lt_succ_self _)]
    · rw [itemsBehind_other hclose hcomma, itemsBehind_other hclose hcomma]

theorem length_le_of_item (hs : ∀ ts, Reads (Spans .expression ts) (item ts))
    {p : Expr × List Token} (h : item ts = .ok p) : p.2.length ≤ ts.length := by
  obtain ⟨us, hus, -⟩ := hs ts p h
  rw [hus, List.length_append]
  omega

/-- All that counts is that there can be as many items as there are tokens. -/
theorem items_of_length_lt (hs : ∀ ts, Reads (Spans .expression ts) (item ts)) {m n : Nat}
    (hm : ts.length < m) (hn : ts.length < n) : items item m ts = items item n ts := by
  induction m generalizing n ts with
  | zero => exact absurd hm (Nat.not_lt_zero _)
  | succ m ih =>
    obtain ⟨n, rfl⟩ : ∃ k, n = k + 1 := ⟨n - 1, by omega⟩
    rw [items_succ, items_succ]
    cases hitem : item ts with
    | error err => rfl
    | ok p =>
      have hlength := length_le_of_item hs hitem
      apply itemsBehind_congr
      intro us hus
      exact ih (by omega) (by omega)

/-- The items of a list, as many as there are tokens. -/
def allItems (item : List Token → Except ParseError (Expr × List Token)) (ts : List Token) :
    Except ParseError (List Expr × List Token) :=
  items item (ts.length + 1) ts

theorem allItems_eq (hs : ∀ ts, Reads (Spans .expression ts) (item ts)) (ts : List Token) :
    allItems item ts = item ts >>= fun p => itemsBehind (allItems item) p.1 p.2 := by
  rw [allItems, items_succ]
  cases hitem : item ts with
  | error err => rfl
  | ok p =>
    have hlength := length_le_of_item hs hitem
    apply itemsBehind_congr
    intro us hus
    exact items_of_length_lt hs (by omega) (Nat.lt_succ_self _)

end

theorem primary_bracketOpen (h : ts.head? ≠ some .bracketClose) :
    primary depth (.bracketOpen :: ts) =
      allItems (expression depth) ts >>= fun p => pure (.list p.1, p.2) := by
  rw [primary.eq_def]
  split
  · next heq => exact absurd heq (by simp)
  · next heq => exact absurd heq (by simp)
  · next heq =>
    rw [(List.cons.inj heq).2] at h
    exact absurd rfl h
  · next heq =>
    rw [(List.cons.inj heq).2]
    rfl
  · next hopen heq => exact absurd (List.cons.inj heq).1.symm hopen

def itemsOrEnd (depth : Nat) (ts : List Token) : Except ParseError (List Expr × List Token) :=
  match ts with
  | .bracketClose :: ts => .ok ([], ts)
  | ts => allItems (expression depth) ts

theorem itemsOrEnd_of_head?_ne (h : ts.head? ≠ some .bracketClose) :
    itemsOrEnd depth ts = allItems (expression depth) ts := by
  unfold itemsOrEnd
  split
  · exact absurd rfl h
  · rfl

theorem primary_bracketOpen_eq (ts : List Token) :
    primary depth (.bracketOpen :: ts) =
      itemsOrEnd depth ts >>= fun p => pure (.list p.1, p.2) := by
  by_cases h : ts.head? = some .bracketClose
  · obtain ⟨us, rfl⟩ := List.head?_eq_some_iff.1 h
    rw [primary.eq_def]
    rfl
  · rw [primary_bracketOpen h, itemsOrEnd_of_head?_ne h]

theorem itemsBehind_comma_eq (e : Expr) (ts : List Token) :
    itemsBehind (allItems (expression depth)) e (.comma :: ts) =
      itemsOrEnd depth ts >>= fun p => pure (e :: p.1, p.2) := by
  by_cases h : ts.head? = some .bracketClose
  · obtain ⟨us, rfl⟩ := List.head?_eq_some_iff.1 h
    rfl
  · rw [itemsBehind_comma h, itemsOrEnd_of_head?_ne h]

theorem accesses_dot (target : Expr) (name : Text) (ts : List Token) :
    accesses depth target (.dot :: .ident name :: ts) =
      demand 1 depth (accesses (depth - 1) (.member target name) ts) := by
  rw [accesses.eq_def]
  cases depth <;> rfl

theorem accesses_bracketOpen (target : Expr) (ts : List Token) :
    accesses depth target (.bracketOpen :: ts) = demand 1 depth (expression (depth - 1) ts >>=
      fun p => expect .bracketClose p.2 >>= accesses (depth - 1) (.index target p.1)) := by
  rw [accesses.eq_def]
  cases depth <;> rfl

theorem links_of_not_joined {level : Level} (h : ∀ t ∈ ts.head?, joined? level t = none)
    (left : Expr) : links level depth left ts = .ok (left, ts) := by
  cases ts with
  | nil => rw [links.eq_def]
  | cons t ts =>
    rw [links.eq_def]
    simp only [h t rfl]

theorem links_cons {level : Level} {join : Expr → Expr → Expr} (hj : joined? level t = some join)
    (left : Expr) (ts : List Token) :
    links level depth left (t :: ts) = demand 1 depth (operand level (depth - 1) ts >>=
      fun p => links level (depth - 1) (join left p.1) p.2) := by
  rw [links.eq_def]
  simp only [hj]
  cases depth <;> rfl

def branches (depth : Nat) (condition : Expr) (ts : List Token) :
    Except ParseError (Expr × List Token) :=
  match ts with
  | .question :: ts => do
    let (yes, ts) ← expression depth ts
    let ts ← expect .colon ts
    let (no, ts) ← expression depth ts
    pure (.conditional condition yes no, ts)
  | ts => pure (condition, ts)

theorem ternary_eq (depth : Nat) (ts : List Token) :
    ternary depth ts = chain .or depth ts >>= fun p => branches depth p.1 p.2 := by
  rw [ternary]
  rfl

theorem branches_of_no_question {condition : Expr} (h : ts.head? ≠ some .question) :
    branches depth condition ts = .ok (condition, ts) := by
  rw [branches.eq_def]
  split
  · exact absurd rfl h
  · rfl

theorem expression_eq (depth : Nat) (ts : List Token) :
    expression depth ts = demand 1 depth (chain .or (depth - 1) ts >>=
      fun p => branches (depth - 1) p.1 p.2) := by
  cases depth with
  | zero =>
    rw [expression.eq_def]
    rfl
  | succ depth =>
    rw [expression.eq_def, demand_of_le (Nat.succ_pos depth), Nat.add_sub_cancel, ← ternary_eq]

end Parser
end Stencil.Expr
