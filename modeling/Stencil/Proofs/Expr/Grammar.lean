import Stencil.Proofs.Expr.Depth

namespace Stencil

def UnaryOp.token : UnaryOp → Token
  | .not => .bang
  | .negate => .minus
  | .plus => .plus

def BinaryOp.token : BinaryOp → Token
  | .add => .plus
  | .subtract => .minus
  | .multiply => .star
  | .divide => .slash
  | .remainder => .percent
  | .less => .less
  | .lessEqual => .lessEqual
  | .greater => .greater
  | .greaterEqual => .greaterEqual
  | .equal => .equal
  | .notEqual => .notEqual

def BinaryOp.level : BinaryOp → Expr.Level
  | .add | .subtract => .additive
  | .multiply | .divide | .remainder => .multiplicative
  | .less | .lessEqual | .greater | .greaterEqual => .comparison
  | .equal | .notEqual => .equality

def LogicalOp.token : LogicalOp → Token
  | .and => .and
  | .or => .or

def LogicalOp.level : LogicalOp → Expr.Level
  | .and => .and
  | .or => .or

namespace Expr

/-- A token between operands of a level, and what it makes of them. -/
inductive Joins : Level → Token → (Expr → Expr → Expr) → Prop
  | binary (op : BinaryOp) : Joins op.level op.token (.binary op)
  | logical (op : LogicalOp) : Joins op.level op.token (.logical op)

/-- A token that is an expression by itself. -/
inductive Leaf : Token → Expr → Prop
  | null : Leaf .null .null
  | true : Leaf .true (.bool true)
  | false : Leaf .false (.bool false)
  | number (x : Number) : Leaf (.number x) (.number x)
  | string (t : Text) : Leaf (.string t) (.string t)
  | ident (name : Text) : Leaf (.ident name) (.ident name)

/-- The kinds of phrases. Each but the items of a list holds all phrases of the kinds after it. -/
inductive Phrase
  | expression
  | chain (level : Level)
  | prefixed
  | accessed
  | single
  | items
  deriving DecidableEq

/-- What stands between the operators of a level. -/
def Level.operands : Level → Phrase
  | .or => .chain .and
  | .and => .chain .equality
  | .equality => .chain .comparison
  | .comparison => .chain .additive
  | .additive => .chain .multiplicative
  | .multiplicative => .prefixed

theorem Level.operands_of_tighter? {level tighter : Level} (h : level.tighter? = some tighter) :
    level.operands = .chain tighter := by
  cases level <;> cases h <;> rfl

/-- The grammar. A link goes to the right of a chain, so chains associate to the left; the branches
of a question are expressions again, so questions nest to the right. Items are derived as the list
that they make; there is a comma behind every item, which may be left out behind the last. -/
inductive Derives : Phrase → List Token → Expr → Prop
  | leaf {t e} (h : Leaf t e) : Derives .single [t] e
  | group {ts e} (h : Derives .expression ts e) :
      Derives .single (.parenOpen :: (ts ++ [.parenClose])) e
  | list {ts e} (h : Derives .items ts e) :
      Derives .single (.bracketOpen :: (ts ++ [.bracketClose])) e
  | noItems : Derives .items [] (.list [])
  | lastItem {ts e} (h : Derives .expression ts e) : Derives .items ts (.list [e])
  | item {ts us e es} (h : Derives .expression ts e) (hs : Derives .items us (.list es)) :
      Derives .items (ts ++ .comma :: us) (.list (e :: es))
  | alone {ts e} (h : Derives .single ts e) : Derives .accessed ts e
  | member {ts e} (name : Text) (h : Derives .accessed ts e) :
      Derives .accessed (ts ++ [.dot, .ident name]) (.member e name)
  | index {ts us e position} (h : Derives .accessed ts e)
      (hp : Derives .expression us position) :
      Derives .accessed (ts ++ .bracketOpen :: (us ++ [.bracketClose])) (.index e position)
  | plain {ts e} (h : Derives .accessed ts e) : Derives .prefixed ts e
  | unary {ts e} (op : UnaryOp) (h : Derives .prefixed ts e) :
      Derives .prefixed (op.token :: ts) (.unary op e)
  | operand {level ts e} (h : Derives (Level.operands level) ts e) : Derives (.chain level) ts e
  | link {level ts t us left right join} (hl : Derives (.chain level) ts left)
      (hj : Joins level t join) (hr : Derives (Level.operands level) us right) :
      Derives (.chain level) (ts ++ t :: us) (join left right)
  | condition {ts e} (h : Derives (.chain .or) ts e) : Derives .expression ts e
  | conditional {ts us vs condition yes no} (hc : Derives (.chain .or) ts condition)
      (hy : Derives .expression us yes) (hn : Derives .expression vs no) :
      Derives .expression (ts ++ .question :: (us ++ .colon :: vs)) (.conditional condition yes no)

theorem joins_iff {level : Level} {t : Token} {join : Expr → Expr → Expr} :
    Joins level t join ↔ joined? level t = some join := by
  constructor
  · intro h
    cases h with
    | binary op => cases op <;> rfl
    | logical op => cases op <;> rfl
  · intro h
    cases level <;> cases t <;> simp [joined?] at h <;> subst h <;>
      first
      | exact .binary .add | exact .binary .subtract | exact .binary .multiply
      | exact .binary .divide | exact .binary .remainder | exact .binary .less
      | exact .binary .lessEqual | exact .binary .greater | exact .binary .greaterEqual
      | exact .binary .equal | exact .binary .notEqual | exact .logical .and | exact .logical .or

theorem leaf_iff {t : Token} {e : Expr} : Leaf t e ↔ leaf? t = some e := by
  constructor
  · intro h
    cases h <;> rfl
  · intro h
    cases t <;> simp [leaf?] at h <;> subst h <;> constructor

theorem leadingOp?_eq_some_iff {t : Token} {op : UnaryOp} :
    leadingOp? t = some op ↔ t = op.token := by
  cases t <;> cases op <;> simp [leadingOp?, UnaryOp.token]

/-- What is read is derived from the tokens in front of the ones that are left. -/
def Spans (phrase : Phrase) (ts : List Token) (p : Expr × List Token) : Prop :=
  ∃ us, ts = us ++ p.2 ∧ Derives phrase us p.1

theorem reads_spans {phrase : Phrase} {us rest : List Token} {e : Expr}
    (h : Derives phrase us e) : Reads (Spans phrase (us ++ rest)) (.ok (e, rest)) :=
  reads_ok.2 ⟨us, rfl, h⟩

namespace Parser

variable {depth : Nat}

/-- What is read as an expression with at most so many levels is derived. -/
def SoundTo (depth : Nat) : Prop :=
  ∀ m ≤ depth, ∀ ts, Reads (Spans .expression ts) (expression m ts)

theorem SoundTo.mono {n : Nat} (h : SoundTo n) (hle : depth ≤ n) : SoundTo depth :=
  fun m hm => h m (Nat.le_trans hm hle)

theorem spans_items {item : List Token → Except ParseError (Expr × List Token)}
    (h : ∀ ts, Reads (Spans .expression ts) (item ts)) (n : Nat) (ts : List Token) :
    Reads (fun p => ∃ us, ts = us ++ .bracketClose :: p.2 ∧ Derives .items us (.list p.1))
      (items item n ts) := by
  induction n generalizing ts with
  | zero => exact reads_error _
  | succ n ih =>
    rw [items]
    refine (h ts).bind fun p hp => ?_
    obtain ⟨e, us⟩ := p
    obtain ⟨vs, rfl, he⟩ := hp
    dsimp only
    split
    · exact reads_pure.2 ⟨vs, rfl, .lastItem he⟩
    · refine reads_expect fun ws hw => ?_
      subst hw
      split
      · exact reads_pure.2 ⟨vs ++ [.comma], by simp, .item he .noItems⟩
      · refine (ih _).bind fun p hp => ?_
        obtain ⟨es, xs⟩ := p
        obtain ⟨ys, rfl, hes⟩ := hp
        exact reads_pure.2 ⟨vs ++ .comma :: ys, by simp, .item he hes⟩

theorem spans_accesses
    (hE : ∀ m < depth, ∀ ts, Reads (Spans .expression ts) (expression m ts))
    {us : List Token} {target : Expr} (ht : Derives .accessed us target) (ts : List Token) :
    Reads (Spans .accessed (us ++ ts)) (accesses depth target ts) := by
  induction depth generalizing us target ts with
  | zero =>
    rw [accesses.eq_def]
    split
    · exact reads_error _
    · exact reads_error _
    · exact reads_spans ht
  | succ depth ih =>
    have hE' : ∀ m < depth, ∀ ts, Reads (Spans .expression ts) (expression m ts) :=
      fun m hm => hE m (Nat.lt_succ_of_lt hm)
    rw [accesses.eq_def]
    split
    · dsimp only
      split
      · next name vs =>
        have hall : us ++ .dot :: .ident name :: vs = (us ++ [.dot, .ident name]) ++ vs := by simp
        rw [hall]
        exact ih hE' (.member name ht) vs
      · exact reads_error _
    · refine (hE depth (Nat.lt_succ_self _) _).bind fun p hp => ?_
      obtain ⟨position, vs⟩ := p
      obtain ⟨ws, rfl, hposition⟩ := hp
      refine reads_expect fun xs hx => ?_
      subst hx
      have hall : us ++ .bracketOpen :: (ws ++ .bracketClose :: xs) =
          (us ++ .bracketOpen :: (ws ++ [.bracketClose])) ++ xs := by simp
      dsimp only
      rw [hall]
      exact ih hE' (.index ht hposition) xs
    · exact reads_spans ht

theorem spans_primary (hE : ∀ ts, Reads (Spans .expression ts) (expression depth ts))
    (ts : List Token) : Reads (Spans .single ts) (primary depth ts) := by
  rw [primary.eq_def]
  split
  · exact reads_error _
  · refine (hE _).bind fun p hp => ?_
    obtain ⟨e, us⟩ := p
    obtain ⟨vs, rfl, he⟩ := hp
    refine reads_expect fun ws hw => ?_
    subst hw
    exact reads_pure.2 ⟨.parenOpen :: (vs ++ [.parenClose]), by simp, .group he⟩
  · exact reads_ok.2 ⟨[.bracketOpen, .bracketClose], rfl, .list .noItems⟩
  · refine (spans_items hE _ _).bind fun p hp => ?_
    obtain ⟨es, us⟩ := p
    obtain ⟨vs, rfl, hes⟩ := hp
    exact reads_pure.2 ⟨.bracketOpen :: (vs ++ [.bracketClose]), by simp, .list hes⟩
  · next t us _ _ _ =>
    split
    · next e hl => exact reads_ok.2 ⟨[t], rfl, .leaf (leaf_iff.2 hl)⟩
    · exact reads_error _

theorem spans_postfixed (hE : SoundTo depth) (ts : List Token) :
    Reads (Spans .accessed ts) (postfixed depth ts) := by
  rw [postfixed]
  refine (spans_primary (hE depth (Nat.le_refl _)) ts).bind fun p hp => ?_
  obtain ⟨e, us⟩ := p
  obtain ⟨vs, rfl, he⟩ := hp
  exact spans_accesses (fun m hm => hE m (Nat.le_of_lt hm)) (.alone he) us

theorem spans_plain (hE : SoundTo depth) (ts : List Token) :
    Reads (Spans .prefixed ts) (postfixed depth ts) :=
  (spans_postfixed hE ts).mono fun _ ⟨us, hts, he⟩ => ⟨us, hts, .plain he⟩

theorem spans_unary (hE : SoundTo depth) (ts : List Token) :
    Reads (Spans .prefixed ts) (unary depth ts) := by
  induction depth generalizing ts with
  | zero =>
    rw [unary.eq_def]
    split
    · exact spans_plain hE _
    · split
      · exact spans_plain hE _
      · exact reads_error _
  | succ depth ih =>
    rw [unary.eq_def]
    split
    · exact spans_plain hE _
    · split
      · exact spans_plain hE _
      · next op ht =>
        obtain rfl := leadingOp?_eq_some_iff.1 ht
        refine (ih (hE.mono (Nat.le_succ _)) _).bind fun p hp => ?_
        obtain ⟨e, us⟩ := p
        obtain ⟨vs, rfl, he⟩ := hp
        exact reads_pure.2 ⟨op.token :: vs, rfl, .unary op he⟩

theorem spans_links {level : Level}
    (hO : ∀ m < depth, ∀ ts, Reads (Spans level.operands ts) (operand level m ts))
    {us : List Token} {left : Expr} (hl : Derives (.chain level) us left) (ts : List Token) :
    Reads (Spans (.chain level) (us ++ ts)) (links level depth left ts) := by
  induction depth generalizing us left ts with
  | zero =>
    rw [links.eq_def]
    split
    · exact reads_spans hl
    · split
      · exact reads_spans hl
      · exact reads_error _
  | succ depth ih =>
    rw [links.eq_def]
    split
    · exact reads_spans hl
    · next t vs =>
      split
      · exact reads_spans hl
      · next join hj =>
        refine (hO depth (Nat.lt_succ_self _) _).bind fun p hp => ?_
        obtain ⟨right, ws⟩ := p
        obtain ⟨xs, rfl, hr⟩ := hp
        have hall : us ++ t :: (xs ++ ws) = (us ++ t :: xs) ++ ws := by simp
        dsimp only
        rw [hall]
        exact ih (fun m hm => hO m (Nat.lt_succ_of_lt hm)) (.link hl (joins_iff.2 hj) hr) ws

theorem spans_chain {level : Level}
    (hO : ∀ m ≤ depth, ∀ ts, Reads (Spans level.operands ts) (operand level m ts))
    (ts : List Token) : Reads (Spans (.chain level) ts) (chain level depth ts) := by
  rw [chain]
  refine (hO depth (Nat.le_refl _) ts).bind fun p hp => ?_
  obtain ⟨left, us⟩ := p
  obtain ⟨vs, rfl, hl⟩ := hp
  exact spans_links (fun m hm => hO m (Nat.le_of_lt hm)) (.operand hl) us

theorem spans_operand (level : Level) (hE : SoundTo depth) (ts : List Token) :
    Reads (Spans level.operands ts) (operand level depth ts) := by
  induction level using Level.byTighter generalizing depth ts with
  | tightest =>
    rw [operand_multiplicative]
    exact spans_unary hE ts
  | looser level tighter ht ih =>
    rw [operand_of_tighter? ht, Level.operands_of_tighter? ht]
    exact spans_chain (fun m hm => ih (hE.mono hm)) ts

theorem spans_expression (depth : Nat) (ts : List Token) :
    Reads (Spans .expression ts) (expression depth ts) := by
  -- All that is between brackets, and every branch, has fewer levels than the whole.
  induction depth using Nat.strongRecOn generalizing ts with
  | ind depth ih =>
    cases depth with
    | zero =>
      rw [expression.eq_def]
      exact reads_error _
    | succ depth =>
      have hE : SoundTo depth := fun m hm => ih m (Nat.lt_succ_of_le hm)
      have hbranch := hE depth (Nat.le_refl _)
      rw [expression.eq_def]
      dsimp only
      rw [ternary]
      have hchain := spans_chain (fun m hm => spans_operand .or (hE.mono hm)) ts
      refine hchain.bind fun p hp => ?_
      obtain ⟨condition, us⟩ := p
      obtain ⟨vs, rfl, hc⟩ := hp
      dsimp only
      split
      · refine (hbranch _).bind fun p hp => ?_
        obtain ⟨yes, ws⟩ := p
        obtain ⟨xs, rfl, hy⟩ := hp
        refine reads_expect fun ys hys => ?_
        subst hys
        refine (hbranch ys).bind fun p hp => ?_
        obtain ⟨no, rest⟩ := p
        obtain ⟨zs, rfl, hn⟩ := hp
        exact reads_pure.2
          ⟨vs ++ .question :: (xs ++ .colon :: zs), by simp, .conditional hc hy hn⟩
      · exact reads_pure.2 ⟨vs, rfl, .condition hc⟩

end Parser
end Expr
end Stencil
