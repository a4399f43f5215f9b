import Stencil.Proofs.Expr.Completeness

namespace Stencil

namespace Expr

mutual

/-- The names that an expression looks up, on whichever way through it. -/
def names : Expr → List Text
  | .null => []
  | .bool _ => []
  | .number _ => []
  | .string _ => []
  | .ident name => [name]
  | .list items => itemNames items
  | .member target _ => names target
  | .index target position => names target ++ names position
  | .unary _ operand => names operand
  | .binary _ left right => names left ++ names right
  | .logical _ left right => names left ++ names right
  | .conditional condition yes no => names condition ++ (names yes ++ names no)

def itemNames : List Expr → List Text
  | [] => []
  | e :: es => names e ++ itemNames es

end

variable {s t : Scope}

mutual

/-- An expression comes to the same where the names that it looks up are bound alike. -/
theorem eval?_congr : ∀ e : Expr, (∀ name ∈ e.names, s.find? name = t.find? name) →
    e.eval? s = e.eval? t
  | .null, _ => rfl
  | .bool _, _ => rfl
  | .number _, _ => rfl
  | .string _, _ => rfl
  | .ident name, h => h name (List.mem_singleton_self name)
  | .list items, h => by
    have hitems : evalItems? s items = evalItems? t items := evalItems?_congr items h
    rw [eval?, eval?, hitems]
  | .member target name, h => by
    have htarget : target.eval? s = target.eval? t := eval?_congr target h
    rw [eval?, eval?, htarget]
  | .index target position, h => by
    obtain ⟨ht, hp⟩ := List.forall_mem_append.1 h
    have htarget : target.eval? s = target.eval? t := eval?_congr target ht
    have hposition : position.eval? s = position.eval? t := eval?_congr position hp
    rw [eval?, eval?, htarget, hposition]
  | .unary op operand, h => by
    have hoperand : operand.eval? s = operand.eval? t := eval?_congr operand h
    rw [eval?, eval?, hoperand]
  | .binary op left right, h => by
    obtain ⟨hl, hr⟩ := List.forall_mem_append.1 h
    have hleft : left.eval? s = left.eval? t := eval?_congr left hl
    have hright : right.eval? s = right.eval? t := eval?_congr right hr
    rw [eval?, eval?, hleft, hright]
  | .logical op left right, h => by
    obtain ⟨hl, hr⟩ := List.forall_mem_append.1 h
    have hleft : left.eval? s = left.eval? t := eval?_congr left hl
    have hright : right.eval? s = right.eval? t := eval?_congr right hr
    rw [eval?, eval?, hleft, hright]
  | .conditional condition yes no, h => by
    obtain ⟨hc, hbranches⟩ := List.forall_mem_append.1 h
    obtain ⟨hy, hn⟩ := List.forall_mem_append.1 hbranches
    have hcondition : condition.eval? s = condition.eval? t := eval?_congr condition hc
    have hyes : yes.eval? s = yes.eval? t := eval?_congr yes hy
    have hno : no.eval? s = no.eval? t := eval?_congr no hn
    rw [eval?, eval?, hcondition, hyes, hno]

theorem evalItems?_congr : ∀ es : List Expr,
    (∀ name ∈ itemNames es, s.find? name = t.find? name) → evalItems? s es = evalItems? t es
  | [], _ => rfl
  | e :: es, h => by
    obtain ⟨he, hes⟩ := List.forall_mem_append.1 h
    have hfirst : e.eval? s = e.eval? t := eval?_congr e he
    have hrest : evalItems? s es = evalItems? t es := evalItems?_congr es hes
    rw [evalItems?, evalItems?, hfirst, hrest]

end

end Expr

namespace Token

/-- A name stands among tokens, and no dot in front of it makes it a member. -/
def Mentioned (name : Text) (ts : List Token) : Prop :=
  ∃ before after, ts = before ++ .ident name :: after ∧ before.getLast? ≠ some .dot

variable {name : Text} {ts us : List Token} {t : Token}

@[simp] theorem not_mentioned_nil : ¬ Mentioned name [] := by
  rintro ⟨before, after, hts, -⟩
  simp at hts

/-- Tokens that do not end in a dot decide nothing about those behind them. -/
theorem mentioned_append_iff (h : ts.getLast? ≠ some .dot) :
    Mentioned name (ts ++ us) ↔ Mentioned name ts ∨ Mentioned name us := by
  constructor
  · rintro ⟨before, after, hall, hdot⟩
    rcases List.append_eq_append_iff.1 hall with ⟨cs, rfl, hus⟩ | ⟨cs, rfl, hcs⟩
    · right
      refine ⟨cs, after, hus, fun hlast => hdot ?_⟩
      rw [List.getLast?_append, hlast]
      rfl
    · cases cs with
      | nil => exact .inr ⟨[], after, hcs.symm, by simp⟩
      | cons c cs =>
        obtain ⟨rfl, rfl⟩ := List.cons_eq_cons.1 hcs
        exact .inl ⟨before, cs, rfl, hdot⟩
  · rintro (⟨before, after, rfl, hdot⟩ | ⟨before, after, rfl, hdot⟩)
    · exact ⟨before, after ++ us, by simp, hdot⟩
    · refine ⟨ts ++ before, after, by simp, ?_⟩
      rw [List.getLast?_append]
      cases hlast : before.getLast? with
      | none => exact h
      | some u => rwa [hlast] at hdot

theorem mentioned_cons_iff (h : t ≠ .dot) :
    Mentioned name (t :: us) ↔ t = .ident name ∨ Mentioned name us := by
  have hone : Mentioned name [t] ↔ t = .ident name := by
    constructor
    · rintro ⟨before, after, hts, -⟩
      rcases List.singleton_eq_append_iff.1 hts with ⟨-, hcons⟩ | ⟨-, hcons⟩
      · exact (List.cons_eq_cons.1 hcons).1.symm
      · simp at hcons
    · rintro rfl
      exact ⟨[], [], rfl, by simp⟩
  have hlast : [t].getLast? ≠ some .dot := by simpa using h
  rw [← List.singleton_append, mentioned_append_iff hlast, hone]

theorem not_mentioned_member {member : Text} : ¬ Mentioned name [.dot, .ident member] := by
  rintro ⟨before, after, hts, hdot⟩
  rcases before with _ | ⟨a, _ | ⟨b, before⟩⟩
  · simp at hts
  · obtain ⟨rfl, -⟩ := List.cons_eq_cons.1 hts
    exact hdot rfl
  · simp at hts

theorem getLast?_append_cons_ne_dot (ts : List Token) (ht : t ≠ .dot)
    (hus : us.getLast? ≠ some .dot) :
    (ts ++ t :: us).getLast? ≠ some .dot := by
  rw [List.getLast?_append, List.getLast?_cons]
  cases hlast : us.getLast? with
  | none => simpa using ht
  | some u => simpa [hlast] using hus

end Token

theorem UnaryOp.token_ne_dot (op : UnaryOp) : op.token ≠ .dot := by
  cases op <;> decide

namespace Expr

open Token

theorem Joins.not_member {level : Level} {t : Token} {join : Expr → Expr → Expr}
    (h : Joins level t join) : t ≠ .dot ∧ ∀ name, t ≠ .ident name := by
  cases h with
  | binary op => cases op <;> simp [BinaryOp.token]
  | logical op => cases op <;> simp [LogicalOp.token]

theorem Joins.names_eq {level : Level} {t : Token} {join : Expr → Expr → Expr}
    (h : Joins level t join) (left right : Expr) :
    (join left right).names = left.names ++ right.names := by
  cases h <;> rfl

/-- No phrase ends in a dot. -/
theorem Derives.getLast?_ne_dot {phrase : Phrase} {ts : List Token} {e : Expr}
    (h : Derives phrase ts e) : ts.getLast? ≠ some .dot := by
  induction h with
  | leaf h => cases h <;> simp
  | @group ts => exact getLast?_append_cons_ne_dot (.parenOpen :: ts) (by simp) (by simp)
  | @list ts => exact getLast?_append_cons_ne_dot (.bracketOpen :: ts) (by simp) (by simp)
  | noItems => simp
  | lastItem _ ih => exact ih
  | item _ _ _ ih => exact getLast?_append_cons_ne_dot _ (by simp) ih
  | alone _ ih => exact ih
  | member => simp
  | index =>
    apply getLast?_append_cons_ne_dot _ (by simp)
    exact getLast?_append_cons_ne_dot _ (by simp) (by simp)
  | plain _ ih => exact ih
  | unary op _ ih => exact getLast?_append_cons_ne_dot [] op.token_ne_dot ih
  | operand _ ih => exact ih
  | link _ hj _ _ ih => exact getLast?_append_cons_ne_dot _ hj.not_member.1 ih
  | condition _ ih => exact ih
  | conditional _ _ _ _ _ ih =>
    apply getLast?_append_cons_ne_dot _ (by simp)
    exact getLast?_append_cons_ne_dot _ (by simp) ih

/-- A phrase looks up the names that its tokens mention, and no others. -/
theorem Derives.mem_names_iff {phrase : Phrase} {ts : List Token} {e : Expr}
    (h : Derives phrase ts e) (name : Text) : name ∈ e.names ↔ Mentioned name ts := by
  induction h with
  | leaf h =>
    cases h <;> simp [names, mentioned_cons_iff, eq_comm]
  | group h ih =>
    rw [mentioned_cons_iff (by simp), mentioned_append_iff h.getLast?_ne_dot, ih]
    simp [mentioned_cons_iff]
  | list h ih =>
    rw [mentioned_cons_iff (by simp), mentioned_append_iff h.getLast?_ne_dot, ih]
    simp [mentioned_cons_iff]
  | noItems => simp [names, itemNames]
  | lastItem _ ih => simpa [names, itemNames] using ih
  | @item ts us e es h _ ih ihs =>
    have hall : (Expr.list (e :: es)).names = e.names ++ (Expr.list es).names := rfl
    rw [hall, List.mem_append, ih, ihs, mentioned_append_iff h.getLast?_ne_dot,
      mentioned_cons_iff (by simp)]
    simp
  | alone _ ih => exact ih
  | member member h ih =>
    rw [mentioned_append_iff h.getLast?_ne_dot, or_iff_left not_mentioned_member]
    exact ih
  | @index ts us e position h hp ih ihp =>
    rw [names, List.mem_append, ih, ihp, mentioned_append_iff h.getLast?_ne_dot,
      mentioned_cons_iff (by simp), mentioned_append_iff hp.getLast?_ne_dot]
    simp [mentioned_cons_iff]
  | plain _ ih => exact ih
  | unary op _ ih =>
    have hop : op.token ≠ .ident name := by cases op <;> simp [UnaryOp.token]
    rw [mentioned_cons_iff op.token_ne_dot, or_iff_right hop]
    exact ih
  | operand _ ih => exact ih
  | @link level ts t us left right join hl hj _ ihl ihr =>
    obtain ⟨hdot, hident⟩ := hj.not_member
    rw [hj.names_eq, List.mem_append, ihl, ihr, mentioned_append_iff hl.getLast?_ne_dot,
      mentioned_cons_iff hdot, or_iff_right (hident name)]
  | condition _ ih => exact ih
  | @conditional ts us vs condition yes no hc hy _ ihc ihy ihn =>
    rw [names, List.mem_append, List.mem_append, ihc, ihy, ihn,
      mentioned_append_iff hc.getLast?_ne_dot, mentioned_cons_iff (by simp),
      mentioned_append_iff hy.getLast?_ne_dot, mentioned_cons_iff (by simp)]
    simp

end Expr

/-- A name is one of the tokens of a source, and no dot in front of it makes it a member. -/
def Mentions (source name : Text) : Prop :=
  ∃ tokens, Token.tokenize source = .ok tokens ∧ Token.Mentioned name (tokens.map (·.1))

/-- A source looks up the names that it mentions. -/
theorem Expr.mem_names_iff {source : Text} {e : Expr} (h : parse source = .ok (some e))
    (name : Text) : name ∈ e.names ↔ Mentions source name := by
  obtain ⟨tokens, htokens, hread⟩ := parse_eq_ok_iff.1 h
  have hderives : Derives .expression (tokens.map (·.1)) e :=
    derives_of_ofTokens (ofTokens_eq_ok_iff.2 hread)
  rw [hderives.mem_names_iff]
  constructor
  · intro hname
    exact ⟨tokens, htokens, hname⟩
  · rintro ⟨others, hothers, hname⟩
    obtain rfl : tokens = others := by
      rw [htokens] at hothers
      exact Except.ok.inj hothers
    exact hname

theorem evaluate?_of_agree {source : Text} {s t : Scope}
    (h : ∀ name, Mentions source name → s.find? name = t.find? name) :
    evaluate? source s = evaluate? source t := by
  unfold evaluate?
  cases hp : Expr.parse source with
  | error err => rfl
  | ok parsed =>
    cases parsed with
    | none => rfl
    | some e => exact e.eval?_congr fun name hname => h name ((Expr.mem_names_iff hp name).1 hname)

/-- Scopes that agree on the names that a source mentions give it the same value. -/
theorem evaluate?_congr (source : Text) :
    (∀ s t : Scope, (∀ name, Mentions source name → s.find? name = t.find? name) →
      evaluate? source s = evaluate? source t) ∧
    ∀ name, ¬ Mentions source name → ∀ (s : Scope) (value : Value),
      evaluate? source (s.insert name value) = evaluate? source s := by
  refine ⟨fun s t h => evaluate?_of_agree h, fun name hname s value => ?_⟩
  apply evaluate?_of_agree
  intro other hother
  have hne : name ≠ other := by
    rintro rfl
    exact hname hother
  rw [Scope.find?_insert, if_neg hne]

/-- A member and a string, and scopes that bind their names to different values. -/
theorem evaluate?_congr_member :
    let source := "x.y + 'z'".toList
    let s := (Scope.empty.insert ['x'] (.map [(['y'], .bool true)])).insert ['y'] (.string ['v'])
    let t := (s.insert ['y'] .null).insert ['z'] (.bool false)
    (∀ name, Mentions source name → s.find? name = t.find? name) ∧
      ¬ Mentions source ['y'] ∧ s.find? ['y'] ≠ t.find? ['y'] ∧
      evaluate? source s = evaluate? source t ∧
      evaluate? source (t.insert ['y'] (.bool true)) = evaluate? source t := by
  intro source s t
  have hsource : Token.tokenize source = .ok [(.ident ['x'], ⟨0, 1⟩), (.dot, ⟨1, 2⟩),
      (.ident ['y'], ⟨2, 3⟩), (.plus, ⟨4, 5⟩), (.string ['z'], ⟨6, 9⟩)] := by
    simp [source, Token.tokenize, Token.scan, Token.read, Token.isSpace, Token.isNameStart,
      Token.isNamePart, Token.ofName, Token.ofChar?, Number.isDigit, Number.digit?, Literal.extent,
      Literal.unquote, Text.size, Char.utf8Size]
  have hmentions : ∀ {name}, Mentions source name → name = ['x'] := by
    rintro name ⟨tokens, htokens, hname⟩
    obtain rfl := Except.ok.inj (hsource.symm.trans htokens)
    have hbehind : ¬ Token.Mentioned name ([.dot, .ident ['y']] ++ [.plus, .string ['z']]) := by
      rw [Token.mentioned_append_iff (by simp), or_iff_right Token.not_mentioned_member]
      simp [Token.mentioned_cons_iff]
    have hall := (Token.mentioned_cons_iff (by simp)).1 hname
    simpa [eq_comm] using hall.resolve_right hbehind
  have hagree : ∀ name, Mentions source name → s.find? name = t.find? name := by
    intro name hname
    obtain rfl := hmentions hname
    rfl
  have hmember : ¬ Mentions source ['y'] := fun h => by simpa using hmentions h
  obtain ⟨hcongr, hother⟩ := evaluate?_congr source
  refine ⟨hagree, hmember, ?_, hcongr s t hagree, hother ['y'] hmember t (.bool true)⟩
  have hs : s.find? ['y'] = some (.string ['v']) := rfl
  have ht : t.find? ['y'] = some .null := rfl
  rw [hs, ht]
  simp

end Stencil
