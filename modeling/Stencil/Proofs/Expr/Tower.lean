import Stencil.Proofs.Expr.Height
import Stencil.Proofs.Expr.Spelling

namespace Stencil.Expr

/-- An expression is so high, and its evaluation goes down as far in every scope. -/
def Deep (h : Nat) (e : Expr) : Prop := e.height ≤ h ∧ ∀ scope, h ≤ e.evalDepth scope

namespace Deep

variable {h : Nat} {e : Expr}

theorem evalDepth_eq (he : Deep h e) (scope : Scope) : e.evalDepth scope = h := by
  have hle := evalDepth_le_height scope e
  have hge := he.2 scope
  have hh := he.1
  omega

theorem height_eq (he : Deep h e) : e.height = h := by
  have hle := evalDepth_le_height .empty e
  have hge := he.2 .empty
  have hh := he.1
  omega

theorem ident (name : Text) : Deep 1 (.ident name) :=
  ⟨Nat.le_refl _, fun _ => Nat.le_refl _⟩

theorem list (he : Deep h e) : Deep (h + 1) (.list [e]) := by
  refine ⟨?_, fun scope => ?_⟩
  · have hh := he.1
    simp only [height, heightItems]
    omega
  · have hd := he.2 scope
    simp only [evalDepth, evalDepthItems]
    omega

theorem member (he : Deep h e) (name : Text) : Deep (h + 1) (.member e name) :=
  ⟨Nat.succ_le_succ he.1, fun scope => Nat.succ_le_succ (he.2 scope)⟩

theorem unary (he : Deep h e) (op : UnaryOp) : Deep (h + 1) (.unary op e) :=
  ⟨Nat.succ_le_succ he.1, fun scope => Nat.succ_le_succ (he.2 scope)⟩

theorem evalDepth_joined? {level : Level} {t : Token} {join : Expr → Expr → Expr}
    (hj : joined? level t = some join) (scope : Scope) (left right : Expr) :
    left.evalDepth scope + 1 ≤ (join left right).evalDepth scope := by
  have hmax : ∀ a b : Nat, a + 1 ≤ max a b + 1 := fun a b => Nat.succ_le_succ (Nat.le_max_left a b)
  cases level <;> cases t <;> simp [joined?] at hj <;> subst hj <;> exact hmax _ _

/-- The left operand of a link is evaluated first. -/
theorem joined? {level : Level} {t : Token} {join : Expr → Expr → Expr}
    (hj : Expr.joined? level t = some join) (he : Deep h e) {right : Expr}
    (hr : right.height ≤ h) : Deep (h + 1) (join e right) := by
  refine ⟨?_, fun scope => ?_⟩
  · have hh := he.1
    rw [Parser.height_joined? hj]
    omega
  · have hd := he.2 scope
    have hj' := evalDepth_joined? hj scope e right
    omega

theorem conditional (he : Deep h e) {yes no : Expr} (hy : yes.height ≤ h) (hn : no.height ≤ h) :
    Deep (h + 1) (.conditional e yes no) := by
  refine ⟨?_, fun scope => ?_⟩
  · have hh := he.1
    simp only [height]
    omega
  · have hd := he.2 scope
    simp only [evalDepth]
    omega

end Deep

def name : Text := ['x']

/-- A token and the name, so many times, in front of further tokens. -/
def repeated (t : Token) : Nat → List Token → List Token
  | 0, rest => rest
  | n + 1, rest => t :: .ident name :: repeated t n rest

/-- An operator of each level. -/
def sign : Level → Token
  | .or => .or
  | .and => .and
  | .equality => .equal
  | .comparison => .less
  | .additive => .plus
  | .multiplicative => .star

/-- So many links of each level that is tighter than the given one, in front of further tokens. -/
def tighterLinks (n : Nat) (level : Level) (rest : List Token) : List Token :=
  match h : level.tighter? with
  | none => rest
  | some tighter =>
    have := Level.above_of_tighter? h
    tighterLinks n tighter (repeated (sign tighter) n rest)
termination_by level.above

/-- An expression with so many levels, in front of further tokens. -/
def tower : Nat → List Token → List Token
  | 0, rest => rest
  | 1, rest => .ident name :: rest
  | n + 2, rest =>
    .bracketOpen :: tower (n + 1) (.bracketClose :: repeated .dot (n + 1)
      (tighterLinks (n + 1) .or (repeated (sign .or) (n + 1)
        (.question :: .ident name :: .colon :: .ident name :: rest))))

theorem joined?_sign (level : Level) : ∃ join, joined? level (sign level) = some join := by
  cases level <;> exact ⟨_, rfl⟩

theorem stops_sign (level : Level) (ts : List Token) : Stops level.above (sign level :: ts) := by
  obtain ⟨join, hj⟩ := joined?_sign level
  exact stops_of_joined? hj ts

theorem stops_repeated {level : Level} {m : Nat} {rest : List Token} (hm : m ≤ level.above)
    (hs : Stops m rest) (n : Nat) : Stops m (repeated (sign level) n rest) := by
  cases n with
  | zero => exact hs
  | succ n => exact (stops_sign level _).mono hm

theorem tighterLinks_of_tighter? {n : Nat} {level tighter : Level} {rest : List Token}
    (h : level.tighter? = some tighter) :
    tighterLinks n level rest = tighterLinks n tighter (repeated (sign tighter) n rest) := by
  rw [tighterLinks.eq_def]
  split
  · next hn => simp [h] at hn
  · next m hm =>
    obtain rfl : m = tighter := by simpa [h] using hm.symm
    rfl

theorem tighterLinks_multiplicative {n : Nat} {rest : List Token} :
    tighterLinks n .multiplicative rest = rest := by
  rw [tighterLinks.eq_def]
  rfl

theorem stops_tighterLinks (n : Nat) (level : Level) {rest : List Token} (hs : Stops 0 rest) :
    Stops 0 (tighterLinks n level rest) := by
  induction level using Level.byTighter generalizing rest with
  | tightest =>
    rw [tighterLinks_multiplicative]
    exact hs
  | looser level tighter ht ih =>
    rw [tighterLinks_of_tighter? ht]
    exact ih (stops_repeated (Nat.zero_le _) hs n)

namespace Parser

variable {depth n h : Nat} {e : Expr} {ts rest : List Token}

theorem accesses_repeated (hn : n ≤ depth) (he : Deep h e) (hs : Stops 0 rest) :
    ∃ e', accesses depth e (repeated .dot n rest) = .ok (e', rest) ∧ Deep (h + n) e' := by
  induction n generalizing depth h e with
  | zero => exact ⟨e, accesses_of_stops hs e, he⟩
  | succ n ih =>
    obtain ⟨d, rfl⟩ : ∃ d, depth = d + 1 := ⟨depth - 1, by omega⟩
    obtain ⟨e', ha, hd⟩ := ih (Nat.le_of_succ_le_succ hn) (he.member name)
    refine ⟨e', ?_, by rwa [Nat.add_right_comm] at hd⟩
    rw [repeated, accesses_member]
    exact ha

theorem links_repeated {level : Level} (hn : n ≤ depth) (he : Deep h e) (hpos : 0 < h)
    (hs : Stops (level.above + 1) rest) :
    ∃ e', links level depth e (repeated (sign level) n rest) = .ok (e', rest) ∧
      Deep (h + n) e' := by
  induction n generalizing depth h e with
  | zero => exact ⟨e, links_of_stops hs (Nat.lt_succ_self _) e, he⟩
  | succ n ih =>
    obtain ⟨d, rfl⟩ : ∃ d, depth = d + 1 := ⟨depth - 1, by omega⟩
    obtain ⟨join, hj⟩ := joined?_sign level
    have hright : operand level d (.ident name :: repeated (sign level) n rest) =
        .ok (.ident name, repeated (sign level) n rest) :=
      operand_leaf level rfl (stops_repeated (Nat.le_refl _) (hs.mono (Nat.le_succ _)) n)
    have hlink : Deep (h + 1) (join e (.ident name)) := he.joined? hj hpos
    obtain ⟨e', hl, hd⟩ := ih (Nat.le_of_succ_le_succ hn) hlink (Nat.succ_pos h)
    refine ⟨e', ?_, by rwa [Nat.add_right_comm] at hd⟩
    rw [repeated, links_of_joined? hj hright]
    exact hl

/-- The links of all tighter levels belong to an operand. -/
theorem operand_tighterLinks (level : Level) (hpos : 0 < h) (he : Deep h e)
    (hu : unary depth ts = .ok (e, tighterLinks depth level rest)) (hs : Stops level.above rest) :
    ∃ e', operand level depth ts = .ok (e', rest) ∧ Deep (h + depth * level.above) e' := by
  induction level using Level.byTighter generalizing rest with
  | tightest =>
    rw [tighterLinks_multiplicative] at hu
    exact ⟨e, by rw [operand_multiplicative, hu], he⟩
  | looser level tighter ht ih =>
    have habove := Level.above_eq_of_tighter? ht
    have hs' : Stops (tighter.above + 1) rest := habove ▸ hs
    rw [tighterLinks_of_tighter? ht] at hu
    obtain ⟨e₁, hoperand, hdeep⟩ :=
      ih hu (stops_repeated (Nat.le_refl _) (hs'.mono (Nat.le_succ _)) depth)
    obtain ⟨e₂, hlinks, hdeep'⟩ := links_repeated (Nat.le_refl depth) hdeep (by omega) hs'
    refine ⟨e₂, ?_, ?_⟩
    · rw [operand_of_tighter? ht, chain_of_operand hoperand, hlinks]
    · rwa [habove, Nat.mul_succ, ← Nat.add_assoc]

end Parser

theorem head_tower (n : Nat) (rest : List Token) :
    (tower (n + 1) rest).head? ≠ some .bracketClose := by
  cases n with
  | zero => simp [tower]
  | succ n => simp [tower]

/-- A tower is read with its levels and is as high as anything that is read with them. -/
theorem expression_tower (n : Nat) {rest : List Token}
    (hr : rest = [] ∨ ∃ ts, rest = .bracketClose :: ts) :
    ∃ e, Parser.expression (n + 1) (tower (n + 1) rest) = .ok (e, rest) ∧
      Deep (tallest (n + 1)) e := by
  have hstops : Stops 6 rest := by
    rcases hr with rfl | ⟨ts, rfl⟩
    · trivial
    · exact stops_of_closing (by simp) 6 ts
  have hq : rest.head? ≠ some .question := by
    rcases hr with rfl | ⟨ts, rfl⟩ <;> simp
  induction n generalizing rest with
  | zero => exact ⟨.ident name, Parser.expression_leaf rfl hstops hq, Deep.ident name⟩
  | succ n ih =>
    let question := .question :: .ident name :: .colon :: .ident name :: rest
    have hquestion : Stops 6 question := stops_of_closing (by simp) 6 _
    let operators := tighterLinks (n + 1) .or (repeated (sign .or) (n + 1) question)
    have hoperators : Stops 0 operators :=
      stops_tighterLinks _ _ (stops_repeated (Nat.zero_le _) (hquestion.mono (Nat.zero_le _)) _)
    have hclose : Stops 6 (.bracketClose :: repeated .dot (n + 1) operators) :=
      stops_of_closing (by simp) 6 _
    obtain ⟨e₀, hinner, hdeep₀⟩ := ih (.inr ⟨repeated .dot (n + 1) operators, rfl⟩) hclose (by simp)
    obtain ⟨e₁, haccesses, hdeep₁⟩ :=
      Parser.accesses_repeated (Nat.le_refl (n + 1)) hdeep₀.list hoperators
    have hunary : Parser.unary (n + 1) (tower (n + 2) rest) = .ok (e₁, operators) := by
      have hlist := Parser.primary_list (head_tower n _) (Parser.items_last hinner)
      rw [tower, Parser.unary_of_primary rfl hlist]
      exact haccesses
    obtain ⟨e₂, hoperand, hdeep₂⟩ := Parser.operand_tighterLinks .or (by omega) hdeep₁ hunary
      (stops_repeated (Nat.le_refl _) (hquestion.mono (by decide)) _)
    have hor : Stops (Level.above .or + 1) question := hquestion
    obtain ⟨e₃, hlinks, hdeep₃⟩ :=
      Parser.links_repeated (Nat.le_refl (n + 1)) hdeep₂ (by omega) hor
    have hyes : Parser.expression (n + 1) (.ident name :: .colon :: .ident name :: rest) =
        .ok (.ident name, .colon :: .ident name :: rest) :=
      Parser.expression_leaf rfl (stops_of_closing (by simp) 6 _) (by simp)
    have hno : Parser.expression (n + 1) (.ident name :: rest) = .ok (.ident name, rest) :=
      Parser.expression_leaf rfl hstops hq
    have hname : (Expr.ident name).height ≤
        tallest (n + 1) + 1 + (n + 1) + (n + 1) * Level.above .or + (n + 1) := by
      simp only [height]
      omega
    have hdeep := hdeep₃.conditional hname hname
    refine ⟨.conditional e₃ (.ident name) (.ident name), ?_, ?_⟩
    · have hcondition : Parser.chain .or (n + 1) (tower (n + 2) rest) = .ok (e₃, question) := by
        rw [Parser.chain_of_operand hoperand, hlinks]
      exact Parser.expression_of_branches hcondition hyes hno
    · have heq : tallest (n + 2) =
          tallest (n + 1) + 1 + (n + 1) + (n + 1) * Level.above .or + (n + 1) + 1 := by
        simp only [tallest, Level.above_or]
        omega
      rwa [heq]

theorem plain_name : (Token.ident name).Plain := ⟨⟨by decide, by simp⟩, by decide⟩

theorem plain_repeated {t : Token} (ht : t.Plain) {rest : List Token} (h : ∀ u ∈ rest, u.Plain)
    (n : Nat) : ∀ u ∈ repeated t n rest, u.Plain := by
  induction n with
  | zero => exact h
  | succ n ih => exact List.forall_mem_cons.2 ⟨ht, List.forall_mem_cons.2 ⟨plain_name, ih⟩⟩

theorem plain_sign (level : Level) : (sign level).Plain := by
  cases level <;> trivial

theorem plain_tighterLinks (n : Nat) (level : Level) {rest : List Token}
    (h : ∀ u ∈ rest, u.Plain) : ∀ u ∈ tighterLinks n level rest, u.Plain := by
  induction level using Level.byTighter generalizing rest with
  | tightest =>
    rw [tighterLinks_multiplicative]
    exact h
  | looser level tighter ht ih =>
    rw [tighterLinks_of_tighter? ht]
    exact ih (plain_repeated (plain_sign tighter) h n)

theorem plain_tower (n : Nat) {rest : List Token} (h : ∀ u ∈ rest, u.Plain) :
    ∀ u ∈ tower n rest, u.Plain := by
  induction n generalizing rest with
  | zero => exact h
  | succ n ih =>
    cases n with
    | zero => exact List.forall_mem_cons.2 ⟨plain_name, h⟩
    | succ n =>
      have hquestion :
          ∀ u ∈ Token.question :: .ident name :: .colon :: .ident name :: rest, u.Plain := by
        simp only [List.forall_mem_cons]
        exact ⟨trivial, plain_name, trivial, plain_name, h⟩
      have hoperators := plain_tighterLinks (n + 1) .or
        (plain_repeated (plain_sign .or) hquestion (n + 1))
      have haccesses := plain_repeated (t := .dot) trivial hoperators (n + 1)
      exact List.forall_mem_cons.2 ⟨trivial, ih (List.forall_mem_cons.2 ⟨trivial, haccesses⟩)⟩

end Stencil.Expr
