import Stencil.Expr.Eval
import Stencil.Proofs.Expr.Chain

/-!
How high parsed expressions are, and how deep their evaluation goes. The depth that is left bounds
every link of a chain and every access by itself, but each of them grows the tree around all that
stands to its left, which was read with the whole depth. So the height is bounded by a sum over the
levels of nesting, and not by their number.
-/
namespace Stencil.Expr

mutual

/-- How many calls of the evaluation of an expression are open at once. Operands that are not
evaluated do not count. -/
def evalDepth (scope : Scope) : Expr → Nat
  | .null => 1
  | .bool _ => 1
  | .number _ => 1
  | .string _ => 1
  | .ident _ => 1
  | .list items => evalDepthItems scope items + 1
  | .member target _ => evalDepth scope target + 1
  | .index target position =>
    max (evalDepth scope target)
      (if (eval? scope target).isSome then evalDepth scope position else 0) + 1
  | .unary _ operand => evalDepth scope operand + 1
  | .binary _ left right =>
    max (evalDepth scope left) (if (eval? scope left).isSome then evalDepth scope right else 0) + 1
  | .logical op left right =>
    max (evalDepth scope left)
      (if (eval? scope left).any (!op.decides ·) then evalDepth scope right else 0) + 1
  | .conditional condition yes no =>
    max (evalDepth scope condition)
      (match eval? scope condition with
        | none => 0
        | some v => if v.isTruthy then evalDepth scope yes else evalDepth scope no) + 1

def evalDepthItems (scope : Scope) : List Expr → Nat
  | [] => 0
  | e :: es =>
    max (evalDepth scope e) (if (eval? scope e).isSome then evalDepthItems scope es else 0)

end

mutual

/-- Evaluation goes no deeper than the tree. -/
theorem evalDepth_le_height (scope : Scope) : ∀ e : Expr, evalDepth scope e ≤ height e
  | .null => Nat.le_refl _
  | .bool _ => Nat.le_refl _
  | .number _ => Nat.le_refl _
  | .string _ => Nat.le_refl _
  | .ident _ => Nat.le_refl _
  | .list items => Nat.succ_le_succ (evalDepthItems_le_heightItems scope items)
  | .member target _ => Nat.succ_le_succ (evalDepth_le_height scope target)
  | .index target position => by
    have ht := evalDepth_le_height scope target
    have hp := evalDepth_le_height scope position
    simp only [evalDepth, height]
    split <;> omega
  | .unary _ operand => Nat.succ_le_succ (evalDepth_le_height scope operand)
  | .binary _ left right => by
    have hl := evalDepth_le_height scope left
    have hr := evalDepth_le_height scope right
    simp only [evalDepth, height]
    split <;> omega
  | .logical _ left right => by
    have hl := evalDepth_le_height scope left
    have hr := evalDepth_le_height scope right
    simp only [evalDepth, height]
    split <;> omega
  | .conditional condition yes no => by
    have hc := evalDepth_le_height scope condition
    have hy := evalDepth_le_height scope yes
    have hn := evalDepth_le_height scope no
    simp only [evalDepth, height]
    split
    · omega
    · split <;> omega

theorem evalDepthItems_le_heightItems (scope : Scope) :
    ∀ es : List Expr, evalDepthItems scope es ≤ heightItems es
  | [] => Nat.le_refl _
  | e :: es => by
    have he := evalDepth_le_height scope e
    have hes := evalDepthItems_le_heightItems scope es
    simp only [evalDepthItems, heightItems]
    split <;> omega

end

mutual

/-- Whether every node of an expression has a level left, where a node takes one from each of its
operands. The parser takes none from the left operand of a link, nor from the target of an access
or the condition of a question. -/
def fits : Nat → Expr → Bool
  | 0, _ => false
  | _ + 1, .null => true
  | _ + 1, .bool _ => true
  | _ + 1, .number _ => true
  | _ + 1, .string _ => true
  | _ + 1, .ident _ => true
  | n + 1, .list items => fitsItems n items
  | n + 1, .member target _ => fits n target
  | n + 1, .index target position => fits n target && fits n position
  | n + 1, .unary _ operand => fits n operand
  | n + 1, .binary _ left right => fits n left && fits n right
  | n + 1, .logical _ left right => fits n left && fits n right
  | n + 1, .conditional condition yes no => fits n condition && (fits n yes && fits n no)

def fitsItems : Nat → List Expr → Bool
  | _, [] => true
  | n, e :: es => fits n e && fitsItems n es

end

theorem height_pos (e : Expr) : 0 < e.height := by
  cases e <;> simp [height]

mutual

theorem fits_iff_height_le : ∀ (n : Nat) (e : Expr), fits n e ↔ e.height ≤ n
  | 0, e => by
    have hpos := height_pos e
    simp only [fits, Bool.false_eq_true, false_iff]
    omega
  | n + 1, .null => by simp [fits, height]
  | n + 1, .bool _ => by simp [fits, height]
  | n + 1, .number _ => by simp [fits, height]
  | n + 1, .string _ => by simp [fits, height]
  | n + 1, .ident _ => by simp [fits, height]
  | n + 1, .list items => by
    have hi := fitsItems_iff_heightItems_le n items
    simp only [fits, height, hi]
    omega
  | n + 1, .member target _ => by
    have ht := fits_iff_height_le n target
    simp only [fits, height, ht]
    omega
  | n + 1, .index target position => by
    have ht := fits_iff_height_le n target
    have hp := fits_iff_height_le n position
    simp only [fits, height, Bool.and_eq_true, ht, hp]
    omega
  | n + 1, .unary _ operand => by
    have ho := fits_iff_height_le n operand
    simp only [fits, height, ho]
    omega
  | n + 1, .binary _ left right => by
    have hl := fits_iff_height_le n left
    have hr := fits_iff_height_le n right
    simp only [fits, height, Bool.and_eq_true, hl, hr]
    omega
  | n + 1, .logical _ left right => by
    have hl := fits_iff_height_le n left
    have hr := fits_iff_height_le n right
    simp only [fits, height, Bool.and_eq_true, hl, hr]
    omega
  | n + 1, .conditional condition yes no => by
    have hc := fits_iff_height_le n condition
    have hy := fits_iff_height_le n yes
    have hn := fits_iff_height_le n no
    simp only [fits, height, Bool.and_eq_true, hc, hy, hn]
    omega

theorem fitsItems_iff_heightItems_le :
    ∀ (n : Nat) (es : List Expr), fitsItems n es ↔ heightItems es ≤ n
  | n, [] => by simp [fitsItems, heightItems]
  | n, e :: es => by
    have he := fits_iff_height_le n e
    have hes := fitsItems_iff_heightItems_le n es
    simp only [fitsItems, heightItems, Bool.and_eq_true, he, hes]
    omega

end

/-- The greatest height of an expression that is read with so many levels. Each level but the first
adds one node for the conditional and one for the list, and seven chains: the accesses and the
operators of six levels, each as long as the depth that is left. -/
def tallest : Nat → Nat
  | 0 => 0
  | 1 => 1
  | n + 2 => tallest (n + 1) + 7 * (n + 1) + 2

theorem tallest_le_succ (n : Nat) : tallest n ≤ tallest (n + 1) := by
  cases n with
  | zero => simp [tallest]
  | succ n =>
    rw [tallest]
    omega

theorem tallest_mono {m n : Nat} (h : m ≤ n) : tallest m ≤ tallest n := by
  induction h with
  | refl => exact Nat.le_refl _
  | step _ ih => exact Nat.le_trans ih (tallest_le_succ _)

/-- What is read, if anything is, has a property. -/
def Reads {α : Type} (P : α → Prop) (r : Except ParseError α) : Prop := ∀ a, r = .ok a → P a

section

variable {α β : Type} {P Q : α → Prop} {R : β → Prop}

theorem reads_error (err : ParseError) : Reads P (.error err) := by
  intro a h
  simp at h

theorem reads_ok {a : α} : Reads P (.ok a) ↔ P a := by
  constructor
  · intro h
    exact h a rfl
  · intro h b hb
    obtain rfl : a = b := by simpa using hb
    exact h

theorem reads_pure {a : α} : Reads P (pure a) ↔ P a := reads_ok

theorem Reads.mono {r : Except ParseError α} (h : Reads P r) (hPQ : ∀ a, P a → Q a) : Reads Q r :=
  fun a ha => hPQ a (h a ha)

theorem Reads.bind {r : Except ParseError α} (h : Reads P r) {f : α → Except ParseError β}
    (hf : ∀ a, P a → Reads R (f a)) : Reads R (r >>= f) := by
  cases r with
  | error err => exact reads_error err
  | ok a => exact hf a (reads_ok.1 h)

theorem expect_eq_ok_iff {token : Token} {ts rest : List Token} :
    expect token ts = .ok rest ↔ ts = token :: rest := by
  cases ts with
  | nil => simp [expect]
  | cons t ts =>
    simp only [expect]
    split
    · next h => simp [h]
    · next h => simp [h]

theorem reads_expect {token : Token} {ts : List Token} {f : List Token → Except ParseError β}
    (hf : ∀ rest, ts = token :: rest → Reads R (f rest)) : Reads R (expect token ts >>= f) := by
  cases h : expect token ts with
  | error err => exact reads_error err
  | ok rest => exact hf rest (expect_eq_ok_iff.1 h)

end

/-- An expression in front of further tokens is at most so high. -/
def Low (bound : Nat) (p : Expr × List Token) : Prop := p.1.height ≤ bound

theorem reads_low {bound : Nat} {e : Expr} {rest : List Token} :
    Reads (Low bound) (.ok (e, rest)) ↔ e.height ≤ bound := reads_ok

theorem Reads.low_of_le {bound more : Nat} {r : Except ParseError (Expr × List Token)}
    (h : Reads (Low bound) r) (hle : bound ≤ more) : Reads (Low more) r :=
  h.mono fun _ hp => Nat.le_trans hp hle

namespace Parser

variable {bound depth : Nat}

theorem reads_items {item : List Token → Except ParseError (Expr × List Token)}
    (h : ∀ ts, Reads (Low bound) (item ts)) (n : Nat) (ts : List Token) :
    Reads (fun p => heightItems p.1 ≤ bound) (items item n ts) := by
  induction n generalizing ts with
  | zero => exact reads_error _
  | succ n ih =>
    rw [items]
    refine (h ts).bind fun p he => ?_
    obtain ⟨e, us⟩ := p
    have height_le : e.height ≤ bound := he
    have hone : heightItems [e] ≤ bound := by simpa [heightItems] using height_le
    dsimp only
    split
    · exact reads_pure.2 hone
    · refine reads_expect fun vs _ => ?_
      split
      · exact reads_pure.2 hone
      · refine (ih _).bind fun p hes => ?_
        obtain ⟨es, ws⟩ := p
        refine reads_pure.2 ?_
        simp only [heightItems]
        exact Nat.max_le.2 ⟨he, hes⟩

theorem reads_accesses (hE : ∀ m < depth, ∀ ts, Reads (Low (tallest m)) (expression m ts))
    (target : Expr) (ts : List Token) :
    Reads (Low (max target.height (tallest depth) + depth)) (accesses depth target ts) := by
  induction depth generalizing target ts with
  | zero =>
    rw [accesses.eq_def]
    split
    · exact reads_error _
    · exact reads_error _
    · rw [reads_low]
      omega
  | succ depth ih =>
    have hmono := tallest_le_succ depth
    have hE' : ∀ m < depth, ∀ ts, Reads (Low (tallest m)) (expression m ts) :=
      fun m hm => hE m (Nat.lt_succ_of_lt hm)
    rw [accesses.eq_def]
    split
    · dsimp only
      split
      · next name us =>
        apply (ih hE' (.member target name) us).low_of_le
        simp only [height]
        omega
      · exact reads_error _
    · next us =>
      refine (hE depth (Nat.lt_succ_self _) us).bind fun p hp => ?_
      obtain ⟨position, vs⟩ := p
      refine reads_expect fun ws _ => ?_
      have hposition : position.height ≤ tallest depth := hp
      apply (ih hE' (.index target position) ws).low_of_le
      simp only [height]
      omega
    · rw [reads_low]
      omega

theorem height_of_leaf? {t : Token} {e : Expr} (h : leaf? t = some e) : e.height = 1 := by
  cases t <;> simp [leaf?] at h <;> subst h <;> rfl

theorem reads_primary (hE : ∀ ts, Reads (Low (tallest depth)) (expression depth ts))
    (ts : List Token) : Reads (Low (tallest depth + 1)) (primary depth ts) := by
  rw [primary.eq_def]
  split
  · exact reads_error _
  · next us =>
    refine (hE us).bind fun p he => ?_
    obtain ⟨e, vs⟩ := p
    refine reads_expect fun ws _ => ?_
    exact reads_low.2 (Nat.le_succ_of_le he)
  · rw [reads_low]
    simp [height, heightItems]
  · next us _ =>
    refine (reads_items hE _ us).bind fun p hes => ?_
    obtain ⟨es, vs⟩ := p
    exact reads_low.2 (Nat.succ_le_succ hes)
  · split
    · next e hl =>
      rw [reads_low, height_of_leaf? hl]
      omega
    · exact reads_error _

theorem reads_postfixed (hE : ∀ m ≤ depth, ∀ ts, Reads (Low (tallest m)) (expression m ts))
    (ts : List Token) : Reads (Low (tallest depth + depth + 1)) (postfixed depth ts) := by
  rw [postfixed]
  refine (reads_primary (hE depth (Nat.le_refl _)) ts).bind fun p he => ?_
  obtain ⟨e, us⟩ := p
  have height_le : e.height ≤ tallest depth + 1 := he
  apply (reads_accesses (fun m hm => hE m (Nat.le_of_lt hm)) e us).low_of_le
  omega

theorem reads_unary (hE : ∀ m ≤ depth, ∀ ts, Reads (Low (tallest m)) (expression m ts))
    (ts : List Token) : Reads (Low (tallest depth + depth + 1)) (unary depth ts) := by
  induction depth generalizing ts with
  | zero =>
    rw [unary.eq_def]
    split
    · exact reads_postfixed hE _
    · split
      · exact reads_postfixed hE _
      · exact reads_error _
  | succ depth ih =>
    have hmono := tallest_le_succ depth
    rw [unary.eq_def]
    split
    · exact reads_postfixed hE _
    · split
      · exact reads_postfixed hE _
      · refine (ih (fun m hm => hE m (Nat.le_succ_of_le hm)) _).bind fun p he => ?_
        obtain ⟨e, us⟩ := p
        have height_le : e.height ≤ tallest depth + depth + 1 := he
        apply reads_low.2
        simp only [height]
        omega

/-- How high an operand of a level can be: what the operators of the tighter levels add to a prefix
expression. -/
def operandBound (level : Level) (depth : Nat) : Nat :=
  tallest depth + depth + 1 + depth * level.above

theorem operandBound_le_succ (level : Level) (depth : Nat) :
    operandBound level depth ≤ operandBound level (depth + 1) := by
  have hmono := tallest_le_succ depth
  have hmul : depth * level.above ≤ (depth + 1) * level.above :=
    Nat.mul_le_mul_right _ (Nat.le_succ _)
  simp only [operandBound]
  omega

theorem height_joined? {level : Level} {t : Token} {join : Expr → Expr → Expr}
    (h : joined? level t = some join) (left right : Expr) :
    (join left right).height = max left.height right.height + 1 := by
  cases level <;> cases t <;> simp [joined?] at h <;> subst h <;> rfl

theorem reads_links {level : Level}
    (hO : ∀ m < depth, ∀ ts, Reads (Low (operandBound level m)) (operand level m ts))
    (left : Expr) (ts : List Token) :
    Reads (Low (max left.height (operandBound level depth) + depth))
      (links level depth left ts) := by
  induction depth generalizing left ts with
  | zero =>
    rw [links.eq_def]
    split
    · rw [reads_low]
      omega
    · split
      · rw [reads_low]
        omega
      · exact reads_error _
  | succ depth ih =>
    have hmono := operandBound_le_succ level depth
    rw [links.eq_def]
    split
    · rw [reads_low]
      omega
    · split
      · rw [reads_low]
        omega
      · next join hj =>
        refine (hO depth (Nat.lt_succ_self _) _).bind fun p hr => ?_
        obtain ⟨right, us⟩ := p
        have hright : right.height ≤ operandBound level depth := hr
        apply (ih (fun m hm => hO m (Nat.lt_succ_of_lt hm)) (join left right) us).low_of_le
        rw [height_joined? hj]
        omega

/-- What a level adds comes on top of what its operands reach. -/
theorem reads_chain {level : Level}
    (hO : ∀ m ≤ depth, ∀ ts, Reads (Low (operandBound level m)) (operand level m ts))
    (ts : List Token) : Reads (Low (operandBound level depth + depth)) (chain level depth ts) := by
  rw [chain]
  refine (hO depth (Nat.le_refl _) ts).bind fun p hl => ?_
  obtain ⟨left, us⟩ := p
  have hleft : left.height ≤ operandBound level depth := hl
  apply (reads_links (fun m hm => hO m (Nat.le_of_lt hm)) left us).low_of_le
  omega

theorem reads_operand (level : Level)
    (hE : ∀ m ≤ depth, ∀ ts, Reads (Low (tallest m)) (expression m ts)) (ts : List Token) :
    Reads (Low (operandBound level depth)) (operand level depth ts) := by
  induction level using Level.byTighter generalizing depth ts with
  | tightest =>
    rw [operand_multiplicative]
    apply (reads_unary hE ts).low_of_le
    simp only [operandBound]
    omega
  | looser level tighter ht ih =>
    have habove := Level.above_eq_of_tighter? ht
    have hO : ∀ m ≤ depth, ∀ ts, Reads (Low (operandBound tighter m)) (operand tighter m ts) :=
      fun m hm => ih fun k hk => hE k (Nat.le_trans hk hm)
    rw [operand_of_tighter? ht]
    apply (reads_chain hO ts).low_of_le
    simp only [operandBound, habove, Nat.mul_add, Nat.mul_one]
    omega

/-- No expression is higher than its levels of nesting allow. -/
theorem reads_expression (depth : Nat) (ts : List Token) :
    Reads (Low (tallest depth)) (expression depth ts) := by
  induction depth using Nat.strongRecOn generalizing ts with
  | ind depth ih =>
    cases depth with
    | zero =>
      rw [expression.eq_def]
      exact reads_error _
    | succ depth =>
      have hE : ∀ m ≤ depth, ∀ ts, Reads (Low (tallest m)) (expression m ts) :=
        fun m hm => ih m (Nat.lt_succ_of_le hm)
      have hO : ∀ m ≤ depth, ∀ ts, Reads (Low (operandBound .or m)) (operand .or m ts) :=
        fun m hm => reads_operand .or fun k hk => hE k (Nat.le_trans hk hm)
      have hchain : operandBound .or depth + depth = tallest depth + 7 * depth + 1 := by
        simp only [operandBound, Level.above_or]
        omega
      rw [expression.eq_def]
      dsimp only
      rw [ternary]
      refine (reads_chain hO ts).bind fun p hc => ?_
      obtain ⟨condition, us⟩ := p
      have hcondition : condition.height ≤ tallest depth + 7 * depth + 1 := hchain ▸ hc
      cases depth with
      | zero =>
        dsimp only
        split
        · -- No level is left for the branches.
          rw [expression.eq_def]
          exact reads_error _
        · exact reads_low.2 hcondition
      | succ depth =>
        have hbranch := hE (depth + 1) (Nat.le_refl _)
        dsimp only
        split
        · refine (hbranch _).bind fun p hy => ?_
          obtain ⟨yes, vs⟩ := p
          refine reads_expect fun ws _ => ?_
          refine (hbranch ws).bind fun p hn => ?_
          obtain ⟨no, xs⟩ := p
          have hyes : yes.height ≤ tallest (depth + 1) := hy
          have hno : no.height ≤ tallest (depth + 1) := hn
          apply reads_low.2
          simp only [height, tallest]
          omega
        · apply reads_low.2
          simp only [tallest]
          omega

end Parser
end Stencil.Expr
