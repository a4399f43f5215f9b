import Stencil.Proofs.Expr.Chain

namespace Stencil.Expr

/-- The second reading is the first one, or the first one lacked levels. -/
def Refines {α : Type} (r r' : Except ParseError α) : Prop := r = .error .tooDeep ∨ r' = r

section

variable {α β : Type} {r r' : Except ParseError α}

theorem refines_refl (r : Except ParseError α) : Refines r r := .inr rfl

theorem refines_tooDeep : Refines (.error .tooDeep) r := .inl rfl

theorem Refines.trans {r'' : Except ParseError α} (h : Refines r r') (h' : Refines r' r'') :
    Refines r r'' := by
  rcases h with h | rfl
  · exact .inl h
  · exact h'

theorem refines_of_le {f : Nat → Except ParseError α} (h : ∀ n, Refines (f n) (f (n + 1)))
    {n more : Nat} (hle : n ≤ more) : Refines (f n) (f more) := by
  induction hle with
  | refl => exact refines_refl _
  | step _ ih => exact ih.trans (h _)

theorem Refines.bind (h : Refines r r') {f g : α → Except ParseError β}
    (hf : ∀ a, Refines (f a) (g a)) : Refines (r >>= f) (r' >>= g) := by
  rcases h with rfl | rfl
  · exact refines_tooDeep
  · cases r' with
    | error err => exact refines_refl _
    | ok a => exact hf a

theorem Refines.ok {a : α} (h : Refines (.ok a) r) : r = .ok a := by
  rcases h with h | h
  · simp at h
  · exact h

end

namespace Parser

variable {depth : Nat}

theorem refines_items {item wider : List Token → Except ParseError (Expr × List Token)}
    (h : ∀ ts, Refines (item ts) (wider ts)) (n : Nat) (ts : List Token) :
    Refines (items item n ts) (items wider n ts) := by
  induction n generalizing ts with
  | zero => exact refines_refl _
  | succ n ih =>
    rw [items, items]
    refine (h ts).bind fun p => ?_
    obtain ⟨e, us⟩ := p
    dsimp only
    split
    · exact refines_refl _
    · refine (refines_refl _).bind fun vs => ?_
      split
      · exact refines_refl _
      · exact (ih _).bind fun p => refines_refl _

theorem refines_accesses
    (hE : ∀ m < depth, ∀ ts, Refines (expression m ts) (expression (m + 1) ts))
    (target : Expr) (ts : List Token) :
    Refines (accesses depth target ts) (accesses (depth + 1) target ts) := by
  induction depth generalizing target ts with
  | zero =>
    rw [accesses.eq_def 0, accesses.eq_def (0 + 1)]
    split
    · exact refines_tooDeep
    · exact refines_tooDeep
    · exact refines_refl _
  | succ depth ih =>
    rw [accesses.eq_def (depth + 1), accesses.eq_def (depth + 1 + 1)]
    split
    · dsimp only
      split
      · exact ih (fun m hm => hE m (Nat.lt_succ_of_lt hm)) _ _
      · exact refines_refl _
    · refine (hE depth (Nat.lt_succ_self _) _).bind fun p => (refines_refl _).bind fun us => ?_
      exact ih (fun m hm => hE m (Nat.lt_succ_of_lt hm)) _ _
    · exact refines_refl _

theorem refines_primary (hE : ∀ ts, Refines (expression depth ts) (expression (depth + 1) ts))
    (ts : List Token) : Refines (primary depth ts) (primary (depth + 1) ts) := by
  rw [primary.eq_def depth, primary.eq_def (depth + 1)]
  split
  · exact refines_refl _
  · exact (hE _).bind fun p => refines_refl _
  · exact refines_refl _
  · exact (refines_items hE _ _).bind fun p => refines_refl _
  · exact refines_refl _

theorem refines_postfixed
    (hE : ∀ m ≤ depth, ∀ ts, Refines (expression m ts) (expression (m + 1) ts))
    (ts : List Token) : Refines (postfixed depth ts) (postfixed (depth + 1) ts) := by
  rw [postfixed, postfixed]
  refine (refines_primary (hE depth (Nat.le_refl _)) ts).bind fun p => ?_
  exact refines_accesses (fun m hm => hE m (Nat.le_of_lt hm)) _ _

theorem refines_unary
    (hE : ∀ m ≤ depth, ∀ ts, Refines (expression m ts) (expression (m + 1) ts))
    (ts : List Token) : Refines (unary depth ts) (unary (depth + 1) ts) := by
  induction depth generalizing ts with
  | zero =>
    rw [unary.eq_def 0, unary.eq_def (0 + 1)]
    split
    · exact refines_postfixed hE _
    · split
      · exact refines_postfixed hE _
      · exact refines_tooDeep
  | succ depth ih =>
    rw [unary.eq_def (depth + 1), unary.eq_def (depth + 1 + 1)]
    split
    · exact refines_postfixed hE _
    · split
      · exact refines_postfixed hE _
      · refine (ih (fun m hm => hE m (Nat.le_succ_of_le hm)) _).bind fun p => refines_refl _

theorem refines_links {level : Level}
    (hO : ∀ m < depth, ∀ ts, Refines (operand level m ts) (operand level (m + 1) ts))
    (left : Expr) (ts : List Token) :
    Refines (links level depth left ts) (links level (depth + 1) left ts) := by
  induction depth generalizing left ts with
  | zero =>
    rw [links.eq_def level 0, links.eq_def level (0 + 1)]
    split
    · exact refines_refl _
    · split
      · exact refines_refl _
      · exact refines_tooDeep
  | succ depth ih =>
    rw [links.eq_def level (depth + 1), links.eq_def level (depth + 1 + 1)]
    split
    · exact refines_refl _
    · split
      · exact refines_refl _
      · refine (hO depth (Nat.lt_succ_self _) _).bind fun p => ?_
        exact ih (fun m hm => hO m (Nat.lt_succ_of_lt hm)) _ _

theorem refines_chain {level : Level}
    (hO : ∀ m ≤ depth, ∀ ts, Refines (operand level m ts) (operand level (m + 1) ts))
    (ts : List Token) : Refines (chain level depth ts) (chain level (depth + 1) ts) := by
  rw [chain, chain]
  refine (hO depth (Nat.le_refl _) ts).bind fun p => ?_
  exact refines_links (fun m hm => hO m (Nat.le_of_lt hm)) _ _

theorem refines_operand (level : Level)
    (hE : ∀ m ≤ depth, ∀ ts, Refines (expression m ts) (expression (m + 1) ts))
    (ts : List Token) : Refines (operand level depth ts) (operand level (depth + 1) ts) := by
  induction level using Level.byTighter generalizing depth ts with
  | tightest =>
    rw [operand_multiplicative, operand_multiplicative]
    exact refines_unary hE ts
  | looser level tighter ht ih =>
    rw [operand_of_tighter? ht, operand_of_tighter? ht]
    exact refines_chain (fun m hm => ih fun k hk => hE k (Nat.le_trans hk hm)) ts

/-- One level more changes nothing but a failure for want of levels. -/
theorem refines_expression (depth : Nat) (ts : List Token) :
    Refines (expression depth ts) (expression (depth + 1) ts) := by
  induction depth using Nat.strongRecOn generalizing ts with
  | ind depth ih =>
    cases depth with
    | zero =>
      rw [expression.eq_def 0]
      exact refines_tooDeep
    | succ depth =>
      have hE : ∀ m ≤ depth, ∀ ts, Refines (expression m ts) (expression (m + 1) ts) :=
        fun m hm => ih m (Nat.lt_succ_of_le hm)
      rw [expression.eq_def (depth + 1), expression.eq_def (depth + 1 + 1)]
      dsimp only
      rw [ternary, ternary]
      refine (refines_chain (fun m hm => refines_operand .or fun k hk =>
        hE k (Nat.le_trans hk hm)) ts).bind fun p => ?_
      dsimp only
      split
      · refine (hE depth (Nat.le_refl _) _).bind fun q => (refines_refl _).bind fun us => ?_
        exact (hE depth (Nat.le_refl _) us).bind fun q => refines_refl _
      · exact refines_refl _

theorem refines_expression_of_le {levels more : Nat} (h : levels ≤ more) (ts : List Token) :
    Refines (expression levels ts) (expression more ts) :=
  refines_of_le (fun n => refines_expression n ts) h

end Parser
end Stencil.Expr
