import Stencil.Proofs.Expr.Descent
import Stencil.Proofs.Expr.Printed

namespace Stencil.Expr

namespace Descent

variable {P : Nat → Prop} {l : Nat} {s : Descent}

/-- Expressions with so many levels are followed. -/
def FollowsAt (P : Nat → Prop) (l : Nat) : Prop :=
  ∀ s : Descent, s.levels = l → s.Within P →
    Follows P conditional s.depth s (Parser.expression l s.rest)

theorem follows_branches (hE : FollowsAt P l) (hl : s.levels = l) (hs : s.Within P)
    (condition : Expr) :
    Follows P (branches · condition) s.depth s (Parser.branches l condition s.rest) := by
  apply Follows.call
  simp only [branches]
  by_cases hq : s.rest.head? = some .question
  · obtain ⟨us, hus⟩ := List.head?_eq_some_iff.1 hq
    apply Follows.of_eat hus
    rw [hus, ← rest_skipped hus]
    refine (hE s.skipped hl hs.skipped).bind fun yes t _ hdepth ht => ?_
    refine follows_expect ht fun u hu hwithin => ?_
    rw [hdepth] at hu
    refine (hE u (levels_of_depth_eq hu hl) hwithin).bind fun no v _ hv hwithin => ?_
    have hpure := follows_pure hwithin (Expr.conditional condition yes no)
    rwa [hv, hu] at hpure
  · rw [Parser.branches_of_no_question hq]
    exact .of_not_eat hq (follows_pure hs condition)

theorem follows_member {target : Expr} {depth : Nat} (hs : s.Within P)
    (h : ∀ name, Follows P (accesses · depth (.member target name)) depth s.skipped
      (Parser.accesses l (.member target name) s.skipped.rest)) :
    Follows P (fun n => do
        match ← next with
        | .ident name => accesses n depth (.member target name)
        | _ => refuse) depth s
      (match s.rest with
        | .ident name :: us => Parser.accesses l (.member target name) us
        | us => .error (stuck us)) := by
  cases hr : s.rest with
  | nil => exact follows_of_error (ends_of_eq (next_of_end hr)).bind_error hs.trail
  | cons u us =>
    rw [rest_skipped hr] at h
    refine .of_step (next_of_rest hr) (along_skipped hr) ?_
    cases u with
    | ident name => exact h name
    | _ => exact follows_of_error (ends_of_eq (refuse_of_rest hr)) hs.trail

theorem follows_accesses (hP : Deepens P) (hE : ∀ k < l, FollowsAt P k) (hl : s.levels = l)
    (hs : s.Within P) {depth : Nat} (hdepth : P depth) (target : Expr) :
    Follows P (accesses · depth target) depth s (Parser.accesses l target s.rest) := by
  induction l using Nat.strongRecOn generalizing s target with
  | ind l ih =>
    apply Follows.call
    simp only [accesses]
    by_cases hdot : s.rest.head? = some .dot
    · obtain ⟨us, hus⟩ := List.head?_eq_some_iff.1 hdot
      rw [hus, Parser.accesses.eq_def]
      apply Follows.of_eat hus
      refine follows_descend hP hl hs.skipped fun k t hk ht hrest hwithin => ?_
      rw [← rest_skipped hus, ← hrest]
      have hskipped : t.skipped.levels = k := ht
      refine follows_member hwithin fun name => ?_
      exact ih k (by omega) (fun j hj => hE j (by omega)) hskipped hwithin.skipped _
    apply Follows.of_not_eat hdot
    by_cases hopen : s.rest.head? = some .bracketOpen
    · obtain ⟨us, hus⟩ := List.head?_eq_some_iff.1 hopen
      rw [hus, Parser.accesses.eq_def]
      apply Follows.of_eat hus
      refine follows_descend hP hl hs.skipped fun k t hk ht hrest hwithin => ?_
      rw [← rest_skipped hus, ← hrest]
      refine (hE k (by omega) t ht hwithin).bind fun position u _ hu hwithin => ?_
      refine follows_expect hwithin fun v hv hwithin => ?_
      have hv : v.levels = k := levels_of_depth_eq (hv.trans hu) ht
      exact ih k (by omega) (fun j hj => hE j (by omega)) hv hwithin _
    · have hrest : Parser.accesses l target s.rest = .ok (target, s.rest) := by
        rw [Parser.accesses.eq_def]
        split
        · next heq => simp [heq] at hdot
        · next heq => simp [heq] at hopen
        · rfl
      rw [hrest]
      exact .of_not_eat hopen (follows_restore hs hdepth target)

/-- Every item begins as deep as the list, since the one before it put the counter back. -/
theorem follows_items (hE : FollowsAt P l) (hl : s.levels = l) (hs : s.Within P)
    (before : List Expr) : Follows P (items · before) s.depth s
      (Parser.allItems (Parser.expression l) s.rest >>= fun p => pure (before ++ p.1, p.2)) := by
  induction hlength : s.rest.length using Nat.strongRecOn generalizing s before with
  | ind length ih =>
    apply Follows.call
    simp only [items]
    rw [Parser.allItems_eq (Parser.spans_expression l), bind_assoc]
    refine (hE s hl hs).bind fun e t hread ht hwithin => ?_
    obtain ⟨us, hus, -⟩ := Parser.spans_expression l _ _ hread
    rw [← ht]
    have hlast : ∀ {u : Descent}, u.Within P → Follows P (fun _ => pure (before ++ [e])) u.depth u
        (.ok (before ++ [e], u.rest)) := fun hu => follows_pure hu _
    cases hr : t.rest with
    | nil => exact .of_not_eat (by simp [hr]) (follows_expect_of_head?_ne hr (by simp) hwithin)
    | cons c ts =>
      by_cases hclose : c = .bracketClose
      · subst hclose
        have hpure := hlast hwithin.skipped
        rw [rest_skipped hr] at hpure
        exact .of_eat hr hpure
      apply Follows.of_not_eat (by simp [hr, hclose])
      by_cases hcomma : c = .comma
      · subst hcomma
        refine .of_step (expect_of_rest hr) (along_skipped hr) ?_
        by_cases hhead : ts.head? = some .bracketClose
        · obtain ⟨vs, rfl⟩ := List.head?_eq_some_iff.1 hhead
          have hpure := hlast hwithin.skipped.skipped
          rw [rest_skipped (rest_skipped hr)] at hpure
          exact .of_eat (rest_skipped hr) hpure
        · have hshorter : t.skipped.rest.length < length := by
            rw [rest_skipped hr, ← hlength, hus, hr, List.length_append, List.length_cons]
            omega
          have hlevels : t.skipped.levels = l := levels_of_depth_eq ht hl
          have hmore := ih _ hshorter hlevels hwithin.skipped (before ++ [e]) rfl
          rw [Parser.itemsBehind_comma hhead, bind_assoc]
          rw [rest_skipped hr] at hmore
          apply Follows.of_not_eat (by rwa [rest_skipped hr])
          simp only [pure_bind, List.append_assoc, List.singleton_append] at hmore ⊢
          exact hmore
      · rw [Parser.itemsBehind_other hclose hcomma]
        exact follows_expect_of_head?_ne hr (by simp [hcomma]) hwithin

theorem follows_leaf {c : Token} {us : List Token} (hr : s.rest = c :: us) (hparen : c ≠ .parenOpen)
    (hopen : c ≠ .bracketOpen) (hs : s.Within P) :
    Follows P (fun _ => match leaf? c with | some e => pure e | none => refuse) s.depth s.skipped
      (Parser.primary l (c :: us)) := by
  rw [Parser.primary_of_leaf? hparen hopen]
  cases leaf? c with
  | none => exact follows_of_error (ends_of_eq (refuse_of_rest hr)) hs.trail
  | some e =>
    have hpure := follows_pure hs.skipped e
    rwa [rest_skipped hr] at hpure

theorem follows_primary (hE : FollowsAt P l) (hl : s.levels = l) (hs : s.Within P) :
    Follows P primary s.depth s (Parser.primary l s.rest) := by
  apply Follows.call
  simp only [primary]
  cases hr : s.rest with
  | nil =>
    rw [Parser.primary.eq_def]
    exact follows_of_error (ends_of_eq (next_of_end hr)).bind_error hs.trail
  | cons c us =>
    refine .of_step (next_of_rest hr) (along_skipped hr) ?_
    by_cases hparen : c = .parenOpen
    · subst hparen
      rw [Parser.primary.eq_def, ← rest_skipped hr]
      refine (hE s.skipped hl hs.skipped).bind fun e t _ ht hwithin => ?_
      refine follows_expect hwithin fun u hu hwithin => ?_
      have hpure := follows_pure hwithin e
      rwa [hu, ht] at hpure
    by_cases hopen : c = .bracketOpen
    · subst hopen
      by_cases hhead : us.head? = some .bracketClose
      · obtain ⟨vs, rfl⟩ := List.head?_eq_some_iff.1 hhead
        have hpure := follows_pure hs.skipped.skipped (Expr.list [])
        rw [rest_skipped (rest_skipped hr)] at hpure
        rw [Parser.primary.eq_def]
        exact .of_eat (rest_skipped hr) hpure
      · have hitems := follows_items (s := s.skipped) hE hl hs.skipped []
        change Follows P _ _ _ (_ >>= pure) at hitems
        rw [bind_pure] at hitems
        rw [Parser.primary_bracketOpen hhead, ← rest_skipped hr]
        apply Follows.of_not_eat (by rwa [rest_skipped hr])
        refine hitems.bind fun es t _ ht hwithin => ?_
        have hpure := follows_pure hwithin (Expr.list es)
        rwa [ht] at hpure
    have hleaf := follows_leaf (l := l) hr hparen hopen hs
    cases c with
    | parenOpen => exact absurd rfl hparen
    | bracketOpen => exact absurd rfl hopen
    | _ => exact hleaf

theorem follows_postfixed (hP : Deepens P) (hE : ∀ k ≤ l, FollowsAt P k) (hl : s.levels = l)
    (hs : s.Within P) : Follows P postfixed s.depth s (Parser.postfixed l s.rest) := by
  have hstep : depthNow s = some (.ok s.depth, s) := rfl
  apply Follows.call
  simp only [postfixed]
  rw [Parser.postfixed]
  refine .of_step hstep (.refl s) ?_
  refine (follows_primary (hE l (Nat.le_refl l)) hl hs).bind fun e t _ ht hwithin => ?_
  exact follows_accesses hP (fun k hk => hE k (Nat.le_of_lt hk)) (levels_of_depth_eq ht hl)
    hwithin hs.depth e

theorem follows_unary (hP : Deepens P) (hE : ∀ k ≤ l, FollowsAt P k) (hl : s.levels = l)
    (hs : s.Within P) : Follows P unary s.depth s (Parser.unary l s.rest) := by
  induction l using Nat.strongRecOn generalizing s with
  | ind l ih =>
    have hpostfixed := follows_postfixed hP hE hl hs
    apply Follows.call
    simp only [unary]
    refine .of_step (peek_eq s) (.refl s) ?_
    cases hr : s.rest with
    | nil =>
      rw [hr] at hpostfixed
      rw [Parser.unary.eq_def]
      exact hpostfixed
    | cons c us =>
      rw [List.head?_cons, Option.bind_some, Parser.unary.eq_def]
      dsimp only
      cases leadingOp? c with
      | none =>
        rw [hr] at hpostfixed
        exact hpostfixed
      | some op =>
        have hskip : skip s = some (.ok (), s.skipped) := rfl
        have hdepth : depthNow s.skipped = some (.ok s.depth, s.skipped) := rfl
        refine .of_step hskip (along_skipped hr) ?_
        refine .of_step hdepth (.refl _) ?_
        refine follows_descend hP hl hs.skipped fun k t hk ht hrest hwithin => ?_
        rw [← rest_skipped hr, ← hrest]
        have hoperand := ih k (by omega) (fun j hj => hE j (by omega)) ht hwithin
        refine hoperand.bind fun e u _ _ hwithin => ?_
        exact follows_restore hwithin hs.depth _

section

variable {level : Level}

theorem follows_links (hP : Deepens P)
    (hO : ∀ k < l, ∀ t : Descent, t.levels = k → t.Within P →
      Follows P (operand · level) t.depth t (Parser.operand level k t.rest))
    (hl : s.levels = l) (hs : s.Within P) {depth : Nat} (hdepth : P depth) (left : Expr) :
    Follows P (links · level depth left) depth s (Parser.links level l left s.rest) := by
  induction l using Nat.strongRecOn generalizing s left with
  | ind l ih =>
    apply Follows.call
    simp only [links]
    refine .of_step (peek_eq s) (.refl s) ?_
    have hstop := follows_restore hs hdepth left
    cases hr : s.rest with
    | nil =>
      rw [hr] at hstop
      rw [Parser.links.eq_def]
      exact hstop
    | cons c us =>
      rw [List.head?_cons, Option.bind_some, Parser.links.eq_def]
      dsimp only
      cases joined? level c with
      | none =>
        rw [hr] at hstop
        exact hstop
      | some join =>
        have hskip : skip s = some (.ok (), s.skipped) := rfl
        refine .of_step hskip (along_skipped hr) ?_
        refine follows_descend hP hl hs.skipped fun k t hk ht hrest hwithin => ?_
        rw [← rest_skipped hr, ← hrest]
        refine (hO k (by omega) t ht hwithin).bind fun right u _ hu hwithin => ?_
        have hu := levels_of_depth_eq hu ht
        exact ih k (by omega) (fun j hj => hO j (by omega)) hu hwithin _

theorem follows_chain (hP : Deepens P)
    (hO : ∀ k ≤ l, ∀ t : Descent, t.levels = k → t.Within P →
      Follows P (operand · level) t.depth t (Parser.operand level k t.rest))
    (hl : s.levels = l) (hs : s.Within P) :
    Follows P (chain · level) s.depth s (Parser.chain level l s.rest) := by
  have hstep : depthNow s = some (.ok s.depth, s) := rfl
  apply Follows.call
  simp only [chain]
  rw [Parser.chain]
  refine .of_step hstep (.refl s) ?_
  refine (hO l (Nat.le_refl l) s hl hs).bind fun left t _ ht hwithin => ?_
  exact follows_links hP (fun k hk => hO k (Nat.le_of_lt hk)) (levels_of_depth_eq ht hl) hwithin
    hs.depth left

theorem follows_operand (hP : Deepens P) (level : Level) (hE : ∀ k ≤ l, FollowsAt P k)
    (hl : s.levels = l) (hs : s.Within P) :
    Follows P (operand · level) s.depth s (Parser.operand level l s.rest) := by
  induction level using Level.byTighter generalizing l s with
  | tightest =>
    rw [Parser.operand_multiplicative]
    exact .call (follows_unary hP hE hl hs)
  | looser level tighter ht ih =>
    apply Follows.call
    simp only [operand, ht]
    rw [Parser.operand_of_tighter? ht]
    exact follows_chain hP (fun k hk t hk' ht => ih (fun j hj => hE j (by omega)) hk' ht) hl hs

end

theorem follows_conditional (hP : Deepens P) (l : Nat) : FollowsAt P l := by
  -- All that is between brackets, and every branch, begins deeper than the whole.
  induction l using Nat.strongRecOn with
  | ind l ih =>
    intro s hl hs
    have hstep : depthNow s = some (.ok s.depth, s) := rfl
    apply Follows.call
    simp only [conditional]
    rw [Parser.expression.eq_def]
    refine .of_step hstep (.refl s) ?_
    refine follows_descend hP hl hs fun k t hk ht hrest hwithin => ?_
    have hchain : Follows P (chain · .or) t.depth t (Parser.chain .or k t.rest) :=
      follows_chain hP (fun j hj u hu hwithin =>
        follows_operand hP .or (fun i hi => ih i (by omega)) hu hwithin) ht hwithin
    rw [Parser.ternary_eq, ← hrest]
    refine hchain.bind fun condition u _ hu hwithin => ?_
    have hu := levels_of_depth_eq hu ht
    exact (follows_branches (ih k (by omega)) hu hwithin condition).restored hs.depth

end Descent

theorem Derives.ne_nil {ts : List Token} {e : Expr} (h : Derives .expression ts e) : ts ≠ [] := by
  rintro rfl
  obtain ⟨levels, hread⟩ := derives_iff.1 h
  exact Parser.expression_nil_ne_ok (e, []) ((hread levels).trans (if_pos (Nat.le_refl levels)))

/-- The functions of the parser, the loosest first. -/
inductive Part
  | conditional
  | chain (level : Level)
  | unary
  | postfixed
  | primary

namespace Part

def run : Part → Nat → Descent.Run Expr
  | .conditional => Descent.conditional
  | .chain level => (Descent.chain · level)
  | .unary => Descent.unary
  | .postfixed => Descent.postfixed
  | .primary => Descent.primary

def read : Part → Nat → List Token → Except ParseError (Expr × List Token)
  | .conditional => Parser.expression
  | .chain level => Parser.chain level
  | .unary => Parser.unary
  | .postfixed => Parser.postfixed
  | .primary => Parser.primary

def phrase : Part → Phrase
  | .conditional => .expression
  | .chain level => .chain level
  | .unary => .prefixed
  | .postfixed => .accessed
  | .primary => .single

theorem phrase_ne_items (part : Part) : part.phrase ≠ .items := by
  cases part <;> simp [phrase]

theorem spans_read (part : Part) (n : Nat) (ts : List Token) :
    Reads (Spans part.phrase ts) (part.read n ts) := by
  have hE : ∀ n, Parser.SoundTo n := fun _ m _ => Parser.spans_expression m
  cases part with
  | conditional => exact Parser.spans_expression n ts
  | chain level => exact Parser.spans_chain (fun m _ => Parser.spans_operand level (hE m)) ts
  | unary => exact Parser.spans_unary (hE n) ts
  | postfixed => exact Parser.spans_postfixed (hE n) ts
  | primary => exact Parser.spans_primary (Parser.spans_expression n) ts

theorem refines_read (part : Part) (n : Nat) (ts : List Token) :
    Refines (part.read n ts) (part.read (n + 1) ts) := by
  have hE : ∀ n, ∀ m ≤ n, ∀ ts,
      Refines (Parser.expression m ts) (Parser.expression (m + 1) ts) :=
    fun _ m _ => Parser.refines_expression m
  cases part with
  | conditional => exact Parser.refines_expression n ts
  | chain level => exact Parser.refines_chain (fun m _ => Parser.refines_operand level (hE m)) ts
  | unary => exact Parser.refines_unary (hE n) ts
  | postfixed => exact Parser.refines_postfixed (hE n) ts
  | primary => exact Parser.refines_primary (Parser.refines_expression n) ts

/-- What is read takes a token or more. -/
theorem length_lt_of_read {part : Part} {n : Nat} {ts rest : List Token} {e : Expr}
    (h : part.read n ts = .ok (e, rest)) : rest.length < ts.length := by
  obtain ⟨us, rfl, he⟩ := part.spans_read n ts _ h
  have hne := (he.loosen part.phrase_ne_items (Nat.zero_le _)).ne_nil
  have hpos := List.length_pos_iff.2 hne
  simp only [List.length_append]
  omega

open Descent in
theorem follows {P : Nat → Prop} (hP : Deepens P) (part : Part) {s : Descent}
    (hs : s.Within P) : Follows P part.run s.depth s (part.read s.levels s.rest) := by
  have hE : ∀ n, ∀ m ≤ n, FollowsAt P m := fun _ m _ => follows_conditional hP m
  cases part with
  | conditional => exact follows_conditional hP s.levels s rfl hs
  | chain level =>
    exact follows_chain hP (fun m _ t => follows_operand hP level (hE m)) rfl hs
  | unary => exact follows_unary hP (hE s.levels) rfl hs
  | postfixed => exact follows_postfixed hP (hE s.levels) rfl hs
  | primary => exact follows_primary (follows_conditional hP s.levels) rfl hs

/-- The counter stays at the depths between where it began and `maxDepth`. -/
theorem exists_ends (part : Part) (tokens : List Token) (cursor depth : Nat) :
    ∃ result t, Descent.Ends part.run (.start tokens cursor depth) result t ∧
      part.read (maxDepth - depth) (tokens.drop cursor) =
        result.map (fun e => (e, tokens.drop t.cursor)) ∧
      (∀ d ∈ t.trail, depth ≤ d ∧ (d = depth ∨ d ≤ maxDepth)) ∧
      ∀ e, result = .ok e → t.tokens = tokens ∧ t.depth = depth ∧ cursor < t.cursor ∧
        t.cursor ≤ tokens.length := by
  have hs : (Descent.start tokens cursor depth).Within (Descent.From depth) :=
    ⟨⟨Nat.le_refl depth, .inl rfl⟩, fun d hd => absurd hd List.not_mem_nil⟩
  obtain ⟨result, t, hends, hread, htrail, hok⟩ := part.follows (Descent.deepens_from depth) hs
  refine ⟨result, t, hends, ?_, htrail, ?_⟩
  · rw [Descent.levels, Descent.rest, Descent.start] at hread
    rw [hread]
    cases result with
    | error err => rfl
    | ok e =>
      obtain ⟨⟨htokens, -⟩, -⟩ := hok e rfl
      rw [Descent.rest, htokens]
      rfl
  · rintro e rfl
    obtain ⟨⟨htokens, hcursor⟩, hdepth, -⟩ := hok e rfl
    have htokens : t.tokens = tokens := htokens
    have hlt := length_lt_of_read hread
    simp only [Descent.rest, Descent.start, List.length_drop, htokens] at hcursor hlt
    exact ⟨htokens, hdepth, by omega, by omega⟩

example : (Descent.unary 4 (.start [.bang, .ident name] 0 99)).map (·.2.trail) =
    some [99, 100, 100] := rfl

/-- All tokens are read as an expression by going down from the first of them. -/
theorem ofTokens_eq_of_ends (tokens : List Token) :
    ∃ result t, Descent.Ends conditional.run (.start tokens 0 0) result t ∧
      ofTokens tokens = result >>= fun e =>
        match tokens.drop t.cursor with
        | [] => .ok e
        | ts => .error (stuck ts) := by
  obtain ⟨result, t, hends, hread, -⟩ := conditional.exists_ends tokens 0 0
  refine ⟨result, t, hends, ?_⟩
  have hread : Parser.expression maxDepth tokens = _ := hread
  rw [ofTokens, hread]
  cases result <;> rfl

/-- What is read from some depth is read from every smaller one. -/
theorem ends_of_le {part : Part} {tokens : List Token} {cursor depth less : Nat} {e : Expr}
    {t : Descent} (h : Descent.Ends part.run (.start tokens cursor depth) (.ok e) t)
    (hle : less ≤ depth) :
    ∃ u, Descent.Ends part.run (.start tokens cursor less) (.ok e) u ∧ u.cursor = t.cursor := by
  obtain ⟨result, t', hends, hread, -, hok⟩ := part.exists_ends tokens cursor depth
  obtain ⟨result', u, hends', hread', -, hok'⟩ := part.exists_ends tokens cursor less
  obtain ⟨rfl, rfl⟩ := h.unique hends
  have hmore : maxDepth - depth ≤ maxDepth - less := by omega
  have hr := refines_of_le (fun n => part.refines_read n (tokens.drop cursor)) hmore
  rw [hread] at hr
  have hsame := hr.ok
  rw [hread'] at hsame
  cases result' with
  | error err => simp [Except.map] at hsame
  | ok e' =>
    obtain ⟨rfl, hdrop⟩ : e' = e ∧ tokens.drop u.cursor = tokens.drop t.cursor := by
      simpa [Except.map] using hsame
    obtain ⟨-, -, -, ht⟩ := hok e' rfl
    obtain ⟨-, -, -, hu⟩ := hok' e' rfl
    have hlength := congrArg List.length hdrop
    rw [List.length_drop, List.length_drop] at hlength
    exact ⟨u, hends', by omega⟩

end Part
end Stencil.Expr
