import Stencil.Proofs.Expr.Completeness

namespace Stencil.Expr

/-- Some tokens make a phrase with others behind them. -/
def Viable (phrase : Phrase) (ts : List Token) : Prop := ∃ more e, Derives phrase (ts ++ more) e

section

variable {phrase wider : Phrase} {ts us : List Token} {e : Expr}

theorem Derives.viable (h : Derives phrase ts e) : Viable phrase ts :=
  ⟨[], e, by rwa [List.append_nil]⟩

theorem Viable.of_append (h : Viable phrase (ts ++ us)) : Viable phrase ts := by
  obtain ⟨more, e, he⟩ := h
  exact ⟨us ++ more, e, by rwa [← List.append_assoc]⟩

theorem Viable.mono (h : Viable phrase ts)
    (hw : ∀ us e, Derives phrase us e → Derives wider us e) : Viable wider ts := by
  obtain ⟨more, e, he⟩ := h
  exact ⟨more, e, hw _ _ he⟩

theorem Viable.lastItem (h : Viable .expression ts) : Viable .items ts := by
  obtain ⟨more, e, he⟩ := h
  exact ⟨more, _, .lastItem he⟩

/-- What a phrase begins with begins a part of a wider phrase behind one of its tokens. -/
theorem Viable.behind (h : Viable phrase ts) (us : List Token) (t : Token) (last : List Token)
    (hw : ∀ vs e, Derives phrase vs e → ∃ e', Derives wider (us ++ t :: (vs ++ last)) e') :
    Viable wider (us ++ t :: ts) := by
  obtain ⟨more, e, he⟩ := h
  obtain ⟨e', he'⟩ := hw (ts ++ more) e he
  exact ⟨more ++ last, e', by simpa using he'⟩

end

/-- A reading that looks one token ahead. In front of some token it has read something, or it is
stuck there, and then `V` holds of what it has taken; either way nothing behind that token matters. -/
inductive Predictive {α : Type} (V : List Token → Prop)
    (f : List Token → Except ParseError (α × List Token)) (ts : List Token) : Prop
  | read (us rest : List Token) (a : α) (hts : ts = us ++ rest)
      (h : ∀ rest', rest'.head? = rest.head? → f (us ++ rest') = .ok (a, rest'))
  | stuck (us rest : List Token) (hts : ts = us ++ rest) (hV : V us)
      (h : ∀ rest', rest'.head? = rest.head? → f (us ++ rest') = .error (stuck rest'))
  | deep (h : f ts = .error .tooDeep)

theorem head?_append_congr {us rest rest' : List Token} (h : rest'.head? = rest.head?) :
    (us ++ rest').head? = (us ++ rest).head? := by
  rw [List.head?_append, List.head?_append, h]

theorem of_head?_nil {P : List Token → Prop} (h : P []) :
    ∀ ts, ts.head? = ([] : List Token).head? → P ts := by
  intro ts hts
  obtain rfl : ts = [] := List.head?_eq_none_iff.1 hts
  exact h

theorem of_head?_cons {P : List Token → Prop} {t : Token} {us : List Token}
    (h : ∀ ts, P (t :: ts)) : ∀ ts, ts.head? = (t :: us).head? → P ts := by
  intro ts hts
  obtain ⟨vs, rfl⟩ := List.head?_eq_some_iff.1 hts
  exact h vs

namespace Predictive

variable {α β : Type} {V W : List Token → Prop}
  {f g : List Token → Except ParseError (α × List Token)} {t : Token} {ts : List Token}

theorem mono (h : Predictive V f ts) (hVW : ∀ us, V us → W us) : Predictive W f ts := by
  cases h with
  | read us rest a hts h => exact .read us rest a hts h
  | stuck us rest hts hV h => exact .stuck us rest hts (hVW us hV) h
  | deep h => exact .deep h

/-- Readings that are the same as far as the next token tells. -/
theorem congr (h : Predictive V g ts) (hfg : ∀ us, us.head? = ts.head? → f us = g us) :
    Predictive V f ts := by
  cases h with
  | read us rest a hts h =>
    subst hts
    refine .read us rest a rfl fun rest' hhead => ?_
    rw [hfg _ (head?_append_congr hhead), h rest' hhead]
  | stuck us rest hts hV h =>
    subst hts
    refine .stuck us rest rfl hV fun rest' hhead => ?_
    rw [hfg _ (head?_append_congr hhead), h rest' hhead]
  | deep h => exact .deep ((hfg ts rfl).trans h)

theorem nothing (a : α) (h : ∀ us, us.head? = ts.head? → f us = .ok (a, us)) : Predictive V f ts :=
  .read [] ts a rfl h

theorem refuse (hV : V []) (h : ∀ us, us.head? = ts.head? → f us = .error (Expr.stuck us)) :
    Predictive V f ts :=
  .stuck [] ts rfl hV h

theorem token (h : Predictive (fun us => V (t :: us)) (fun us => f (t :: us)) ts) :
    Predictive V f (t :: ts) := by
  cases h with
  | read us rest a hts h => exact .read (t :: us) rest a (congrArg (t :: ·) hts) h
  | stuck us rest hts hV h => exact .stuck (t :: us) rest (congrArg (t :: ·) hts) hV h
  | deep h => exact .deep h

theorem bind {g : α → List Token → Except ParseError (β × List Token)} (hf : Predictive W f ts)
    (hWV : ∀ us, W us → V us)
    (hg : ∀ us a rest, ts = us ++ rest → f ts = .ok (a, rest) →
      Predictive (fun vs => V (us ++ vs)) (g a) rest) :
    Predictive V (fun us => f us >>= fun p => g p.1 p.2) ts := by
  cases hf with
  | read us rest a hts hread =>
    subst hts
    have hbind : ∀ rest', rest'.head? = rest.head? →
        (f (us ++ rest') >>= fun p => g p.1 p.2) = g a rest' := by
      intro rest' hhead
      rw [hread rest' hhead]
      rfl
    -- What is read behind `a` begins with the same token, whatever is behind the next one.
    cases hg us a rest rfl (hread rest rfl) with
    | read vs last b hts h =>
      subst hts
      refine .read (us ++ vs) last b (List.append_assoc us vs last).symm fun last' hhead => ?_
      rw [List.append_assoc, hbind _ (head?_append_congr hhead), h last' hhead]
    | stuck vs last hts hV h =>
      subst hts
      refine .stuck (us ++ vs) last (List.append_assoc us vs last).symm hV fun last' hhead => ?_
      rw [List.append_assoc, hbind _ (head?_append_congr hhead), h last' hhead]
    | deep h => exact .deep ((hbind rest rfl).trans h)
  | stuck us rest hts hW h =>
    refine .stuck us rest hts (hWV us hW) fun rest' hhead => ?_
    rw [h rest' hhead]
    rfl
  | deep h =>
    refine .deep ?_
    rw [h]
    rfl

theorem map (hf : Predictive W f ts) (hWV : ∀ us, W us → V us) (k : α → β) :
    Predictive V (fun us => f us >>= fun p => pure (k p.1, p.2)) ts := by
  apply hf.bind (g := fun a us => pure (k a, us)) hWV
  intro us a rest _ _
  exact .nothing (k a) fun vs _ => rfl

theorem demand {levels depth : Nat} (h : levels ≤ depth → Predictive V f ts) :
    Predictive V (fun us => Expr.demand levels depth (f us)) ts := by
  by_cases hle : levels ≤ depth
  · exact (h hle).congr fun us _ => demand_of_le hle
  · exact .deep (if_neg hle)

/-- A phrase, and what is read behind it. -/
theorem bind_phrase {phrase : Phrase} {f : List Token → Except ParseError (Expr × List Token)}
    {g : Expr → List Token → Except ParseError (β × List Token)}
    (hf : Predictive (Viable phrase) f ts) (hs : Reads (Spans phrase ts) (f ts))
    (hV : ∀ us, Viable phrase us → V us)
    (hg : ∀ us e rest, ts = us ++ rest → Derives phrase us e →
      Predictive (fun vs => V (us ++ vs)) (g e) rest) :
    Predictive V (fun us => f us >>= fun p => g p.1 p.2) ts := by
  refine hf.bind hV ?_
  intro us e rest hts hread
  obtain ⟨vs, hvs, he⟩ := hs _ hread
  obtain rfl : us = vs := List.append_cancel_right (hts.symm.trans hvs)
  exact hg us e rest hts he

theorem expect {token : Token} {g : List Token → Except ParseError (β × List Token)}
    (hV : V []) (hg : ∀ rest, ts = token :: rest → Predictive (fun us => V (token :: us)) g rest) :
    Predictive V (fun us => Expr.expect token us >>= g) ts := by
  cases ts with
  | nil => exact refuse hV (of_head?_nil rfl)
  | cons t ts =>
    by_cases ht : t = token
    · subst ht
      apply Predictive.token
      apply (hg ts rfl).congr
      intro us _
      rw [Expr.expect, if_pos rfl]
      rfl
    · apply refuse hV
      apply of_head?_cons
      intro us
      rw [Expr.expect, if_neg ht]
      rfl

end Predictive

namespace Parser

variable {depth : Nat}

/-- What is read as an expression with at most so many levels is read with one token ahead. -/
def PredictiveTo (depth : Nat) : Prop :=
  ∀ m ≤ depth, ∀ ts, Predictive (Viable .expression) (expression m) ts

theorem PredictiveTo.mono {n : Nat} (h : PredictiveTo n) (hle : depth ≤ n) : PredictiveTo depth :=
  fun m hm => h m (Nat.le_trans hm hle)

/-- What no access begins with is left where it is. -/
theorem predictive_of_stops {V : List Token → Prop} {ts : List Token} (h : Stops 0 ts)
    (target : Expr) : Predictive V (accesses depth target) ts := by
  apply Predictive.nothing target
  intro us hhead
  apply accesses_of_stops (n := 0)
  cases us with
  | nil => trivial
  | cons t us =>
    obtain ⟨vs, rfl⟩ := List.head?_eq_some_iff.1 hhead.symm
    exact h

theorem access_of_not_stops {ts : List Token} (h : ¬ Stops 0 ts) :
    ∃ us, ts = .dot :: us ∨ ts = .bracketOpen :: us := by
  cases ts with
  | nil => exact absurd trivial h
  | cons t us =>
    refine ⟨us, ?_⟩
    by_cases hdot : t = .dot
    · exact .inl (by rw [hdot])
    by_cases hopen : t = .bracketOpen
    · exact .inr (by rw [hopen])
    · exact absurd ⟨hdot, hopen, fun l hl => absurd hl (Nat.not_lt_zero _)⟩ h

theorem predictive_member {us : List Token} {target : Expr} (ht : Derives .accessed us target)
    (h : ∀ name vs, Predictive (fun ws => Viable .accessed (us ++ .dot :: .ident name :: ws))
      (accesses depth (.member target name)) vs) (ts : List Token) :
    Predictive (fun vs => Viable .accessed (us ++ vs)) (accesses (depth + 1) target)
      (.dot :: ts) := by
  have hname : Viable .accessed (us ++ [.dot]) :=
    ⟨[.ident ['x']], _, by simpa using Derives.member ['x'] ht⟩
  apply Predictive.token
  cases ts with
  | nil =>
    apply Predictive.refuse hname
    apply of_head?_nil
    rw [accesses.eq_def]
  | cons t ts =>
    cases t with
    | ident name =>
      apply Predictive.token
      exact (h name ts).congr fun vs _ => accesses_member
    | _ =>
      apply Predictive.refuse hname
      apply of_head?_cons
      intro vs
      rw [accesses.eq_def]

theorem predictive_index (hE : ∀ ts, Predictive (Viable .expression) (expression depth) ts)
    {us : List Token} {target : Expr} (ht : Derives .accessed us target)
    (h : ∀ vs position, Derives .expression vs position → ∀ ws, Predictive
      (fun xs => Viable .accessed (us ++ .bracketOpen :: (vs ++ .bracketClose :: xs)))
      (accesses depth (.index target position)) ws) (ts : List Token) :
    Predictive (fun vs => Viable .accessed (us ++ vs)) (accesses (depth + 1) target)
      (.bracketOpen :: ts) := by
  have hposition : ∀ vs, Viable .expression vs → Viable .accessed (us ++ .bracketOpen :: vs) := by
    intro vs hvs
    exact hvs.behind us .bracketOpen [.bracketClose] fun ws e he => ⟨_, .index ht he⟩
  apply Predictive.token
  refine Predictive.congr ?_ fun vs _ => accesses_bracketOpen target vs
  rw [Nat.add_sub_cancel]
  simp only [demand_of_le (Nat.succ_pos depth)]
  refine (hE ts).bind_phrase
    (g := fun e vs => expect .bracketClose vs >>= accesses depth (.index target e))
    (spans_expression depth ts) hposition ?_
  intro vs position rest _ hvs
  apply Predictive.expect
  · exact hposition _ (by simpa using hvs.viable)
  · intro last _
    exact h vs position hvs last

theorem predictive_accesses
    (hE : ∀ m < depth, ∀ ts, Predictive (Viable .expression) (expression m) ts)
    {us : List Token} {target : Expr} (ht : Derives .accessed us target) (ts : List Token) :
    Predictive (fun vs => Viable .accessed (us ++ vs)) (accesses depth target) ts := by
  induction depth generalizing us target ts with
  | zero =>
    by_cases hstops : Stops 0 ts
    · exact predictive_of_stops hstops target
    · apply Predictive.deep
      obtain ⟨vs, rfl | rfl⟩ := access_of_not_stops hstops <;> rw [accesses.eq_def]
  | succ depth ih =>
    have hrest : ∀ {ws e}, Derives .accessed ws e → ∀ vs,
        Predictive (fun xs => Viable .accessed (ws ++ xs)) (accesses depth e) vs :=
      ih fun m hm => hE m (Nat.lt_succ_of_lt hm)
    by_cases hstops : Stops 0 ts
    · exact predictive_of_stops hstops target
    obtain ⟨vs, rfl | rfl⟩ := access_of_not_stops hstops
    · apply predictive_member ht
      intro name ws
      simpa using hrest (.member name ht) ws
    · apply predictive_index (hE depth (Nat.lt_succ_self _)) ht
      intro ws position hws xs
      simpa using hrest (.index ht hws) xs

section

variable {item : List Token → Except ParseError (Expr × List Token)} {t : Token} {ts : List Token}
  {more : List Token → Except ParseError (List Expr × List Token)} {e : Expr}

theorem predictive_itemsBehind {us : List Token} (he : Derives .expression us e)
    (hmore : ∀ vs, vs.length < ts.length → Predictive (Viable .items) more vs) :
    Predictive (fun vs => Viable .items (us ++ vs)) (itemsBehind more e) ts := by
  have hlast : Viable .items (us ++ []) := by
    simpa using he.viable.lastItem
  have hcomma : ∀ vs, Viable .items vs → Viable .items (us ++ .comma :: vs) := by
    intro vs hvs
    refine hvs.behind us .comma [] fun ws e' he' => ?_
    obtain ⟨_, _, es, rfl, -⟩ := he'.exists_demands
    exact ⟨_, by simpa using Derives.item he he'⟩
  cases ts with
  | nil =>
    apply Predictive.refuse hlast
    exact of_head?_nil rfl
  | cons t ts =>
    by_cases hclose : t = .bracketClose
    · subst hclose
      apply Predictive.token
      exact .nothing [e] fun vs _ => rfl
    by_cases ht : t = .comma
    · subst ht
      apply Predictive.token
      by_cases hhead : ts.head? = some .bracketClose
      · obtain ⟨last, rfl⟩ := List.head?_eq_some_iff.1 hhead
        apply Predictive.token
        exact .nothing [e] fun vs _ => rfl
      · apply ((hmore ts (Nat.lt_succ_self _)).map hcomma (e :: ·)).congr
        intro vs hvs
        exact itemsBehind_comma (by rwa [hvs])
    · apply Predictive.refuse hlast
      apply of_head?_cons
      intro vs
      exact itemsBehind_other hclose ht

theorem predictive_items (hs : ∀ ts, Reads (Spans .expression ts) (item ts))
    (h : ∀ ts, Predictive (Viable .expression) item ts) (ts : List Token) :
    Predictive (Viable .items) (allItems item) ts := by
  induction hn : ts.length using Nat.strongRecOn generalizing ts with
  | ind n ih =>
    subst hn
    refine Predictive.congr ?_ fun us _ => allItems_eq hs us
    refine (h ts).bind_phrase (hs ts) (fun us hus => hus.lastItem) ?_
    intro us e rest hts he
    apply predictive_itemsBehind he
    intro vs hvs
    have hlt : vs.length < ts.length := by
      rw [hts, List.length_append]
      omega
    exact ih _ hlt vs rfl

end

theorem predictive_group (hE : ∀ ts, Predictive (Viable .expression) (expression depth) ts)
    (ts : List Token) : Predictive (Viable .single) (primary depth) (.parenOpen :: ts) := by
  have hgroup : ∀ us, Viable .expression us → Viable .single (.parenOpen :: us) := by
    intro us hus
    exact hus.behind [] .parenOpen [.parenClose] fun vs e he => ⟨_, .group he⟩
  apply Predictive.token
  refine Predictive.congr ?_ fun us _ => primary_parenOpen us
  refine (hE ts).bind_phrase (g := fun e us => expect .parenClose us >>= fun vs => pure (e, vs))
    (spans_expression depth ts) hgroup ?_
  intro us e rest _ he
  apply Predictive.expect
  · exact hgroup _ (by simpa using he.viable)
  · intro last _
    exact .nothing e fun vs _ => rfl

theorem predictive_list (hE : ∀ ts, Predictive (Viable .expression) (expression depth) ts)
    (ts : List Token) : Predictive (Viable .single) (primary depth) (.bracketOpen :: ts) := by
  apply Predictive.token
  by_cases hhead : ts.head? = some .bracketClose
  · obtain ⟨us, rfl⟩ := List.head?_eq_some_iff.1 hhead
    apply Predictive.token
    refine .nothing (.list []) fun vs _ => ?_
    rw [primary.eq_def]
  · have hitems := predictive_items (spans_expression depth) hE ts
    refine (hitems.map ?_ .list).congr ?_
    · intro us hus
      exact hus.behind [] .bracketOpen [.bracketClose] fun vs e he => ⟨_, .list he⟩
    · intro us hus
      exact primary_bracketOpen (by rwa [hus])

theorem predictive_primary
    (hE : ∀ ts, Predictive (Viable .expression) (expression depth) ts) (ts : List Token) :
    Predictive (Viable .single) (primary depth) ts := by
  have hnone : Viable .single [] := ⟨[.null], .null, .leaf .null⟩
  cases ts with
  | nil =>
    apply Predictive.refuse hnone
    apply of_head?_nil
    rw [primary.eq_def]
    rfl
  | cons t ts =>
    by_cases hopen : t = .parenOpen
    · rw [hopen]
      exact predictive_group hE ts
    by_cases hlist : t = .bracketOpen
    · rw [hlist]
      exact predictive_list hE ts
    have hleaf : ∀ us, primary depth (t :: us) = _ := primary_of_leaf? hopen hlist
    cases h : leaf? t with
    | some e =>
      apply Predictive.token
      refine .nothing e fun us _ => ?_
      rw [hleaf, h]
    | none =>
      refine .refuse hnone (of_head?_cons fun us => ?_)
      rw [hleaf, h]

theorem predictive_postfixed (hE : PredictiveTo depth) (ts : List Token) :
    Predictive (Viable .accessed) (postfixed depth) ts := by
  have hread : ∀ us, postfixed depth us = primary depth us >>= fun p => accesses depth p.1 p.2 := by
    intro us
    rw [postfixed]
  refine ((predictive_primary (hE depth (Nat.le_refl _)) ts).bind_phrase
    (spans_primary (spans_expression depth) ts) (fun us hus => hus.mono fun _ _ => .alone)
    ?_).congr fun us _ => hread us
  intro us e rest _ he
  exact predictive_accesses (fun m hm => hE m (Nat.le_of_lt hm)) (.alone he) rest

theorem predictive_plain (hE : PredictiveTo depth) (ts : List Token) :
    Predictive (Viable .prefixed) (postfixed depth) ts :=
  (predictive_postfixed hE ts).mono fun _ hus => hus.mono fun _ _ => .plain

theorem predictive_unary (hE : PredictiveTo depth) (ts : List Token) :
    Predictive (Viable .prefixed) (unary depth) ts := by
  induction ts generalizing depth with
  | nil =>
    apply (predictive_plain hE []).congr
    apply of_head?_nil
    rw [unary.eq_def]
  | cons t ts ih =>
    cases ht : leadingOp? t with
    | none => exact (predictive_plain hE (t :: ts)).congr (of_head?_cons (unary_of_not_leading ht))
    | some op =>
      obtain rfl := leadingOp?_eq_some_iff.1 ht
      have hoperand : ∀ us, Viable .prefixed us → Viable .prefixed (op.token :: us) := by
        intro us hus
        exact hus.behind [] op.token [] fun vs e he => ⟨_, by simpa using Derives.unary op he⟩
      apply Predictive.token
      refine Predictive.congr ?_ fun us _ => unary_token op us
      exact .demand fun _ => (ih (hE.mono (Nat.sub_le depth 1))).map hoperand (Expr.unary op)

theorem link_of_joined {level : Level} {ts : List Token}
    (h : ¬ ∀ t ∈ ts.head?, joined? level t = none) :
    ∃ t us join, ts = t :: us ∧ joined? level t = some join := by
  cases ts with
  | nil => exact absurd (by simp) h
  | cons t us =>
    cases hj : joined? level t with
    | none => exact absurd (by simpa using hj) h
    | some join => exact ⟨t, us, join, rfl, hj⟩

theorem predictive_links {level : Level}
    (hO : ∀ m < depth, ∀ ts, Predictive (Viable level.operands) (operand level m) ts)
    {us : List Token} {left : Expr} (hl : Derives (.chain level) us left) (ts : List Token) :
    Predictive (fun vs => Viable (.chain level) (us ++ vs)) (links level depth left) ts := by
  induction depth using Nat.strongRecOn generalizing us left ts with
  | ind depth ih =>
    by_cases hstops : ∀ t ∈ ts.head?, joined? level t = none
    · exact .nothing left fun vs hvs => links_of_not_joined (by rwa [hvs]) left
    obtain ⟨t, vs, join, rfl, hj⟩ := link_of_joined hstops
    have hright : ∀ ws, Viable level.operands ws → Viable (.chain level) (us ++ t :: ws) := by
      intro ws hws
      refine hws.behind us t [] fun xs e he => ⟨join left e, ?_⟩
      simpa using Derives.link hl (joins_iff.2 hj) he
    apply Predictive.token
    refine Predictive.congr ?_ fun ws _ => links_cons hj left ws
    refine .demand fun hpos => ?_
    have hlt : depth - 1 < depth := Nat.sub_lt hpos Nat.one_pos
    refine (hO (depth - 1) hlt vs).bind_phrase
      (g := fun right ws => links level (depth - 1) (join left right) ws)
      (spans_operand level (fun m _ => spans_expression m) vs) hright ?_
    intro ws right rest _ hr
    have hall : ∀ xs, us ++ t :: (ws ++ xs) = (us ++ t :: ws) ++ xs := by simp
    have hlink := Derives.link hl (joins_iff.2 hj) hr
    apply (ih (depth - 1) hlt (fun m hm => hO m (Nat.lt_trans hm hlt)) hlink rest).mono
    intro xs hxs
    rwa [hall]

theorem predictive_chain {level : Level}
    (hO : ∀ m ≤ depth, ∀ ts, Predictive (Viable level.operands) (operand level m) ts)
    (ts : List Token) : Predictive (Viable (.chain level)) (chain level depth) ts := by
  have hread : ∀ us, chain level depth us =
      operand level depth us >>= fun p => links level depth p.1 p.2 := by
    intro us
    rw [chain]
  refine Predictive.congr ?_ fun us _ => hread us
  refine (hO depth (Nat.le_refl _) ts).bind_phrase
    (spans_operand level (fun m _ => spans_expression m) ts)
    (fun us hus => hus.mono fun _ _ => .operand) ?_
  intro us left rest _ hl
  exact predictive_links (fun m hm => hO m (Nat.le_of_lt hm)) (.operand hl) rest

theorem predictive_operand (level : Level) (hE : PredictiveTo depth) (ts : List Token) :
    Predictive (Viable level.operands) (operand level depth) ts := by
  induction level using Level.byTighter generalizing depth ts with
  | tightest => exact (predictive_unary hE ts).congr fun us _ => operand_multiplicative
  | looser level tighter ht ih =>
    rw [Level.operands_of_tighter? ht]
    have hchain := predictive_chain (fun m hm => ih (hE.mono hm)) ts
    exact hchain.congr fun us _ => operand_of_tighter? ht

theorem derives_null : Derives .expression [.null] .null := by
  have hread : expression 1 [.null] = .ok (.null, []) := expression_leaf rfl trivial (by simp)
  exact derives_of_expression hread

theorem predictive_branches
    (hE : ∀ ts, Predictive (Viable .expression) (expression depth) ts) {us : List Token}
    {condition : Expr} (hc : Derives (.chain .or) us condition) (ts : List Token) :
    Predictive (fun vs => Viable .expression (us ++ vs)) (branches depth condition) ts := by
  by_cases hquestion : ts.head? = some .question
  · obtain ⟨vs, rfl⟩ := List.head?_eq_some_iff.1 hquestion
    have hread : ∀ ws, branches depth condition (.question :: ws) =
        expression depth ws >>= fun p => expect .colon p.2 >>= fun xs =>
          expression depth xs >>= fun q => pure (.conditional condition p.1 q.1, q.2) := by
      intro ws
      rfl
    have hyes : ∀ ws, Viable .expression ws → Viable .expression (us ++ .question :: ws) := by
      intro ws hws
      exact hws.behind us .question [.colon, .null] fun xs e he =>
        ⟨_, .conditional hc he derives_null⟩
    apply Predictive.token
    refine Predictive.congr ?_ fun ws _ => hread ws
    refine (hE vs).bind_phrase
      (g := fun yes ws => expect .colon ws >>= fun xs => expression depth xs >>= fun q =>
        pure (Expr.conditional condition yes q.1, q.2)) (spans_expression depth vs) hyes ?_
    intro ws yes rest _ hy
    apply Predictive.expect
    · exact hyes _ (by simpa using hy.viable)
    · intro last _
      refine (hE last).map ?_ (Expr.conditional condition yes)
      intro xs hxs
      have hno : Viable .expression ((us ++ .question :: ws) ++ .colon :: xs) := by
        refine hxs.behind _ .colon [] fun zs e he => ⟨.conditional condition yes e, ?_⟩
        simpa using Derives.conditional hc hy he
      simpa using hno
  · exact .nothing condition fun vs hvs => branches_of_no_question (by rwa [hvs])

theorem predictive_expression (depth : Nat) (ts : List Token) :
    Predictive (Viable .expression) (expression depth) ts := by
  induction depth using Nat.strongRecOn generalizing ts with
  | ind depth ih =>
    refine Predictive.congr ?_ fun us _ => expression_eq depth us
    refine .demand fun hpos => ?_
    have hlt : depth - 1 < depth := Nat.sub_lt hpos Nat.one_pos
    have hE : PredictiveTo (depth - 1) := fun m hm => ih m (Nat.lt_of_le_of_lt hm hlt)
    refine (predictive_chain (fun m hm => predictive_operand .or (hE.mono hm)) ts).bind_phrase
      (spans_chain (fun m _ => spans_operand .or fun k _ => spans_expression k) ts)
      (fun us hus => hus.mono fun _ _ => .condition) ?_
    intro us condition rest _ hc
    exact predictive_branches (hE (depth - 1) (Nat.le_refl _)) hc rest

end Parser
end Stencil.Expr
