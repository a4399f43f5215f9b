import Stencil.Proofs.Expr.Following
import Stencil.Proofs.Expr.Separation

namespace Stencil

/-- The texts as the items of a list. -/
def Text.bracketed (texts : List Text) : Text := '[' :: ([','].intercalate texts ++ [']'])

namespace Expr

open Token

variable {texts : List Text} {es : List Expr} {source : Text} {e : Expr} {levels more : Nat}

theorem readsWithin_iff_of_tokenize {tokens : List (Token × Span)}
    (h : tokenize source = .ok tokens) :
    ReadsWithin levels source e ↔
      Parser.expression levels (tokens.map Prod.fst) = .ok (e, []) := by
  simp only [ReadsWithin, h, Except.ok.injEq, exists_eq_left']

/-- A text that is read has its own tokens and levels in front of a comma or a closing bracket. -/
theorem ReadsWithin.exists_demands (h : ReadsWithin more source e) :
    ∃ ts l k, (∀ rest us, rest.Parted → Scans rest us → Scans (source ++ rest) (ts ++ us)) ∧
      Demands l k .expression ts e ∧ ∀ levels, ReadsWithin levels source e ↔ l ≤ levels := by
  obtain ⟨tokens, htokens, hread⟩ := h
  obtain ⟨l, k, hl⟩ := (derives_of_expression hread).exists_demands
  refine ⟨tokens.map Prod.fst, l, k, fun rest us hrest hus => hus.parted hrest htokens, hl, ?_⟩
  intro levels
  rw [readsWithin_iff_of_tokenize htokens, hl.expression_eq_ok_iff]

/-- The items of a list take the levels of the deepest of them. -/
theorem exists_demands_items (h : List.Forall₂ (ReadsWithin more) texts es) :
    ∃ ts l k, Scans ([','].intercalate texts ++ [']']) (ts ++ [.bracketClose]) ∧
      Demands l k .items ts (.list es) ∧
      ∀ levels, List.Forall₂ (ReadsWithin levels) texts es ↔ l ≤ levels := by
  have hclose : Scans [']'] [.bracketClose] := scans_nil.single (by simp)
  induction h with
  | nil =>
    refine ⟨[], 0, 0, hclose, .noItems, fun levels => ?_⟩
    simp
  | cons h hs ih =>
    obtain ⟨ts, l, k, hscans, hl, hiff⟩ := h.exists_demands
    cases hs with
    | nil =>
      refine ⟨ts, l, 0, ?_, hl.lastItem, fun levels => ?_⟩
      · rw [List.intercalate_singleton]
        exact hscans _ _ (by simp [Text.Parted]) hclose
      · rw [List.forall₂_cons, hiff]
        simp
    | cons h' hs =>
      obtain ⟨us, m, n, hus, hm, hitems⟩ := ih
      refine ⟨ts ++ .comma :: us, max l m, 0, ?_, hl.item hm, fun levels => ?_⟩
      · have hcomma := hus.single (c := ',') (u := .comma) (by simp)
        have hall := hscans _ _ (by simp [Text.Parted]) hcomma
        rw [List.intercalate_cons_cons]
        simpa using hall
      · rw [List.forall₂_cons, hiff, hitems, Nat.max_le]

/-- A list takes one level more than its items take. -/
theorem readsWithin_bracketed_iff (h : List.Forall₂ (ReadsWithin more) texts es) (levels : Nat) :
    ReadsWithin (levels + 1) (Text.bracketed texts) (.list es) ↔
      List.Forall₂ (ReadsWithin levels) texts es := by
  obtain ⟨ts, l, k, hscans, hl, hiff⟩ := exists_demands_items h
  have hall : Scans (Text.bracketed texts) (.bracketOpen :: (ts ++ [.bracketClose])) :=
    hscans.single (by simp)
  obtain ⟨tokens, hscan, htokens⟩ := hall 0
  rw [readsWithin_iff_of_tokenize hscan, htokens, hl.bracketed.expression_eq_ok_iff, hiff,
    Nat.succ_le_succ_iff]

theorem parse_bracketed_iff
    (h : List.Forall₂ (fun source e => parse source = .ok (some e)) texts es) :
    parse (Text.bracketed texts) = .ok (some (.list es)) ↔
      List.Forall₂ (fun source e => parse (Text.bracketed [source]) = .ok (some (.list [e])))
        texts es := by
  simp only [parse_eq_ok_iff] at h ⊢
  rw [show maxDepth = 99 + 1 from rfl, readsWithin_bracketed_iff h]
  induction h with
  | nil => simp
  | cons h hs ih =>
    rw [List.forall₂_cons, List.forall₂_cons, ih, readsWithin_bracketed_iff (.cons h .nil),
      List.forall₂_cons]
    simp

theorem forall₂_replicate {R : Text → Expr → Prop} (h : R source e) (n : Nat) :
    List.Forall₂ R (List.replicate n source) (List.replicate n e) := by
  induction n with
  | zero => exact .nil
  | succ n ih => exact .cons h ih

/-- A descent comes back to the depth where it began, so the items of a list do not add up. -/
theorem descent_keeps_depth :
    (∀ (part : Part) (tokens : List Token) (cursor depth : Nat),
      (∃ result t, Descent.Ends part.run (.start tokens cursor depth) result t) ∧
      ∀ result t, Descent.Ends part.run (.start tokens cursor depth) result t →
        part.read (maxDepth - depth) (tokens.drop cursor) =
          result.map (fun e => (e, tokens.drop t.cursor)) ∧
        (∀ d ∈ t.trail, depth ≤ d ∧ (d = depth ∨ d ≤ maxDepth)) ∧
        ∀ e, result = .ok e →
          t.tokens = tokens ∧ t.depth = depth ∧ cursor < t.cursor ∧ t.cursor ≤ tokens.length ∧
          ∀ less ≤ depth, ∃ u,
            Descent.Ends part.run (.start tokens cursor less) (.ok e) u ∧
            u.cursor = t.cursor) ∧
    (∀ s t : Descent, Descent.descend s = some (.ok (), t) →
      t.depth = s.depth + 1 ∧ t.depth ≤ maxDepth) ∧
    ∀ (texts : List Text) (es : List Expr),
      List.Forall₂ (fun source e => parse source = .ok (some e)) texts es →
      (parse (Text.bracketed texts) = .ok (some (.list es)) ↔
        List.Forall₂ (fun source e => parse (Text.bracketed [source]) = .ok (some (.list [e])))
          texts es) := by
  refine ⟨?_, fun s t => Descent.descend_depth_le, fun texts es => parse_bracketed_iff⟩
  intro part tokens cursor depth
  obtain ⟨result, t, hends, hread, htrail, hok⟩ := part.exists_ends tokens cursor depth
  refine ⟨⟨result, t, hends⟩, fun result' t' hends' => ?_⟩
  obtain ⟨rfl, rfl⟩ := hends.unique hends'
  refine ⟨hread, htrail, ?_⟩
  rintro e rfl
  obtain ⟨htokens, hdepth, hlt, hle⟩ := hok e rfl
  exact ⟨htokens, hdepth, hlt, hle, fun less hless => Part.ends_of_le hends hless⟩

/-- A prefix operator one level above the deepest; a thousand items that each take all levels. -/
theorem descent_keeps_depth_thousand :
    (∃ e t u, Descent.Ends Part.unary.run (.start [.bang, .ident name] 0 99) (.ok e) t ∧
      t.depth = 99 ∧ t.cursor = 2 ∧
      Descent.Ends Part.unary.run (.start [.bang, .ident name] 0 0) (.ok e) u ∧ u.cursor = 2) ∧
    (∃ t, Descent.descend (.start [] 0 99) = some (.ok (), t) ∧ t.depth = maxDepth) ∧
    ∃ source e, source = (List.replicate 98 ['!', ' ']).flatten ++ "x || x ".toList ∧
      parse source = .ok (some e) ∧ parse (Text.bracketed [source]) = .ok (some (.list [e])) ∧
      parse (Text.bracketed (List.replicate 1000 source)) =
        .ok (some (.list (List.replicate 1000 e))) := by
  obtain ⟨hparts, hdescend, hlists⟩ := descent_keeps_depth
  refine ⟨?_, ?_, ?_⟩
  · obtain ⟨⟨result, t, hends⟩, hall⟩ := hparts .unary [.bang, .ident name] 0 99
    obtain ⟨hread, -, hok⟩ := hall result t hends
    have hstops : Stops 0 [] := trivial
    have hname : Parser.unary 0 [.ident name] = .ok (.ident name, []) :=
      (Parser.unary_leaf rfl).trans (Parser.accesses_of_stops hstops _)
    have hbang : Part.unary.read (maxDepth - 99) [.bang, .ident name] =
        .ok (.unary .not (.ident name), []) := Parser.unary_of_leadingOp? rfl hname
    rw [List.drop_zero, hbang] at hread
    cases result with
    | error err => simp [Except.map] at hread
    | ok e =>
      obtain ⟨-, hdepth, -, hle, hless⟩ := hok e rfl
      obtain ⟨u, hu, hcursor⟩ := hless 0 (Nat.zero_le 99)
      obtain ⟨-, hend⟩ : _ ∧ 2 ≤ t.cursor := by simpa [Except.map] using hread
      have ht : t.cursor = 2 := Nat.le_antisymm hle hend
      exact ⟨e, t, u, hends, hdepth, ht, hu, hcursor.trans ht⟩
  · have hstep := Descent.descend_of_levels_succ (s := .start [] 0 99) (n := 0) rfl
    exact ⟨_, hstep, (hdescend _ _ hstep).1⟩
  · obtain ⟨e, hr, -⟩ := readsWithin_bangs (show 98 < 99 by decide) (by decide)
    rw [spelled_bangs] at hr
    have hsource := parse_eq_ok_iff.2 (hr.mono (show 99 ≤ maxDepth by decide))
    have hitem := (readsWithin_bracketed_iff (.cons hr .nil) 99).2 (.cons hr .nil)
    have hone := parse_eq_ok_iff.2 hitem
    refine ⟨_, e, rfl, hsource, hone, ?_⟩
    exact (hlists _ _ (forall₂_replicate hsource 1000)).2 (forall₂_replicate hone 1000)

end Expr
end Stencil
