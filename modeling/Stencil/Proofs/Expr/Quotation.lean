import Stencil.Proofs.Expr.Lexeme

namespace Stencil

namespace Literal

def escapedChar (q c : Char) : Text := if c = '\\' ∨ c = q then ['\\', c] else [c]

/-- The interior of a literal between quotes `q`. -/
def escaped (q : Char) (t : Text) : Text := t.flatMap (escapedChar q)

/-- A text as a literal between quotes `q`. -/
def quoted (q : Char) (t : Text) : Text := q :: (escaped q t ++ [q])

/-- The text of an interior, by way of the literal between double quotes. -/
def resolve (interior : Text) : Option Text := (requote interior).bind unescape

variable {q c : Char} {t : Text}

theorem escaped_cons (q c : Char) (t : Text) :
    escaped q (c :: t) = escapedChar q c ++ escaped q t :=
  List.flatMap_cons

theorem escaped_cons_of_special (h : c = '\\' ∨ c = q) :
    escaped q (c :: t) = '\\' :: c :: escaped q t := by
  simp [escaped_cons, escapedChar, h]

theorem escaped_cons_of_plain (hb : c ≠ '\\') (hq : c ≠ q) :
    escaped q (c :: t) = c :: escaped q t := by
  simp [escaped_cons, escapedChar, hb, hq]

/-- No quote inside closes the literal, and no backslash keeps its last quote from closing it. -/
theorem interior_escaped (hq : IsQuote q) (t : Text) : Interior q (escaped q t) := by
  induction t with
  | nil => exact .nil
  | cons c t ih =>
    by_cases hc : c = '\\' ∨ c = q
    · have hline : c ≠ '\n' := by
        rcases hc with rfl | rfl
        · decide
        · rcases hq with rfl | rfl <;> decide
      rw [escaped_cons_of_special hc]
      exact .escape hline ih
    · simp only [not_or] at hc
      rw [escaped_cons_of_plain hc.1 hc.2]
      exact .plain hc.2 hc.1 ih

theorem requote_cons (hb : c ≠ '\\') (t : Text) :
    requote (c :: t) = (requote t).map (escapedChar '"' c ++ ·) := by
  by_cases hd : c = '"'
  · subst c
    simp [requote, escapedChar]
  · rw [requote]
    · simp [escapedChar, hb, hd]
    all_goals simp_all

/-- What is written between either kind of quotes comes out as it is written between double ones. -/
theorem requote_escaped (hq : IsQuote q) (t : Text) :
    requote (escaped q t) = some (escaped '"' t) := by
  induction t with
  | nil => rfl
  | cons c t ih =>
    by_cases hc : c = '\\' ∨ c = q
    · rw [escaped_cons_of_special hc, escaped_cons '"' c t]
      rcases hc with rfl | rfl
      · simp [requote, ih, escapedChar]
      · rcases hq with rfl | rfl <;> simp [requote, ih, escapedChar]
    · simp only [not_or] at hc
      rw [escaped_cons_of_plain hc.1 hc.2, requote_cons hc.1, ih, escaped_cons '"' c t]
      rfl

theorem requote_of_not_mem (h : '\\' ∉ t) : requote t = some (escaped '"' t) := by
  induction t with
  | nil => rfl
  | cons c t ih =>
    simp only [List.mem_cons, not_or] at h
    rw [requote_cons (Ne.symm h.1), ih h.2, escaped_cons '"' c t]
    rfl

theorem unescape_escaped (t : Text) : unescape (escaped '"' t) = some t := by
  induction t with
  | nil => simp [escaped, unescape]
  | cons c t ih =>
    by_cases hc : c = '\\' ∨ c = '"'
    · rw [escaped_cons_of_special hc]
      rcases hc with rfl | rfl
      · rw [unescape]
        · simp [escape?, ih]
        all_goals simp
      · rw [unescape]
        · simp [escape?, ih]
        all_goals simp
    · simp only [not_or] at hc
      rw [escaped_cons_of_plain hc.1 hc.2, unescape]
      · simp [hc.1, ih]
      all_goals simp_all

theorem resolve_of_not_mem (h : '\\' ∉ t) : resolve t = some t := by
  rw [resolve, requote_of_not_mem h]
  exact unescape_escaped t

/-- An interior without a backslash could be resolved like any other. -/
theorem unquote_eq_resolve (interior : Text) : unquote interior = resolve interior := by
  by_cases h : '\\' ∈ interior
  · simp [unquote, h, resolve]
  · simp [unquote, h, resolve_of_not_mem h]

theorem unquote_escaped (hq : IsQuote q) (t : Text) : unquote (escaped q t) = some t := by
  rw [unquote_eq_resolve, resolve, requote_escaped hq]
  exact unescape_escaped t

end Literal

namespace Token

open Literal

/-- Every text is read back from its literals between either kind of quotes. -/
theorem tokenize_quoted :
    (∀ q t, IsQuote q →
      tokenize (quoted q t) = .ok [(.string t, ⟨0, (quoted q t).size⟩)]) ∧
    ∀ interior, '\\' ∉ interior →
      (requote interior).bind unescape = some interior ∧ unquote interior = some interior := by
  constructor
  · intro q t hq
    exact tokenize_lexeme (.string hq (interior_escaped hq t) (unquote_escaped hq t))
  · intro interior h
    have hresolve : resolve interior = some interior := resolve_of_not_mem h
    exact ⟨hresolve, (unquote_eq_resolve interior).trans hresolve⟩

/-- Quotes of both kinds, backslashes in front of quotes, and characters of several bytes. -/
theorem tokenize_quoted_mixed :
    let t := "é\"\\\"'\\\n\\\\".toList
    (tokenize (quoted '"' t) = .ok [(.string t, ⟨0, 18⟩)] ∧
      tokenize (quoted '\'' t) = .ok [(.string t, ⟨0, 17⟩)]) ∧
    (requote "a\"b".toList).bind unescape = some "a\"b".toList := by
  intro t
  obtain ⟨hquoted, hplain⟩ := tokenize_quoted
  exact ⟨⟨hquoted '"' t (.inl rfl), hquoted '\'' t (.inr rfl)⟩, (hplain _ (by decide)).1⟩

end Token
end Stencil
