import Stencil.Proofs.Expr.Access
import Stencil.Proofs.Expr.Spacing

namespace Stencil

/-- At a comma, at a closing bracket, or at the end. -/
def Text.Parted (rest : Text) : Prop := ∀ c ∈ rest.head?, c = ',' ∨ c = ']'

variable {t rest : Text}

theorem takeWhile_append_of_head? {p : Char → Bool} (h : ∀ c ∈ rest.head?, p c = false) (t : Text) :
    (t ++ rest).takeWhile p = t.takeWhile p ∧ (t ++ rest).dropWhile p = t.dropWhile p ++ rest := by
  induction t with
  | nil =>
    cases rest with
    | nil => exact ⟨rfl, rfl⟩
    | cons c rest => simp [h c rfl]
  | cons c t ih =>
    cases hc : p c with
    | true => simp [hc, ih]
    | false => simp [hc]

namespace Number

theorem digits_parted (h : rest.Parted) (t : Text) :
    digits (t ++ rest) = ((digits t).1, (digits t).2 ++ rest) := by
  have hstop : ∀ c ∈ rest.head?, isDigit 10 c = false := by
    intro c hc
    rcases h c hc with rfl | rfl <;> decide
  obtain ⟨htake, hdrop⟩ := takeWhile_append_of_head? hstop t
  simp only [digits, List.span_eq_takeWhile_dropWhile, htake, hdrop]

theorem pointDigits_parted (h : rest.Parted) (t : Text) :
    pointDigits (t ++ rest) = ((pointDigits t).1, (pointDigits t).2 ++ rest) := by
  by_cases hpoint : t.head? = some '.'
  · obtain ⟨r, rfl⟩ := List.head?_eq_some_iff.1 hpoint
    simp only [pointDigits, List.cons_append, digits_parted h r]
    split <;> rfl
  · have hnone : ∀ u : Text, u.head? ≠ some '.' → pointDigits u = ([], u) := by
      intro u hu
      unfold pointDigits
      split
      · exact absurd rfl hu
      · rfl
    rw [hnone t hpoint, hnone]
    cases t with
    | nil =>
      intro hhead
      rcases h _ hhead with hc | hc <;> exact absurd hc (by decide)
    | cons c t => exact hpoint

theorem sign_parted (h : rest.Parted) (t : Text) :
    sign (t ++ rest) = ((sign t).1, (sign t).2 ++ rest) := by
  cases t with
  | nil =>
    cases rest with
    | nil => rfl
    | cons c rest => rcases h c rfl with rfl | rfl <;> rfl
  | cons c t =>
    by_cases hminus : c = '-'
    · rw [hminus]
      rfl
    by_cases hplus : c = '+'
    · rw [hplus]
      rfl
    have hnone : ∀ u, sign (c :: u) = (false, c :: u) := by
      intro u
      unfold sign
      split
      · next heq => exact absurd (List.cons.inj heq).1 hminus
      · next heq => exact absurd (List.cons.inj heq).1 hplus
      · rfl
    rw [List.cons_append, hnone, hnone]
    rfl

theorem exponent?_parted (h : rest.Parted) (t : Text) :
    exponent? (t ++ rest) = (exponent? t).map fun p => (p.1, p.2 ++ rest) := by
  cases t with
  | nil =>
    cases rest with
    | nil => rfl
    | cons c rest => rcases h c rfl with rfl | rfl <;> rfl
  | cons c t =>
    simp only [List.cons_append, exponent?, sign_parted h t, digits_parted h]
    split
    · split <;> rfl
    · rfl

end Number

namespace Token

theorem readNumber_parted (h : rest.Parted) (t : Text) :
    readNumber (t ++ rest) = ((readNumber t).1, (readNumber t).2 ++ rest) := by
  simp only [readNumber_eq, Number.digits_parted h, Number.pointDigits_parted h,
    Number.exponent?_parted h]
  cases Number.exponent? (Number.pointDigits (Number.digits t).2).2 <;> rfl

/-- What is read as a token is read so in front of a comma or a closing bracket. -/
theorem read_parted (hrest : rest.Parted) {c : Char} {t : Text} {n : Nat} {token : Token}
    (h : read c t = (n, some token)) : read c (t ++ rest) = (n, some token) := by
  by_cases hname : isNameStart c
  · have hstop : ∀ d ∈ rest.head?, isNamePart d = Bool.false := by
      intro d hd
      rcases hrest d hd with rfl | rfl <;> decide
    simp only [read, hname, if_true] at h ⊢
    rw [(takeWhile_append_of_head? hstop t).1, h]
  by_cases hc : Number.isDigit 10 c
  · have hnumber := readNumber_parted hrest (c :: t)
    rw [List.cons_append] at hnumber
    rw [read_number hc] at h ⊢
    rw [hnumber, ← h, List.length_append, List.length_append, Nat.add_sub_add_right]
  by_cases hq : Literal.IsQuote c
  · rcases hextent : Literal.extent c t with ⟨m, closed⟩
    rw [read_quote hq, hextent, Prod.mk.injEq] at h
    obtain ⟨rfl, h⟩ := h
    cases closed with
    | false => simp at h
    | true =>
      obtain ⟨u, v, rfl, rfl, hu⟩ := Literal.interior_of_extent hextent
      obtain ⟨s, hs, rfl⟩ := Option.map_eq_some_iff.1 h
      have hread := read_literal hq hu (by simpa using hs) (v ++ rest)
      simpa using hread
  have hquote : ¬ (c = '"' ∨ c = '\'') := hq
  have hstop : ∀ d ∈ ['=', '&', '|'], rest.head? ≠ some d := by
    intro d hd hhead
    rcases hrest d hhead with rfl | rfl <;> simp at hd
  have hcons : ∀ {d : Char} {u v : Text}, d ∈ ['=', '&', '|'] → u ++ rest = d :: v →
      ∃ w, u = d :: w ∧ w ++ rest = v := by
    intro d u v hd heq
    cases u with
    | nil => exact absurd (by rw [← List.nil_append rest, heq]; rfl) (hstop d hd)
    | cons e u =>
      obtain ⟨rfl, rfl⟩ := List.cons.inj heq
      exact ⟨u, rfl, rfl⟩
  simp only [read, hname, hc, hquote, if_false, Bool.false_eq_true] at h ⊢
  -- A sign is read with two characters behind it, and the rest begins with none of a sign.
  split at h <;> first | exact h | (split <;> grind)

/-- The tokens of a source in front of the tokens of what a comma or a closing bracket begins. -/
theorem Scans.parted {text : Text} {us : List Token} (hrest : rest.Parted) (h : Scans rest us)
    {offset : Nat} {tokens : List (Token × Span)} (ht : scan offset text = .ok tokens) :
    Scans (text ++ rest) (tokens.map Prod.fst ++ us) := by
  fun_induction scan offset text generalizing tokens with
  | case1 offset =>
    obtain rfl : tokens = [] := by simpa using ht.symm
    exact h
  | case2 offset c t hc ih =>
    intro start
    obtain ⟨others, hscan, hothers⟩ := ih ht (start + c.utf8Size)
    refine ⟨others, ?_, hothers⟩
    rw [List.cons_append, scan, if_pos hc, hscan]
  | case3 => simp at ht
  | case4 => simp at ht
  | case5 offset c t hc n stop token tokens' hscan hread =>
    rename_i ih
    obtain rfl := Except.ok.inj ht
    obtain ⟨u, v, rfl, rfl, -⟩ := lexeme_of_read hread
    have hcons : read c (u ++ (v ++ rest)) = (u.length, some token) := by
      rw [← List.append_assoc]
      exact read_parted hrest hread
    rw [List.drop_left] at ih hscan
    have hall := (ih hscan).cons hc hcons
    simpa using hall

end Token
end Stencil
