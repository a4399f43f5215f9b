import Mathlib.Data.List.TakeDrop
import Mathlib.Data.List.TakeWhile
import Stencil.Proofs.Expr.Spelling

namespace Stencil

namespace Number

def IsDigits (ds : Text) : Prop := ds ≠ [] ∧ ∀ c ∈ ds, isDigit 10 c

/-- Digits behind a point, or neither. -/
inductive FractionText : Text → Text → Prop
  | none : FractionText [] []
  | point {ds : Text} (h : IsDigits ds) : FractionText ('.' :: ds) ds

inductive ExponentText : Text → Int → Prop
  | none : ExponentText [] 0
  | digits {c : Char} {sign ds : Text} (hc : c = 'e' ∨ c = 'E')
      (hs : sign ∈ [[], ['+'], ['-']]) (h : IsDigits ds) :
      ExponentText (c :: (sign ++ ds))
        (if sign = ['-'] then -(ofDigits 10 ds : Int) else ofDigits 10 ds)

/-- A number as it is written, with the number nearest to it. -/
inductive Written : Text → Number → Prop
  | mk {whole fraction exponent ds : Text} {e : Int} (hw : IsDigits whole)
      (hf : FractionText fraction ds) (he : ExponentText exponent e) :
      Written (whole ++ (fraction ++ exponent)) (Decimal.ofParts whole ds e).toNumber

variable {t ds rest u : Text} {e : Int}

theorem Written.exists_cons {x : Number} (h : Written u x) :
    ∃ c v, u = c :: v ∧ isDigit 10 c := by
  cases h with
  | mk hw hf he =>
    obtain ⟨hne, hdigits⟩ := hw
    obtain ⟨c, ds, rfl⟩ := List.exists_cons_of_ne_nil hne
    exact ⟨c, _, rfl, hdigits c List.mem_cons_self⟩

theorem isDigit_iff {c : Char} : isDigit 10 c ↔ 48 ≤ c.toNat ∧ c.toNat ≤ 57 := by
  have h0 : '0'.toNat = 48 := rfl
  have h9 : '9'.toNat = 57 := rfl
  unfold isDigit digit?
  dsimp only
  rw [h0, h9]
  split
  · next h =>
    have hlt : c.toNat - 48 < 10 := by omega
    simp [h, hlt]
  · next h =>
    have hlow : ∀ n, ¬ n + 10 < 10 := by omega
    split
    · simp [h]
    · split <;> simp [h]

theorem digits_append (hds : ∀ c ∈ ds, isDigit 10 c) (hrest : ∀ c ∈ rest.head?, ¬ isDigit 10 c) :
    digits (ds ++ rest) = (ds, rest) := by
  have hstop : rest.takeWhile (isDigit 10) = [] ∧ rest.dropWhile (isDigit 10) = rest := by
    cases rest with
    | nil => exact ⟨rfl, rfl⟩
    | cons c rest =>
      have hc : isDigit 10 c = false := by simpa using hrest c rfl
      simp [hc]
  rw [digits, List.span_eq_takeWhile_dropWhile, List.takeWhile_append_of_pos hds,
    List.dropWhile_append_of_pos hds, hstop.1, hstop.2, List.append_nil]

theorem of_digits (h : digits t = (ds, rest)) : t = ds ++ rest ∧ ∀ c ∈ ds, isDigit 10 c := by
  rw [digits, List.span_eq_takeWhile_dropWhile, Prod.mk.injEq] at h
  obtain ⟨rfl, rfl⟩ := h
  refine ⟨List.takeWhile_append_dropWhile.symm, ?_⟩
  intro c hc
  exact List.mem_takeWhile_imp hc

theorem digits_ne_nil {c : Char} (hc : isDigit 10 c) (t : Text) : (digits (c :: t)).1 ≠ [] := by
  simp [digits, List.span_eq_takeWhile_dropWhile, hc]

theorem of_sign {negative : Bool} (h : sign t = (negative, rest)) :
    ∃ s ∈ [[], ['+'], ['-']], t = s ++ rest ∧ negative = decide (s = ['-']) := by
  unfold sign at h
  split at h <;> simp only [Prod.mk.injEq] at h <;> obtain ⟨rfl, rfl⟩ := h
  · exact ⟨['-'], by simp, rfl, rfl⟩
  · exact ⟨['+'], by simp, rfl, rfl⟩
  · exact ⟨[], by simp, rfl, rfl⟩

theorem sign_digits {s : Text} (hs : s ∈ [[], ['+'], ['-']]) (hds : IsDigits ds) (rest : Text) :
    sign (s ++ (ds ++ rest)) = (decide (s = ['-']), ds ++ rest) := by
  simp only [List.mem_cons, List.not_mem_nil, or_false] at hs
  rcases hs with rfl | rfl | rfl
  · obtain ⟨hne, hall⟩ := hds
    cases ds with
    | nil => exact absurd rfl hne
    | cons d ds =>
      have hd : isDigit 10 d := hall d List.mem_cons_self
      have hminus : d ≠ '-' := by
        rintro rfl
        exact absurd hd (by decide)
      have hplus : d ≠ '+' := by
        rintro rfl
        exact absurd hd (by decide)
      simp [sign, hminus, hplus]
  · rfl
  · rfl

theorem exponentText_of_exponent? (h : exponent? t = some (e, rest)) :
    ∃ u, t = u ++ rest ∧ ExponentText u e := by
  cases t with
  | nil => simp [exponent?] at h
  | cons c t =>
    rcases hsign : sign t with ⟨negative, behind⟩
    rcases hdigits : digits behind with ⟨ds, last⟩
    obtain ⟨s, hs, rfl, rfl⟩ := of_sign hsign
    obtain ⟨rfl, hall⟩ := of_digits hdigits
    simp only [exponent?, hsign, hdigits] at h
    split at h
    · next hc =>
      split at h
      · simp at h
      · next hne =>
        simp only [decide_eq_true_eq, Option.some.injEq, Prod.mk.injEq] at h
        obtain ⟨rfl, rfl⟩ := h
        have hds : IsDigits ds := ⟨by simpa using hne, hall⟩
        exact ⟨c :: (s ++ ds), by simp, .digits hc hs hds⟩
    · simp at h

/-- What the source goes on with behind a number does not belong to it. -/
def Ends (rest : Text) : Prop :=
  ∀ c ∈ rest.head?, ¬ isDigit 10 c ∧ c ≠ '.' ∧ c ≠ 'e' ∧ c ≠ 'E'

theorem exponent?_of_ends (h : Ends rest) : exponent? rest = none := by
  cases rest with
  | nil => rfl
  | cons c rest =>
    obtain ⟨-, -, he, hE⟩ := h c rfl
    simp [exponent?, he, hE]

theorem exponent?_append (h : ExponentText u e) (hrest : Ends rest) :
    (exponent? (u ++ rest)).getD (0, u ++ rest) = (e, rest) := by
  cases h with
  | none => simp [exponent?_of_ends hrest]
  | digits hc hs hds =>
    have hdigits := digits_append hds.2 fun c hc => (hrest c hc).1
    rw [List.cons_append, List.append_assoc]
    simp only [exponent?, hc, if_true, sign_digits hs hds, hdigits]
    simp [hds.1]

/-- The digits behind the point that a text begins with, and what follows them. -/
def pointDigits (t : Text) : Text × Text :=
  match t with
  | '.' :: r =>
    let (ds, r') := digits r
    if ds.isEmpty then ([], t) else (ds, r')
  | r => ([], r)

theorem fractionText_of_pointDigits (h : pointDigits t = (ds, rest)) :
    ∃ u, t = u ++ rest ∧ FractionText u ds := by
  unfold pointDigits at h
  split at h
  · next r =>
    rcases hdigits : digits r with ⟨es, behind⟩
    obtain ⟨rfl, hall⟩ := of_digits hdigits
    simp only [hdigits] at h
    split at h
    · obtain ⟨rfl, rfl⟩ := Prod.mk.inj h
      exact ⟨[], rfl, .none⟩
    · next hne =>
      obtain ⟨rfl, rfl⟩ := Prod.mk.inj h
      exact ⟨'.' :: es, rfl, .point ⟨by simpa using hne, hall⟩⟩
  · obtain ⟨rfl, rfl⟩ := Prod.mk.inj h
    exact ⟨[], rfl, .none⟩

theorem pointDigits_append (h : FractionText u ds) (hdigit : ∀ c ∈ rest.head?, ¬ isDigit 10 c)
    (hpoint : rest.head? ≠ some '.') : pointDigits (u ++ rest) = (ds, rest) := by
  cases h with
  | none =>
    rw [List.nil_append]
    unfold pointDigits
    split
    · exact absurd rfl hpoint
    · rfl
  | point hds =>
    have hdigits := digits_append hds.2 hdigit
    simp [pointDigits, hdigits, hds.1]

theorem ExponentText.head (h : ExponentText u e) (hrest : Ends rest) :
    ∀ c ∈ (u ++ rest).head?, ¬ isDigit 10 c ∧ c ≠ '.' := by
  intro c hc
  cases h with
  | none => exact ⟨(hrest c hc).1, (hrest c hc).2.1⟩
  | digits hexp =>
    obtain rfl := Option.some.inj hc
    rcases hexp with rfl | rfl <;> decide

theorem FractionText.head (h : FractionText u ds) (hrest : ∀ c ∈ rest.head?, ¬ isDigit 10 c) :
    ∀ c ∈ (u ++ rest).head?, ¬ isDigit 10 c := by
  intro c hc
  cases h with
  | none => exact hrest c hc
  | point =>
    obtain rfl := Option.some.inj hc
    decide

end Number

namespace Literal

/-- What stands between the quotes of a literal: no such quote, unless there is a backslash before
it, and no line feed behind a backslash. -/
inductive Interior (q : Char) : Text → Prop
  | nil : Interior q []
  | plain {c : Char} {t : Text} (hq : c ≠ q) (hb : c ≠ '\\') (h : Interior q t) :
      Interior q (c :: t)
  | escape {c : Char} {t : Text} (hc : c ≠ '\n') (h : Interior q t) : Interior q ('\\' :: c :: t)

def IsQuote (q : Char) : Prop := q = '"' ∨ q = '\''

variable {q : Char} {t : Text}

theorem IsQuote.ne_backslash (hq : IsQuote q) : q ≠ '\\' := by
  rcases hq with rfl | rfl <;> decide

theorem extent_interior (hq : IsQuote q) {u : Text} (h : Interior q u) (rest : Text) :
    extent q (u ++ q :: rest) = (u.length + 1, true) := by
  induction h with
  | nil =>
    rw [List.nil_append, extent.eq_def]
    simp
  | plain hne hb _ ih =>
    rw [List.cons_append, extent.eq_def]
    simp [hne, hb, ih]
  | escape hc _ ih =>
    have hne := hq.ne_backslash
    rw [List.cons_append, List.cons_append, extent.eq_def]
    simp [hne.symm, hc, ih]

theorem interior_of_extent {n : Nat} (h : extent q t = (n, true)) :
    ∃ u rest, t = u ++ q :: rest ∧ n = u.length + 1 ∧ Interior q u := by
  fun_induction extent q t generalizing n with
  | case1 => simp at h
  | case2 t =>
    obtain ⟨rfl, -⟩ := Prod.mk.inj h
    exact ⟨[], t, rfl, rfl, .nil⟩
  | case3 => simp at h
  | case4 => simp at h
  | case5 c t hc m closed hrec _ ih =>
    obtain ⟨rfl, rfl⟩ := Prod.mk.inj h
    obtain ⟨u, rest, rfl, rfl, hu⟩ := ih hrec
    exact ⟨'\\' :: c :: u, rest, rfl, rfl, .escape hc hu⟩
  | case6 c t hq hb m closed hrec ih =>
    obtain ⟨rfl, rfl⟩ := Prod.mk.inj h
    obtain ⟨u, rest, rfl, rfl, hu⟩ := ih hrec
    exact ⟨c :: u, rest, rfl, rfl, .plain hq hb hu⟩

end Literal

namespace Token

/-- At the end of a source, or in front of a blank. -/
def Apart (rest : Text) : Prop := ∀ c ∈ rest.head?, isSpace c

theorem isSpace_iff {c : Char} : isSpace c ↔ c = ' ' ∨ c = '\t' ∨ c = '\r' ∨ c = '\n' := by
  simp [isSpace, or_assoc]

theorem Apart.ends {rest : Text} (h : Apart rest) : Number.Ends rest := by
  intro c hc
  rcases isSpace_iff.1 (h c hc) with rfl | rfl | rfl | rfl <;> decide

theorem readNumber_eq (t : Text) : readNumber t =
    let whole := (Number.digits t).1
    let ds := (Number.pointDigits (Number.digits t).2).1
    let rest := (Number.pointDigits (Number.digits t).2).2
    let behind := (Number.exponent? rest).getD (0, rest)
    ((Number.Decimal.ofParts whole ds behind.1).toNumber, behind.2) := by
  unfold readNumber
  rfl

theorem written_of_readNumber {c : Char} {t rest : Text} {x : Number} (hc : Number.isDigit 10 c)
    (h : readNumber (c :: t) = (x, rest)) :
    ∃ u, c :: t = u ++ rest ∧ Number.Written u x := by
  rcases hwhole : Number.digits (c :: t) with ⟨whole, behind⟩
  rcases hpoint : Number.pointDigits behind with ⟨ds, last⟩
  obtain ⟨hall, hdigits⟩ := Number.of_digits hwhole
  obtain ⟨fraction, rfl, hf⟩ := Number.fractionText_of_pointDigits hpoint
  have hne : whole ≠ [] := by
    have hfirst := Number.digits_ne_nil hc t
    rwa [hwhole] at hfirst
  rw [readNumber_eq] at h
  simp only [hwhole, hpoint, Prod.mk.injEq] at h
  obtain ⟨rfl, rfl⟩ := h
  have hexp : ∃ u, last = u ++ ((Number.exponent? last).getD (0, last)).2 ∧
      Number.ExponentText u ((Number.exponent? last).getD (0, last)).1 := by
    cases he : Number.exponent? last with
    | none => exact ⟨[], rfl, .none⟩
    | some p => exact Number.exponentText_of_exponent? he
  obtain ⟨exponent, hlast, he⟩ := hexp
  refine ⟨whole ++ (fraction ++ exponent), ?_, .mk ⟨hne, hdigits⟩ hf he⟩
  rw [hall, List.append_assoc, List.append_assoc, ← hlast]

theorem readNumber_append {u rest : Text} {x : Number} (h : Number.Written u x)
    (hrest : Number.Ends rest) : readNumber (u ++ rest) = (x, rest) := by
  cases h with
  | mk hw hf he =>
    have hexp := he.head hrest
    have hpoint := Number.pointDigits_append hf (fun c hc => (hexp c hc).1)
      fun hc => (hexp _ hc).2 rfl
    have hwhole := Number.digits_append hw.2 (hf.head fun c hc => (hexp c hc).1)
    have hlast := Number.exponent?_append he hrest
    rw [readNumber_eq, List.append_assoc, List.append_assoc]
    simp only [hwhole, hpoint, hlast]

/-- The tokens that are neither words nor literals. -/
def signs : List Token :=
  [.parenOpen, .parenClose, .bracketOpen, .bracketClose, .comma, .dot, .question, .colon, .bang,
    .plus, .minus, .star, .slash, .percent, .less, .lessEqual, .greater, .greaterEqual, .equal,
    .notEqual, .and, .or]

/-- The texts of tokens. -/
inductive Lexeme : Text → Token → Prop
  | sign {t : Token} (h : t ∈ signs) : Lexeme t.spelling t
  | equal : Lexeme ['=', '=', '='] .equal
  | notEqual : Lexeme ['!', '=', '='] .notEqual
  | name {u : Text} (h : IsName u) : Lexeme u (ofName u)
  | number {u : Text} {x : Number} (h : Number.Written u x) : Lexeme u (.number x)
  | string {q : Char} {u s : Text} (hq : Literal.IsQuote q) (h : Literal.Interior q u)
      (hs : Literal.unquote u = some s) : Lexeme (q :: (u ++ [q])) (.string s)

theorem isNameStart_of_isDigit {c : Char} (h : Number.isDigit 10 c) :
    isNameStart c = Bool.false := by
  have hn : c.val.toNat = c.toNat := rfl
  rw [Number.isDigit_iff] at h
  rw [Bool.eq_false_iff]
  intro hs
  simp only [isNameStart, Bool.or_eq_true, Bool.and_eq_true, decide_eq_true_eq, beq_iff_eq,
    Char.le_def, UInt32.le_iff_toNat_le, hn] at hs
  rcases hs with (hs | hs) | rfl
  · change 97 ≤ c.toNat ∧ c.toNat ≤ 122 at hs
    omega
  · change 65 ≤ c.toNat ∧ c.toNat ≤ 90 at hs
    omega
  · revert h
    decide

theorem lexeme_sign (t : Token) (h : t ∈ signs) : Lexeme t.spelling t := .sign h

theorem mem_signs_of_ofChar? {c : Char} {t : Token} (h : ofChar? c = some t) :
    t ∈ signs ∧ t.spelling = [c] := by
  unfold ofChar? at h
  split at h <;> simp only [Option.some.injEq, reduceCtorEq] at h <;> subst h <;> decide

theorem read_number {c : Char} (hc : Number.isDigit 10 c) (t : Text) :
    read c t = (t.length - (readNumber (c :: t)).2.length,
      some (.number (readNumber (c :: t)).1)) := by
  simp [read, isNameStart_of_isDigit hc, hc]

theorem read_quote {q : Char} (hq : Literal.IsQuote q) (t : Text) :
    read q t = ((Literal.extent q t).1, if (Literal.extent q t).2
      then (Literal.unquote (t.take ((Literal.extent q t).1 - 1))).map .string else none) := by
  have hname : isNameStart q = Bool.false := by rcases hq with rfl | rfl <;> decide
  have hdigit : Number.isDigit 10 q = Bool.false := by rcases hq with rfl | rfl <;> decide
  have hquote : q = '"' ∨ q = '\'' := hq
  simp [read, hname, hdigit, hquote]

theorem read_sign {t : Token} (h : t ∈ signs) {rest : Text} (hrest : Apart rest) :
    ∃ c u, t.spelling = c :: u ∧ ¬ isSpace c ∧ read c (u ++ rest) = (u.length, some t) := by
  have hcases : rest = [] ∨ ∃ d r, rest = d :: r ∧ (d = ' ' ∨ d = '\t' ∨ d = '\r' ∨ d = '\n') := by
    cases rest with
    | nil => exact .inl rfl
    | cons d r => exact .inr ⟨d, r, rfl, isSpace_iff.1 (hrest d rfl)⟩
  simp only [signs, List.mem_cons, List.not_mem_nil, or_false] at h
  rcases hcases with rfl | ⟨d, r, rfl, rfl | rfl | rfl | rfl⟩
  all_goals
    rcases h with rfl | rfl | rfl | rfl | rfl | rfl | rfl | rfl | rfl | rfl | rfl | rfl | rfl |
      rfl | rfl | rfl | rfl | rfl | rfl | rfl | rfl | rfl <;>
    exact ⟨_, _, rfl, by decide, rfl⟩

theorem read_digits {u rest : Text} {x : Number} (h : Number.Written u x)
    (hrest : Number.Ends rest) :
    ∃ c v, u = c :: v ∧ ¬ isSpace c ∧ read c (v ++ rest) = (v.length, some (.number x)) := by
  have hread := readNumber_append h hrest
  obtain ⟨c, v, rfl, hc⟩ := h.exists_cons
  have hspace : ¬ isSpace c := by
    intro hs
    have hends : Number.Ends [c] := Apart.ends (by simpa [Apart] using hs)
    exact (hends c rfl).1 hc
  refine ⟨c, v, rfl, hspace, ?_⟩
  rw [List.cons_append] at hread
  rw [read_number hc, hread]
  simp

theorem read_literal {q : Char} {u s : Text} (hq : Literal.IsQuote q) (h : Literal.Interior q u)
    (hs : Literal.unquote u = some s) (rest : Text) :
    read q (u ++ [q] ++ rest) = ((u ++ [q]).length, some (.string s)) := by
  have hall : u ++ [q] ++ rest = u ++ q :: rest := by simp
  have htake : (u ++ q :: rest).take u.length = u := by simp
  rw [hall, read_quote hq, Literal.extent_interior hq h]
  simp [htake, hs]

/-- A lexeme is read as it is where a blank or nothing is behind it. -/
theorem read_lexeme {u rest : Text} {t : Token} (h : Lexeme u t) (hrest : Apart rest) :
    ∃ c v, u = c :: v ∧ ¬ isSpace c ∧ read c (v ++ rest) = (v.length, some t) := by
  cases h with
  | sign h => exact read_sign h hrest
  | equal => exact ⟨_, _, rfl, by decide, rfl⟩
  | notEqual => exact ⟨_, _, rfl, by decide, rfl⟩
  | name h =>
    cases u with
    | nil => exact absurd h (by simp [IsName])
    | cons c v =>
      refine ⟨c, v, rfl, isSpace_of_isNameStart h.1, read_name h ?_⟩
      intro d hd
      rcases isSpace_iff.1 (hrest d hd) with rfl | rfl | rfl | rfl <;> decide
  | number h => exact read_digits h hrest.ends
  | string hq h hs =>
    refine ⟨_, _, rfl, ?_, read_literal hq h hs rest⟩
    rcases hq with rfl | rfl <;> decide

theorem scan_lexeme {u rest : Text} {t : Token} (h : Lexeme u t) (hrest : Apart rest)
    (offset : Nat) : scan offset (u ++ rest) =
      (scan (offset + u.size) rest).map ((t, ⟨offset, offset + u.size⟩) :: ·) := by
  obtain ⟨c, v, rfl, hs, hread⟩ := read_lexeme h hrest
  exact scan_of_read hs hread offset

theorem tokenize_lexeme {u : Text} {t : Token} (h : Lexeme u t) :
    tokenize u = .ok [(t, ⟨0, u.size⟩)] := by
  have hnil : Apart [] := by simp [Apart]
  have hscan := scan_lexeme h hnil 0
  rw [List.append_nil, scan, Nat.zero_add] at hscan
  exact hscan

theorem lexeme_of_read_digit {c : Char} {t rest : Text} {x : Number} (hc : Number.isDigit 10 c)
    (h : readNumber (c :: t) = (x, rest)) :
    ∃ u, t = u ++ rest ∧ Lexeme (c :: u) (.number x) := by
  obtain ⟨u, ht, hu⟩ := written_of_readNumber hc h
  obtain ⟨d, v, rfl, -⟩ := hu.exists_cons
  obtain ⟨rfl, htail⟩ := List.cons.inj ht
  exact ⟨v, htail, .number hu⟩

theorem lexeme_of_read_quote {q : Char} (hq : Literal.IsQuote q) {t : Text} {n : Nat}
    {token : Token} (h : read q t = (n, some token)) :
    ∃ u rest, t = u ++ rest ∧ u.length = n ∧ Lexeme (q :: u) token := by
  rcases hextent : Literal.extent q t with ⟨m, closed⟩
  rw [read_quote hq, hextent, Prod.mk.injEq] at h
  obtain ⟨rfl, h⟩ := h
  cases closed with
  | false => simp at h
  | true =>
    obtain ⟨u, rest, rfl, rfl, hu⟩ := Literal.interior_of_extent hextent
    obtain ⟨s, hs, rfl⟩ := Option.map_eq_some_iff.1 h
    refine ⟨u ++ [q], rest, by simp, by simp, .string hq hu ?_⟩
    simpa using hs

/-- What is read as a token is one of its lexemes. -/
theorem lexeme_of_read {c : Char} {t : Text} {n : Nat} {token : Token}
    (h : read c t = (n, some token)) :
    ∃ u rest, t = u ++ rest ∧ u.length = n ∧ Lexeme (c :: u) token := by
  by_cases hname : isNameStart c
  · simp only [read, hname, if_true, Prod.mk.injEq, Option.some.injEq] at h
    obtain ⟨rfl, rfl⟩ := h
    refine ⟨t.takeWhile isNamePart, t.dropWhile isNamePart,
      List.takeWhile_append_dropWhile.symm, rfl, .name ⟨hname, ?_⟩⟩
    intro d hd
    exact List.mem_takeWhile_imp hd
  by_cases hc : Number.isDigit 10 c
  · rcases hread : readNumber (c :: t) with ⟨x, rest⟩
    rw [read_number hc, hread, Prod.mk.injEq, Option.some.injEq] at h
    obtain ⟨rfl, rfl⟩ := h
    obtain ⟨u, rfl, hu⟩ := lexeme_of_read_digit hc hread
    exact ⟨u, rest, rfl, by simp, hu⟩
  by_cases hq : Literal.IsQuote c
  · exact lexeme_of_read_quote hq h
  have hquote : ¬ (c = '"' ∨ c = '\'') := hq
  simp only [read, hname, hc, hquote, if_false, Bool.false_eq_true] at h
  -- The longer signs come first, so that what is left for a single character is only that.
  split at h <;> simp only [Prod.mk.injEq, Option.some.injEq] at h <;> obtain ⟨rfl, h⟩ := h
  · next r =>
    subst h
    exact ⟨['=', '='], r, rfl, rfl, .equal⟩
  · next r _ =>
    subst h
    exact ⟨['='], r, rfl, rfl, lexeme_sign .equal (by decide)⟩
  · next r =>
    subst h
    exact ⟨['=', '='], r, rfl, rfl, .notEqual⟩
  · next r _ =>
    subst h
    exact ⟨['='], r, rfl, rfl, lexeme_sign .notEqual (by decide)⟩
  · next r =>
    subst h
    exact ⟨['='], r, rfl, rfl, lexeme_sign .lessEqual (by decide)⟩
  · next r =>
    subst h
    exact ⟨['='], r, rfl, rfl, lexeme_sign .greaterEqual (by decide)⟩
  · next r =>
    subst h
    exact ⟨['&'], r, rfl, rfl, lexeme_sign .and (by decide)⟩
  · next r =>
    subst h
    exact ⟨['|'], r, rfl, rfl, lexeme_sign .or (by decide)⟩
  · refine ⟨[], t, rfl, rfl, ?_⟩
    obtain ⟨hsign, hspelling⟩ := mem_signs_of_ofChar? h
    rw [← hspelling]
    exact .sign hsign

end Token
end Stencil
