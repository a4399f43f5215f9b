import Mathlib.Data.List.Basic
import Stencil.Proofs.Expr.Completeness
import Stencil.Proofs.Expr.Quotation

namespace Stencil

namespace Number

theorem isDigit_ofNat (n : Nat) : IsDigits (Text.ofNat n) := by
  refine ⟨Nat.toDigits_ne_nil, fun c hc => ?_⟩
  have hc : c.isDigit = true := Nat.isDigit_of_mem_toDigits (by decide) (by decide) hc
  rw [isDigit_iff]
  simpa [Char.isDigit, UInt32.le_iff_toNat_le] using hc

theorem digit?_of_isDigit {c : Char} (h : isDigit 10 c) : digit? 10 c = some (c.toNat - 48) := by
  have hrange : '0'.toNat ≤ c.toNat ∧ c.toNat ≤ '9'.toNat := isDigit_iff.1 h
  have hlt : c.toNat - '0'.toNat < 10 := by
    have h9 : '9'.toNat = '0'.toNat + 9 := rfl
    omega
  have hzero : '0'.toNat = 48 := rfl
  unfold digit?
  dsimp only
  rw [if_pos hrange, Option.filter_some, if_pos (by simpa using hlt), hzero]

/-- Digits are read as the number that they were written for. -/
theorem ofDigits_ofNat (n : Nat) : ofDigits 10 (Text.ofNat n) = n := by
  have hstep : ∀ (m : Nat), ∀ c ∈ Text.ofNat n,
      m * 10 + (digit? 10 c).getD 0 = 10 * m + (c.toNat - '0'.toNat) := by
    intro m c hc
    rw [digit?_of_isDigit ((isDigit_ofNat n).2 c hc), Option.getD_some, Nat.mul_comm]
    rfl
  calc ofDigits 10 (Text.ofNat n) = Nat.ofDigitChars 10 (Text.ofNat n) 0 :=
        List.foldl_ext _ _ 0 hstep
    _ = n := Nat.ofDigitChars_toDigits (by decide) (by decide)

/-- Only sizes from 2 ^ 53 on are not rounded. -/
theorem toNumber_natural {n : Nat} (hn : n < 2 ^ 53) : (Decimal.mk n 0).toNumber = ofNat n := by
  have hlength : (Nat.toDigits 10 n).length ≤ 16 :=
    (Nat.length_toDigits_le_iff (by decide) (by decide)).2 (by omega)
  unfold Decimal.toNumber
  dsimp only
  split
  · next h =>
    rcases h with rfl | h
    · rfl
    · omega
  · rw [if_neg (by omega), if_pos (Int.le_refl 0)]
    simp

theorem written_ofNat {n : Nat} (hn : n < 2 ^ 53) : Written (Text.ofNat n) (ofNat n) := by
  have hwritten : Written (Text.ofNat n ++ ([] ++ []))
      (Decimal.ofParts (Text.ofNat n) [] 0).toNumber := .mk (isDigit_ofNat n) .none .none
  have hparts : Decimal.ofParts (Text.ofNat n) [] 0 = ⟨n, 0⟩ := by
    unfold Decimal.ofParts
    rw [List.append_nil, ofDigits_ofNat]
    rfl
  rwa [hparts, toNumber_natural hn, List.append_nil, List.append_nil] at hwritten

end Number

namespace Token

/-- The tokens of a text, wherever in a source it stands. -/
def Scans (text : Text) (ts : List Token) : Prop :=
  ∀ offset, ∃ tokens, scan offset text = .ok tokens ∧ tokens.map Prod.fst = ts

variable {text rest : Text} {ts : List Token}

theorem scans_nil : Scans [] [] := by
  intro offset
  exact ⟨[], by rw [scan], rfl⟩

theorem Scans.cons {c : Char} {t : Text} {token : Token} (h : Scans rest ts) (hs : ¬ isSpace c)
    (hread : read c (t ++ rest) = (t.length, some token)) :
    Scans (c :: t ++ rest) (token :: ts) := by
  intro offset
  obtain ⟨tokens, hscan, rfl⟩ := h (offset + Text.size (c :: t))
  rw [scan_of_read hs hread, hscan]
  exact ⟨_, rfl, rfl⟩

theorem Scans.name {name : Text} (h : Scans rest ts) (hname : IsName name)
    (hrest : ∀ d ∈ rest.head?, ¬ isNamePart d) : Scans (name ++ rest) (ofName name :: ts) := by
  cases name with
  | nil => exact absurd hname (by simp [IsName])
  | cons c t => exact h.cons (isSpace_of_isNameStart hname.1) (read_name hname hrest)

theorem Scans.digits {u : Text} {x : Number} (h : Scans rest ts) (hu : Number.Written u x)
    (hrest : Number.Ends rest) : Scans (u ++ rest) (.number x :: ts) := by
  obtain ⟨c, v, rfl, hs, hread⟩ := read_digits hu hrest
  exact h.cons hs hread

theorem Scans.literal {q : Char} {u t : Text} (h : Scans rest ts) (hq : Literal.IsQuote q)
    (hu : Literal.Interior q u) (ht : Literal.unquote u = some t) :
    Scans (q :: (u ++ [q]) ++ rest) (.string t :: ts) := by
  refine h.cons ?_ (read_literal hq hu ht rest)
  rcases hq with rfl | rfl <;> decide

theorem Scans.single {c : Char} {u : Token} (h : Scans rest ts)
    (hc : (c, u) ∈ [('.', dot), (',', comma), ('[', bracketOpen), (']', bracketClose)]) :
    Scans (c :: rest) (u :: ts) := by
  simp only [List.mem_cons, Prod.mk.injEq, List.not_mem_nil, or_false] at hc
  rcases hc with ⟨rfl, rfl⟩ | ⟨rfl, rfl⟩ | ⟨rfl, rfl⟩ | ⟨rfl, rfl⟩
  all_goals exact Scans.cons (t := []) h (by decide) rfl

theorem Scans.parse {e : Expr} (h : Scans text ts) (hread : Expr.ofTokens ts = .ok e) :
    Expr.parse text = .ok (some e) := by
  obtain ⟨tokens, hscan, rfl⟩ := h 0
  have hne : tokens ≠ [] := by
    rintro rfl
    exact Expr.Parser.expression_nil_ne_ok _ (Expr.ofTokens_eq_ok_iff.1 hread)
  rw [Expr.parse_of_tokenize hscan, if_neg hne, hread]
  rfl

end Token

namespace Expr

theorem ofTokens_of_accesses {t : Token} {ts : List Token} {target e : Expr}
    (ht : leaf? t = some target) (h : Parser.accesses 99 target ts = .ok (e, [])) :
    ofTokens (t :: ts) = .ok e := by
  have hunary : Parser.unary 99 (t :: ts) = .ok (e, []) := (Parser.unary_leaf ht).trans h
  have hchain : Parser.chain .or 99 (t :: ts) = .ok (e, []) := Parser.chain_of_unary hunary trivial
  exact ofTokens_eq_ok_iff.2 (Parser.expression_of_chain hchain (by simp))

theorem ofTokens_member {t : Token} {target : Expr} (ht : leaf? t = some target) (name : Text) :
    ofTokens [t, .dot, .ident name] = .ok (.member target name) := by
  apply ofTokens_of_accesses ht
  rw [Parser.accesses_member, Parser.accesses.eq_def]

theorem ofTokens_index {t u : Token} {target position : Expr} (ht : leaf? t = some target)
    (hu : leaf? u = some position) :
    ofTokens [t, .bracketOpen, u, .bracketClose] = .ok (.index target position) := by
  have hstops : Stops 6 [.bracketClose] := stops_of_closing (by simp) 6 []
  have hposition : Parser.expression 98 [u, .bracketClose] = .ok (position, [.bracketClose]) :=
    Parser.expression_leaf hu hstops (by simp)
  apply ofTokens_of_accesses ht
  rw [Parser.accesses_index hposition, Parser.accesses.eq_def]

end Expr

def Text.atPosition (name : Text) (n : Nat) : Text := name ++ '[' :: (Text.ofNat n ++ [']'])

/-- The source of a key in the value of a name, in quotes `q`. -/
def Text.atKey (name : Text) (q : Char) (key : Text) : Text :=
  name ++ '[' :: (Literal.quoted q key ++ [']'])

example : Text.atPosition ['v'] 10 = "v[10]".toList := rfl

example : Text.atKey ['v'] '"' ['k'] = "v[\"k\"]".toList := rfl

section

variable {name : Text} (hname : Token.IsName name) (hident : Token.ofName name = .ident name)

include hname hident

theorem Expr.parse_name_member {member : Text} (hm : Token.IsName member)
    (hmember : Token.ofName member = .ident member) :
    parse (name ++ '.' :: member) = .ok (some (.member (.ident name) member)) := by
  have hlast := Token.scans_nil.name hm (by simp)
  rw [List.append_nil, hmember] at hlast
  have hdot := hlast.single (c := '.') (u := .dot) (by simp)
  have hscans := hdot.name hname (by simp; decide)
  rw [hident] at hscans
  exact hscans.parse (ofTokens_member rfl member)

theorem Expr.parse_name_index {u : Text} {t : Token} {position : Expr}
    (hscans : Token.Scans (u ++ [']']) [t, .bracketClose]) (ht : leaf? t = some position) :
    parse (name ++ '[' :: (u ++ [']'])) = .ok (some (.index (.ident name) position)) := by
  have hopen := hscans.single (c := '[') (u := .bracketOpen) (by simp)
  have hall := hopen.name hname (by simp; decide)
  rw [hident] at hall
  exact hall.parse (ofTokens_index rfl ht)

theorem Expr.parse_name_key {q : Char} (hq : Literal.IsQuote q) (key : Text) :
    parse (Text.atKey name q key) = .ok (some (.index (.ident name) (.string key))) := by
  have hclose := Token.scans_nil.single (c := ']') (u := .bracketClose) (by simp)
  have hkey := hclose.literal hq (Literal.interior_escaped hq key) (Literal.unquote_escaped hq key)
  exact parse_name_index hname hident hkey rfl

theorem Expr.parse_name_position {n : Nat} (hn : n < 2 ^ 53) :
    parse (Text.atPosition name n) =
      .ok (some (.index (.ident name) (.number (.ofNat n)))) := by
  have hclose := Token.scans_nil.single (c := ']') (u := .bracketClose) (by simp)
  have hends : Number.Ends [']'] := by simp [Number.Ends]; decide
  exact parse_name_index hname hident (hclose.digits (Number.written_ofNat hn) hends) rfl

end

end Stencil
