import Stencil.Expr.Eval
import Stencil.Proofs.Expr.Chain

namespace Stencil

namespace Token

/-- A letter or an underscore, and then letters, digits and underscores. -/
def IsName : Text → Prop
  | [] => False
  | c :: t => isNameStart c ∧ ∀ d ∈ t, isNamePart d

instance : (name : Text) → Decidable (IsName name)
  | [] => .isFalse id
  | c :: t => decidable_of_iff (isNameStart c ∧ t.all isNamePart) (by rw [List.all_eq_true, IsName])

/-- The spelling of a token that is not a literal. -/
def spelling : Token → Text
  | .parenOpen => ['(']
  | .parenClose => [')']
  | .bracketOpen => ['[']
  | .bracketClose => [']']
  | .comma => [',']
  | .dot => ['.']
  | .question => ['?']
  | .colon => [':']
  | .bang => ['!']
  | .plus => ['+']
  | .minus => ['-']
  | .star => ['*']
  | .slash => ['/']
  | .percent => ['%']
  | .less => ['<']
  | .lessEqual => ['<', '=']
  | .greater => ['>']
  | .greaterEqual => ['>', '=']
  | .equal => ['=', '=']
  | .notEqual => ['!', '=']
  | .and => ['&', '&']
  | .or => ['|', '|']
  | .true => ['t', 'r', 'u', 'e']
  | .false => ['f', 'a', 'l', 's', 'e']
  | .null => ['n', 'u', 'l', 'l']
  | .ident name => name
  | .number _ => []
  | .string _ => []

/-- A token that its spelling stands for: no literal, and no reserved word taken as a name. -/
def Plain : Token → Prop
  | .ident name => IsName name ∧ ofName name = .ident name
  | .number _ => False
  | .string _ => False
  | _ => True

/-- Tokens with a blank behind each. -/
def spelled : List Token → Text
  | [] => []
  | t :: ts => t.spelling ++ ' ' :: spelled ts

theorem isSpace_of_isNameStart {c : Char} (h : isNameStart c) : ¬ isSpace c := by
  intro hs
  simp only [isSpace, Bool.or_eq_true, beq_iff_eq] at hs
  rcases hs with ((rfl | rfl) | rfl) | rfl <;> exact absurd h (by decide)

theorem IsName.isNamePart {name : Text} (h : IsName name) {c : Char} (hc : c ∈ name) :
    Token.isNamePart c := by
  cases name with
  | nil => simp at hc
  | cons d t =>
    rcases List.mem_cons.1 hc with rfl | hc
    · simp [Token.isNamePart, h.1]
    · exact h.2 c hc

/-- No blank stands in a name. -/
theorem isBlank_of_isNamePart {c : Char} (h : isNamePart c) : ¬ Text.isBlank c := by
  intro hb
  have hn : c.val.toNat = c.toNat := rfl
  simp only [isNamePart, isNameStart, Bool.or_eq_true, Bool.and_eq_true, decide_eq_true_eq,
    beq_iff_eq, Char.le_def, UInt32.le_iff_toNat_le, hn] at h
  simp only [Text.isBlank, Text.blankRanges, List.any_cons, List.any_nil, Bool.or_false,
    Bool.or_eq_true, Bool.and_eq_true, decide_eq_true_eq] at hb
  rcases h with ((h | h) | rfl) | h
  · change 97 ≤ c.toNat ∧ c.toNat ≤ 122 at h
    omega
  · change 65 ≤ c.toNat ∧ c.toNat ≤ 90 at h
    omega
  · revert hb
    decide
  · change 48 ≤ c.toNat ∧ c.toNat ≤ 57 at h
    omega

theorem scan_of_read {c : Char} {t rest : Text} {token : Token} (hs : ¬ isSpace c)
    (h : read c (t ++ rest) = (t.length, some token)) (offset : Nat) :
    scan offset (c :: t ++ rest) =
      (scan (offset + Text.size (c :: t)) rest).map
        ((token, ⟨offset, offset + Text.size (c :: t)⟩) :: ·) := by
  rw [List.cons_append, scan]
  simp only [hs, h, List.take_left, List.drop_left]
  cases scan (offset + Text.size (c :: t)) rest <;> rfl

theorem scan_space (offset : Nat) (rest : Text) :
    scan offset (' ' :: rest) = scan (offset + 1) rest := by
  rw [scan]
  rfl

theorem read_name {c : Char} {t rest : Text} (h : IsName (c :: t))
    (hrest : ∀ d ∈ rest.head?, ¬ isNamePart d) :
    read c (t ++ rest) = (t.length, some (ofName (c :: t))) := by
  have hstop : rest.takeWhile isNamePart = [] := by
    cases rest with
    | nil => rfl
    | cons d rest => simp [hrest d rfl]
  have hpart : (t ++ rest).takeWhile isNamePart = t := by
    rw [List.takeWhile_append_of_pos h.2, hstop, List.append_nil]
  unfold read
  rw [if_pos h.1]
  simp only [hpart]

theorem tokenize_name {name : Text} (h : IsName name) :
    tokenize name = .ok [(ofName name, ⟨0, name.size⟩)] := by
  cases name with
  | nil => exact absurd h (by simp [IsName])
  | cons c t =>
    have hread : read c (t ++ []) = (t.length, some (ofName (c :: t))) := read_name h (by simp)
    have hscan := scan_of_read (isSpace_of_isNameStart h.1) hread 0
    rw [List.append_nil, scan, Nat.zero_add] at hscan
    rw [tokenize, hscan]
    rfl

theorem scan_spelling {t : Token} (h : t.Plain) (offset : Nat) (rest : Text) :
    scan offset (t.spelling ++ ' ' :: rest) =
      (scan (offset + t.spelling.size) (' ' :: rest)).map
        ((t, ⟨offset, offset + t.spelling.size⟩) :: ·) := by
  cases t with
  | number x => exact absurd h (by simp [Plain])
  | string x => exact absurd h (by simp [Plain])
  | ident name =>
    cases name with
    | nil => exact absurd h.1 (by simp [IsName])
    | cons c u =>
      have hread : read c (u ++ ' ' :: rest) = (u.length, some (ofName (c :: u))) :=
        read_name h.1 (by simp; decide)
      rw [h.2] at hread
      exact scan_of_read (isSpace_of_isNameStart h.1.1) hread offset
  | _ => exact scan_of_read (by decide) rfl offset

/-- Spelled tokens are read back. -/
theorem scan_spelled {ts : List Token} (h : ∀ t ∈ ts, t.Plain) (offset : Nat) :
    (scan offset (spelled ts)).map (List.map (·.1)) = .ok ts := by
  induction ts generalizing offset with
  | nil =>
    rw [spelled, scan]
    rfl
  | cons t ts ih =>
    have hrest := ih (fun u hu => h u (List.mem_cons_of_mem _ hu)) (offset + t.spelling.size + 1)
    rw [spelled, scan_spelling (h t List.mem_cons_self), scan_space]
    cases hs : scan (offset + t.spelling.size + 1) (spelled ts) with
    | error span => simp [hs, Except.map] at hrest
    | ok tokens =>
      have hts : tokens.map (·.1) = ts := by simpa [hs, Except.map] using hrest
      simp [Except.map, hts]

theorem tokenize_spelled {ts : List Token} (h : ∀ t ∈ ts, t.Plain) :
    ∃ tokens, tokenize (spelled ts) = .ok tokens ∧ tokens.map (·.1) = ts := by
  have hs := scan_spelled h 0
  rw [tokenize]
  cases ht : scan 0 (spelled ts) with
  | error span => simp [ht, Except.map] at hs
  | ok tokens => exact ⟨tokens, rfl, by simpa [ht, Except.map] using hs⟩

end Token

/-- Only the tokens decide what a source is read as. -/
theorem Expr.parse_of_tokenize {source : Text} {tokens : List (Token × Span)}
    (h : Token.tokenize source = .ok tokens) :
    parse source = if tokens = [] then .ok none else
      ((ofTokens (tokens.map (·.1))).map some).mapError (·.locate (tokens.map (·.2))) := by
  rw [parse, h]
  cases tokens with
  | nil => rfl
  | cons p tokens =>
    dsimp only
    cases ofTokens ((p :: tokens).map (·.1)) <;> rfl

/-- A name that is not reserved stands for itself. -/
theorem Expr.parse_name {name : Text} (h : Token.IsName name) (hn : Token.ofName name = .ident name) :
    parse name = .ok (some (.ident name)) := by
  have hread : ofTokens [.ident name] = .ok (.ident name) := by
    have he : Parser.expression maxDepth [.ident name] = .ok (.ident name, []) :=
      Parser.expression_leaf rfl trivial (by simp)
    rw [ofTokens, he]
    rfl
  rw [parse, Token.tokenize_name h, hn]
  simp only [List.map_cons, List.map_nil, hread]

theorem evaluate?_name {name : Text} (h : Token.IsName name) (hn : Token.ofName name = .ident name)
    (scope : Scope) : evaluate? name scope = scope.find? name := by
  rw [evaluate?, Expr.parse_name h hn]
  simp only [Expr.eval?]

end Stencil
