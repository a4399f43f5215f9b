import Mathlib.Data.List.Forall2
import Stencil.Expr.Parser
import Stencil.Proofs.Expr.Lexeme
import Stencil.Proofs.Statement.RegionBytes
import Stencil.Proofs.Text.Slice

namespace Stencil

namespace Token

def IsGap (gap : Text) : Prop := ∀ c ∈ gap, isSpace c

/-- The text from an offset on is made of the slices of the tokens and of gaps. -/
inductive Tiles : Nat → Text → List (Token × Span) → List Text → Prop
  | gap {offset : Nat} {gap : Text} (h : IsGap gap) : Tiles offset gap [] []
  | token {offset : Nat} {gap slice rest : Text} {t : Token} {tokens : List (Token × Span)}
      {slices : List Text} (hg : IsGap gap) (hl : Lexeme slice t)
      (h : Tiles (offset + gap.size + slice.size) rest tokens slices) :
      Tiles offset (gap ++ (slice ++ rest))
        ((t, ⟨offset + gap.size, offset + gap.size + slice.size⟩) :: tokens) (slice :: slices)

/-- Slices one behind another, with gaps in front of the first and behind the last, and at least
one blank between two of them. -/
inductive Spaced : List Text → Text → Prop
  | nil {gap : Text} (h : IsGap gap) : Spaced [] gap
  | single {front slice behind : Text} (hf : IsGap front) (hb : IsGap behind) :
      Spaced [slice] (front ++ (slice ++ behind))
  | cons {front slice gap rest : Text} {slices : List Text} (hf : IsGap front) (hg : IsGap gap)
      (hne : gap ≠ []) (h : Spaced slices rest) :
      Spaced (slice :: slices) (front ++ (slice ++ (gap ++ rest)))

variable {offset : Nat} {text gap slice rest : Text} {t : Token} {tokens : List (Token × Span)}
  {slices : List Text}

theorem Lexeme.size_pos (h : Lexeme slice t) : 0 < slice.size := by
  have hnil : Apart [] := by simp [Apart]
  obtain ⟨c, v, rfl, -, -⟩ := read_lexeme h hnil
  have hc := c.utf8Size_pos
  simp only [Text.size_cons]
  omega

theorem Tiles.space {c : Char} (hc : isSpace c)
    (h : Tiles (offset + c.utf8Size) text tokens slices) :
    Tiles offset (c :: text) tokens slices := by
  have hgap : ∀ {gap}, IsGap gap → IsGap (c :: gap) := by
    intro gap hg d hd
    rcases List.mem_cons.1 hd with rfl | hd
    · exact hc
    · exact hg d hd
  cases h with
  | gap h => exact .gap (hgap h)
  | @token _ gap slice rest t tokens slices hg hl h =>
    have hoffset : offset + c.utf8Size + gap.size = offset + Text.size (c :: gap) := by
      rw [Text.size_cons, Nat.add_assoc]
    rw [hoffset] at h ⊢
    exact .token (hgap hg) hl h

/-- A source that is read is tiled by its tokens. -/
theorem tiles_of_scan (h : scan offset text = .ok tokens) :
    ∃ slices, Tiles offset text tokens slices := by
  fun_induction scan offset text generalizing tokens with
  | case1 offset =>
    obtain rfl : tokens = [] := by simpa using h.symm
    exact ⟨[], .gap (by simp [IsGap])⟩
  | case2 offset c text hc ih =>
    obtain ⟨slices, htiles⟩ := ih h
    exact ⟨slices, htiles.space hc⟩
  | case3 => simp at h
  | case4 => simp at h
  | case5 offset c text hc n stop token tokens hscan hread =>
    rename_i ih
    obtain rfl := Except.ok.inj h
    obtain ⟨slices, htiles⟩ := ih hscan
    obtain ⟨u, rest, rfl, rfl, hl⟩ := lexeme_of_read hread
    have hgap : IsGap [] := by simp [IsGap]
    have hstop : stop = offset + Text.size (c :: u) := by simp only [stop, List.take_left]
    rw [List.drop_left, hstop] at htiles
    rw [hstop]
    exact ⟨(c :: u) :: slices, .token hgap hl htiles⟩

theorem Tiles.bounds (h : Tiles offset text tokens slices) {p : Token × Span} (hp : p ∈ tokens) :
    offset ≤ p.2.start ∧ p.2.start < p.2.stop ∧ p.2.stop ≤ offset + text.size := by
  induction h with
  | gap => simp at hp
  | token _ hl _ ih =>
    have hpos := hl.size_pos
    simp only [Text.size_append]
    rcases List.mem_cons.1 hp with rfl | hp
    · dsimp only
      omega
    · have hrest := ih hp
      omega

theorem Tiles.pairwise (h : Tiles offset text tokens slices) :
    tokens.Pairwise fun p q => p.2.stop ≤ q.2.start := by
  induction h with
  | gap => exact .nil
  | token _ _ h ih =>
    refine .cons ?_ ih
    intro q hq
    exact (h.bounds hq).1

/-- Each slice is cut out by the span of its token, and is one of its texts. -/
theorem Tiles.cuts (before : Text) (h : Tiles before.size text tokens slices) :
    List.Forall₂ (fun p slice =>
      Text.slice? (before ++ text) p.2.start p.2.stop = some slice ∧ Lexeme slice p.1)
      tokens slices := by
  generalize hoffset : before.size = offset at h
  induction h generalizing before with
  | gap => exact .nil
  | @token _ gap slice rest t tokens slices _ hl _ ih =>
    have hstart : before.size + gap.size = Text.size (before ++ gap) := by simp
    have hstop : before.size + gap.size + slice.size = Text.size (before ++ gap ++ slice) := by
      simp only [Text.size_append]
    have hall : before ++ (gap ++ (slice ++ rest)) = before ++ gap ++ slice ++ rest := by simp
    subst hoffset
    rw [hall]
    exact .cons ⟨Text.slice?_of_eq rfl hstart hstop, hl⟩ (ih _ hstop.symm)

def spaceBytes : List UInt8 := [0x20, 0x09, 0x0d, 0x0a]

theorem mem_spaceBytes_of_gap (h : IsGap gap) {b : UInt8} (hb : b ∈ gap.bytes) :
    b ∈ spaceBytes := by
  obtain ⟨c, hc, hb⟩ := List.mem_flatMap.1 hb
  rcases isSpace_iff.1 (h c hc) with rfl | rfl | rfl | rfl
  all_goals
    rw [Text.utf8EncodeChar_eq rfl, List.mem_singleton] at hb
    rw [hb]
    decide

/-- A byte that belongs to no token is one of a gap. -/
theorem Tiles.mem_spaceBytes (h : Tiles offset text tokens slices) {i : Nat} {b : UInt8}
    (hb : text.bytes[i]? = some b)
    (hout : ∀ p ∈ tokens, offset + i < p.2.start ∨ p.2.stop ≤ offset + i) : b ∈ spaceBytes := by
  induction h generalizing i with
  | gap h => exact mem_spaceBytes_of_gap h (List.mem_of_getElem? hb)
  | @token offset gap slice rest t tokens slices hg _ _ ih =>
    have hfirst := hout _ List.mem_cons_self
    dsimp only at hfirst
    rw [Text.bytes_append, Text.bytes_append] at hb
    by_cases hi : i < gap.size
    · rw [List.getElem?_append_left (by rwa [Text.length_bytes])] at hb
      exact mem_spaceBytes_of_gap hg (List.mem_of_getElem? hb)
    · have hle : gap.size + slice.size ≤ i := by omega
      rw [List.getElem?_append_right (by rw [Text.length_bytes]; omega),
        List.getElem?_append_right (by rw [Text.length_bytes, Text.length_bytes]; omega),
        Text.length_bytes, Text.length_bytes] at hb
      apply ih hb
      intro p hp
      have hlater := hout p (List.mem_cons_of_mem _ hp)
      omega

theorem scan_gap (h : IsGap gap) (offset : Nat) (rest : Text) :
    scan offset (gap ++ rest) = scan (offset + gap.size) rest := by
  induction gap generalizing offset with
  | nil => rfl
  | cons c gap ih =>
    have hc : isSpace c := h c List.mem_cons_self
    have hgap : IsGap gap := fun d hd => h d (List.mem_cons_of_mem _ hd)
    rw [List.cons_append, scan, if_pos hc, ih hgap, Text.size_cons, Nat.add_assoc]

theorem apart_of_gap (h : IsGap gap) (hne : gap ≠ []) (rest : Text) : Apart (gap ++ rest) := by
  obtain ⟨c, gap, rfl⟩ := List.exists_cons_of_ne_nil hne
  intro d hd
  obtain rfl := Option.some.inj hd
  exact h c List.mem_cons_self

/-- Lexemes are read as they are wherever they stand, if they stand apart. -/
theorem scan_spaced (h : Spaced slices text) {ts : List Token} (hl : List.Forall₂ Lexeme slices ts)
    (offset : Nat) : ∃ tokens, scan offset text = .ok tokens ∧ tokens.map Prod.fst = ts := by
  have hend : ∀ {gap}, IsGap gap → ∀ offset, scan offset gap = .ok [] := by
    intro gap hg offset
    have hscan := scan_gap hg offset []
    rwa [List.append_nil, scan] at hscan
  induction h generalizing ts offset with
  | nil hg =>
    cases hl
    exact ⟨[], hend hg offset, rfl⟩
  | @single front slice behind hf hb =>
    obtain ⟨t, hslice, rfl⟩ : ∃ t, Lexeme slice t ∧ ts = [t] := by
      cases hl with
      | cons hslice hnil =>
        cases hnil
        exact ⟨_, hslice, rfl⟩
    have hapart : Apart behind := by
      intro c hc
      exact hb c (List.mem_of_mem_head? hc)
    refine ⟨[(t, ⟨offset + front.size, offset + front.size + slice.size⟩)], ?_, rfl⟩
    rw [scan_gap hf, scan_lexeme hslice hapart, hend hb]
    rfl
  | @cons front slice gap rest slices hf hg hne _ ih =>
    cases hl with
    | @cons _ t _ ts hslice hslices =>
      obtain ⟨tokens, hscan, rfl⟩ := ih hslices (offset + front.size + slice.size + gap.size)
      refine ⟨(t, ⟨offset + front.size, offset + front.size + slice.size⟩) :: tokens, ?_, rfl⟩
      rw [scan_gap hf, scan_lexeme hslice (apart_of_gap hg hne rest), scan_gap hg, hscan]
      rfl

end Token

namespace Expr

/-- A failure without its place. -/
inductive FailureKind
  | unrecognized
  | unexpected
  | unexpectedEnd
  | tooDeep
  deriving DecidableEq

def SourceError.kind : SourceError → FailureKind
  | .unrecognized _ => .unrecognized
  | .unexpected _ => .unexpected
  | .unexpectedEnd => .unexpectedEnd
  | .tooDeep => .tooDeep

theorem kind_locate {spans others : List Span} (h : spans.length = others.length)
    (err : ParseError) : (err.locate spans).kind = (err.locate others).kind := by
  cases err with
  | unexpected left =>
    simp only [ParseError.locate, h]
    by_cases hlt : others.length - left < others.length
    · rw [List.getElem?_eq_getElem hlt, List.getElem?_eq_getElem (h ▸ hlt)]
      rfl
    · rw [List.getElem?_eq_none (by omega), List.getElem?_eq_none (by omega)]
  | unexpectedEnd => rfl
  | tooDeep => rfl

theorem parse_of_same_tokens {source text : Text} {tokens others : List (Token × Span)}
    (h : Token.tokenize source = .ok tokens) (ht : Token.tokenize text = .ok others)
    (hsame : others.map Prod.fst = tokens.map Prod.fst) :
    (parse text).mapError SourceError.kind = (parse source).mapError SourceError.kind := by
  have hlength : others.length = tokens.length := by
    simpa using congrArg List.length hsame
  have hspans : (others.map Prod.snd).length = (tokens.map Prod.snd).length := by
    simpa using hlength
  have hnil : others = [] ↔ tokens = [] := by
    rw [← List.length_eq_zero_iff, ← List.length_eq_zero_iff, hlength]
  rw [parse_of_tokenize h, parse_of_tokenize ht, hsame]
  by_cases htokens : tokens = []
  · rw [if_pos htokens, if_pos (hnil.2 htokens)]
  · rw [if_neg htokens, if_neg fun hothers => htokens (hnil.1 hothers)]
    cases ofTokens (tokens.map Prod.fst) with
    | ok e => rfl
    | error err => exact congrArg Except.error (kind_locate hspans err)

end Expr

namespace Token

/-- The tokens of a source tile it, and other blanks between them leave the same tokens. -/
theorem tokenize_tiles {source : Text} {tokens : List (Token × Span)}
    (h : tokenize source = .ok tokens) :
    (∀ p ∈ tokens, p.2.start < p.2.stop ∧ p.2.stop ≤ source.size) ∧
    tokens.Pairwise (fun p q => p.2.stop ≤ q.2.start) ∧
    (∀ i b, source.bytes[i]? = some b → (∀ p ∈ tokens, i < p.2.start ∨ p.2.stop ≤ i) →
      b ∈ spaceBytes) ∧
    ∃ slices, List.Forall₂ (fun p slice => Text.slice? source p.2.start p.2.stop = some slice ∧
        tokenize slice = .ok [(p.1, ⟨0, slice.size⟩)]) tokens slices ∧
      ∀ text, Spaced slices text → ∃ others, tokenize text = .ok others ∧
        others.map Prod.fst = tokens.map Prod.fst ∧
        (Expr.parse text).mapError Expr.SourceError.kind =
          (Expr.parse source).mapError Expr.SourceError.kind := by
  obtain ⟨slices, htiles⟩ := tiles_of_scan h
  have hslices := Tiles.cuts [] htiles
  refine ⟨?_, htiles.pairwise, ?_, slices, ?_, ?_⟩
  · intro p hp
    have hbounds := htiles.bounds hp
    omega
  · intro i b hb hout
    apply htiles.mem_spaceBytes hb
    simpa using hout
  · apply hslices.imp
    intro p slice hslice
    exact ⟨hslice.1, tokenize_lexeme hslice.2⟩
  · intro text hspaced
    have hlexemes : List.Forall₂ (fun slice p => Lexeme slice (Prod.fst p)) slices tokens :=
      (hslices.imp fun _ _ hslice => hslice.2).flip
    obtain ⟨others, hscan, hsame⟩ :=
      scan_spaced hspaced (List.forall₂_map_right_iff.2 hlexemes) 0
    exact ⟨others, hscan, hsame, Expr.parse_of_same_tokens h hscan hsame⟩

/-- Tokens side by side, each as long as it can be, and a blank that belongs to a literal. -/
theorem tokenize_tiles_apart :
    let source := "!a!=='b c'".toList
    let text := " !\ta !==\r\n'b c'".toList
    (∃ tokens, tokenize source = .ok tokens) ∧
      ∃ others, tokenize text = .ok others ∧
        others.map Prod.fst = [.bang, .ident ['a'], .notEqual, .string "b c".toList] ∧
        (Expr.parse text).mapError Expr.SourceError.kind =
          (Expr.parse source).mapError Expr.SourceError.kind := by
  intro source text
  have hsource : tokenize source = .ok [(.bang, ⟨0, 1⟩), (.ident ['a'], ⟨1, 2⟩),
      (.notEqual, ⟨2, 5⟩), (.string "b c".toList, ⟨5, 10⟩)] := by
    simp [source, tokenize, scan, read, isSpace, isNameStart, isNamePart, ofName, ofChar?,
      Number.isDigit, Number.digit?, Literal.extent, Literal.unquote, Text.size, Char.utf8Size]
  obtain ⟨-, -, -, slices, hslices, hspaced⟩ := tokenize_tiles hsource
  obtain _ | ⟨⟨hbang, -⟩, _ | ⟨⟨hname, -⟩, _ | ⟨⟨hsign, -⟩, _ | ⟨⟨hstring, -⟩, _ | _⟩⟩⟩⟩ :=
    hslices
  obtain rfl : "!".toList = _ := Option.some.inj hbang
  obtain rfl : "a".toList = _ := Option.some.inj hname
  obtain rfl : "!==".toList = _ := Option.some.inj hsign
  obtain rfl : "'b c'".toList = _ := Option.some.inj hstring
  have hblank : ∀ {gap : Text}, gap.all isSpace → IsGap gap := fun h => List.all_eq_true.1 h
  have hlast : Spaced ["'b c'".toList] ([] ++ ("'b c'".toList ++ [])) :=
    .single (hblank rfl) (hblank rfl)
  have hsigns : Spaced _ ([] ++ ("!==".toList ++ ("\r\n".toList ++ _))) :=
    .cons (hblank rfl) (hblank rfl) (by simp) hlast
  have hnames : Spaced _ ([] ++ ("a".toList ++ (" ".toList ++ _))) :=
    .cons (hblank rfl) (hblank rfl) (by simp) hsigns
  have hall : Spaced _ (" ".toList ++ ("!".toList ++ ("\t".toList ++ _))) :=
    .cons (hblank rfl) (hblank rfl) (by simp) hnames
  exact ⟨⟨_, hsource⟩, hspaced text hall⟩

end Token
end Stencil
