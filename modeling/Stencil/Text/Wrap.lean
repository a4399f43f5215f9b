import Stencil.Text.LineBreak

namespace Stencil.Text

/-- Ranges of characters that take up no column, or two. -/
def columnRanges : List (Nat × Nat × Nat) :=
  [(0x0, 0x1F, 0), (0x7F, 0x9F, 0), (0x300, 0x36F, 0), (0x200B, 0x200F, 0), (0x20D0, 0x20F0, 0),
    (0xFE00, 0xFE0F, 0), (0x1100, 0x115F, 2), (0x2E80, 0x303E, 2), (0x3041, 0x33FF, 2),
    (0x3400, 0x4DBF, 2), (0x4E00, 0xA4CF, 2), (0xAC00, 0xD7A3, 2), (0xF900, 0xFAFF, 2),
    (0xFE30, 0xFE6F, 2), (0xFF01, 0xFF60, 2), (0xFFE0, 0xFFE6, 2), (0x1F300, 0x1F64F, 2),
    (0x1F680, 0x1F6FF, 2), (0x1F900, 0x1FAFF, 2), (0x20000, 0x3FFFD, 2)]

/-- How many columns a character takes up. -/
def charColumns (c : Char) : Nat :=
  (columnRanges.findSome? fun (low, high, n) =>
    if low ≤ c.toNat && c.toNat ≤ high then some n else none).getD 1

def columns (t : Text) : Nat := t.foldr (fun c n => charColumns c + n) 0

/-- A text without the spaces it ends with. -/
def dropSpacesAtEnd (t : Text) : Text := (t.reverse.dropWhile (· == ' ')).reverse

/-- Whether a hyphen may end a line next to a character. -/
def isWordPart (c : Char) : Bool := c.isAlphanum || 0x80 ≤ c.toNat

/-- Cuts a piece behind its hyphens between parts of words, where `last` is the character in front
of it. -/
def cutAtHyphens : (last : Option Char) → Text → List Text
  | _, [] => [[]]
  | last, c :: t =>
    let pieces := cutAtHyphens (some c) t
    if c == '-' && last.any isWordPart && t.head?.any isWordPart then [c] :: pieces
    else consPiece c pieces

/-- Cuts a piece wherever it would be wider than `width`, with `used` columns in front of it. The
spaces that it ends with need no room. -/
def cutWide (width : Nat) : (used : Nat) → Text → List Text
  | _, [] => [[]]
  | used, c :: t =>
    if (c :: t).all (· == ' ') then [c :: t]
    else if 0 < used && width < used + charColumns c then
      [] :: consPiece c (cutWide width (charColumns c) t)
    else consPiece c (cutWide width (used + charColumns c) t)

/-- The pieces of a text that stay whole on lines of a width. -/
def words (width : Nat) (t : Text) : List Text :=
  ((linePieces .start t).flatMap (cutAtHyphens none)).flatMap (cutWide width 0)

/-- Puts words on lines of a width, with `current` on the line at hand. A word goes to the next line
where it does not fit. -/
def fillLines (width : Nat) : (current : Text) → List Text → List Text
  | current, [] => [current]
  | current, word :: words =>
    if columns current + columns (dropSpacesAtEnd word) ≤ width then
      fillLines width (current ++ word) words
    else current :: fillLines width word words

theorem flatten_cutAtHyphens (last : Option Char) (t : Text) :
    (cutAtHyphens last t).flatten = t := by
  induction t generalizing last with
  | nil => rfl
  | cons c t ih =>
    rw [cutAtHyphens]
    split <;> simp [ih]

theorem flatten_cutWide (width used : Nat) (t : Text) : (cutWide width used t).flatten = t := by
  induction t generalizing used with
  | nil => rfl
  | cons c t ih =>
    rw [cutWide]
    split
    · simp
    · split <;> simp [ih]

theorem flatten_flatMap {f : Text → List Text} (hf : ∀ t, (f t).flatten = t) (ts : List Text) :
    (ts.flatMap f).flatten = ts.flatten := by
  induction ts with
  | nil => rfl
  | cons t ts ih => simp [hf, ih]

theorem flatten_words (width : Nat) (t : Text) : (words width t).flatten = t := by
  rw [words, flatten_flatMap (flatten_cutWide width 0), flatten_flatMap (flatten_cutAtHyphens none),
    flatten_linePieces]

theorem flatten_fillLines (width : Nat) (current : Text) (ws : List Text) :
    (fillLines width current ws).flatten = current ++ ws.flatten := by
  induction ws generalizing current with
  | nil => simp [fillLines]
  | cons w ws ih =>
    rw [fillLines]
    split <;> simp [ih]

/-- A text without line breaks on lines of a width, which keep their spaces. -/
def brokenLines (width : Nat) (t : Text) : List Text := fillLines width [] (words width t)

/-- Nothing is lost between the lines. -/
theorem flatten_brokenLines (width : Nat) (t : Text) : (brokenLines width t).flatten = t := by
  rw [brokenLines, flatten_fillLines, flatten_words]
  rfl

/-- A text on lines of a width, none of which ends with spaces. -/
def wrap (width : Nat) (t : Text) : List Text :=
  ((splitOn '\n' t).flatMap (brokenLines width)).map dropSpacesAtEnd

def IsGap (t : Text) : Prop := ∀ c ∈ t, c = ' ' ∨ c = '\n'

/-- Lines that leave out nothing of a text but gaps. -/
inductive Spells : List Text → Text → Prop
  | nil {gap : Text} (hgap : IsGap gap) : Spells [] gap
  | cons {gap line t : Text} {lines : List Text} (hgap : IsGap gap) (h : Spells lines t) :
      Spells (line :: lines) (gap ++ line ++ t)

namespace Spells

variable {s t : Text} {lines more : List Text}

theorem gap {front : Text} (hfront : IsGap front) (h : Spells lines t) :
    Spells lines (front ++ t) := by
  cases h with
  | nil hgap => exact .nil (List.forall_mem_append.2 ⟨hfront, hgap⟩)
  | cons hgap h =>
    rw [← List.append_assoc, ← List.append_assoc]
    exact .cons (List.forall_mem_append.2 ⟨hfront, hgap⟩) h

theorem append (h : Spells lines s) (h' : Spells more t) : Spells (lines ++ more) (s ++ t) := by
  induction h with
  | nil hgap => exact h'.gap hgap
  | cons hgap _ ih =>
    rw [List.append_assoc]
    exact .cons hgap ih

theorem exists_cons {c : Char} (h : Spells lines t) (hmem : c ∈ t) (hc : c ≠ ' ') (hc' : c ≠ '\n') :
    ∃ l ls, lines = l :: ls := by
  cases h with
  | nil hgap => exact absurd (hgap c hmem) (not_or.2 ⟨hc, hc'⟩)
  | cons => exact ⟨_, _, rfl⟩

end Spells

theorem exists_spaces_dropSpacesAtEnd (t : Text) :
    ∃ gap, IsGap gap ∧ t = dropSpacesAtEnd t ++ gap := by
  refine ⟨(t.reverse.takeWhile (· == ' ')).reverse, fun c hc => .inl ?_, ?_⟩
  · have hspaces : (t.reverse.takeWhile (· == ' ')).all (· == ' ') = true := List.all_takeWhile
    simpa using List.all_eq_true.1 hspaces c (List.mem_reverse.1 hc)
  · rw [dropSpacesAtEnd, ← List.reverse_append, List.takeWhile_append_dropWhile,
      List.reverse_reverse]

theorem spells_map_dropSpacesAtEnd (lines : List Text) :
    Spells (lines.map dropSpacesAtEnd) lines.flatten := by
  induction lines with
  | nil => exact .nil (by simp [IsGap])
  | cons l lines ih =>
    obtain ⟨gap, hgap, hl⟩ := exists_spaces_dropSpacesAtEnd l
    have hrest : Spells (dropSpacesAtEnd l :: lines.map dropSpacesAtEnd)
        ([] ++ dropSpacesAtEnd l ++ (gap ++ lines.flatten)) :=
      .cons (by simp [IsGap]) (ih.gap hgap)
    rw [List.map_cons, List.flatten_cons]
    rw [List.nil_append, ← List.append_assoc, ← hl] at hrest
    exact hrest

theorem spells_flatMap_brokenLines (width : Nat) (parts : List Text) :
    Spells ((parts.flatMap (brokenLines width)).map dropSpacesAtEnd) (join ['\n'] parts) := by
  induction parts with
  | nil => exact .nil (by simp [IsGap, join])
  | cons part parts ih =>
    have hpart := spells_map_dropSpacesAtEnd (brokenLines width part)
    rw [flatten_brokenLines] at hpart
    rw [List.flatMap_cons, List.map_append]
    cases parts with
    | nil => simpa [join] using hpart
    | cons next parts =>
      have hbreak : IsGap ['\n'] := by simp [IsGap]
      rw [join_cons ['\n'] part (List.cons_ne_nil next parts), List.append_assoc]
      exact hpart.append (ih.gap hbreak)

/-- A wrapped text is all there. -/
theorem spells_wrap (width : Nat) (t : Text) : Spells (wrap width t) t := by
  have ht := spells_flatMap_brokenLines width (splitOn '\n' t)
  rw [join_splitOn] at ht
  exact ht

theorem exists_wrap_eq_cons (width : Nat) {c : Char} {t : Text} (hmem : c ∈ t) (hc : c ≠ ' ')
    (hc' : c ≠ '\n') : ∃ l ls, wrap width t = l :: ls ∧ Spells (l :: ls) t := by
  have h := spells_wrap width t
  obtain ⟨l, ls, hlines⟩ := h.exists_cons hmem hc hc'
  exact ⟨l, ls, hlines, hlines ▸ h⟩

end Stencil.Text
