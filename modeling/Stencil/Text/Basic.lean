namespace Stencil

/-- A text is the list of its characters. Sizes and offsets count UTF-8 bytes. -/
abbrev Text := List Char

namespace Text

/-- The number of UTF-8 bytes of a text. -/
def size (t : Text) : Nat := t.foldr (fun c n => c.utf8Size + n) 0

@[simp] theorem size_nil : size [] = 0 := rfl

@[simp] theorem size_cons (c : Char) (t : Text) : size (c :: t) = c.utf8Size + size t := rfl

@[simp] theorem size_append (a b : Text) : size (a ++ b) = size a + size b := by
  induction a with
  | nil => simp
  | cons c a ih => simp [ih, Nat.add_assoc]

/-- Cuts a text at a byte offset. There is no cut inside a character or past the end. -/
def splitAt? : Text → Nat → Option (Text × Text)
  | t, 0 => some ([], t)
  | [], _ + 1 => none
  | c :: t, n + 1 =>
    if c.utf8Size ≤ n + 1 then
      (splitAt? t (n + 1 - c.utf8Size)).map fun (a, b) => (c :: a, b)
    else none

theorem splitAt?_append (a b : Text) : splitAt? (a ++ b) (size a) = some (a, b) := by
  induction a with
  | nil => cases b <;> rfl
  | cons c a ih =>
    have hc := c.utf8Size_pos
    obtain ⟨n, hn⟩ : ∃ n, size (c :: a) = n + 1 := ⟨size (c :: a) - 1, by simp; omega⟩
    have hsub : n + 1 - c.utf8Size = size a := by simp at hn; omega
    have hle : c.utf8Size ≤ n + 1 := by simp at hn; omega
    rw [hn, List.cons_append, splitAt?, if_pos hle, hsub, ih]
    rfl

theorem append_of_splitAt? {t a b : Text} {n : Nat} (h : splitAt? t n = some (a, b)) :
    t = a ++ b ∧ size a = n := by
  fun_induction splitAt? t n generalizing a b with
  | case1 => simp_all
  | case2 => simp at h
  | case3 c t n hc ih =>
    obtain ⟨⟨a', b'⟩, hs, heq⟩ := Option.map_eq_some_iff.1 h
    simp only [Prod.mk.injEq] at heq
    obtain ⟨ht, hsize⟩ := ih hs
    simp [← heq.1, ← heq.2, ht, hsize]
    omega
  | case4 => simp at h

/-- What stands before and after the first `c`. -/
def cutAt? (c : Char) : Text → Option (Text × Text)
  | [] => none
  | x :: t => if x = c then some ([], t) else (cutAt? c t).map fun (a, b) => (x :: a, b)

theorem cutAt?_append {c : Char} {a : Text} (b : Text) (h : c ∉ a) :
    cutAt? c (a ++ c :: b) = some (a, b) := by
  induction a with
  | nil => simp [cutAt?]
  | cons x a ih =>
    simp only [List.mem_cons, not_or] at h
    simp [cutAt?, Ne.symm h.1, ih h.2]

theorem append_of_cutAt? {c : Char} {t a b : Text} (h : cutAt? c t = some (a, b)) :
    t = a ++ c :: b ∧ c ∉ a := by
  induction t generalizing a b with
  | nil => simp [cutAt?] at h
  | cons x t ih =>
    by_cases hx : x = c
    · simp_all [cutAt?]
    · rw [cutAt?, if_neg hx] at h
      obtain ⟨⟨a', b'⟩, hs, heq⟩ := Option.map_eq_some_iff.1 h
      simp only [Prod.mk.injEq] at heq
      obtain ⟨ht, hc⟩ := ih hs
      exact ⟨by simp [← heq.1, ← heq.2, ht], by simp [← heq.1, hc, Ne.symm hx]⟩

theorem cutAt?_eq_none_iff {c : Char} {t : Text} : cutAt? c t = none ↔ c ∉ t := by
  induction t with
  | nil => simp [cutAt?]
  | cons x t ih =>
    by_cases hx : x = c
    · simp [cutAt?, hx]
    · simp [cutAt?, hx, ih, Ne.symm hx]

/-- What follows `p` in a text that begins with it. -/
def strip? : Text → Text → Option Text
  | [], t => some t
  | _ :: _, [] => none
  | p :: ps, c :: t => if p = c then strip? ps t else none

theorem strip?_eq_some_iff {p t r : Text} : strip? p t = some r ↔ t = p ++ r := by
  fun_induction strip? p t with
  | case1 => simp [eq_comm]
  | case2 => simp
  | case3 ps c t ih => simp [ih]
  | case4 p ps c t h => simp [Ne.symm h]

def startsWith (t p : Text) : Bool := (strip? p t).isSome

theorem startsWith_iff {t p : Text} : startsWith t p = true ↔ ∃ r, t = p ++ r := by
  simp [startsWith, Option.isSome_iff_exists, strip?_eq_some_iff]

/-- What stands before and after the first occurrence of `sep`. -/
def cutText? (sep : Text) : Text → Option (Text × Text)
  | [] => if sep.isEmpty then some ([], []) else none
  | c :: t =>
    match strip? sep (c :: t) with
    | some r => some ([], r)
    | none => (cutText? sep t).map fun (a, b) => (c :: a, b)

theorem append_of_cutText? {sep t a b : Text} (h : cutText? sep t = some (a, b)) :
    t = a ++ sep ++ b := by
  fun_induction cutText? sep t generalizing a b with
  | case1 hs => simp_all
  | case2 => simp at h
  | case3 c t r hr =>
    simp only [Option.some.injEq, Prod.mk.injEq] at h
    simp [← h.1, ← h.2, strip?_eq_some_iff.1 hr]
  | case4 c t hr ih =>
    obtain ⟨⟨a', b'⟩, hs, heq⟩ := Option.map_eq_some_iff.1 h
    simp only [Prod.mk.injEq] at heq
    rw [← heq.1, ← heq.2, ih hs]
    simp

/-- The parts of a text between the occurrences of `c`; there is always one. -/
def splitOn (c : Char) : Text → List Text
  | [] => [[]]
  | x :: t =>
    if x = c then [] :: splitOn c t
    else match splitOn c t with
      | [] => [[x]]
      | p :: ps => (x :: p) :: ps

/-- The texts one after another with `sep` between them. -/
def join (sep : Text) : List Text → Text
  | [] => []
  | [t] => t
  | t :: ts => t ++ sep ++ join sep ts

theorem join_cons (sep t : Text) {ts : List Text} (h : ts ≠ []) :
    join sep (t :: ts) = t ++ sep ++ join sep ts := by
  cases ts with
  | nil => exact absurd rfl h
  | cons _ _ => rfl

theorem splitOn_ne_nil (c : Char) (t : Text) : splitOn c t ≠ [] := by
  cases t with
  | nil => simp [splitOn]
  | cons x t =>
    by_cases hx : x = c
    · simp [splitOn, hx]
    · simp only [splitOn, if_neg hx]
      split <;> simp

/-- Nothing is lost between the parts. -/
theorem join_splitOn (c : Char) (t : Text) : join [c] (splitOn c t) = t := by
  induction t with
  | nil => rfl
  | cons x t ih =>
    by_cases hx : x = c
    · rw [splitOn, if_pos hx, join_cons _ _ (splitOn_ne_nil c t), ih, hx]
      rfl
    · rw [splitOn, if_neg hx]
      cases hs : splitOn c t with
      | nil => exact absurd hs (splitOn_ne_nil c t)
      | cons p ps =>
        rw [hs] at ih
        cases ps with
        | nil => simpa [join] using ih
        | cons q qs => simpa [join] using ih

def ofNat (n : Nat) : Text := Nat.toDigits 10 n

def ofInt : Int → Text
  | .ofNat n => ofNat n
  | .negSucc n => '-' :: ofNat (n + 1)

/-- The ranges of the property White_Space. -/
def blankRanges : List (Nat × Nat) :=
  [(0x9, 0xD), (0x20, 0x20), (0x85, 0x85), (0xA0, 0xA0), (0x1680, 0x1680), (0x2000, 0x200A),
    (0x2028, 0x2029), (0x202F, 0x202F), (0x205F, 0x205F), (0x3000, 0x3000)]

/-- Whether a character is blank. -/
def isBlank (c : Char) : Bool := blankRanges.any fun (low, high) => low ≤ c.toNat && c.toNat ≤ high

def trimStart (t : Text) : Text := t.dropWhile isBlank

def trimEnd (t : Text) : Text := (t.reverse.dropWhile isBlank).reverse

def trim (t : Text) : Text := trimEnd (trimStart t)

theorem trimStart_eq_self_iff {t : Text} :
    trimStart t = t ↔ ∀ c, t.head? = some c → isBlank c = false := by
  cases t with
  | nil => simp [trimStart]
  | cons c t =>
    cases h : isBlank c
    · simp [trimStart, h]
    · simp only [trimStart, List.dropWhile_cons, h, if_true, List.head?_cons, Option.some.injEq,
        forall_eq', Bool.true_eq_false, iff_false]
      intro he
      have := congrArg List.length he
      have := (List.dropWhile_sublist isBlank (l := t)).length_le
      simp at *
      omega

end Text
end Stencil
