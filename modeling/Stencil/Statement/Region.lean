import Stencil.Text.Basic

namespace Stencil

/-- The characters that open and close regions of a kind. -/
structure Pair where
  opener : Char
  closer : Char
  deriving DecidableEq, Repr

namespace Pair

def parens : Pair := ⟨'(', ')'⟩

def braces : Pair := ⟨'\x7b', '\x7d'⟩

/-- How many regions are open behind a text that begins with `d` open ones, if it never closes one
too many. -/
def depth? (p : Pair) : Nat → Text → Option Nat
  | d, [] => some d
  | d, c :: t =>
    if c = p.opener then depth? p (d + 1) t
    else if c = p.closer then
      match d with
      | 0 => none
      | d + 1 => depth? p d t
    else depth? p d t

/-- Every region that a text opens or closes is closed and opened inside it. -/
def Balanced (p : Pair) (t : Text) : Prop := p.depth? 0 t = some 0

instance (p : Pair) (t : Text) : Decidable (p.Balanced t) :=
  inferInstanceAs (Decidable (_ = _))

/-- What stands before and after the character that closes one region more than `d` inner ones. -/
def close? (p : Pair) : Nat → Text → Option (Text × Text)
  | _, [] => none
  | d, c :: t =>
    if c = p.opener then (close? p (d + 1) t).map fun (a, b) => (c :: a, b)
    else if c = p.closer then
      match d with
      | 0 => some ([], t)
      | d + 1 => (close? p d t).map fun (a, b) => (c :: a, b)
    else (close? p d t).map fun (a, b) => (c :: a, b)

/-- The interior of the region that a text begins with, and what follows the region. -/
def interior? (p : Pair) : Text → Option (Text × Text)
  | [] => none
  | c :: t => if c = p.opener then p.close? 0 t else none

theorem append_of_close? {p : Pair} {d : Nat} {t a b : Text} (h : p.close? d t = some (a, b)) :
    t = a ++ p.closer :: b ∧ p.depth? d a = some 0 := by
  fun_induction close? p d t generalizing a b with
  | case1 => simp at h
  | case2 d t ih =>
    obtain ⟨⟨a', b'⟩, hs, heq⟩ := Option.map_eq_some_iff.1 h
    simp only [Prod.mk.injEq] at heq
    obtain ⟨ht, hd⟩ := ih hs
    simp [← heq.1, ← heq.2, ht, depth?, hd]
  | case3 t hc =>
    simp only [Option.some.injEq, Prod.mk.injEq] at h
    simp [← h.1, ← h.2, depth?]
  | case4 t d hc ih =>
    obtain ⟨⟨a', b'⟩, hs, heq⟩ := Option.map_eq_some_iff.1 h
    simp only [Prod.mk.injEq] at heq
    obtain ⟨ht, hd⟩ := ih hs
    rw [← heq.1, ← heq.2, depth?, if_neg hc, if_pos rfl]
    simp [ht, hd]
  | case5 d c t hc hc' ih =>
    obtain ⟨⟨a', b'⟩, hs, heq⟩ := Option.map_eq_some_iff.1 h
    simp only [Prod.mk.injEq] at heq
    obtain ⟨ht, hd⟩ := ih hs
    simp [← heq.1, ← heq.2, ht, depth?, hc, hc', hd]

theorem close?_append {p : Pair} (hp : p.opener ≠ p.closer) {d : Nat} {a : Text} (b : Text)
    (h : p.depth? d a = some 0) : p.close? d (a ++ p.closer :: b) = some (a, b) := by
  fun_induction depth? p d a with
  | case1 d =>
    cases h
    simp [close?, hp.symm]
  | case2 d t ih => simp [close?, ih h]
  | case3 => simp at h
  | case4 t d hc ih =>
    rw [List.cons_append, close?, if_neg hc, if_pos rfl]
    simp [ih h]
  | case5 d c t hc hc' ih => simp [close?, hc, hc', ih h]

/-- A region is its opening character, a balanced interior and its closing character. -/
theorem interior?_eq_some_iff {p : Pair} (hp : p.opener ≠ p.closer) {t a b : Text} :
    p.interior? t = some (a, b) ↔ t = p.opener :: a ++ p.closer :: b ∧ p.Balanced a := by
  constructor
  · intro h
    cases t with
    | nil => simp [interior?] at h
    | cons c t =>
      by_cases hc : c = p.opener
      · rw [interior?, if_pos hc] at h
        obtain ⟨ht, hd⟩ := append_of_close? h
        exact ⟨by simp [hc, ht], hd⟩
      · simp [interior?, hc] at h
  · rintro ⟨rfl, hb⟩
    simpa [interior?] using close?_append hp b hb

/-- The byte offset behind the region that opens at `start`. -/
def stop? (p : Pair) (document : Text) (start : Nat) : Option Nat := do
  let (_, t) ← Text.splitAt? document start
  let (_, rest) ← p.interior? t
  pure (document.size - rest.size)

end Pair
end Stencil
