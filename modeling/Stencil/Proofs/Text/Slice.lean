import Stencil.Proofs.Text.Cut

namespace Stencil.Text

/-- The text can be cut at an offset: it is not past the end and not inside a character. -/
def IsBoundary (t : Text) (i : Nat) : Prop := (splitAt? t i).isSome

instance (t : Text) (i : Nat) : Decidable (IsBoundary t i) := inferInstanceAs (Decidable (_ = _))

def upTo? (t : Text) (i : Nat) : Option Text := (splitAt? t i).map Prod.fst

def from? (t : Text) (i : Nat) : Option Text := (splitAt? t i).map Prod.snd

def slice? (t : Text) (i j : Nat) : Option Text := (upTo? t j).bind fun u => from? u i

/-- The text with `r` in place of a slice. -/
def replace? (t : Text) (i j : Nat) (r : Text) : Option Text := do
  let before ← upTo? (← upTo? t j) i
  let behind ← from? t j
  pure (before ++ r ++ behind)

/-- The offset of the first `c` from an offset on. -/
def find? (c : Char) (t : Text) (i : Nat) : Option (Option Nat) :=
  (from? t i).map fun u => (cutAt? c u).map fun p => i + size p.1

variable {t : Text} {i : Nat}

theorem isBoundary_iff : IsBoundary t i ↔ ∃ a b, t = a ++ b ∧ size a = i := by
  rw [IsBoundary, Option.isSome_iff_exists]
  constructor
  · intro h
    obtain ⟨⟨a, b⟩, h⟩ := h
    exact ⟨a, b, append_of_splitAt? h⟩
  · intro h
    obtain ⟨a, b, rfl, rfl⟩ := h
    exact ⟨(a, b), splitAt?_append a b⟩

theorem IsBoundary.le_size (h : IsBoundary t i) : i ≤ size t := by
  obtain ⟨a, b, rfl, rfl⟩ := isBoundary_iff.1 h
  rw [size_append]
  omega

theorem upTo?_append (a b : Text) : upTo? (a ++ b) (size a) = some a := by
  rw [upTo?, splitAt?_append]
  rfl

theorem from?_append (a b : Text) : from? (a ++ b) (size a) = some b := by
  rw [from?, splitAt?_append]
  rfl

variable {a b r : Text} {j : Nat}

theorem size_sub_of_eq (ht : t = a ++ b) : size t - size b = size a := by
  rw [ht, size_append]
  omega

theorem upTo?_of_eq (ht : t = a ++ b) (hi : i = size a) : upTo? t i = some a := by
  rw [ht, hi, upTo?_append]

theorem from?_of_eq (ht : t = a ++ b) (hi : i = size a) : from? t i = some b := by
  rw [ht, hi, from?_append]

theorem slice?_of_eq (ht : t = a ++ b ++ r) (hi : i = size a) (hj : j = size (a ++ b)) :
    slice? t i j = some b := by
  rw [slice?, upTo?_of_eq ht hj, Option.bind_some, hi, from?_append]

theorem replace?_of_eq (ht : t = a ++ b ++ r) (hi : i = size a) (hj : j = size (a ++ b))
    (u : Text) : replace? t i j u = some (a ++ u ++ r) := by
  have hbefore : upTo? (a ++ b) i = some a := upTo?_of_eq rfl hi
  simp only [replace?, upTo?_of_eq ht hj, from?_of_eq ht hj, hbefore, Option.bind_eq_bind,
    Option.bind_some, Option.pure_def]

theorem find?_of_eq (c : Char) (ht : t = a ++ b) (hi : i = size a) :
    find? c t i = some ((cutAt? c b).map fun p => size (a ++ p.1)) := by
  rw [find?, from?_of_eq ht hi]
  simp only [Option.map_some, size_append, hi]

/-- The first `d` stands in front of the first `c` if it stands in the text that ends there. -/
theorem filter_cutAt? {c d : Char} (h : cutAt? c t = some (a, b)) (front : Text) :
    ((cutAt? d t).map fun p => size (front ++ p.1)).filter (· < size (front ++ a)) =
      (cutAt? d a).map fun p => size (front ++ p.1) := by
  obtain ⟨ht, -⟩ := append_of_cutAt? h
  cases hd : cutAt? d a with
  | some parts =>
    obtain ⟨u, v⟩ := parts
    have hlt : size u < size a := by
      have hpos := d.utf8Size_pos
      rw [(append_of_cutAt? hd).1, size_append, size_cons]
      omega
    rw [ht, cutAt?_append_right hd]
    simp [hlt]
  | none =>
    rw [ht, cutAt?_append_left (cutAt?_eq_none_iff.1 hd)]
    cases cutAt? d (c :: b) <;> simp

/-- The byte offsets at which a character stands. -/
def offsets (c : Char) : Text → List Nat
  | [] => []
  | x :: t =>
    let behind := (offsets c t).map (x.utf8Size + ·)
    if x = c then 0 :: behind else behind

variable {c : Char}

theorem offsets_append (c : Char) (a b : Text) :
    offsets c (a ++ b) = offsets c a ++ (offsets c b).map (size a + ·) := by
  induction a with
  | nil => simp [offsets]
  | cons x a ih =>
    have hmap : (offsets c (a ++ b)).map (x.utf8Size + ·) =
        (offsets c a).map (x.utf8Size + ·) ++ (offsets c b).map (size (x :: a) + ·) := by
      rw [ih, List.map_append, List.map_map]
      congr 2
      funext i
      simp [Nat.add_assoc]
    rw [List.cons_append, offsets, offsets, hmap]
    split <;> simp

theorem offsets_eq_nil (h : c ∉ t) : offsets c t = [] := by
  induction t with
  | nil => rfl
  | cons x t ih =>
    simp only [List.mem_cons, not_or] at h
    rw [offsets, if_neg (Ne.symm h.1), ih h.2]
    rfl

theorem mem_offsets_iff : i ∈ offsets c t ↔ ∃ a b, t = a ++ c :: b ∧ size a = i := by
  constructor
  · intro h
    induction t generalizing i with
    | nil => cases h
    | cons x t ih =>
      have hbehind : i ∈ (offsets c t).map (x.utf8Size + ·) →
          ∃ a b, x :: t = a ++ c :: b ∧ size a = i := by
        intro h
        obtain ⟨j, hj, rfl⟩ := List.mem_map.1 h
        obtain ⟨a, b, rfl, rfl⟩ := ih hj
        exact ⟨x :: a, b, rfl, rfl⟩
      rw [offsets] at h
      split at h
      · next hx =>
        rcases List.mem_cons.1 h with rfl | h
        · exact ⟨[], t, by rw [hx]; rfl, rfl⟩
        · exact hbehind h
      · exact hbehind h
  · intro h
    obtain ⟨a, b, rfl, rfl⟩ := h
    rw [offsets_append]
    simp [offsets]

theorem pairwise_offsets (c : Char) (t : Text) : (offsets c t).Pairwise (· < ·) := by
  induction t with
  | nil => exact List.Pairwise.nil
  | cons x t ih =>
    have hpos := x.utf8Size_pos
    have hbehind : ((offsets c t).map (x.utf8Size + ·)).Pairwise (· < ·) := by
      rw [List.pairwise_map]
      exact ih.imp fun h => Nat.add_lt_add_left h _
    rw [offsets]
    split
    · refine List.pairwise_cons.2 ⟨?_, hbehind⟩
      intro i hi
      obtain ⟨j, -, rfl⟩ := List.mem_map.1 hi
      omega
    · exact hbehind

end Stencil.Text
