import Stencil.Text.Basic

namespace Stencil.Text

theorem cutAt?_append_right {c : Char} {t a b : Text} (h : cutAt? c t = some (a, b)) (r : Text) :
    cutAt? c (t ++ r) = some (a, b ++ r) := by
  obtain ⟨rfl, ha⟩ := append_of_cutAt? h
  have ht : a ++ c :: b ++ r = a ++ c :: (b ++ r) := by simp
  rw [ht]
  exact cutAt?_append (b ++ r) ha

theorem cutAt?_append_left {c : Char} {p : Text} (hp : c ∉ p) (t : Text) :
    cutAt? c (p ++ t) = (cutAt? c t).map fun (a, b) => (p ++ a, b) := by
  cases h : cutAt? c t with
  | none =>
    have ht := cutAt?_eq_none_iff.1 h
    have hn : cutAt? c (p ++ t) = none := cutAt?_eq_none_iff.2 (by simp [hp, ht])
    rw [hn]
    rfl
  | some ab =>
    obtain ⟨a, b⟩ := ab
    obtain ⟨rfl, ha⟩ := append_of_cutAt? h
    have hs : cutAt? c (p ++ a ++ c :: b) = some (p ++ a, b) := cutAt?_append b (by simp [hp, ha])
    rw [← List.append_assoc, hs]
    rfl

/-- A text without `c` does not hold the first `c`. -/
theorem cutAt?_append_of_not_mem {c : Char} {r : Text} (hr : c ∉ r) (t : Text) :
    cutAt? c (t ++ r) = (cutAt? c t).map fun (a, b) => (a, b ++ r) := by
  cases h : cutAt? c t with
  | some p => exact cutAt?_append_right h r
  | none =>
    have ht := cutAt?_eq_none_iff.1 h
    apply cutAt?_eq_none_iff.2
    simp [ht, hr]

theorem mem_of_cutAt? {c : Char} {t a b : Text} (h : cutAt? c t = some (a, b)) : c ∈ t := by
  rw [(append_of_cutAt? h).1]
  exact List.mem_append_right a List.mem_cons_self

theorem strip?_append (p t : Text) : strip? p (p ++ t) = some t :=
  strip?_eq_some_iff.2 rfl

/-- A beginning without `c` does not reach the first `c`. -/
theorem strip?_append_cons {c : Char} {p : Text} (hp : c ∉ p) (t r : Text) :
    strip? p (t ++ c :: r) = (strip? p t).map (· ++ c :: r) := by
  induction p generalizing t with
  | nil => rfl
  | cons x p ih =>
    have hx : x ≠ c := by intro h; apply hp; simp [h]
    have hr : c ∉ p := by intro h; apply hp; simp [h]
    cases t with
    | nil => simp [strip?, hx]
    | cons y t =>
      by_cases hxy : x = y
      · simp [strip?, hxy, ih hr]
      · simp [strip?, hxy]

theorem strip?_append_of_length_le {p t : Text} (h : p.length ≤ t.length) (r : Text) :
    strip? p (t ++ r) = (strip? p t).map (· ++ r) := by
  induction p generalizing t with
  | nil => rfl
  | cons x p ih =>
    cases t with
    | nil => simp at h
    | cons y t =>
      have hle : p.length ≤ t.length := by simpa using h
      by_cases hxy : x = y
      · simp [strip?, hxy, ih hle]
      · simp [strip?, hxy]

theorem strip?_eq_none_of_head {p t : Text} {c d : Char} (h : c ≠ d) :
    strip? (c :: p) (d :: t) = none := by
  simp [strip?, h]

theorem strip?_eq_none_of_mem {c : Char} {p t : Text} (hp : c ∈ p) (ht : c ∉ t) :
    strip? p t = none := by
  cases h : strip? p t with
  | none => rfl
  | some r =>
    apply absurd _ ht
    rw [strip?_eq_some_iff.1 h]
    exact List.mem_append_left r hp

/-- A beginning that ends in `c` does not end in a text without `c`. -/
theorem strip?_append_of_not_mem {c : Char} {r : Text} (hc : c ∉ r) (p t : Text) :
    strip? (p ++ [c]) (t ++ r) = (strip? (p ++ [c]) t).map (· ++ r) := by
  induction p generalizing t with
  | nil =>
    cases t with
    | nil => exact strip?_eq_none_of_mem (List.mem_singleton_self c) hc
    | cons y t => by_cases h : c = y <;> simp [strip?, h]
  | cons x p ih =>
    cases t with
    | nil =>
      have hmem : c ∈ x :: p ++ [c] := by simp
      exact strip?_eq_none_of_mem hmem hc
    | cons y t => by_cases h : x = y <;> simp [strip?, h, ih]

theorem startsWith_eq_false_iff {t p : Text} : startsWith t p = false ↔ ¬ p <+: t := by
  rw [← Bool.not_eq_true, startsWith_iff]
  constructor
  · intro h hp
    obtain ⟨r, hr⟩ := hp
    exact h ⟨r, hr.symm⟩
  · intro h hr
    obtain ⟨r, hr⟩ := hr
    exact h ⟨r, hr.symm⟩

theorem cutText?_append_right {sep t a b : Text} (h : cutText? sep t = some (a, b)) (r : Text) :
    cutText? sep (t ++ r) = some (a, b ++ r) := by
  induction t generalizing a with
  | nil =>
    cases sep with
    | nil =>
      have hab : a = [] ∧ b = [] := by simpa [cutText?, eq_comm] using h
      obtain ⟨rfl, rfl⟩ := hab
      cases r <;> simp [cutText?, strip?]
    | cons x sep => simp [cutText?] at h
  | cons c t ih =>
    rw [cutText?] at h
    rw [List.cons_append, cutText?]
    cases hs : strip? sep (c :: t) with
    | some u =>
      have ht := strip?_eq_some_iff.1 hs
      have hsr : strip? sep (c :: (t ++ r)) = some (u ++ r) := by
        rw [strip?_eq_some_iff, ← List.cons_append, ht, List.append_assoc]
      simp only [hs, Option.some.injEq, Prod.mk.injEq] at h
      simp [hsr, ← h.1, ← h.2]
    | none =>
      simp only [hs] at h
      obtain ⟨⟨a', b'⟩, hc, heq⟩ := Option.map_eq_some_iff.1 h
      simp only [Prod.mk.injEq] at heq
      obtain ⟨rfl, rfl⟩ := heq
      -- The separator is found in what follows, so it fits in the rest and no end of `t` begins it.
      have hle : sep.length ≤ (c :: t).length := by
        have := congrArg List.length (append_of_cutText? hc)
        simp at this ⊢
        omega
      have hsr := strip?_append_of_length_le hle r
      rw [hs, List.cons_append] at hsr
      simp [hsr, ih hc]

/-- A separator that ends in `c` does not end in a text without `c`. -/
theorem cutText?_append_of_not_mem {c : Char} {r : Text} (hc : c ∉ r) (p t : Text) :
    cutText? (p ++ [c]) (t ++ r) = (cutText? (p ++ [c]) t).map fun (a, b) => (a, b ++ r) := by
  induction t with
  | nil =>
    cases h : cutText? (p ++ [c]) r with
    | none => simp [cutText?, h]
    | some q =>
      have hr : r = q.1 ++ (p ++ [c]) ++ q.2 := append_of_cutText? h
      apply absurd _ hc
      rw [hr]
      simp
  | cons x t ih =>
    have hs := strip?_append_of_not_mem hc p (x :: t)
    rw [List.cons_append] at hs ⊢
    rw [cutText?, cutText?, hs]
    cases strip? (p ++ [c]) (x :: t) with
    | some u => rfl
    | none =>
      rw [Option.map_none, ih]
      cases cutText? (p ++ [c]) t <;> rfl

/-- A separator whose first character stands nowhere before it is found at once. -/
theorem cutText?_append_cons {c : Char} {a : Text} (h : c ∉ a) (sep b : Text) :
    cutText? (c :: sep) (a ++ c :: sep ++ b) = some (a, b) := by
  induction a with
  | nil => simp [cutText?, strip?, strip?_append]
  | cons x a ih =>
    have hx : c ≠ x := by intro he; apply h; simp [he]
    have ha : c ∉ a := by intro hm; apply h; simp [hm]
    rw [List.cons_append, List.cons_append, cutText?, strip?_eq_none_of_head hx, ih ha]
    rfl

/-- A separator whose first character does not recur in it is found where it was put. -/
theorem cutText?_append_of_not_infix {c : Char} {sep a : Text} (hc : c ∉ sep)
    (h : ¬ (c :: sep) <:+: a) (b : Text) :
    cutText? (c :: sep) (a ++ c :: sep ++ b) = some (a, b) := by
  induction a with
  | nil => simp [cutText?, strip?, strip?_append]
  | cons x a ih =>
    have ha : ¬ (c :: sep) <:+: a := by
      intro hi
      exact h (hi.trans (List.suffix_cons x a).isInfix)
    have hs : strip? (c :: sep) (x :: (a ++ c :: sep ++ b)) = none := by
      cases hr : strip? (c :: sep) (x :: (a ++ c :: sep ++ b)) with
      | none => rfl
      | some r =>
        exfalso
        have he := strip?_eq_some_iff.1 hr
        have ht : x = c ∧ a ++ c :: sep ++ b = sep ++ r := by simpa using he
        rcases List.append_eq_append_iff.1 (by simpa using ht.2) with ⟨u, hu, hr⟩ | ⟨u, hu, -⟩
        · -- `sep` ends where `c` stands or goes on behind it.
          cases u with
          | nil => exact h ⟨[], [], by simp [hu, ht.1]⟩
          | cons y u =>
            have hy : c = y := by have := hr; simp at this; exact this.1
            exact hc (by simp [hu, hy])
        · exact h ⟨[], u, by simp [hu, ht.1]⟩
    rw [List.cons_append, List.cons_append, cutText?, hs, ih ha]
    rfl

end Stencil.Text
