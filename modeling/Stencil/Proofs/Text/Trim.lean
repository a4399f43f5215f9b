import Stencil.Text.Basic

namespace Stencil.Text

theorem trimStart_append_cons {c : Char} (hc : isBlank c = false) (t r : Text) :
    trimStart (t ++ c :: r) = trimStart t ++ c :: r := by
  simp only [trimStart, List.dropWhile_append]
  cases h : (t.dropWhile isBlank).isEmpty with
  | true =>
    have ht : t.dropWhile isBlank = [] := by simpa using h
    simp [ht, hc]
  | false => simp

theorem isBlank_of_head?_trimStart {t : Text} {c : Char} (h : (trimStart t).head? = some c) :
    isBlank c = false := by
  have hc := List.head?_dropWhile_not isBlank t
  rw [show (t.dropWhile isBlank).head? = some c from h] at hc
  simpa using hc

theorem exists_append_trimStart (t : Text) : ∃ front, (∀ c ∈ front, isBlank c) ∧
    t = front ++ trimStart t := by
  have hblank : (t.takeWhile isBlank).all isBlank = true := List.all_takeWhile
  exact ⟨t.takeWhile isBlank, List.all_eq_true.1 hblank, List.takeWhile_append_dropWhile.symm⟩

theorem trimStart_eq_cons_iff {t r : Text} {c : Char} :
    trimStart t = c :: r ↔ ∃ u, (∀ d ∈ u, isBlank d) ∧ isBlank c = false ∧ t = u ++ c :: r := by
  constructor
  · intro h
    have hc : isBlank c = false := by
      apply isBlank_of_head?_trimStart (t := t)
      rw [h]
      rfl
    obtain ⟨u, hu, ht⟩ := exists_append_trimStart t
    rw [h] at ht
    exact ⟨u, hu, hc, ht⟩
  · intro h
    obtain ⟨u, hu, hc, rfl⟩ := h
    rw [trimStart, List.dropWhile_append_of_pos hu, List.dropWhile_cons, hc]
    rfl

theorem exists_append_trimEnd (t : Text) : ∃ back, (∀ c ∈ back, isBlank c) ∧
    t = trimEnd t ++ back := by
  obtain ⟨front, hfront, ht⟩ := exists_append_trimStart t.reverse
  refine ⟨front.reverse, ?_, ?_⟩
  · intro c hc
    exact hfront c (List.mem_reverse.1 hc)
  · have hreverse := congrArg List.reverse ht
    rw [List.reverse_reverse, List.reverse_append] at hreverse
    exact hreverse

/-- Only blanks are trimmed. -/
theorem exists_append_trim (t : Text) : ∃ front back, (∀ c ∈ front, isBlank c) ∧
    (∀ c ∈ back, isBlank c) ∧ t = front ++ trim t ++ back := by
  obtain ⟨front, hfront, ht⟩ := exists_append_trimStart t
  obtain ⟨back, hback, hs⟩ := exists_append_trimEnd (trimStart t)
  refine ⟨front, back, hfront, hback, ?_⟩
  rw [List.append_assoc]
  exact ht.trans (congrArg (front ++ ·) hs)

theorem isBlank_of_head?_trim {t : Text} {c : Char} (h : (trim t).head? = some c) :
    isBlank c = false := by
  obtain ⟨back, -, hs⟩ := exists_append_trimEnd (trimStart t)
  apply isBlank_of_head?_trimStart (t := t)
  rw [hs, List.head?_append, show trimEnd (trimStart t) = trim t from rfl, h]
  rfl

theorem isBlank_of_getLast?_trim {t : Text} {c : Char} (h : (trim t).getLast? = some c) :
    isBlank c = false := by
  apply isBlank_of_head?_trimStart (t := (trimStart t).reverse)
  rw [← List.getLast?_reverse]
  exact h

/-- A text without the blanks around it. -/
structure Trims (t core : Text) : Prop where
  around : ∃ front back, (∀ c ∈ front, isBlank c) ∧ (∀ c ∈ back, isBlank c) ∧
    t = front ++ core ++ back
  first : ∀ c, core.head? = some c → isBlank c = false
  last : ∀ c, core.getLast? = some c → isBlank c = false

theorem trims_trim (t : Text) : t.Trims (trim t) :=
  ⟨exists_append_trim t, fun _ hc => isBlank_of_head?_trim hc,
    fun _ hc => isBlank_of_getLast?_trim hc⟩

theorem trimEnd_append {core back : Text} (hback : ∀ c ∈ back, isBlank c)
    (hlast : ∀ c, core.getLast? = some c → isBlank c = false) : trimEnd (core ++ back) = core := by
  have hreverse : ∀ c ∈ back.reverse, isBlank c = true :=
    fun c hc => hback c (List.mem_reverse.1 hc)
  have hstart : trimStart core.reverse = core.reverse := by
    rw [trimStart_eq_self_iff, List.head?_reverse]
    exact hlast
  rw [trimEnd, List.reverse_append, List.dropWhile_append_of_pos hreverse]
  exact (congrArg List.reverse hstart).trans core.reverse_reverse

theorem Trims.eq {t core : Text} (h : t.Trims core) : trim t = core := by
  obtain ⟨front, back, hfront, hback, rfl⟩ := h.around
  have hstart : trimStart (front ++ core ++ back) = trimStart (core ++ back) := by
    rw [trimStart, List.append_assoc, List.dropWhile_append_of_pos hfront]
    rfl
  rw [trim, hstart]
  cases core with
  | nil =>
    have hblank : trimStart ([] ++ back) = [] := by
      rw [trimStart, List.nil_append, ← List.append_nil back, List.dropWhile_append_of_pos hback]
      rfl
    rw [hblank]
    rfl
  | cons c core =>
    have hself : trimStart (c :: core ++ back) = c :: core ++ back := by
      rw [trimStart_eq_self_iff]
      exact h.first
    rw [hself, trimEnd_append hback h.last]

/-- A text that neither begins nor ends with a blank is left as it is. -/
theorem trim_eq_self_of_ends {t : Text} (hfirst : ∀ c, t.head? = some c → isBlank c = false)
    (hlast : ∀ c, t.getLast? = some c → isBlank c = false) : trim t = t :=
  Trims.eq ⟨⟨[], [], by simp, by simp, by simp⟩, hfirst, hlast⟩

theorem trim_eq_self {t : Text} (h : ∀ c ∈ t, isBlank c = false) : trim t = t := by
  apply trim_eq_self_of_ends
  · intro c hc
    exact h c (List.mem_of_mem_head? hc)
  · intro c hc
    exact h c (List.mem_of_getLast? hc)

end Stencil.Text
