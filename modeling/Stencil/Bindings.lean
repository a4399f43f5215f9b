import Stencil.Text.Basic

namespace Stencil

/-- Names with what is bound to them. The operations keep the names in increasing order. -/
abbrev Bindings (α : Type) := List (Text × α)

namespace Bindings

variable {α β : Type}

/-- The names are increasing, so each stands once. -/
def Ordered (b : Bindings α) : Prop := b.Pairwise (·.1 < ·.1)

instance (b : Bindings α) : Decidable b.Ordered :=
  inferInstanceAs (Decidable (b.Pairwise (·.1 < ·.1)))

/-- The value under a name. -/
def find? : Bindings α → Text → Option α
  | [], _ => none
  | (n, v) :: b, name => if n = name then some v else find? b name

/-- Binds a name at its place in the order, in place of what was bound to it. -/
def insert : Bindings α → Text → α → Bindings α
  | [], name, value => [(name, value)]
  | (n, v) :: b, name, value =>
    if name < n then (name, value) :: (n, v) :: b
    else if n = name then (name, value) :: b
    else (n, v) :: insert b name value

/-- Binds each name of `child` over what `b` binds to it. -/
def overlay (b child : Bindings α) : Bindings α := child.foldl (fun b (n, v) => b.insert n v) b

/-- The last value wins where a name stands twice. -/
def ofList (entries : List (Text × α)) : Bindings α := overlay [] entries

def names (b : Bindings α) : List Text := b.map (·.1)

@[simp] theorem find?_nil (name : Text) : find? ([] : Bindings α) name = none := rfl

theorem find?_eq_none_of_lt {b : Bindings α} {name : Text} (h : ∀ e ∈ b, name < e.1) :
    b.find? name = none := by
  induction b with
  | nil => rfl
  | cons e b ih =>
    have hne : e.1 ≠ name := fun he => List.lt_irrefl name (he ▸ h e (by simp))
    simp [find?, hne, ih fun e he => h e (by simp [he])]

theorem find?_insert (b : Bindings α) (name : Text) (value : α) (k : Text) :
    (b.insert name value).find? k = if name = k then some value else b.find? k := by
  induction b with
  | nil => rfl
  | cons e b ih =>
    obtain ⟨n, v⟩ := e
    simp only [insert]
    split
    · simp [find?]
    · split
      · next hn => subst hn; simp [find?]; split <;> rfl
      · next hn => grind [find?]

theorem mem_insert {b : Bindings α} {name : Text} {value : α} {e : Text × α}
    (h : e ∈ b.insert name value) : e = (name, value) ∨ e ∈ b := by
  induction b with
  | nil => simpa [insert] using h
  | cons _ b ih => grind [insert]

theorem Ordered.insert {b : Bindings α} (h : b.Ordered) (name : Text) (value : α) :
    (b.insert name value).Ordered := by
  induction b with
  | nil => simp [Bindings.insert, Ordered]
  | cons e b ih =>
    obtain ⟨n, v⟩ := e
    obtain ⟨hhead, htail⟩ := List.pairwise_cons.1 h
    simp only [Bindings.insert]
    split
    · next hlt =>
      refine List.pairwise_cons.2 ⟨fun e he => ?_, h⟩
      rcases List.mem_cons.1 he with rfl | he
      · exact hlt
      · exact List.lt_trans hlt (hhead e he)
    · next hlt =>
      split
      · next heq => subst heq; exact List.pairwise_cons.2 ⟨hhead, htail⟩
      · next hne =>
        refine List.pairwise_cons.2 ⟨fun e he => ?_, ih htail⟩
        rcases mem_insert he with rfl | he
        · rcases Std.lt_trichotomy name n with hc | hc | hc
          · exact absurd hc hlt
          · exact absurd hc.symm hne
          · exact hc
        · exact hhead e he

theorem Ordered.overlay {b : Bindings α} (h : b.Ordered) (child : Bindings α) :
    (b.overlay child).Ordered := by
  induction child generalizing b with
  | nil => exact h
  | cons e child ih => exact ih (h.insert e.1 e.2)

theorem ordered_ofList (entries : List (Text × α)) : (ofList entries).Ordered :=
  Ordered.overlay List.Pairwise.nil entries

theorem find?_overlay {child : Bindings α} (h : child.Ordered) (b : Bindings α) (k : Text) :
    (b.overlay child).find? k = (child.find? k).or (b.find? k) := by
  induction child generalizing b with
  | nil => simp [overlay]
  | cons e child ih =>
    obtain ⟨n, v⟩ := e
    obtain ⟨hhead, htail⟩ := List.pairwise_cons.1 h
    have hstep : b.overlay ((n, v) :: child) = (b.insert n v).overlay child := rfl
    rw [hstep, ih htail, find?_insert]
    by_cases hk : n = k
    · subst hk
      simp [find?, find?_eq_none_of_lt hhead]
    · simp [find?, hk]

theorem Ordered.ext {a b : Bindings α} (ha : a.Ordered) (hb : b.Ordered)
    (h : ∀ k, a.find? k = b.find? k) : a = b := by
  induction a generalizing b with
  | nil =>
    cases b with
    | nil => rfl
    | cons e b => simpa [find?] using h e.1
  | cons e a ih =>
    cases b with
    | nil => simpa [find?] using h e.1
    | cons f b =>
      obtain ⟨ha₁, ha₂⟩ := List.pairwise_cons.1 ha
      obtain ⟨hb₁, hb₂⟩ := List.pairwise_cons.1 hb
      have hkey : e.1 = f.1 := by
        rcases Std.lt_trichotomy e.1 f.1 with hc | hc | hc
        · have hn : f.1 ≠ e.1 := fun he => List.lt_irrefl _ (he ▸ hc)
          have := h e.1
          rw [find?, if_pos rfl, find?, if_neg hn,
            find?_eq_none_of_lt fun g hg => List.lt_trans hc (hb₁ g hg)] at this
          exact absurd this (by simp)
        · exact hc
        · have hn : e.1 ≠ f.1 := fun he => List.lt_irrefl _ (he ▸ hc)
          have := h f.1
          rw [find?, if_neg hn, find?, if_pos rfl,
            find?_eq_none_of_lt fun g hg => List.lt_trans hc (ha₁ g hg)] at this
          exact absurd this (by simp)
      have hval : e.2 = f.2 := by
        have := h e.1
        rw [find?, if_pos rfl, find?, if_pos hkey.symm] at this
        exact Option.some.inj this
      have hrest : a = b := by
        refine ih ha₂ hb₂ fun k => ?_
        by_cases hk : e.1 = k
        · subst hk
          rw [find?_eq_none_of_lt ha₁, find?_eq_none_of_lt fun g hg => hkey ▸ hb₁ g hg]
        · have := h k
          rwa [find?, if_neg hk, find?, if_neg fun hf => hk (hkey.trans hf)] at this
      exact List.cons_eq_cons.2 ⟨Prod.ext hkey hval, hrest⟩

end Bindings
end Stencil
