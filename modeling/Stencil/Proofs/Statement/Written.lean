import Stencil.Proofs.Text.Cut
import Stencil.Proofs.Text.Trim
import Stencil.Statement.Basic
import Stencil.Statement.Region

namespace Stencil

theorem Pair.braces_ne : braces.opener ≠ braces.closer := by decide

theorem Pair.parens_ne : parens.opener ≠ parens.closer := by decide

def Pair.enclose (p : Pair) (t : Text) : Text := p.opener :: t ++ [p.closer]

theorem Pair.enclose_append (p : Pair) (t r : Text) :
    p.enclose t ++ r = p.opener :: t ++ p.closer :: r := by
  simp [enclose]

namespace Statement

def joinedElse : Text := elseText ++ [Pair.braces.opener]

/-- No other branch stands at the start of a text: none that is joined to the block in front of it,
and behind a condition none that is set apart. -/
def NoBranch (keyword rest : Text) : Prop :=
  Text.startsWith rest joinedElse = false ∧ (keyword = "if".toList → isDetachedElse rest = false)

/-- Another branch as it is written. -/
def branchText : Option Text → Text
  | none => []
  | some block => elseText ++ Pair.braces.enclose block

/-- Parameters as they are written, with a gap behind them. -/
def parametersText (gap : Text) : Option Text → Text
  | none => []
  | some parameters => Pair.parens.enclose parameters ++ gap

/-- A statement as it is written behind its marker, with a gap between parameters and block. -/
def written (s : Statement) (gap : Text) : Text :=
  s.keyword ++ parametersText gap s.parameters ++ Pair.braces.enclose s.block ++
    branchText s.elseBlock

/-- The parts of a statement delimit each other, and the text behind them adds nothing to it. -/
structure Delimited (s : Statement) (gap rest : Text) : Prop where
  keyword_brace : Pair.braces.opener ∉ s.keyword
  keyword_paren : Pair.parens.opener ∉ s.keyword
  parameters : ∀ p ∈ s.parameters, Pair.parens.Balanced p
  gap : Pair.braces.opener ∉ gap
  block : Pair.braces.Balanced s.block
  branch : ∀ e ∈ s.elseBlock, Pair.braces.Balanced e
  rest : s.elseBlock = none → NoBranch s.keyword rest

theorem interior?_enclose {p : Pair} (hp : p.opener ≠ p.closer) {t : Text} (h : p.Balanced t)
    (r : Text) : p.interior? (p.enclose t ++ r) = some (t, r) := by
  rw [Pair.enclose_append]
  exact (Pair.interior?_eq_some_iff hp).2 ⟨rfl, h⟩

theorem eq_enclose_of_interior? {p : Pair} (hp : p.opener ≠ p.closer) {t a b : Text}
    (h : p.interior? t = some (a, b)) : t = p.enclose a ++ b ∧ p.Balanced a := by
  rw [Pair.enclose_append]
  exact (Pair.interior?_eq_some_iff hp).1 h

theorem refuseDetached_eq_ok_iff {keyword : Text} {parameters branch : Option Text} {t rest : Text} :
    readElse.refuseDetached keyword parameters t = .ok (branch, rest) ↔
      branch = none ∧ rest = t ∧ (keyword = "if".toList → isDetachedElse t = false) := by
  unfold readElse.refuseDetached
  split
  · next h => simp [h.1, h.2]
  · next h =>
    have hd : keyword = "if".toList → isDetachedElse t = false := by
      intro hk
      cases hi : isDetachedElse t
      · rfl
      · exact absurd ⟨hk, hi⟩ h
    constructor
    · intro hr
      obtain ⟨rfl, rfl⟩ : none = branch ∧ t = rest := by simpa using hr
      exact ⟨rfl, rfl, hd⟩
    · intro h
      obtain ⟨rfl, rfl, -⟩ := h
      rfl

theorem startsWith_joinedElse_iff {t : Text} :
    Text.startsWith t joinedElse = true ↔ ∃ r, t = elseText ++ Pair.braces.opener :: r := by
  simp [Text.startsWith_iff, joinedElse]

theorem readElse_joined_iff {keyword : Text} {parameters branch : Option Text} {r rest : Text} :
    readElse keyword parameters (elseText ++ Pair.braces.opener :: r) = .ok (branch, rest) ↔
      ∃ block, branch = some block ∧ Pair.braces.Balanced block ∧
        Pair.braces.opener :: r = Pair.braces.enclose block ++ rest := by
  have hs := Text.strip?_append elseText (Pair.braces.opener :: r)
  constructor
  · intro h
    simp only [readElse, hs, if_true] at h
    split at h
    · next block rest' hi =>
      obtain ⟨rfl, rfl⟩ : some block = branch ∧ rest' = rest := by simpa using h
      obtain ⟨he, hb⟩ := eq_enclose_of_interior? Pair.braces_ne hi
      exact ⟨block, rfl, hb, he⟩
    · simp at h
  · intro h
    obtain ⟨block, rfl, hb, he⟩ := h
    have hi := interior?_enclose Pair.braces_ne hb rest
    rw [← he] at hi
    simp only [readElse, hs, if_true, hi]

theorem readElse_of_not_joined {keyword : Text} {parameters : Option Text} {t : Text}
    (h : ¬ Text.startsWith t joinedElse = true) :
    readElse keyword parameters t = readElse.refuseDetached keyword parameters t := by
  unfold readElse
  split
  · next c r hr =>
    have hc : c ≠ Pair.braces.opener := by
      intro h
      subst h
      exact h (startsWith_joinedElse_iff.2 ⟨r, Text.strip?_eq_some_iff.1 hr⟩)
    rw [if_neg hc]
  · rfl

theorem readElse_eq_ok_iff {keyword : Text} {parameters branch : Option Text} {t rest : Text} :
    readElse keyword parameters t = .ok (branch, rest) ↔
      t = branchText branch ++ rest ∧ (∀ e ∈ branch, Pair.braces.Balanced e) ∧
        (branch = none → NoBranch keyword rest) := by
  by_cases hj : Text.startsWith t joinedElse = true
  · obtain ⟨r, rfl⟩ := startsWith_joinedElse_iff.1 hj
    rw [readElse_joined_iff]
    constructor
    · intro h
      obtain ⟨block, rfl, hb, he⟩ := h
      exact ⟨by simp [branchText, he], by simpa using hb, by simp⟩
    · intro h
      obtain ⟨h, hb, hn⟩ := h
      cases branch with
      | none =>
        have hrest : elseText ++ Pair.braces.opener :: r = rest := h
        have hno := (hn rfl).1
        rw [← hrest, hj] at hno
        exact absurd hno (by simp)
      | some block =>
        rw [branchText, List.append_assoc] at h
        exact ⟨block, rfl, hb block rfl, List.append_cancel_left h⟩
  · rw [readElse_of_not_joined hj, refuseDetached_eq_ok_iff]
    constructor
    · intro h
      obtain ⟨rfl, rfl, hd⟩ := h
      exact ⟨rfl, by simp, fun _ => ⟨by simpa using hj, hd⟩⟩
    · intro h
      obtain ⟨h, hb, hn⟩ := h
      cases branch with
      | none =>
        obtain rfl : t = rest := h
        exact ⟨rfl, rfl, (hn rfl).2⟩
      | some block =>
        have hjoined : ∃ u, t = joinedElse ++ u :=
          ⟨block ++ Pair.braces.closer :: rest, by simp [h, branchText, joinedElse, Pair.enclose]⟩
        exact absurd (Text.startsWith_iff.2 hjoined) hj

theorem readBlocks_eq_ok_iff {keyword : Text} {parameters : Option Text} {t rest : Text}
    {s : Statement} :
    readBlocks keyword parameters t = .ok (s, rest) ↔
      s.keyword = keyword ∧ s.parameters = parameters ∧
        t = Pair.braces.enclose s.block ++ branchText s.elseBlock ++ rest ∧
        Pair.braces.Balanced s.block ∧ (∀ e ∈ s.elseBlock, Pair.braces.Balanced e) ∧
        (s.elseBlock = none → NoBranch keyword rest) := by
  constructor
  · intro h
    unfold readBlocks at h
    split at h
    · simp at h
    · next block behind hi =>
      obtain ⟨ht, hb⟩ := eq_enclose_of_interior? Pair.braces_ne hi
      split at h
      · simp at h
      · next branch rest' he =>
        obtain ⟨hw, hbal, hn⟩ := readElse_eq_ok_iff.1 he
        obtain ⟨rfl, rfl⟩ : Statement.mk keyword parameters block branch = s ∧ rest' = rest := by
          simpa using h
        exact ⟨rfl, rfl, by rw [ht, hw, List.append_assoc], hb, hbal, hn⟩
  · intro h
    obtain ⟨rfl, rfl, ht, hb, hbal, hn⟩ := h
    have hi := interior?_enclose Pair.braces_ne hb (branchText s.elseBlock ++ rest)
    have he : readElse s.keyword s.parameters (branchText s.elseBlock ++ rest) =
        .ok (s.elseBlock, rest) := readElse_eq_ok_iff.2 ⟨rfl, hbal, hn⟩
    rw [List.append_assoc] at ht
    rw [readBlocks, ht, hi]
    simp only [he]

theorem read_append_brace {keyword : Text} (hbrace : Pair.braces.opener ∉ keyword)
    (hparen : Pair.parens.opener ∉ keyword) (behind : Text) :
    read (keyword ++ Pair.braces.opener :: behind) =
      readBlocks keyword none (Pair.braces.opener :: behind) := by
  have hcut := Text.cutAt?_append behind hbrace
  have hkey := Text.cutAt?_eq_none_iff.2 hparen
  rw [read, hcut]
  simp only [hkey]

/-- Parameters in front of the first brace are read, and then a brace is looked for. -/
theorem read_append_paren {keyword u : Text} (hbrace : Pair.braces.opener ∉ keyword)
    (hparen : Pair.parens.opener ∉ keyword) (hu : Pair.braces.opener ∈ u) :
    read (keyword ++ Pair.parens.opener :: u) =
      match Pair.parens.interior? (Pair.parens.opener :: u) with
      | none => .error .missingClosingParen
      | some (parameters, rest) =>
        match Text.cutAt? Pair.braces.opener rest with
        | none => .error .missingOpeningBrace
        | some (_, behind) =>
          readBlocks keyword (some parameters) (Pair.braces.opener :: behind) := by
  obtain ⟨⟨front, after⟩, hfront⟩ : ∃ p, Text.cutAt? Pair.braces.opener u = some p := by
    cases hc : Text.cutAt? Pair.braces.opener u with
    | none => exact absurd hu (Text.cutAt?_eq_none_iff.1 hc)
    | some p => exact ⟨p, rfl⟩
  have hfree : Pair.braces.opener ∉ keyword ++ [Pair.parens.opener] := by
    have hne : Pair.braces.opener ≠ Pair.parens.opener := by decide
    simp [hbrace, hne]
  have hcut : Text.cutAt? Pair.braces.opener (keyword ++ Pair.parens.opener :: u) =
      some (keyword ++ Pair.parens.opener :: front, after) := by
    rw [← List.singleton_append, ← List.append_assoc, Text.cutAt?_append_left hfree, hfront]
    simp
  have hkey : Text.cutAt? Pair.parens.opener (keyword ++ Pair.parens.opener :: front) =
      some (keyword, front) := Text.cutAt?_append front hparen
  cases hparameters : Pair.parens.interior? (Pair.parens.opener :: u) with
  | none => simp only [read, hcut, hkey, List.drop_left, hparameters]
  | some p =>
    cases hgap : Text.cutAt? Pair.braces.opener p.2 <;>
      simp only [read, hcut, hkey, List.drop_left, hparameters, hgap]

/-- Parameters in front of a gap and a brace are read, though braces may stand in them. -/
theorem read_append_parens {keyword parameters gap : Text} (hbrace : Pair.braces.opener ∉ keyword)
    (hparen : Pair.parens.opener ∉ keyword) (hparameters : Pair.parens.Balanced parameters)
    (hgap : Pair.braces.opener ∉ gap) (behind : Text) :
    read (keyword ++ (Pair.parens.enclose parameters ++ (gap ++ Pair.braces.opener :: behind))) =
      readBlocks keyword (some parameters) (Pair.braces.opener :: behind) := by
  have hinterior := interior?_enclose Pair.parens_ne hparameters (gap ++ Pair.braces.opener :: behind)
  rw [Pair.enclose_append] at hinterior ⊢
  rw [List.cons_append, read_append_paren hbrace hparen (by simp), ← List.cons_append, hinterior]
  simp only [Text.cutAt?_append behind hgap]

/-- Reading finds what is written. -/
theorem read_eq_ok_of_delimited {s : Statement} {gap rest : Text} (h : s.Delimited gap rest) :
    read (s.written gap ++ rest) = .ok (s, rest) := by
  let behind := s.block ++ Pair.braces.closer :: (branchText s.elseBlock ++ rest)
  have hblocks : readBlocks s.keyword s.parameters (Pair.braces.opener :: behind) = .ok (s, rest) := by
    apply readBlocks_eq_ok_iff.2
    exact ⟨rfl, rfl, by simp [behind, Pair.enclose], h.block, h.branch, h.rest⟩
  cases hp : s.parameters with
  | none =>
    have hw : s.written gap ++ rest = s.keyword ++ Pair.braces.opener :: behind := by
      simp [written, parametersText, hp, Pair.enclose, behind]
    rw [hw, read_append_brace h.keyword_brace h.keyword_paren, ← hp, hblocks]
  | some parameters =>
    have hw : s.written gap ++ rest = s.keyword ++
        (Pair.parens.enclose parameters ++ (gap ++ Pair.braces.opener :: behind)) := by
      simp [written, parametersText, hp, Pair.enclose, behind]
    rw [hw, read_append_parens h.keyword_brace h.keyword_paren (h.parameters _ hp) h.gap, ← hp,
      hblocks]

/-- An unconditional statement with one block is read, unless another branch is joined to it. -/
theorem read_written_of_ne_if {keyword block rest : Text} {parameters : Option Text}
    (hbrace : Pair.braces.opener ∉ keyword) (hparen : Pair.parens.opener ∉ keyword)
    (hif : keyword ≠ "if".toList) (hparameters : ∀ p ∈ parameters, Pair.parens.Balanced p)
    (hblock : Pair.braces.Balanced block) (hrest : Text.startsWith rest joinedElse = false) :
    read ((⟨keyword, parameters, block, none⟩ : Statement).written [] ++ rest) =
      .ok (⟨keyword, parameters, block, none⟩, rest) := by
  have hd : Delimited ⟨keyword, parameters, block, none⟩ [] rest :=
    ⟨hbrace, hparen, hparameters, List.not_mem_nil, hblock, by simp,
      fun _ => ⟨hrest, fun hk => absurd hk hif⟩⟩
  exact read_eq_ok_of_delimited hd

/-- What is read is written there. -/
theorem delimited_of_read {t rest : Text} {s : Statement} (h : read t = .ok (s, rest)) :
    ∃ gap, s.Delimited gap rest ∧ t = s.written gap ++ rest := by
  unfold read at h
  split at h
  · simp at h
  · next front behind hc =>
    obtain ⟨ht, hfront⟩ := Text.append_of_cutAt? hc
    split at h
    · next hk =>
      obtain ⟨hkey, hpar, hw, hb, hbal, hn⟩ := readBlocks_eq_ok_iff.1 h
      refine ⟨[], ⟨?_, ?_, by simp [hpar], by simp, hb, hbal, ?_⟩, ?_⟩
      · rw [hkey]; exact hfront
      · rw [hkey]; exact Text.cutAt?_eq_none_iff.1 hk
      · rw [hkey]; exact hn
      · rw [ht, hw]
        simp [written, hkey, hpar, parametersText]
    · next keyword x hk =>
      obtain ⟨hx, hkeyword⟩ := Text.append_of_cutAt? hk
      have hdrop : t.drop keyword.length = Pair.parens.opener :: (x ++ Pair.braces.opener :: behind) := by
        simp [ht, hx]
      rw [hdrop] at h
      split at h
      · simp at h
      · next parameters rest' hi =>
        obtain ⟨hp, hpbal⟩ := eq_enclose_of_interior? Pair.parens_ne hi
        split at h
        · simp at h
        · next gap behind' hg =>
          obtain ⟨hrest, hgap⟩ := Text.append_of_cutAt? hg
          obtain ⟨hkey, hpar, hw, hb, hbal, hn⟩ := readBlocks_eq_ok_iff.1 h
          refine ⟨gap, ⟨?_, ?_, ?_, hgap, hb, hbal, ?_⟩, ?_⟩
          · rw [hkey]
            intro hm
            exact hfront (by simp [hx, hm])
          · rw [hkey]; exact hkeyword
          · simpa [hpar] using hpbal
          · rw [hkey]; exact hn
          · have ht' : t = keyword ++ Pair.parens.opener :: (x ++ Pair.braces.opener :: behind) := by
              simp [ht, hx]
            rw [ht', hp, hrest, hw]
            simp [written, hkey, hpar, parametersText]

theorem read_eq_ok_iff {t rest : Text} {s : Statement} :
    read t = .ok (s, rest) ↔ ∃ gap, s.Delimited gap rest ∧ t = s.written gap ++ rest := by
  constructor
  · exact delimited_of_read
  · intro h
    obtain ⟨gap, h, rfl⟩ := h
    exact read_eq_ok_of_delimited h

theorem readElse_ne_loneEscape {keyword : Text} {parameters : Option Text} {t : Text} {i : Nat} :
    readElse keyword parameters t ≠ .error (.loneEscape i) := by
  have hd : readElse.refuseDetached keyword parameters t ≠ .error (.loneEscape i) := by
    unfold readElse.refuseDetached
    split <;> simp
  unfold readElse
  split
  · split
    · split <;> simp
    · exact hd
  · exact hd

theorem readBlocks_ne_loneEscape {keyword : Text} {parameters : Option Text} {t : Text} {i : Nat} :
    readBlocks keyword parameters t ≠ .error (.loneEscape i) := by
  unfold readBlocks
  split
  · simp
  · split
    · next e he =>
      intro h
      have hl : e = .loneEscape i := by simpa using h
      rw [hl] at he
      exact readElse_ne_loneEscape he
    · simp

/-- No statement fails as a literal escape does. -/
theorem read_ne_loneEscape {t : Text} {i : Nat} : read t ≠ .error (.loneEscape i) := by
  unfold read
  split
  · simp
  · split
    · exact readBlocks_ne_loneEscape
    · split
      · simp
      · split
        · simp
        · exact readBlocks_ne_loneEscape

theorem isDetachedElse_append_marker (t r : Text) :
    isDetachedElse (t ++ marker :: r) = isDetachedElse t := by
  have hblank : Text.isBlank marker = false := by decide
  have helse : marker ∉ elseText := by decide
  have hbrace : marker ≠ Pair.braces.opener := by decide
  unfold isDetachedElse
  rw [Text.trimStart_append_cons hblank, Text.strip?_append_cons helse]
  cases Text.strip? elseText (Text.trimStart t) with
  | none => rfl
  | some rest =>
    simp only [Option.map_some, Text.trimStart_append_cons hblank]
    cases Text.trimStart rest with
    | nil => simpa using hbrace
    | cons c u => simp

/-- A marker begins no branch and ends every search for one. -/
theorem NoBranch.append {keyword rest r : Text} (h : NoBranch keyword rest)
    (hr : r = [] ∨ ∃ u, r = marker :: u) : NoBranch keyword (rest ++ r) := by
  rcases hr with rfl | ⟨u, rfl⟩
  · simpa using h
  · have hjoined : marker ∉ joinedElse := by decide
    refine ⟨?_, ?_⟩
    · rw [Text.startsWith, Text.strip?_append_cons hjoined, Option.isSome_map]
      exact h.1
    · intro hk
      rw [isDetachedElse_append_marker]
      exact h.2 hk

/-- A statement that is read is read in front of a further marker too. -/
theorem read_append {t rest r : Text} {s : Statement} (h : read t = .ok (s, rest))
    (hr : r = [] ∨ ∃ u, r = marker :: u) : read (t ++ r) = .ok (s, rest ++ r) := by
  obtain ⟨gap, hd, rfl⟩ := delimited_of_read h
  rw [List.append_assoc]
  exact read_eq_ok_of_delimited { hd with rest := fun hb => (hd.rest hb).append hr }

theorem two_le_length_of_read {t rest : Text} {s : Statement} (h : read t = .ok (s, rest)) :
    2 ≤ t.length := by
  obtain ⟨gap, -, rfl⟩ := delimited_of_read h
  simp [written, Pair.enclose]
  omega

end Statement

namespace Pair

variable {p : Pair}

theorem depth?_append (p : Pair) (d : Nat) (a b : Text) :
    p.depth? d (a ++ b) = (p.depth? d a).bind fun d => p.depth? d b := by
  fun_induction depth? p d a with
  | case1 d => rfl
  | case2 d t ih => simpa [depth?] using ih
  | case3 t hc => simp [depth?, hc]
  | case4 t d hc ih =>
    rw [List.cons_append, depth?, if_neg hc, if_pos rfl]
    exact ih
  | case5 d c t ho hc ih => simpa [depth?, ho, hc] using ih

/-- Text without the characters of a pair opens and closes nothing. -/
theorem depth?_of_forall_ne {t : Text} (h : ∀ c ∈ t, c ≠ p.opener ∧ c ≠ p.closer) (d : Nat) :
    p.depth? d t = some d := by
  induction t with
  | nil => rfl
  | cons c t ih =>
    obtain ⟨hc, ht⟩ := List.forall_mem_cons.1 h
    simp [depth?, hc.1, hc.2, ih ht]

theorem balanced_of_forall_ne {t : Text} (h : ∀ c ∈ t, c ≠ p.opener ∧ c ≠ p.closer) :
    p.Balanced t :=
  depth?_of_forall_ne h 0

theorem balanced_append_iff_left {front t : Text}
    (hfront : ∀ c ∈ front, c ≠ p.opener ∧ c ≠ p.closer) :
    p.Balanced (front ++ t) ↔ p.Balanced t := by
  rw [Balanced, depth?_append, depth?_of_forall_ne hfront]
  rfl

theorem balanced_append_iff_right {t back : Text}
    (hback : ∀ c ∈ back, c ≠ p.opener ∧ c ≠ p.closer) :
    p.Balanced (t ++ back) ↔ p.Balanced t := by
  rw [Balanced, depth?_append]
  simp only [depth?_of_forall_ne hback, Option.bind_fun_some]
  rfl

theorem Balanced.trim {t : Text} (h : parens.Balanced t) : parens.Balanced (Text.trim t) := by
  obtain ⟨front, back, hfront, hback, ht⟩ := Text.exists_append_trim t
  have hne : ∀ c, Text.isBlank c = true → c ≠ parens.opener ∧ c ≠ parens.closer := by
    intro c hc
    constructor
    · rintro rfl
      exact absurd hc (by decide)
    · rintro rfl
      exact absurd hc (by decide)
  rw [ht, balanced_append_iff_right fun c hc => hne c (hback c hc),
    balanced_append_iff_left fun c hc => hne c (hfront c hc)] at h
  exact h

end Pair
end Stencil
