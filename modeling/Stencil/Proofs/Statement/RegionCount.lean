import Mathlib.Data.List.Basic
import Stencil.Proofs.Text.Slice
import Stencil.Proofs.Statement.RegionBytes

namespace Stencil

/-- A byte of a text that is a character by itself stands where that character does. -/
theorem Text.exists_append_of_getElem?_bytes {t : Text} {a : Char} {i : Nat} (ha : a.utf8Size = 1)
    (h : (bytes t)[i]? = some a.toUInt8) :
    ∃ front back, t = front ++ a :: back ∧ size front = i := by
  induction t generalizing i with
  | nil => simp [bytes] at h
  | cons c t ih =>
    have hlength : (String.utf8EncodeChar c).length = c.utf8Size := String.length_utf8EncodeChar c
    rw [bytes_cons] at h
    rcases Nat.lt_or_ge i c.utf8Size with hlt | hge
    · have hmem : a.toUInt8 ∈ String.utf8EncodeChar c := by
        rw [List.getElem?_append_left (hlength ▸ hlt)] at h
        exact List.mem_of_getElem? h
      obtain rfl : c = a := (toUInt8_mem_utf8EncodeChar_iff ha).1 hmem
      exact ⟨[], t, rfl, by rw [size_nil]; omega⟩
    · rw [List.getElem?_append_right (hlength ▸ hge), hlength] at h
      obtain ⟨front, back, rfl, hsize⟩ := ih h
      exact ⟨c :: front, back, rfl, by rw [size_cons]; omega⟩

namespace Pair

/-- No front part of the bytes closes more regions than `d` and those that it opens. -/
def Within (p : Pair) (d : Nat) (bytes : List UInt8) : Prop :=
  ∀ front, front <+: bytes → front.count p.closer.toUInt8 ≤ d + front.count p.opener.toUInt8

/-- The bytes close `d` regions more than they open, but the last of these only at their end. -/
def Level (p : Pair) (d : Nat) (bytes : List UInt8) : Prop :=
  p.Within d bytes ∧ bytes.count p.closer.toUInt8 = d + bytes.count p.opener.toUInt8

/-- The bytes from `start` up to `stop` begin with an opening byte and end with a closing one. No
front part of those between them has more closing bytes than opening ones, and all of them together
have as many. -/
structure Region (p : Pair) (bytes : List UInt8) (start stop : Nat) : Prop where
  ordered : start + 1 < stop
  opens : bytes[start]? = some p.opener.toUInt8
  closes : bytes[stop - 1]? = some p.closer.toUInt8
  within : ∀ front, front <+: bytes.extract (start + 1) (stop - 1) →
    front.count p.closer.toUInt8 ≤ front.count p.opener.toUInt8
  level : (bytes.extract (start + 1) (stop - 1)).count p.closer.toUInt8 =
    (bytes.extract (start + 1) (stop - 1)).count p.opener.toUInt8

variable {p : Pair} {d offset start stop : Nat} {b : UInt8} {bytes front inside behind : List UInt8}

theorem toUInt8_ne (hp : p.Narrow) (hne : p.opener ≠ p.closer) :
    p.opener.toUInt8 ≠ p.closer.toUInt8 := by
  intro h
  have hmem : p.opener.toUInt8 ∈ String.utf8EncodeChar p.closer := by
    rw [h, Text.utf8EncodeChar_eq hp.2]
    exact List.mem_singleton_self _
  exact hne ((Text.toUInt8_mem_utf8EncodeChar_iff hp.1).1 hmem).symm

theorem within_nil : p.Within d [] := by
  intro front hfront
  rw [List.prefix_nil.1 hfront]
  exact Nat.zero_le _

theorem within_cons : p.Within d (b :: bytes) ↔ ∀ front, front <+: bytes →
    (b :: front).count p.closer.toUInt8 ≤ d + (b :: front).count p.opener.toUInt8 := by
  constructor
  · intro h front hfront
    exact h _ (List.cons_prefix_cons.2 ⟨rfl, hfront⟩)
  · intro h front hfront
    rcases List.prefix_cons_iff.1 hfront with rfl | ⟨front, rfl, hprefix⟩
    · exact Nat.zero_le _
    · exact h front hprefix

section

variable (hne : p.opener.toUInt8 ≠ p.closer.toUInt8)

include hne

theorem within_opener : p.Within d (p.opener.toUInt8 :: bytes) ↔ p.Within (d + 1) bytes := by
  rw [within_cons]
  apply forall₂_congr
  intro front _
  rw [List.count_cons_of_ne hne, List.count_cons_self]
  omega

theorem within_closer : p.Within (d + 1) (p.closer.toUInt8 :: bytes) ↔ p.Within d bytes := by
  rw [within_cons]
  apply forall₂_congr
  intro front _
  rw [List.count_cons_self, List.count_cons_of_ne hne.symm]
  omega

theorem not_within_zero_closer : ¬ p.Within 0 (p.closer.toUInt8 :: bytes) := by
  intro h
  have hfirst := within_cons.1 h [] List.nil_prefix
  rw [List.count_cons_self, List.count_cons_of_ne hne.symm] at hfirst
  simp at hfirst

theorem closeByte?_closer : p.closeByte? (d + 1) offset (p.closer.toUInt8 :: bytes) =
    p.closeByte? d (offset + 1) bytes := by
  simp [closeByte?, hne.symm]

theorem closeByte?_zero_closer :
    p.closeByte? 0 offset (p.closer.toUInt8 :: bytes) = some (offset + 1) := by
  simp [closeByte?, hne.symm]

end

theorem closeByte?_opener : p.closeByte? d offset (p.opener.toUInt8 :: bytes) =
    p.closeByte? (d + 1) (offset + 1) bytes := by
  simp [closeByte?]

theorem closeByte?_other (hopen : b ≠ p.opener.toUInt8) (hclose : b ≠ p.closer.toUInt8) :
    p.closeByte? d offset (b :: bytes) = p.closeByte? d (offset + 1) bytes := by
  simp [closeByte?, hopen, hclose]

theorem within_other (hopen : b ≠ p.opener.toUInt8) (hclose : b ≠ p.closer.toUInt8) :
    p.Within d (b :: bytes) ↔ p.Within d bytes := by
  rw [within_cons]
  apply forall₂_congr
  intro front _
  rw [List.count_cons_of_ne hclose, List.count_cons_of_ne hopen]

/-- A region does not end in bytes that never close it. -/
theorem closeByte?_eq_none_iff (hne : p.opener.toUInt8 ≠ p.closer.toUInt8) :
    p.closeByte? d offset bytes = none ↔ p.Within d bytes := by
  fun_induction closeByte? p d offset bytes with
  | case1 => exact iff_of_true rfl within_nil
  | case2 d offset bytes ih => rw [ih, within_opener hne]
  | case3 offset bytes h => exact iff_of_false nofun (not_within_zero_closer hne)
  | case4 offset bytes d h ih => rw [ih, within_closer hne]
  | case5 d offset b bytes hopen hclose ih => rw [ih, within_other hopen hclose]

/-- What stands behind bytes that never close a region is read at the depth that they lead to. -/
theorem closeByte?_append_within (hne : p.opener.toUInt8 ≠ p.closer.toUInt8) {e : Nat}
    (h : p.Within d inside)
    (he : e + inside.count p.closer.toUInt8 = d + inside.count p.opener.toUInt8)
    (offset : Nat) (behind : List UInt8) :
    p.closeByte? d offset (inside ++ behind) =
      p.closeByte? e (offset + inside.length) behind := by
  induction inside generalizing d offset with
  | nil =>
    obtain rfl : e = d := by simpa using he
    rfl
  | cons b inside ih =>
    have hlength : offset + (b :: inside).length = offset + 1 + inside.length := by
      rw [List.length_cons]
      omega
    rw [List.cons_append, hlength]
    by_cases hopen : b = p.opener.toUInt8
    · subst hopen
      rw [within_opener hne] at h
      rw [List.count_cons_of_ne hne, List.count_cons_self] at he
      rw [closeByte?_opener, ih h (by omega)]
    · by_cases hclose : b = p.closer.toUInt8
      · subst hclose
        rw [List.count_cons_self, List.count_cons_of_ne hne.symm] at he
        cases d with
        | zero => exact absurd h (not_within_zero_closer hne)
        | succ d =>
          rw [within_closer hne] at h
          rw [closeByte?_closer hne, ih h (by omega)]
      · rw [within_other hopen hclose] at h
        rw [List.count_cons_of_ne hopen, List.count_cons_of_ne hclose] at he
        rw [closeByte?_other hopen hclose, ih h he]

theorem closeByte?_eq_some_iff (hne : p.opener.toUInt8 ≠ p.closer.toUInt8) :
    p.closeByte? d offset bytes = some stop ↔
      ∃ inside behind, bytes = inside ++ p.closer.toUInt8 :: behind ∧
        stop = offset + inside.length + 1 ∧ p.Level d inside := by
  constructor
  · intro h
    fun_induction closeByte? p d offset bytes with
    | case1 => cases h
    | case2 d offset bytes ih =>
      obtain ⟨inside, behind, rfl, rfl, hwithin, hlevel⟩ := ih h
      refine ⟨p.opener.toUInt8 :: inside, behind, rfl, ?_, (within_opener hne).2 hwithin, ?_⟩
      · rw [List.length_cons]
        omega
      · rw [List.count_cons_of_ne hne, List.count_cons_self]
        omega
    | case3 offset bytes =>
      obtain rfl := Option.some.inj h
      exact ⟨[], bytes, rfl, rfl, within_nil, rfl⟩
    | case4 offset bytes d _ ih =>
      obtain ⟨inside, behind, rfl, rfl, hwithin, hlevel⟩ := ih h
      refine ⟨p.closer.toUInt8 :: inside, behind, rfl, ?_, (within_closer hne).2 hwithin, ?_⟩
      · rw [List.length_cons]
        omega
      · rw [List.count_cons_self, List.count_cons_of_ne hne.symm]
        omega
    | case5 d offset b bytes hopen hclose ih =>
      obtain ⟨inside, behind, rfl, rfl, hwithin, hlevel⟩ := ih h
      refine ⟨b :: inside, behind, rfl, ?_, (within_other hopen hclose).2 hwithin, ?_⟩
      · rw [List.length_cons]
        omega
      · rw [List.count_cons_of_ne hclose, List.count_cons_of_ne hopen, hlevel]
  · rintro ⟨inside, behind, rfl, rfl, hwithin, hlevel⟩
    rw [closeByte?_append_within hne hwithin (e := 0) (by omega), closeByte?_zero_closer hne]

theorem region_iff : p.Region bytes start stop ↔ ∃ front inside behind,
    bytes = front ++ p.opener.toUInt8 :: (inside ++ p.closer.toUInt8 :: behind) ∧
      front.length = start ∧ stop = start + 1 + inside.length + 1 ∧ p.Level 0 inside := by
  constructor
  · rintro ⟨hordered, hopens, hcloses, hwithin, hlevel⟩
    obtain ⟨hstart, hopen⟩ := List.getElem?_eq_some_iff.1 hopens
    obtain ⟨hstop, hclose⟩ := List.getElem?_eq_some_iff.1 hcloses
    have hlast : stop - 1 + 1 = stop := by omega
    have hbetween : start + 1 + (stop - 1 - (start + 1)) = stop - 1 := by omega
    have hbehind : bytes.drop (stop - 1) = p.closer.toUInt8 :: bytes.drop stop := by
      rw [List.drop_eq_getElem_cons hstop, hclose, hlast]
    have hinside : bytes.drop (start + 1) =
        bytes.extract (start + 1) (stop - 1) ++ p.closer.toUInt8 :: bytes.drop stop := by
      have hdrop : bytes.drop (stop - 1) =
          (bytes.drop (start + 1)).drop (stop - 1 - (start + 1)) := by
        rw [List.drop_drop, hbetween]
      rw [← hbehind, List.extract_eq_take_drop, hdrop, List.take_append_drop]
    refine ⟨bytes.take start, bytes.extract (start + 1) (stop - 1), bytes.drop stop, ?_, ?_, ?_,
      ?_, ?_⟩
    · calc bytes = bytes.take start ++ bytes.drop start := (List.take_append_drop ..).symm
        _ = _ := by rw [List.drop_eq_getElem_cons hstart, hopen, hinside]
    · exact List.length_take_of_le (Nat.le_of_lt hstart)
    · rw [List.extract_eq_take_drop, List.length_take, List.length_drop]
      omega
    · simpa only [Within, Nat.zero_add] using hwithin
    · rw [hlevel, Nat.zero_add]
  · rintro ⟨front, inside, behind, rfl, rfl, rfl, hwithin, hlevel⟩
    have hlast : front.length + 1 + inside.length + 1 - 1 = front.length + 1 + inside.length := by
      omega
    have hdrop : (front ++ p.opener.toUInt8 :: (inside ++ p.closer.toUInt8 :: behind)).drop
        (front.length + 1) = inside ++ p.closer.toUInt8 :: behind := by
      rw [List.drop_length_add_append]
      rfl
    have hinside : (front ++ p.opener.toUInt8 :: (inside ++ p.closer.toUInt8 :: behind)).extract
        (front.length + 1) (front.length + 1 + inside.length + 1 - 1) = inside := by
      rw [hlast, List.extract_eq_take_drop, hdrop, Nat.add_sub_cancel_left, List.take_left]
    refine ⟨by omega, ?_, ?_, ?_, ?_⟩
    · rw [List.getElem?_append_right (Nat.le_refl _), Nat.sub_self]
      rfl
    · rw [hlast, ← List.getElem?_drop, hdrop, List.getElem?_append_right (Nat.le_refl _),
        Nat.sub_self]
      rfl
    · rw [hinside]
      simpa only [Within, Nat.zero_add] using hwithin
    · rw [hinside, hlevel, Nat.zero_add]

theorem region_iff_closeByte? (hne : p.opener.toUInt8 ≠ p.closer.toUInt8) :
    p.Region bytes start stop ↔ bytes[start]? = some p.opener.toUInt8 ∧
      p.closeByte? 0 (start + 1) (bytes.drop (start + 1)) = some stop := by
  rw [closeByte?_eq_some_iff hne]
  constructor
  · intro h
    refine ⟨h.opens, ?_⟩
    obtain ⟨front, inside, behind, rfl, rfl, hstop, hlevel⟩ := region_iff.1 h
    rw [List.drop_length_add_append]
    exact ⟨inside, behind, rfl, hstop, hlevel⟩
  · rintro ⟨hopen, inside, behind, hdrop, hstop, hlevel⟩
    obtain ⟨hstart, hbyte⟩ := List.getElem?_eq_some_iff.1 hopen
    refine region_iff.2 ⟨bytes.take start, inside, behind, ?_,
      List.length_take_of_le (Nat.le_of_lt hstart), hstop, hlevel⟩
    rw [← hdrop, ← hbyte, ← List.drop_eq_getElem_cons hstart, List.take_append_drop]

theorem Region.unique {stop' : Nat} (hne : p.opener.toUInt8 ≠ p.closer.toUInt8)
    (h : p.Region bytes start stop) (h' : p.Region bytes start stop') : stop = stop' := by
  have hstop := ((region_iff_closeByte? hne).1 h).2
  have hstop' := ((region_iff_closeByte? hne).1 h').2
  exact Option.some.inj (hstop.symm.trans hstop')

/-- What opens inside a region also closes inside. -/
theorem Region.exists_inner {i : Nat} (hne : p.opener.toUInt8 ≠ p.closer.toUInt8)
    (h : p.Region bytes start stop) (hstart : start < i) (hstop : i < stop)
    (hopen : bytes[i]? = some p.opener.toUInt8) : ∃ j, j < stop ∧ p.Region bytes i j := by
  have hlast : i ≠ stop - 1 := by
    rintro rfl
    exact hne (Option.some.inj (hopen.symm.trans h.closes))
  obtain ⟨front, inside, behind, rfl, rfl, rfl, hwithin, hlevel⟩ := region_iff.1 h
  obtain ⟨k, rfl⟩ : ∃ k, i = front.length + (k + 1) := ⟨i - front.length - 1, by omega⟩
  have hk : k < inside.length := by omega
  rw [List.getElem?_append_right (Nat.le_add_right ..), Nat.add_sub_cancel_left,
    List.getElem?_cons_succ, List.getElem?_append_left hk] at hopen
  obtain ⟨before, after, rfl, rfl⟩ : ∃ before after,
      inside = before ++ p.opener.toUInt8 :: after ∧ before.length = k := by
    obtain ⟨_, hbyte⟩ := List.getElem?_eq_some_iff.1 hopen
    refine ⟨inside.take k, inside.drop (k + 1), ?_, List.length_take_of_le (Nat.le_of_lt hk)⟩
    rw [← hbyte, ← List.drop_eq_getElem_cons hk, List.take_append_drop]
  have hbefore := hwithin before (List.prefix_append ..)
  rw [List.count_append, List.count_append, List.count_cons_of_ne hne,
    List.count_cons_self] at hlevel
  have hafter : ¬ p.Within 0 after := by
    intro hafter
    have hwhole := hafter after List.prefix_rfl
    omega
  have hcloses : p.closeByte? 0 0 after ≠ none := mt (closeByte?_eq_none_iff hne).1 hafter
  obtain ⟨j, hj⟩ := Option.ne_none_iff_exists'.1 hcloses
  obtain ⟨inner, rest, rfl, -, hinner⟩ := (closeByte?_eq_some_iff hne).1 hj
  refine ⟨front.length + (before.length + 1) + 1 + inner.length + 1, ?_, region_iff.2
    ⟨front ++ p.opener.toUInt8 :: before, inner, rest ++ p.closer.toUInt8 :: behind, ?_, ?_,
      rfl, hinner⟩⟩
  · simp only [List.length_append, List.length_cons]
    omega
  · simp
  · rw [List.length_append, List.length_cons]

theorem regionEnd?_eq_some_iff (hne : p.opener.toUInt8 ≠ p.closer.toUInt8) {document : Text} :
    p.regionEnd? document start = some stop ↔ p.Region (Text.bytes document) start stop := by
  rw [region_iff_closeByte? hne]
  unfold regionEnd?
  dsimp only
  split
  · next hopen => exact (and_iff_right hopen).symm
  · next hopen => exact iff_of_false nofun fun h => hopen h.1

/-- The end of a region by characters is its end by bytes, also where no character begins. -/
theorem stop?_eq_regionEnd? (hp : p.Narrow) (hne : p.opener ≠ p.closer) (document : Text)
    (start : Nat) : p.stop? document start = p.regionEnd? document start := by
  cases hsplit : Text.splitAt? document start with
  | some parts =>
    obtain ⟨front, t⟩ := parts
    obtain ⟨rfl, rfl⟩ := Text.append_of_splitAt? hsplit
    rw [regionEnd?_append hp, stop?, hsplit]
    simp only [Option.bind_eq_bind, Option.bind_some]
    cases hi : p.interior? t with
    | none => rfl
    | some parts =>
      obtain ⟨inside, rest⟩ := parts
      obtain ⟨rfl, -⟩ := Statement.eq_enclose_of_interior? hne hi
      simp only [Option.bind_some, Option.pure_def, Option.map_some, ← List.append_assoc]
      rw [Text.size_sub_of_eq rfl]
  | none =>
    have hopen : (Text.bytes document)[start]? ≠ some p.opener.toUInt8 := by
      intro hopen
      obtain ⟨front, back, rfl, rfl⟩ := Text.exists_append_of_getElem?_bytes hp.1 hopen
      rw [Text.splitAt?_append] at hsplit
      cases hsplit
    rw [stop?, hsplit, regionEnd?]
    simp [hopen]

/-- The end of a region is found exactly where the bytes have one. -/
theorem stop?_finds_region (hp : p.Narrow) (hne : p.opener ≠ p.closer) (document : Text)
    (start : Nat) :
    let bytes := Text.bytes document
    (∀ stop, p.stop? document start = some stop ↔ p.Region bytes start stop) ∧
    (∀ stop, p.Region bytes start stop →
      (∀ stop', p.Region bytes start stop' → stop' = stop) ∧
      Text.IsBoundary document (stop - 1) ∧ Text.IsBoundary document stop ∧
      ∀ i, start < i → i < stop → bytes[i]? = some p.opener.toUInt8 →
        ∃ j, j < stop ∧ p.stop? document i = some j) ∧
    (p.stop? document start = none ↔ ¬ ∃ stop, p.Region bytes start stop) ∧
    (bytes.length ≤ start → p.stop? document start = none) ∧
    (bytes[start]? = some p.opener.toUInt8 → (p.stop? document start = none ↔
      ∀ front, front <+: bytes.drop (start + 1) →
        front.count p.closer.toUInt8 ≤ front.count p.opener.toUInt8)) := by
  intro bytes
  have hbytes := toUInt8_ne hp hne
  have hfinds : ∀ start stop, p.stop? document start = some stop ↔ p.Region bytes start stop := by
    intro start stop
    rw [stop?_eq_regionEnd? hp hne, regionEnd?_eq_some_iff hbytes]
  refine ⟨hfinds start, fun stop h => ⟨fun stop' h' => h'.unique hbytes h, ?_⟩, ?_, ?_, ?_⟩
  · obtain ⟨front, back, hdocument, hsize⟩ := Text.exists_append_of_getElem?_bytes hp.2 h.closes
    refine ⟨Text.isBoundary_iff.2 ⟨front, p.closer :: back, hdocument, hsize⟩,
      Text.isBoundary_iff.2 ⟨front ++ [p.closer], back, by simp [hdocument], ?_⟩, ?_⟩
    · have hordered := h.ordered
      rw [Text.size_append, Text.size_cons, Text.size_nil, hp.2]
      omega
    · intro i hstart hstop hopen
      obtain ⟨j, hj, hregion⟩ := h.exists_inner hbytes hstart hstop hopen
      exact ⟨j, hj, (hfinds i j).2 hregion⟩
  · simp only [Option.eq_none_iff_forall_ne_some, ne_eq, hfinds, not_exists]
  · intro hlength
    rw [stop?_eq_regionEnd? hp hne, regionEnd?, List.getElem?_eq_none hlength]
    rfl
  · intro hopen
    rw [stop?_eq_regionEnd? hp hne, regionEnd?, if_pos hopen, closeByte?_eq_none_iff hbytes]
    simp only [Within, Nat.zero_add]
    rfl

/-- A region behind a character of two bytes with another one inside, and one that is not closed. -/
theorem stop?_finds_region_nested :
    let document := "é\x7ba\x7b\x7db\x7d\x7b".toList
    braces.Region (Text.bytes document) 2 8 ∧ Text.IsBoundary document 7 ∧
      (∃ j, j < 8 ∧ braces.stop? document 4 = some j) ∧ braces.stop? document 8 = none ∧
      braces.stop? document 9 = none := by
  intro document
  have hp : braces.Narrow := by decide
  have hne : braces.opener ≠ braces.closer := by decide
  obtain ⟨hfinds, hregion, -⟩ := stop?_finds_region hp hne document 2
  have houter := (hfinds 8).1 (by decide)
  obtain ⟨-, hlast, -, hinner⟩ := hregion 8 houter
  obtain ⟨-, -, -, -, hunclosed⟩ := stop?_finds_region hp hne document 8
  obtain ⟨-, -, -, hpast, -⟩ := stop?_finds_region hp hne document 9
  refine ⟨houter, hlast, hinner 4 (by decide) (by decide) (by decide), ?_, hpast (by decide)⟩
  refine (hunclosed (by decide)).2 fun front hfront => ?_
  rw [List.prefix_nil.1 hfront]
  exact Nat.le_refl _

end Pair
end Stencil
