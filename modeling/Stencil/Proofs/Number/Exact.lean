import Mathlib.Algebra.Field.Rat
import Mathlib.Algebra.Order.Field.Power
import Mathlib.Data.Rat.Cast.Defs
import Mathlib.Tactic.FieldSimp
import Mathlib.Tactic.NormNum
import Stencil.Number.Binary

namespace Stencil.Number

/-- The rational number that parts stand for. -/
def Parts.value (p : Parts) : ℚ :=
  (if p.negative then -(p.mantissa : ℚ) else p.mantissa) * 2 ^ p.exponent

/-- The rational number that a number is. Infinities and NaN are none. -/
def value? (x : Number) : Option ℚ := x.parts?.map Parts.value

theorem Parts.magnitude?_eq_some_iff {p : Parts} {m : Nat} :
    p.magnitude? = some m ↔ (p.mantissa : ℚ) * 2 ^ p.exponent = m := by
  unfold magnitude?
  split
  · next h =>
    obtain ⟨k, hk⟩ := Int.eq_ofNat_of_zero_le h
    rw [hk, Int.toNat_natCast, Option.some.injEq, zpow_natCast]
    exact_mod_cast Iff.rfl
  · next h =>
    obtain ⟨k, hk⟩ : ∃ k : Nat, p.exponent = -k := ⟨(-p.exponent).toNat, by omega⟩
    have hunit : (0 : ℚ) < ((2 ^ k : Nat) : ℚ) := by exact_mod_cast Nat.two_pow_pos k
    have hvalue : (p.mantissa : ℚ) * 2 ^ p.exponent = m ↔ p.mantissa = m * 2 ^ k := by
      have hpow : (2 : ℚ) ^ p.exponent = ((2 ^ k : Nat) : ℚ)⁻¹ := by
        rw [hk, zpow_neg, zpow_natCast]
        norm_cast
      rw [hpow, ← div_eq_mul_inv, div_eq_iff hunit.ne']
      exact_mod_cast Iff.rfl
    have hexponent : (-p.exponent).toNat = k := by omega
    have hpos := Nat.two_pow_pos k
    simp only [hexponent]
    rw [hvalue]
    constructor
    · intro hm
      split at hm
      · next hmod =>
        obtain rfl := Option.some.inj hm
        exact (Nat.div_mul_cancel (Nat.dvd_of_mod_eq_zero hmod)).symm
      · cases hm
    · intro hm
      rw [hm, if_pos (Nat.mul_mod_left m (2 ^ k)), Nat.mul_div_cancel m hpos]

theorem Parts.value_eq (p : Parts) :
    p.value = if p.negative then -((p.mantissa : ℚ) * 2 ^ p.exponent)
      else (p.mantissa : ℚ) * 2 ^ p.exponent := by
  unfold value
  split
  · exact neg_mul _ _
  · rfl

/-- A magnitude with a sign is an integer if the magnitude is a natural number. -/
theorem signed_eq_cast_iff {negative : Bool} {q : ℚ} (hq : 0 ≤ q) {n : Int} :
    (if negative then -q else q) = n ↔
      ∃ m : Nat, q = m ∧ (if negative then -(m : Int) else m) = n := by
  constructor
  · intro h
    refine ⟨n.natAbs, ?_, ?_⟩
    · rw [Nat.cast_natAbs, Int.cast_abs, ← h]
      split
      · rw [abs_neg, abs_of_nonneg hq]
      · rw [abs_of_nonneg hq]
    · split at h
      · next hnegative =>
        have hle : (n : ℚ) ≤ 0 := h ▸ neg_nonpos.2 hq
        have hn : n ≤ 0 := by exact_mod_cast hle
        rw [if_pos hnegative]
        omega
      · next hnegative =>
        have hle : (0 : ℚ) ≤ n := h ▸ hq
        have hn : 0 ≤ n := by exact_mod_cast hle
        rw [if_neg hnegative]
        omega
  · rintro ⟨m, rfl, rfl⟩
    split
    · push_cast
      rfl
    · push_cast
      rfl

/-- A number is an integer if it is one as a rational number. -/
theorem toInt?_eq_some_iff {x : Number} {n : Int} :
    x.toInt? = some n ↔ x.value? = some (n : ℚ) := by
  unfold toInt? value?
  cases hx : x.parts? with
  | none => simp
  | some p =>
    have hpos : (0 : ℚ) ≤ (p.mantissa : ℚ) * 2 ^ p.exponent := by positivity
    simp only [Option.bind_eq_bind, Option.bind_some, Option.map_some, Option.some.injEq,
      Option.bind_eq_some_iff, Parts.magnitude?_eq_some_iff, Option.pure_def]
    rw [Parts.value_eq, signed_eq_cast_iff hpos]

/-- A number has no value exactly if all bits of its exponent field are set. -/
theorem value?_eq_none_iff {x : Number} : x.value? = none ↔ x.isFinite = false := by
  unfold value? parts? isFinite
  split
  · next h => simp [h]
  · next h => split <;> simp [h]

theorem isFinite_of_isNaN {x : Number} (h : x.isNaN = true) : x.isFinite = false := by
  simp only [isNaN, Bool.and_eq_true, beq_iff_eq] at h
  simp [isFinite, h.1]

/-- NaN, the infinities, fractions, and what is below zero. -/
def Misses (x : Number) : Prop :=
  x.isNaN = true ∨ (∃ negative, x = infinity negative) ∨
    ∃ q, x.value? = some q ∧ (q < 0 ∨ ∀ n : Int, q ≠ n)

/-- What is left are the natural numbers; zero is one whatever its sign. -/
theorem misses_iff {x : Number} : x.Misses ↔ ∀ n : Nat, x.value? ≠ some (n : ℚ) := by
  constructor
  · intro h n hn
    have hfinite : x.isFinite ≠ false := by
      rw [← value?_eq_none_iff.ne, hn]
      exact Option.some_ne_none _
    rcases h with hnan | ⟨negative, rfl⟩ | ⟨q, hq, h⟩
    · exact hfinite (isFinite_of_isNaN hnan)
    · cases negative <;> exact hfinite (by decide)
    · obtain rfl : q = n := Option.some.inj (hq.symm.trans hn)
      rcases h with hneg | hfraction
      · exact absurd hneg (not_lt.2 (Nat.cast_nonneg n))
      · exact hfraction n (Int.cast_natCast n).symm
  · intro h
    cases hx : x.value? with
    | none =>
      have hfield : x.field = 2047 := by simpa [isFinite] using value?_eq_none_iff.1 hx
      by_cases hfraction : x.fraction = 0
      · have hinfinite := ofFields_fields x
        rw [hfield, hfraction] at hinfinite
        exact .inr (.inl ⟨x.isNegative, hinfinite.symm⟩)
      · exact .inl (by simp [isNaN, hfield, hfraction])
    | some q =>
      refine .inr (.inr ⟨q, hx, ?_⟩)
      by_contra hq
      simp only [not_or, not_lt, not_forall, not_not] at hq
      obtain ⟨hpos, n, rfl⟩ := hq
      have hn : 0 ≤ n := by exact_mod_cast hpos
      apply h n.toNat
      rw [hx, ← Int.cast_natCast, Int.toNat_of_nonneg hn]

section

variable {m : Nat} (negative : Bool)

theorem toNat_bits_ofFields (hm : m < 2 ^ 63) :
    (ofFields negative m).bits.toNat = (if negative then 2 ^ 63 else 0) + m := by
  unfold ofFields
  rw [UInt64.toNat_ofNat']
  split <;> omega

/-- The parts of a finite number by the bits below its sign. -/
theorem parts?_ofFields (hm : m < infinityBits) : (ofFields negative m).parts? =
    if m / 2 ^ 52 = 0 then some ⟨negative, m % 2 ^ 52, -1074⟩
    else some ⟨negative, 2 ^ 52 + m % 2 ^ 52, (m / 2 ^ 52 : Nat) - 1075⟩ := by
  unfold infinityBits at hm
  have hbits := toNat_bits_ofFields negative (m := m) (by omega)
  have hnegative : (ofFields negative m).isNegative = negative := by
    unfold isNegative
    rw [hbits]
    cases negative
    · simp only [Bool.false_eq_true, ↓reduceIte, decide_eq_false_iff_not]
      omega
    · simp
  have hfield : (ofFields negative m).field = m / 2 ^ 52 := by
    unfold field
    rw [hbits]
    split <;> omega
  have hfraction : (ofFields negative m).fraction = m % 2 ^ 52 := by
    unfold fraction
    rw [hbits]
    split <;> omega
  have hfinite : m / 2 ^ 52 ≠ 2047 := by omega
  unfold parts?
  rw [hnegative, hfield, hfraction, if_neg hfinite]

/-- Shifted until its highest bit is that of a mantissa, an integer is one. -/
theorem normalized {n : Nat} (hpos : n ≠ 0) (hlog : n.log2 < 53) :
    2 ^ 52 ≤ n * 2 ^ (52 - n.log2) ∧ n * 2 ^ (52 - n.log2) < 2 ^ 53 := by
  constructor
  · have hlow : 2 ^ n.log2 ≤ n := Nat.log2_self_le hpos
    calc 2 ^ 52 = 2 ^ n.log2 * 2 ^ (52 - n.log2) := by
          rw [← Nat.pow_add]
          congr 1
          omega
      _ ≤ n * 2 ^ (52 - n.log2) := Nat.mul_le_mul_right _ hlow
  · have hhigh : n < 2 ^ (n.log2 + 1) := Nat.lt_log2_self
    calc n * 2 ^ (52 - n.log2) < 2 ^ (n.log2 + 1) * 2 ^ (52 - n.log2) :=
          Nat.mul_lt_mul_of_pos_right hhigh (Nat.two_pow_pos _)
      _ = 2 ^ 53 := by
          rw [← Nat.pow_add]
          congr 1
          omega

/-- No bit of an integer below 2 ^ 53 is lost: its highest bit becomes that of the mantissa. -/
theorem parts?_round {n : Nat} (hpos : n ≠ 0) (hn : n < 2 ^ 53) :
    (round ⟨negative, n, 0⟩).parts? =
      some ⟨negative, n * 2 ^ (52 - n.log2), (n.log2 : Int) - 52⟩ := by
  have hlog : n.log2 < 53 := (Nat.log2_lt hpos).2 hn
  obtain ⟨hlow, hhigh⟩ := normalized hpos hlog
  have hplace : max ((0 : Int) + n.log2 - 52) (-1074) = n.log2 - 52 := by omega
  have hle : (n.log2 : Int) - 52 ≤ 0 := by omega
  have hshift : ((0 : Int) - (n.log2 - 52)).toNat = 52 - n.log2 := by omega
  have hplaces : ((n.log2 : Int) - 52 + 1074).toNat = n.log2 + 1022 := by omega
  unfold round
  rw [if_neg hpos]
  dsimp only
  rw [hplace, if_pos hle, hshift, hplaces]
  generalize n * 2 ^ (52 - n.log2) = k at hlow hhigh
  have hfinite : (n.log2 + 1022) * 2 ^ 52 + k < infinityBits := by
    unfold infinityBits
    omega
  have hfield : ((n.log2 + 1022) * 2 ^ 52 + k) / 2 ^ 52 = n.log2 + 1023 := by omega
  have hfraction : 2 ^ 52 + ((n.log2 + 1022) * 2 ^ 52 + k) % 2 ^ 52 = k := by omega
  have hexponent : ((n.log2 + 1023 : Nat) : Int) - 1075 = n.log2 - 52 := by omega
  have hnormal : n.log2 + 1023 ≠ 0 := by omega
  rw [Nat.min_eq_left hfinite.le, parts?_ofFields negative hfinite, hfield, hfraction,
    if_neg hnormal, hexponent]

/-- The number nearest a small integer is that integer. -/
theorem value?_round {n : Nat} (hn : n < 2 ^ 53) :
    (round ⟨negative, n, 0⟩).value? = some (if negative then -(n : ℚ) else n) := by
  unfold value?
  by_cases hpos : n = 0
  · subst hpos
    have hzero : round ⟨negative, 0, 0⟩ = ofFields negative 0 := rfl
    rw [hzero, parts?_ofFields negative (by decide)]
    simp [Parts.value]
  · have hlog : n.log2 < 53 := (Nat.log2_lt hpos).2 hn
    have hscale : ((n * 2 ^ (52 - n.log2) : Nat) : ℚ) * 2 ^ ((n.log2 : Int) - 52) = n := by
      have hexponent : ((n.log2 : Int) - 52) = -((52 - n.log2 : Nat) : Int) := by omega
      have hne : (2 : ℚ) ^ (52 - n.log2) ≠ 0 := by positivity
      rw [hexponent, zpow_neg, zpow_natCast]
      push_cast
      exact mul_inv_cancel_right₀ hne _
    rw [parts?_round negative hpos hn, Option.map_some, Parts.value]
    dsimp only
    split
    · rw [neg_mul, hscale]
    · rw [hscale]

end

theorem value?_ofNat {n : Nat} (hn : n < 2 ^ 53) : (ofNat n).value? = some (n : ℚ) :=
  value?_round false hn

end Stencil.Number
