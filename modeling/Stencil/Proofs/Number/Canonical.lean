import Mathlib.Algebra.Order.Field.Rat
import Stencil.Proofs.Number.Exact

namespace Stencil.Number

/-- The mantissa is as long as that of a number can be, or the exponent is the least. -/
structure Parts.Canonical (p : Parts) : Prop where
  mantissa_lt : p.mantissa < 2 ^ 53
  least_le : -1074 ≤ p.exponent
  normal : p.exponent = -1074 ∨ 2 ^ 52 ≤ p.mantissa

theorem canonical_of_parts? {x : Number} {p : Parts} (h : x.parts? = some p) : p.Canonical := by
  have hfraction : x.fraction < 2 ^ 52 := Nat.mod_lt _ (by decide)
  unfold parts? at h
  split at h
  · cases h
  · split at h
    · cases h
      exact ⟨Nat.lt_trans hfraction (by decide), Int.le_refl _, .inl rfl⟩
    · next hfield =>
      cases h
      refine ⟨?_, ?_, .inr (Nat.le_add_right ..)⟩
      · dsimp only
        omega
      · dsimp only
        omega

variable {p d : Parts}

/-- A greater exponent would leave no room for the mantissa. -/
theorem Parts.Canonical.exponent_le (hp : p.Canonical) (hd : d.Canonical)
    (h : (p.mantissa : ℚ) * 2 ^ p.exponent = d.mantissa * 2 ^ d.exponent) :
    d.exponent ≤ p.exponent := by
  by_contra hlt
  obtain ⟨k, hk⟩ : ∃ k : Nat, d.exponent = p.exponent + (k + 1 : Nat) :=
    ⟨(d.exponent - p.exponent).toNat - 1, by omega⟩
  have hscale : (2 : ℚ) ^ p.exponent ≠ 0 := by positivity
  have hmantissa : p.mantissa = d.mantissa * 2 ^ (k + 1) := by
    rw [hk, zpow_add₀ two_ne_zero, zpow_natCast, ← mul_assoc, mul_right_comm] at h
    exact_mod_cast mul_right_cancel₀ hscale h
  have hnormal : 2 ^ 52 ≤ d.mantissa := by
    have hleast := hp.least_le
    exact hd.normal.resolve_left (by omega)
  have hlarge : 2 ^ 52 * 2 ≤ d.mantissa * 2 ^ (k + 1) :=
    Nat.mul_le_mul hnormal (Nat.le_self_pow (Nat.succ_ne_zero k) 2)
  have hsmall := hp.mantissa_lt
  omega

theorem Parts.Canonical.eq_of_magnitude_eq (hp : p.Canonical) (hd : d.Canonical)
    (h : (p.mantissa : ℚ) * 2 ^ p.exponent = d.mantissa * 2 ^ d.exponent) :
    p.mantissa = d.mantissa ∧ p.exponent = d.exponent := by
  have hexponent : p.exponent = d.exponent :=
    Int.le_antisymm (hd.exponent_le hp h.symm) (hp.exponent_le hd h)
  have hscale : (2 : ℚ) ^ d.exponent ≠ 0 := by positivity
  rw [hexponent] at h
  exact ⟨by exact_mod_cast mul_right_cancel₀ hscale h, hexponent⟩

theorem isZero_of_mantissa_eq_zero {x : Number} (h : x.parts? = some p) (hp : p.mantissa = 0) :
    x.isZero = true := by
  unfold parts? at h
  split at h
  · cases h
  · split at h
    · next hfield =>
      cases h
      have hbits := x.bits_mod_eq
      rw [hfield, show x.fraction = 0 from hp] at hbits
      exact beq_iff_eq.2 hbits
    · cases h
      dsimp only at hp
      omega

theorem Parts.magnitude_nonneg (p : Parts) : (0 : ℚ) ≤ p.mantissa * 2 ^ p.exponent := by
  positivity

theorem Parts.abs_value (p : Parts) : |p.value| = p.mantissa * 2 ^ p.exponent := by
  rw [value_eq]
  split
  · rw [abs_neg, abs_of_nonneg p.magnitude_nonneg]
  · exact abs_of_nonneg p.magnitude_nonneg

theorem Parts.negative_iff (hp : p.mantissa ≠ 0) : p.negative = true ↔ p.value < 0 := by
  have hpos : (0 : ℚ) < p.mantissa * 2 ^ p.exponent := by positivity
  rw [value_eq]
  split
  · next h => exact iff_of_true h (neg_lt_zero.2 hpos)
  · next h => exact iff_of_false h (not_lt.2 hpos.le)

/-- Numbers of one value are the same, up to the sign of zero. -/
theorem eq_or_isZero_of_value? {x y : Number} {q : ℚ} (hx : x.value? = some q)
    (hy : y.value? = some q) : x = y ∨ x.isZero = true ∧ y.isZero = true := by
  obtain ⟨p, hp, hpq⟩ := Option.map_eq_some_iff.1 hx
  obtain ⟨d, hd, hdq⟩ := Option.map_eq_some_iff.1 hy
  have hvalue : p.value = d.value := hpq.trans hdq.symm
  have hmagnitude : (p.mantissa : ℚ) * 2 ^ p.exponent = d.mantissa * 2 ^ d.exponent := by
    rw [← Parts.abs_value, hvalue, Parts.abs_value]
  obtain ⟨hmantissa, hexponent⟩ :=
    (canonical_of_parts? hp).eq_of_magnitude_eq (canonical_of_parts? hd) hmagnitude
  by_cases hzero : p.mantissa = 0
  · exact .inr ⟨isZero_of_mantissa_eq_zero hp hzero,
      isZero_of_mantissa_eq_zero hd (hmantissa.symm.trans hzero)⟩
  · have hnegative : p.negative = d.negative := by
      rw [Bool.eq_iff_iff, Parts.negative_iff hzero, Parts.negative_iff (hmantissa ▸ hzero), hvalue]
    have hparts : p = d := by
      cases p
      cases d
      simp_all
    exact .inl ((round_of_parts? hp).symm.trans (hparts ▸ round_of_parts? hd))

theorem close_of_isZero {x y : Number} (hx : x.isZero = true) (hy : y.isZero = true) :
    x.close y = true := by
  have hrank := rank_of_isZero hx
  have hrank' := rank_of_isZero hy
  rw [close_iff]
  omega

theorem value?_ofInt {n : Int} (hn : n.natAbs < 2 ^ 53) : (ofInt n).value? = some (n : ℚ) := by
  rw [ofInt, value?_round _ hn]
  refine congrArg some ((signed_eq_cast_iff (Nat.cast_nonneg _)).2 ⟨n.natAbs, rfl, ?_⟩)
  simp only [decide_eq_true_eq]
  split <;> omega

end Stencil.Number
