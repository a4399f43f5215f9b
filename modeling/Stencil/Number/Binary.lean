namespace Stencil

/-- Powers are core's, whatever further structure a theory gives to numbers. -/
@[default_instance 20000]
instance (priority := 20000) powNat {α : Type} [NatPow α] : Pow α Nat := instPowNat

/-- A number, by its bit pattern. NaN has a sign too. -/
structure Number where
  bits : UInt64
  deriving DecidableEq, Inhabited, Repr

namespace Number

/-- Whether the sign bit is set; zero has a sign too. -/
def isNegative (x : Number) : Bool := 2 ^ 63 ≤ x.bits.toNat

def field (x : Number) : Nat := x.bits.toNat / 2 ^ 52 % 2048

def fraction (x : Number) : Nat := x.bits.toNat % 2 ^ 52

def isFinite (x : Number) : Bool := x.field != 2047

def isNaN (x : Number) : Bool := x.field == 2047 && x.fraction != 0

def isZero (x : Number) : Bool := x.bits.toNat % 2 ^ 63 == 0

/-- The number with the given sign bit and the given bits below it. -/
def ofFields (negative : Bool) (magnitude : Nat) : Number :=
  ⟨((if negative then 2 ^ 63 else 0) + magnitude).toUInt64⟩

/-- The bits of infinity below its sign. Those of finite numbers are smaller. -/
def infinityBits : Nat := 2047 * 2 ^ 52

def infinity (negative : Bool) : Number := ofFields negative infinityBits

def nan (negative : Bool) : Number := ofFields negative (infinityBits + 2 ^ 51)

/-- The opposite number: adding the sign bit flips it. -/
instance : Neg Number := ⟨fun x => ⟨x.bits + 0x8000000000000000⟩⟩

/-- The number `mantissa * 2 ^ exponent`, negated if `negative`. -/
structure Parts where
  negative : Bool
  mantissa : Nat
  exponent : Int
  deriving DecidableEq, Repr

/-- The parts of a finite number. Infinities and NaN have none. -/
def parts? (x : Number) : Option Parts :=
  if x.field = 2047 then none
  else if x.field = 0 then some ⟨x.isNegative, x.fraction, -1074⟩
  else some ⟨x.isNegative, 2 ^ 52 + x.fraction, (x.field : Int) - 1075⟩

/-- The natural number nearest a quotient, a tie going to the even one. -/
def roundDiv (n d : Nat) : Nat :=
  let q := n / d
  let twice := 2 * (n % d)
  if d < twice ∨ (twice = d ∧ q % 2 = 1) then q + 1 else q

/-- The number nearest the given parts, a tie going to the even mantissa. The last place that the
mantissa can have decides; a mantissa that rounds up to the next power of two carries into the
exponent field by itself. -/
def round (p : Parts) : Number :=
  if p.mantissa = 0 then ofFields p.negative 0
  else
    let place := max (p.exponent + p.mantissa.log2 - 52) (-1074)
    let m :=
      if place ≤ p.exponent then p.mantissa * 2 ^ (p.exponent - place).toNat
      else roundDiv p.mantissa (2 ^ (place - p.exponent).toNat)
    ofFields p.negative (min ((place + 1074).toNat * 2 ^ 52 + m) infinityBits)

theorem bits_mod_eq (x : Number) : x.bits.toNat % 2 ^ 63 = x.field * 2 ^ 52 + x.fraction := by
  unfold field fraction
  omega

theorem ofFields_fields (x : Number) :
    ofFields x.isNegative (x.field * 2 ^ 52 + x.fraction) = x := by
  have hx := x.bits.toNat_lt
  have h : (if x.isNegative then 2 ^ 63 else 0) + x.bits.toNat % 2 ^ 63 = x.bits.toNat := by
    unfold isNegative
    by_cases h : 2 ^ 63 ≤ x.bits.toNat <;> simp only [h, decide_true, decide_false] <;>
      simp only [↓reduceIte, Bool.false_eq_true] <;> omega
  unfold ofFields
  rw [← bits_mod_eq, h]
  cases x
  simp

/-- A finite number is the one nearest its own parts. -/
theorem round_of_parts? {x : Number} {p : Parts} (h : x.parts? = some p) : round p = x := by
  have hx := ofFields_fields x
  have hfraction : x.fraction < 2 ^ 52 := Nat.mod_lt _ (by decide)
  have hfield : x.field < 2048 := Nat.mod_lt _ (by decide)
  unfold parts? at h
  split at h
  · cases h
  · split at h
    · next h₀ =>
      cases h
      rw [h₀] at hx
      by_cases hz : x.fraction = 0
      · simpa [round, hz] using hx
      · have hl : x.fraction.log2 < 52 := (Nat.log2_lt hz).2 hfraction
        have hp : max ((-1074 : Int) + x.fraction.log2 - 52) (-1074) = -1074 := by omega
        have hm : min ((-1074 + 1074 : Int).toNat * 2 ^ 52 +
            x.fraction * 2 ^ (-1074 - -1074 : Int).toNat) infinityBits
            = 0 * 2 ^ 52 + x.fraction := by
          simp [infinityBits]; omega
        simp only [round, hz, hp, ↓reduceIte, Int.le_refl]
        rw [hm, hx]
    · next h₁ h₀ =>
      cases h
      have hz : 2 ^ 52 + x.fraction ≠ 0 := by omega
      have hl : (2 ^ 52 + x.fraction).log2 = 52 := (Nat.log2_eq_iff hz).2 (by omega)
      have hp : max ((x.field : Int) - 1075 + (52 : Nat) - 52) (-1074) = x.field - 1075 := by
        omega
      have hm : min (((x.field : Int) - 1075 + 1074).toNat * 2 ^ 52 +
          (2 ^ 52 + x.fraction) * 2 ^ ((x.field : Int) - 1075 - (x.field - 1075)).toNat)
          infinityBits = x.field * 2 ^ 52 + x.fraction := by
        simp [infinityBits]; omega
      simp only [round, hz, hl, hp, ↓reduceIte, Int.le_refl]
      rw [hm, hx]

def ofNat (n : Nat) : Number := round ⟨false, n, 0⟩

def ofInt (n : Int) : Number := round ⟨n < 0, n.natAbs, 0⟩

instance (n : Nat) : OfNat Number n := ⟨ofNat n⟩

/-- The magnitude of a number as an integer, if it is one. -/
def Parts.magnitude? (p : Parts) : Option Nat :=
  if 0 ≤ p.exponent then some (p.mantissa * 2 ^ p.exponent.toNat)
  else
    let unit := 2 ^ (-p.exponent).toNat
    if p.mantissa % unit = 0 then some (p.mantissa / unit) else none

/-- The integer that a number is, if it is one. Both zeros are the integer zero. -/
def toInt? (x : Number) : Option Int := do
  let p ← parts? x
  let m ← p.magnitude?
  pure (if p.negative then -(m : Int) else m)

/-- The same number for float arithmetic, which does not tell one NaN from another. -/
def toFloat (x : Number) : Float := Float.ofBits x.bits

/-- The result of a float operation. Where an operation has none, the result is the negative
NaN. -/
def ofFloat (x : Float) : Number := if x.isNaN then nan true else ⟨x.toBits⟩

/-- A NaN with the top bit of its fraction set, which is how operations yield it. -/
def quieted (x : Number) : Number := ⟨x.bits ||| 0x8000000000000⟩

/-- A float operation on numbers. If an operand is NaN, the first such operand is the result. -/
def operate (f : Float → Float → Float) (x y : Number) : Number :=
  if x.isNaN then x.quieted
  else if y.isNaN then y.quieted
  else ofFloat (f x.toFloat y.toFloat)

instance : Add Number := ⟨operate (· + ·)⟩

instance : Sub Number := ⟨operate (· - ·)⟩

instance : Mul Number := ⟨operate (· * ·)⟩

instance : Div Number := ⟨operate (· / ·)⟩

/-- The remainder of truncated division, which keeps the sign of `x`. It is exact: a multiple of
the finer of the two units, and smaller than one of the operands. -/
def remainder (x y : Number) : Number :=
  if x.isNaN then x.quieted
  else if y.isNaN then y.quieted
  else match parts? x, parts? y with
    | some p, some d =>
      if d.mantissa = 0 then nan true
      else
        let unit := min p.exponent d.exponent
        let left := p.mantissa * 2 ^ (p.exponent - unit).toNat
        let right := d.mantissa * 2 ^ (d.exponent - unit).toNat
        round ⟨p.negative, left % right, unit⟩
    | some _, none => x
    | none, _ => nan true

instance : Mod Number := ⟨remainder⟩

/-- The place of a number in the order of all bit patterns: negative ones count down from zero. -/
def rank (x : Number) : Nat :=
  if 2 ^ 63 ≤ x.bits.toNat then 2 ^ 64 - 1 - x.bits.toNat else x.bits.toNat + 2 ^ 63

/-- The order of two numbers, if neither is NaN. The zeros are one number. -/
def compare? (x y : Number) : Option Ordering :=
  if x.isNaN || y.isNaN then none
  else if x.isZero && y.isZero then some .eq
  else some (compare x.rank y.rank)

theorem rank_lt (x : Number) : x.rank < 2 ^ 64 := by
  have hx := x.bits.toNat_lt
  unfold rank
  split <;> omega

/-- Numbers are close when they are at most two steps apart in rank, on a circle where the least
rank follows the greatest. The zeros are one step apart, and NaN is close to itself. -/
def close (x y : Number) : Bool := (x.rank + 2 ^ 64 + 2 - y.rank) % 2 ^ 64 ≤ 4

theorem close_iff {x y : Number} :
    x.close y = true ↔ (x.rank + 2 ^ 64 + 2 - y.rank) % 2 ^ 64 ≤ 4 := by
  simp [close]

@[simp] theorem close_self (x : Number) : x.close x = true := by
  have := x.rank_lt
  rw [close_iff]
  omega

theorem close_comm (x y : Number) : x.close y = y.close x := by
  have hx := x.rank_lt
  have hy := y.rank_lt
  rw [Bool.eq_iff_iff, close_iff, close_iff]
  omega

theorem rank_of_isZero {x : Number} (h : x.isZero = true) :
    x.rank = 2 ^ 63 ∨ x.rank = 2 ^ 63 - 1 := by
  have hx := x.bits.toNat_lt
  simp only [isZero, beq_iff_eq] at h
  unfold rank
  split <;> omega

theorem close_of_compare? {x y : Number} (h : x.compare? y = some .eq) : x.close y = true := by
  unfold compare? at h
  split at h
  · cases h
  · split at h
    · next hz =>
      rw [Bool.and_eq_true] at hz
      have hx := rank_of_isZero hz.1
      have hy := rank_of_isZero hz.2
      rw [close_iff]
      omega
    · have hr : x.rank = y.rank := by simpa using h
      have := y.rank_lt
      rw [close_iff, hr]
      omega

end Number
end Stencil
