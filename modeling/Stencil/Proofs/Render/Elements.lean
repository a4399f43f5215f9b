import Stencil.Proofs.Expr.Access
import Stencil.Proofs.Number.Exact
import Stencil.Proofs.Render.Loop

namespace Stencil

def lengthText : Text := "length".toList

namespace Value

theorem position?_eq_some_iff {x : Number} {i : Nat} :
    position? x = some i ↔ x.value? = some (i : ℚ) := by
  have hcast : x.value? = some (i : ℚ) ↔ x.toInt? = some (i : Int) := by
    rw [Number.toInt?_eq_some_iff, Int.cast_natCast]
  rw [hcast]
  unfold position?
  cases x.toInt? with
  | none => simp
  | some n =>
    dsimp only
    split
    · simp only [Option.some.injEq]
      omega
    · simp only [reduceCtorEq, Option.some.injEq, false_iff]
      omega

theorem position?_of_misses {x : Number} (hx : x.Misses) : position? x = none := by
  rw [Option.eq_none_iff_forall_ne_some]
  intro i hi
  exact Number.misses_iff.1 hx i (position?_eq_some_iff.1 hi)

variable {v : Value} {es : List Value} (hes : v.elements? = some es)

include hes

theorem member?_length : v.member? lengthText = some (.ofNat es.length) := by
  have hlength : lengthText = "length".toList := rfl
  cases v <;> cases hes
  · rw [member?, if_pos hlength, List.length_map]
  · rw [member?, if_pos hlength]

theorem lookup?_string (name : Text) : v.lookup? (.string name) = v.member? name := by
  cases v <;> cases hes <;> rfl

/-- The positions of a string count its characters, as its elements do. -/
theorem lookup?_number (x : Number) :
    v.lookup? (.number x) = some (((position? x).bind (es[·]?)).getD .null) := by
  cases v <;> cases hes
  · cases hx : position? x <;> simp [lookup?, hx]
  · rfl

end Value

namespace Expr

variable {scope : Scope} {target position : Expr} {v : Value} {es : List Value}
  (htarget : target.eval? scope = some v) (hes : v.elements? = some es)

include htarget hes

theorem eval?_member_length :
    (member target lengthText).eval? scope = some (.ofNat es.length) := by
  rw [eval?, htarget]
  exact Value.member?_length hes

theorem eval?_index_length (hposition : position.eval? scope = some (.string lengthText)) :
    (index target position).eval? scope = some (.ofNat es.length) := by
  rw [eval?, htarget, hposition]
  exact (Value.lookup?_string hes lengthText).trans (Value.member?_length hes)

theorem eval?_index_number {x : Number} (hposition : position.eval? scope = some (.number x)) :
    (index target position).eval? scope =
      some (((Value.position? x).bind (es[·]?)).getD .null) := by
  rw [eval?, htarget, hposition]
  exact Value.lookup?_number hes x

theorem eval?_index_of_value? {x : Number} (hposition : position.eval? scope = some (.number x))
    {i : Nat} (hx : x.value? = some (i : ℚ)) :
    (index target position).eval? scope = some (es[i]?.getD .null) := by
  rw [eval?_index_number htarget hes hposition, Value.position?_eq_some_iff.2 hx]
  rfl

theorem eval?_index_of_misses {x : Number} (hposition : position.eval? scope = some (.number x))
    (hx : x.Misses) : (index target position).eval? scope = some .null := by
  rw [eval?_index_number htarget hes hposition, Value.position?_of_misses hx]
  rfl

end Expr

section

variable {scope : Scope} {name : Text} {v : Value} {es : List Value} (hname : Token.IsName name)
  (hident : Token.ofName name = .ident name) (hv : scope.find? name = some v)
  (hes : v.elements? = some es)

include hname hident hv hes

theorem evaluate?_name_length :
    evaluate? (name ++ '.' :: lengthText) scope = some (.ofNat es.length) := by
  have hlength : Token.IsName lengthText := by decide +kernel
  rw [evaluate?, Expr.parse_name_member hname hident hlength (by decide)]
  exact Expr.eval?_member_length hv hes

theorem evaluate?_atKey_length {q : Char} (hq : Literal.IsQuote q) :
    evaluate? (name.atKey q lengthText) scope = some (.ofNat es.length) := by
  rw [evaluate?, Expr.parse_name_key hname hident hq]
  exact Expr.eval?_index_length hv hes rfl

theorem evaluate?_atPosition {i : Nat} (hi : i < 2 ^ 53) :
    evaluate? (name.atPosition i) scope = some (es[i]?.getD .null) := by
  have htarget : (Expr.ident name).eval? scope = some v := hv
  rw [evaluate?, Expr.parse_name_position hname hident hi]
  exact Expr.eval?_index_of_value? htarget hes rfl (Number.value?_ofNat hi)

/-- One position after another gives the elements. -/
theorem map_evaluate?_atPosition (hlength : es.length ≤ 2 ^ 53) :
    (List.range es.length).map (fun i => evaluate? (name.atPosition i) scope) = es.map some := by
  apply List.ext_getElem
  · simp
  · intro i hi hi'
    have hlt : i < es.length := by simpa using hi'
    have hvalue := evaluate?_atPosition hname hident hv hes (Nat.lt_of_lt_of_le hlt hlength)
    simp only [List.getElem_map, List.getElem_range]
    rw [hvalue, List.getElem?_eq_getElem hlt]
    rfl

end

end Stencil
