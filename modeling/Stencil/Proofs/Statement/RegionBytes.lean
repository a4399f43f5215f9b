import Stencil.Proofs.Statement.Written
import Stencil.Proofs.Text.Bytes

namespace Stencil

namespace Pair

/-- The characters of a pair are single bytes. -/
def Narrow (p : Pair) : Prop := p.opener.utf8Size = 1 ∧ p.closer.utf8Size = 1

instance (p : Pair) : Decidable p.Narrow := inferInstanceAs (Decidable (_ ∧ _))

/-- The offset behind the byte that closes one region more than `d` inner ones, in bytes that begin
at `offset`. -/
def closeByte? (p : Pair) : Nat → Nat → List UInt8 → Option Nat
  | _, _, [] => none
  | d, offset, b :: bs =>
    if b = p.opener.toUInt8 then closeByte? p (d + 1) (offset + 1) bs
    else if b = p.closer.toUInt8 then
      match d with
      | 0 => some (offset + 1)
      | d + 1 => closeByte? p d (offset + 1) bs
    else closeByte? p d (offset + 1) bs

/-- The byte offset behind the region that opens at `start`, by its bytes. -/
def regionEnd? (p : Pair) (document : Text) (start : Nat) : Option Nat :=
  let bytes := Text.bytes document
  if bytes[start]? = some p.opener.toUInt8 then
    p.closeByte? 0 (start + 1) (bytes.drop (start + 1))
  else none

variable {p : Pair}

theorem closeByte?_append {a : List UInt8} (ho : p.opener.toUInt8 ∉ a)
    (hc : p.closer.toUInt8 ∉ a) (d offset : Nat) (b : List UInt8) :
    p.closeByte? d offset (a ++ b) = p.closeByte? d (offset + a.length) b := by
  induction a generalizing offset with
  | nil => rfl
  | cons x a ih =>
    simp only [List.mem_cons, not_or] at ho hc
    have hskip : p.closeByte? d offset (x :: (a ++ b)) = p.closeByte? d (offset + 1) (a ++ b) := by
      simp [closeByte?, Ne.symm ho.1, Ne.symm hc.1]
    rw [List.cons_append, hskip, ih ho.2 hc.2, List.length_cons]
    congr 1
    omega

/-- The bytes close where the characters do. -/
theorem closeByte?_bytes (hp : p.Narrow) (d offset : Nat) (t : Text) :
    p.closeByte? d offset (Text.bytes t) =
      (p.close? d t).map fun q => offset + Text.size q.1 + 1 := by
  obtain ⟨ho, hc⟩ := hp
  induction t generalizing d offset with
  | nil => rfl
  | cons c t ih =>
    have hbytes : Text.bytes (c :: t) = String.utf8EncodeChar c ++ Text.bytes t := rfl
    have hmap : ∀ r : Option (Text × Text),
        ((r.map fun q => (c :: q.1, q.2)).map fun q => offset + Text.size q.1 + 1) =
          r.map fun q => offset + c.utf8Size + Text.size q.1 + 1 := by
      intro r
      cases r with
      | none => rfl
      | some q => simp [Nat.add_assoc]
    by_cases hco : c = p.opener
    · subst hco
      have hnext : p.close? d (p.opener :: t) =
          (p.close? (d + 1) t).map fun q => (p.opener :: q.1, q.2) := by
        simp [close?]
      rw [hbytes, Text.utf8EncodeChar_eq ho, hnext, hmap, ho, ← ih]
      simp [closeByte?]
    · have hopen : p.opener.toUInt8 ∉ String.utf8EncodeChar c :=
        mt (Text.toUInt8_mem_utf8EncodeChar_iff ho).1 hco
      by_cases hcc : c = p.closer
      · subst hcc
        rw [Text.utf8EncodeChar_eq hc, List.mem_singleton] at hopen
        rw [hbytes, Text.utf8EncodeChar_eq hc]
        cases d with
        | zero => simp [closeByte?, close?, hco, Ne.symm hopen]
        | succ d =>
          have hnext : p.close? (d + 1) (p.closer :: t) =
              (p.close? d t).map fun q => (p.closer :: q.1, q.2) := by
            simp [close?, hco]
          rw [hnext, hmap, hc, ← ih]
          simp [closeByte?, Ne.symm hopen]
      · have hclose : p.closer.toUInt8 ∉ String.utf8EncodeChar c :=
          mt (Text.toUInt8_mem_utf8EncodeChar_iff hc).1 hcc
        have hnext : p.close? d (c :: t) = (p.close? d t).map fun q => (c :: q.1, q.2) := by
          simp [close?, hco, hcc]
        rw [hbytes, closeByte?_append hopen hclose, String.length_utf8EncodeChar, ih, hnext, hmap]

/-- By bytes a region ends where it ends by characters. -/
theorem regionEnd?_append (hp : p.Narrow) (front t : Text) :
    p.regionEnd? (front ++ t) front.size =
      (p.interior? t).map fun q => Text.size (front ++ p.enclose q.1) := by
  have hat : (Text.bytes (front ++ t))[front.size]? = (Text.bytes t)[0]? := by
    rw [Text.bytes_append, ← Text.length_bytes, List.getElem?_append_right (Nat.le_refl _),
      Nat.sub_self]
  unfold regionEnd?
  dsimp only
  rw [hat]
  cases t with
  | nil => rfl
  | cons c t =>
    have hbytes : Text.bytes (c :: t) = String.utf8EncodeChar c ++ Text.bytes t := rfl
    by_cases hc : c = p.opener
    · subst hc
      rw [Text.utf8EncodeChar_eq hp.1] at hbytes
      have hdrop : (Text.bytes (front ++ p.opener :: t)).drop (front.size + 1) = Text.bytes t := by
        rw [Text.bytes_append, hbytes, ← List.append_assoc]
        exact List.drop_left' (by rw [List.length_append, Text.length_bytes]; rfl)
      have hfirst : (Text.bytes (p.opener :: t))[0]? = some p.opener.toUInt8 := by
        rw [hbytes]
        rfl
      rw [if_pos hfirst, hdrop, closeByte?_bytes hp, interior?, if_pos rfl]
      cases p.close? 0 t with
      | none => rfl
      | some q =>
        simp only [Option.map_some, enclose, Text.size_append, Text.size_cons, Text.size_nil, hp.1,
          hp.2]
        congr 1
        omega
    · -- The first byte of another character is none that counts.
      have hfirst : (Text.bytes (c :: t))[0]? ≠ some p.opener.toUInt8 := by
        intro h
        have hopen : p.opener.toUInt8 ∉ String.utf8EncodeChar c :=
          mt (Text.toUInt8_mem_utf8EncodeChar_iff hp.1).1 hc
        cases he : String.utf8EncodeChar c with
        | nil => exact String.utf8EncodeChar_ne_nil he
        | cons x l =>
          rw [hbytes, he] at h
          rw [he, ← Option.some.inj h] at hopen
          exact hopen List.mem_cons_self
      rw [if_neg hfirst, interior?, if_neg hc]
      rfl

end Pair
end Stencil
