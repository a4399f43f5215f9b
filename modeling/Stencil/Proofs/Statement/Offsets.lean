import Mathlib.Data.Nat.PSub
import Stencil.Proofs.Text.Slice
import Stencil.Proofs.Statement.RegionBytes
import Stencil.Proofs.Statement.Grammar

namespace Stencil

/-- An escape without its opening and closing, by the offset of its opening. -/
def Escape.unwrapAt? (document : Text) (index : Nat) :
    Option (Except SyntaxError (Text × Nat)) := do
  let start := index + opening.size
  let behind ← Text.from? document start
  match Text.cutText? closing behind with
  | none => pure (.error (.loneEscape index))
  | some (inside, _) =>
    let close := start + inside.size
    let interior ← Text.slice? document start close
    let _capacity ← (document.size.psub opening.size).bind (·.psub closing.size)
    let before ← Text.upTo? document index
    let after ← Text.from? document (close + closing.size)
    pure (.ok (before ++ interior ++ after, interior.size))

theorem Escape.unwrap_append (front t : Text) :
    unwrap (front ++ opening ++ t) front.size =
      match interior? t with
      | some (inside, rest) => .ok (front ++ inside ++ rest, inside.size)
      | none => .error (.loneEscape front.size) := by
  have hstart := Text.splitAt?_append (front ++ opening) t
  have hindex := Text.splitAt?_append front (opening ++ t)
  rw [Text.size_append] at hstart
  rw [← List.append_assoc] at hindex
  cases hi : interior? t with
  | none => simp only [unwrap, hindex, hstart, hi]
  | some p => simp only [unwrap, hindex, hstart, hi]

/-- Wherever an escape opens, its slices are there. -/
theorem Escape.unwrapAt?_append (front t : Text) :
    unwrapAt? (front ++ opening ++ t) front.size =
      some (unwrap (front ++ opening ++ t) front.size) := by
  rw [unwrap_append]
  have hbehind : Text.from? (front ++ opening ++ t) (front.size + opening.size) = some t :=
    Text.from?_of_eq rfl (Text.size_append front opening).symm
  simp only [unwrapAt?, hbehind, Option.bind_eq_bind, Option.bind_some, interior?]
  cases hcut : Text.cutText? closing t with
  | none => rfl
  | some parts =>
    obtain ⟨inside, rest⟩ := parts
    have ht := Text.append_of_cutText? hcut
    have hinterior : Text.slice? (front ++ opening ++ t) (front.size + opening.size)
        (front.size + opening.size + inside.size) = some inside := by
      have hdocument : front ++ opening ++ t = front ++ opening ++ inside ++ (closing ++ rest) := by
        simp [ht]
      exact Text.slice?_of_eq hdocument (by simp) (by simp [Nat.add_assoc])
    have hcapacity : ((front ++ opening ++ t).size.psub opening.size).bind (·.psub closing.size) =
        some (front.size + inside.size + rest.size) := by
      have hopening : (Text.size (front ++ opening ++ t)).psub opening.size =
          some (front.size + inside.size + rest.size + closing.size) := by
        rw [Nat.psub_eq_some, ht]
        simp only [Text.size_append]
        omega
      rw [hopening, Option.bind_some, Nat.psub_eq_some]
    have hbefore : Text.upTo? (front ++ opening ++ t) front.size = some front :=
      Text.upTo?_of_eq (List.append_assoc ..) rfl
    have hafter : Text.from? (front ++ opening ++ t)
        (front.size + opening.size + inside.size + closing.size) = some rest := by
      have hdocument : front ++ opening ++ t = front ++ opening ++ inside ++ closing ++ rest := by
        simp [ht]
      exact Text.from?_of_eq hdocument (by simp [Nat.add_assoc])
    simp only [hinterior, hcapacity, hbefore, hafter, Option.bind_some]
    rfl

/-- The interior of the region that opens at an offset, and the offset behind the region. -/
def Pair.regionAt? (p : Pair) (document : Text) (start : Nat) : Option (Option (Text × Nat)) :=
  match p.regionEnd? document start with
  | none => pure none
  | some stop => do
    let interior ← Text.slice? document (start + 1) (← stop.psub 1)
    pure (some (interior, stop))

theorem Pair.regionAt?_append {p : Pair} (hp : p.Narrow) (hne : p.opener ≠ p.closer)
    (front t : Text) : p.regionAt? (front ++ t) front.size =
      some ((p.interior? t).map fun q => (q.1, Text.size (front ++ p.enclose q.1))) := by
  rw [regionAt?, regionEnd?_append hp]
  cases hi : p.interior? t with
  | none => rfl
  | some q =>
    obtain ⟨interior, rest⟩ := q
    obtain ⟨ht, -⟩ := Statement.eq_enclose_of_interior? hne hi
    have hlast : (Text.size (front ++ p.enclose interior)).psub 1 =
        some (Text.size (front ++ [p.opener] ++ interior)) := by
      rw [Nat.psub_eq_some]
      simp only [enclose, Text.size_append, Text.size_cons, Text.size_nil, hp.2]
      omega
    have hslice : Text.slice? (front ++ t) (front.size + 1)
        (Text.size (front ++ [p.opener] ++ interior)) = some interior := by
      have hdocument : front ++ t = front ++ [p.opener] ++ interior ++ p.closer :: rest := by
        simp [ht, enclose]
      exact Text.slice?_of_eq hdocument (by simp [hp.1]) rfl
    simp only [Option.map_some, hlast, hslice, Option.bind_eq_bind, Option.bind_some,
      Option.pure_def]

theorem Pair.braces_narrow : braces.Narrow := by decide

theorem Pair.parens_narrow : parens.Narrow := by decide

namespace Statement

/-- The blocks of a statement, by the offset of the first brace, and the offset behind them. -/
def blocksAt? (document keyword : Text) (parameters : Option Text) (brace : Nat) :
    Option (Except SyntaxError (Statement × Nat)) := do
  match ← Pair.braces.regionAt? document brace with
  | none => pure (.error .missingClosingBrace)
  | some (block, stop) =>
    let trailing ← Text.from? document stop
    if trailing.startsWith joinedElse then
      match ← Pair.braces.regionAt? document (stop + elseText.size) with
      | none => pure (.error .missingClosingBrace)
      | some (branch, stop) => pure (.ok (⟨keyword, parameters, block, some branch⟩, stop))
    else if keyword = "if".toList ∧ isDetachedElse trailing then
      pure (.error (.invalidConnective (parameters.getD [])))
    else
      pure (.ok (⟨keyword, parameters, block, none⟩, stop))

/-- A statement by the offset behind its marker, and the offset behind the statement. -/
def partsAt? (document : Text) (start : Nat) : Option (Except SyntaxError (Statement × Nat)) := do
  match ← Text.find? Pair.braces.opener document start with
  | none => pure (.error .missingOpeningBrace)
  | some firstBrace =>
    match (← Text.find? Pair.parens.opener document start).filter (· < firstBrace) with
    | none => blocksAt? document (← Text.slice? document start firstBrace) none firstBrace
    | some paren =>
      match ← Pair.parens.regionAt? document paren with
      | none => pure (.error .missingClosingParen)
      | some (parameters, parametersEnd) =>
        match ← Text.find? Pair.braces.opener document parametersEnd with
        | none => pure (.error .missingOpeningBrace)
        | some brace =>
          blocksAt? document (← Text.slice? document start paren) (some parameters) brace

def locateAt? (document : Text) (start : Nat) : Option (Except SyntaxError Located) := do
  let parts ← partsAt? document start
  pure (parts.map fun p => ⟨p.1, start - 1, start, p.2⟩)

variable {keyword : Text} {parameters : Option Text}

theorem blocksAt?_append (keyword : Text) (parameters : Option Text) (front t : Text) :
    blocksAt? (front ++ t) keyword parameters front.size =
      some ((readBlocks keyword parameters t).map fun p =>
        (p.1, Text.size (front ++ t) - p.2.size)) := by
  have hregion := Pair.regionAt?_append Pair.braces_narrow Pair.braces_ne
  rw [blocksAt?, hregion, readBlocks]
  cases hi : Pair.braces.interior? t with
  | none => rfl
  | some q =>
    obtain ⟨block, rest⟩ := q
    obtain ⟨rfl, -⟩ := eq_enclose_of_interior? Pair.braces_ne hi
    have htrailing : Text.from? (front ++ (Pair.braces.enclose block ++ rest))
        (Text.size (front ++ Pair.braces.enclose block)) = some rest :=
      Text.from?_of_eq (List.append_assoc ..).symm rfl
    simp only [Option.map_some, Option.bind_eq_bind, Option.bind_some, htrailing]
    by_cases hj : Text.startsWith rest joinedElse = true
    · obtain ⟨r, rfl⟩ := startsWith_joinedElse_iff.1 hj
      have hbranch :=
        hregion (front ++ Pair.braces.enclose block ++ elseText) (Pair.braces.opener :: r)
      rw [Text.size_append (front ++ _), List.append_assoc, List.append_assoc] at hbranch
      have hstrip := Text.strip?_append elseText (Pair.braces.opener :: r)
      simp only [if_pos hj, hbranch, readElse, hstrip, if_true, Option.bind_some]
      cases hb : Pair.braces.interior? (Pair.braces.opener :: r) with
      | none => rfl
      | some q =>
        obtain ⟨branch, rest⟩ := q
        obtain ⟨ht, -⟩ := eq_enclose_of_interior? Pair.braces_ne hb
        have hdocument :
            front ++ (Pair.braces.enclose block ++ (elseText ++ Pair.braces.opener :: r)) =
              front ++ Pair.braces.enclose block ++ elseText ++ Pair.braces.enclose branch ++
                rest := by
          simp [ht]
        have hstop := Text.size_sub_of_eq hdocument
        simp only [Option.map_some, Except.map, hstop]
        rfl
    · rw [if_neg hj, readElse_of_not_joined hj, readElse.refuseDetached]
      split
      · rfl
      · have hstop := Text.size_sub_of_eq
          (List.append_assoc front (Pair.braces.enclose block) rest).symm
        simp only [Except.map, hstop]
        rfl

/-- Wherever the text behind an offset is read, the slices of its parts are there. -/
theorem partsAt?_append (front t : Text) :
    partsAt? (front ++ t) front.size =
      some ((read t).map fun p => (p.1, Text.size (front ++ t) - p.2.size)) := by
  have hbrace := Text.find?_of_eq Pair.braces.opener (rfl : front ++ t = front ++ t) rfl
  have hparen := Text.find?_of_eq Pair.parens.opener (rfl : front ++ t = front ++ t) rfl
  rw [partsAt?, hbrace, hparen, read]
  cases hb : Text.cutAt? Pair.braces.opener t with
  | none => rfl
  | some cut =>
    obtain ⟨head, behind⟩ := cut
    obtain ⟨ht, hhead⟩ := Text.append_of_cutAt? hb
    simp only [Option.map_some, Option.bind_eq_bind, Option.bind_some, Text.filter_cutAt? hb]
    cases hp : Text.cutAt? Pair.parens.opener head with
    | none =>
      have hdocument : front ++ t = front ++ head ++ Pair.braces.opener :: behind := by simp [ht]
      have hkeyword := Text.slice?_of_eq hdocument rfl rfl
      simp only [Option.map_none, hkeyword, Option.bind_some]
      rw [hdocument, blocksAt?_append]
    | some cut =>
      obtain ⟨keyword, x⟩ := cut
      obtain ⟨rfl, -⟩ := Text.append_of_cutAt? hp
      let inner := Pair.parens.opener :: (x ++ Pair.braces.opener :: behind)
      have ht' : t = keyword ++ inner := by simp [ht, inner]
      have hdrop : t.drop keyword.length = inner := by rw [ht', List.drop_left]
      have hregion :=
        Pair.regionAt?_append Pair.parens_narrow Pair.parens_ne (front ++ keyword) inner
      rw [List.append_assoc, ← ht'] at hregion
      simp only [Option.map_some, hregion, hdrop, Option.bind_some]
      cases hi : Pair.parens.interior? inner with
      | none => rfl
      | some q =>
        obtain ⟨parameters, rest⟩ := q
        obtain ⟨hinner, -⟩ := eq_enclose_of_interior? Pair.parens_ne hi
        have hdocument : front ++ t =
            front ++ keyword ++ Pair.parens.enclose parameters ++ rest := by
          simp [ht', hinner]
        -- The first brace may be one of the parameters, so the one behind them counts.
        have hgap := Text.find?_of_eq Pair.braces.opener hdocument rfl
        simp only [Option.map_some, hgap, Option.bind_some]
        cases hg : Text.cutAt? Pair.braces.opener rest with
        | none => rfl
        | some cut =>
          obtain ⟨gap, behind'⟩ := cut
          obtain ⟨rfl, -⟩ := Text.append_of_cutAt? hg
          have hkeyword : Text.slice? (front ++ t) front.size (Text.size (front ++ keyword)) =
              some keyword :=
            Text.slice?_of_eq (by rw [ht', List.append_assoc]) rfl rfl
          simp only [Option.map_some, hkeyword, Option.bind_some]
          rw [hdocument, ← List.append_assoc, blocksAt?_append]

theorem locateAt?_append (front t : Text) :
    locateAt? (front ++ t) front.size = some (locate (front ++ t) front.size) := by
  rw [locateAt?, partsAt?_append, locate_append]
  simp only [Option.bind_eq_bind, Option.bind_some, Option.pure_def]
  cases read t <;> rfl

/-- Inside a character there is no statement and no error either. -/
example : locateAt? "é\x7ba\x7d".toList 1 = none := rfl

end Statement

end Stencil
