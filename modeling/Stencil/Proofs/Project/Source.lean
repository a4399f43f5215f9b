import Stencil.Project.Config
import Stencil.Proofs.Text.Trim

namespace Stencil

theorem Text.splitOn_eq (c : Char) (t : Text) : Text.splitOn c t = List.splitOn c t := by
  induction t with
  | nil => rfl
  | cons x t ih =>
    rw [List.splitOn_eq_splitOnP] at ih ⊢
    rw [List.splitOnP_cons_eq_if_modifyHead, Text.splitOn, ih]
    by_cases hx : x = c
    · simp [hx]
    · have hne : List.splitOnP (· == c) t ≠ [] := List.splitOnP_ne_nil _ _
      obtain ⟨p, ps, hp⟩ := List.exists_cons_of_ne_nil hne
      simp [hx, hp]

namespace Path

/-- What stands behind the last point of a file name, unless that is its first character. -/
inductive NameExtension : Text → Text → Prop
  | none {name : Text} (h : '.' ∉ name.tail) : NameExtension name []
  | some {stem extension : Text} (hstem : stem ≠ []) (h : '.' ∉ extension) :
      NameExtension (stem ++ '.' :: extension) extension

/-- The parts of a path that lead anywhere. -/
def steps (path : Text) : List Text :=
  (List.splitOn '/' path).filter fun part => part ≠ [] ∧ part ≠ ['.']

/-- The extension of the file that a path leads to. -/
inductive Extension (path : Text) : Text → Prop
  | named {name extension : Text} (hname : (steps path).getLast? = some name)
      (hup : name ≠ ['.', '.']) (h : NameExtension name extension) : Extension path extension
  | unnamed (h : ∀ name, (steps path).getLast? = some name → name = ['.', '.']) : Extension path []

theorem getLast?_splitOn_append {c : Char} {b : Text} (a : Text) (h : c ∉ b) :
    (List.splitOn c (a ++ c :: b)).getLast? = some b := by
  have hb : List.splitOnP (· == c) b = [b] := by
    rw [← List.splitOn_eq_splitOnP]
    exact List.splitOn_eq_singleton h
  rw [List.splitOn_eq_splitOnP, List.splitOnP_append_cons _ _ (by simp), hb, List.getLast?_append]
  rfl

theorem nameExtension_of_getLast? {name last : Text}
    (h : (List.splitOn '.' name).getLast? = some last) :
    nameExtension name = if name.length ≤ last.length + 1 then [] else last := by
  unfold nameExtension
  simp only [Text.splitOn_eq, h]

theorem NameExtension.eq {name extension : Text} (h : NameExtension name extension) :
    nameExtension name = extension := by
  cases h with
  | none h =>
    -- A point at the very front leaves nothing in front of it.
    by_cases hpoint : '.' ∈ name
    · obtain ⟨rest, rfl⟩ : ∃ rest, name = '.' :: rest := by
        cases name with
        | nil => simp at hpoint
        | cons c rest =>
          rcases List.mem_cons.1 hpoint with rfl | hrest
          · exact ⟨rest, rfl⟩
          · exact absurd hrest h
      have hlast : (List.splitOn '.' ('.' :: rest)).getLast? = .some rest :=
        getLast?_splitOn_append [] h
      rw [nameExtension_of_getLast? hlast]
      simp
    · have hlast : (List.splitOn '.' name).getLast? = .some name := by
        rw [List.splitOn_eq_singleton hpoint]
        rfl
      rw [nameExtension_of_getLast? hlast]
      simp
  | @some stem _ hstem h =>
    have hpos : 0 < stem.length := List.length_pos_iff.2 hstem
    rw [nameExtension_of_getLast? (getLast?_splitOn_append stem h), if_neg]
    simp
    omega

theorem exists_nameExtension (name : Text) : ∃ extension, NameExtension name extension := by
  by_cases h : '.' ∈ name.tail
  · obtain ⟨back, front, hname, hback⟩ := List.eq_append_cons_of_mem (List.mem_reverse.2 h)
    have htail : name.tail = front.reverse ++ '.' :: back.reverse := by
      rw [← List.reverse_inj, hname]
      simp
    cases name with
    | nil => simp at h
    | cons c name =>
      rw [List.tail_cons] at htail
      rw [htail, ← List.cons_append]
      exact ⟨_, .some (List.cons_ne_nil _ _) fun hpoint => hback (List.mem_reverse.1 hpoint)⟩
  · exact ⟨[], .none h⟩

theorem fileName?_eq (path : Text) :
    fileName? path = (steps path).getLast?.filter (· != ['.', '.']) := by
  have hsteps : (fun part : Text => !part.isEmpty && part != ['.']) =
      fun part => decide (part ≠ [] ∧ part ≠ ['.']) := by
    funext part
    rw [Bool.eq_iff_iff]
    simp
  unfold fileName? steps
  rw [Text.splitOn_eq, hsteps]

theorem exists_extension (path : Text) : ∃ extension, Extension path extension := by
  by_cases h : ∀ name, (steps path).getLast? = some name → name = ['.', '.']
  · exact ⟨[], .unnamed h⟩
  · simp only [Classical.not_forall] at h
    obtain ⟨name, hname, hup⟩ := h
    obtain ⟨extension, hextension⟩ := exists_nameExtension name
    exact ⟨extension, .named hname hup hextension⟩

theorem Extension.eq {path extension : Text} (h : Extension path extension) :
    fileExtension path = extension := by
  unfold fileExtension
  rw [fileName?_eq]
  cases h with
  | named hname hup h => simp [hname, Option.filter, hup, h.eq]
  | unnamed h =>
    cases hlast : (steps path).getLast? with
    | none => rfl
    | some name => simp [Option.filter, h name hlast]

end Path

namespace DataSource

/-- The file that a source names and its format, which is that of the extension unless it is
given. -/
inductive Gives : DataSource → Text → Text → Prop
  | plain {path extension : Text} (h : Path.Extension path extension) :
      Gives (.plain path) path (extension.map Char.toLower)
  | typed {path given core : Text} (h : given.Trims core) :
      Gives (.typed path given) path (core.map Char.toLower)

theorem Gives.eq {s : DataSource} {path format : Text} (h : s.Gives path format) :
    path = s.path ∧ format = s.format := by
  cases h with
  | plain h => exact ⟨rfl, congrArg (List.map Char.toLower) h.eq.symm⟩
  | typed h => exact ⟨rfl, congrArg (List.map Char.toLower) h.eq.symm⟩

theorem gives (s : DataSource) : s.Gives s.path s.format := by
  cases s with
  | plain path =>
    obtain ⟨extension, h⟩ := Path.exists_extension path
    have hgives := Gives.plain h
    rw [← h.eq] at hgives
    exact hgives
  | typed path given => exact .typed (Text.trims_trim given)

end DataSource

namespace DataFormat

/-- The names of a format. -/
def names : DataFormat → List Text
  | .text => ["text", "string", "raw", "txt"].map String.toList
  | .json => ["json".toList]
  | .toml => ["toml".toList]
  | .yaml => ["yaml", "yml"].map String.toList

/-- The value of a text in a format. -/
inductive Reads (t : Text) : DataFormat → Value → Prop
  | text : Reads t .text (.string t)
  | json {j : Json} (h : Json.parse? t = some j) : Reads t .json (.ofJson j)
  | toml {entries dated : List (Text × Toml)} (h : Toml.parse? t = some entries)
      (hdated : Toml.entriesWithDates? entries = some dated) :
      Reads t .toml (.ofToml (.table dated))
  | yaml {j : Json} (h : Yaml.parse? t = some j) : Reads t .yaml (.ofJson j)

variable {format t : Text} {f : DataFormat} {v : Value}

theorem ofText?_of_mem_names (h : format ∈ f.names) : ofText? format = some f := by
  cases f <;> simp only [names, List.map_cons, List.map_nil, List.mem_cons, List.not_mem_nil,
    or_false] at h
  · rcases h with rfl | rfl | rfl | rfl <;> decide
  · rw [h]; decide
  · rw [h]; decide
  · rcases h with rfl | rfl <;> decide

theorem mem_names_of_ofText? (h : ofText? format = some f) : format ∈ f.names := by
  unfold ofText? at h
  split at h
  · next htext =>
    cases h
    obtain ⟨name, hname, hformat⟩ := List.any_eq_true.1 htext
    exact List.mem_map.2 ⟨name, hname, (of_decide_eq_true hformat).symm⟩
  · split at h
    · next hjson =>
      cases h
      exact List.mem_singleton.2 hjson
    · split at h
      · next htoml =>
        cases h
        exact List.mem_singleton.2 htoml
      · split at h
        · next hyaml =>
          cases h
          rcases hyaml with hyaml | hyaml
          · exact List.mem_cons.2 (.inl hyaml)
          · exact List.mem_cons_of_mem _ (List.mem_singleton.2 hyaml)
        · cases h

theorem mem_names_iff : format ∈ f.names ↔ ofText? format = some f :=
  ⟨ofText?_of_mem_names, mem_names_of_ofText?⟩

theorem reads_iff : f.Reads t v ↔ f.read? t = some v := by
  constructor
  · intro h
    cases h with
    | text => rfl
    | json h => rw [read?, h, Option.map_some]
    | toml h hdated => rw [read?, h, Option.bind_some, hdated, Option.map_some]
    | yaml h => rw [read?, h, Option.map_some]
  · intro h
    cases f with
    | text =>
      cases h
      exact .text
    | json =>
      obtain ⟨j, hj, rfl⟩ := Option.map_eq_some_iff.1 h
      exact .json hj
    | toml =>
      obtain ⟨dated, hdated, rfl⟩ := Option.map_eq_some_iff.1 h
      obtain ⟨entries, hentries, hdated⟩ := Option.bind_eq_some_iff.1 hdated
      exact .toml hentries hdated
    | yaml =>
      obtain ⟨j, hj, rfl⟩ := Option.map_eq_some_iff.1 h
      exact .yaml hj

end DataFormat
end Stencil
