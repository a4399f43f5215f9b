import Stencil.Proofs.Project.LoadScope
import Stencil.Proofs.Value.Data

namespace Stencil

/-- A text is a tree of data in a format. The trees of YAML are those of JSON. -/
inductive DataFormat.Writes (d : Data) (t : Text) : DataFormat → Prop
  | json : Json.parse? t = some (d.write .json) → Writes d t .json
  | toml : ((Toml.parse? t).bind Toml.entriesWithDates?).map Toml.table = some (d.write .toml) →
      Writes d t .toml
  | yaml : Yaml.parse? t = some (d.write .json) → Writes d t .yaml

theorem DataFormat.Writes.read? {d : Data} {t : Text} {f : DataFormat} (h : f.Writes d t) :
    f.read? t = some (d.write .value) := by
  cases h with
  | json hparse => rw [DataFormat.read?, hparse, Option.map_some, Value.ofJson_write]
  | toml hparse =>
    obtain ⟨entries, hentries, htable⟩ := Option.map_eq_some_iff.1 hparse
    rw [DataFormat.read?, hentries, Option.map_some, htable, Value.ofToml_write]
  | yaml hparse => rw [DataFormat.read?, hparse, Option.map_some, Value.ofJson_write]

namespace Config

variable {c c' : Config} {files files' : Files} {name : Text}

/-- The file under a name stops the scope. -/
def Fails (c : Config) (files : Files) (name : Text) (err : ProjectError) : Prop :=
  ∃ source, c.data.find? name = some source ∧ source.load files = .error err

/-- The value under a name, if there is a scope. -/
def Binds (c : Config) (files : Files) (name : Text) (v : Value) : Prop :=
  (∃ value, c.scope.find? name = some value ∧ .ofToml value = v) ∨
    c.scope.find? name = none ∧ ∃ source, c.data.find? name = some source ∧ source.Reads files v

theorem Fails.unique {err err' : ProjectError} (h : c.Fails files name err)
    (h' : c.Fails files name err') : err = err' := by
  obtain ⟨source, hsource, hload⟩ := h
  obtain ⟨source', hsource', hload'⟩ := h'
  obtain rfl := Option.some.inj (hsource.symm.trans hsource')
  exact Except.error.inj (hload.symm.trans hload')

/-- The names of data are loaded in order, up to the one that fails. -/
theorem exists_failing_name {data : Bindings DataSource} (hdata : data.Ordered) {scope : Scope}
    {err : ProjectError} (h : loadData files data scope = .error err) :
    ∃ name source, data.find? name = some source ∧ source.load files = .error err ∧
      ∀ other < name, ∀ source, data.find? other = some source →
        ∃ v, source.load files = .ok v := by
  induction data generalizing scope with
  | nil => cases h
  | cons e data ih =>
    obtain ⟨hhead, htail⟩ := List.pairwise_cons.1 hdata
    rw [loadData] at h
    cases hload : e.2.load files with
    | error err' =>
      rw [hload] at h
      obtain rfl := Except.error.inj h
      refine ⟨e.1, e.2, if_pos rfl, hload, fun other hlt source hsource => ?_⟩
      have hne : e.1 ≠ other := fun he => List.lt_irrefl other (he ▸ hlt)
      have hnone : Bindings.find? data other = none :=
        Bindings.find?_eq_none_of_lt fun f hf => List.lt_trans hlt (hhead f hf)
      rw [Bindings.find?, if_neg hne, hnone] at hsource
      cases hsource
    | ok v =>
      rw [hload] at h
      obtain ⟨name, source, hsource, herr, hall⟩ := ih htail h
      have hlt : e.1 < name := hhead _ (Bindings.mem_of_find? hsource)
      have hne : e.1 ≠ name := fun he => List.lt_irrefl name (he ▸ hlt)
      refine ⟨name, source, (if_neg hne).trans hsource, herr, fun other hother source hs => ?_⟩
      by_cases he : e.1 = other
      · rw [Bindings.find?, if_pos he] at hs
        exact ⟨v, Option.some.inj hs ▸ hload⟩
      · rw [Bindings.find?, if_neg he] at hs
        exact hall other hother source hs

theorem fails_of_loadScope_eq_error {err : ProjectError} (h : c.loadScope files = .error err) :
    ∃ name, c.Fails files name err ∧ ∀ other < name, ∀ err', ¬ c.Fails files other err' := by
  obtain ⟨name, source, hsource, herr, hall⟩ :=
    exists_failing_name c.dataOrdered (loadScope_eq_error_iff.1 h)
  refine ⟨name, ⟨source, hsource, herr⟩, ?_⟩
  rintro other hlt err' ⟨source', hsource', herr'⟩
  obtain ⟨v, hv⟩ := hall other hlt source' hsource'
  cases hv.symm.trans herr'

theorem not_fails_of_loadScope_eq_ok {scope : Scope} (h : c.loadScope files = .ok scope)
    {err : ProjectError} : ¬ c.Fails files name err := by
  rintro ⟨source, hsource, herr⟩
  obtain ⟨v, hv⟩ := exists_loadScope_iff.1 ⟨scope, h⟩ _ (Bindings.mem_of_find? hsource)
  cases (DataSource.load_eq_ok_iff.2 hv).symm.trans herr

/-- A scope is settled by which names fail and what each is bound to. -/
theorem loadScope_congr (hfails : ∀ name err, c.Fails files name err ↔ c'.Fails files' name err)
    (hbinds : ∀ name v, c.Binds files name v ↔ c'.Binds files' name v) :
    c.loadScope files = c'.loadScope files' := by
  cases h : c.loadScope files with
  | ok scope =>
    cases h' : c'.loadScope files' with
    | ok scope' =>
      refine congrArg Except.ok (Scope.ext_find? fun name => Option.ext fun v => ?_)
      exact (find?_loadScope h name v).trans
        ((hbinds name v).trans (find?_loadScope h' name v).symm)
    | error err =>
      obtain ⟨name, hname, -⟩ := fails_of_loadScope_eq_error h'
      exact absurd ((hfails name err).2 hname) (not_fails_of_loadScope_eq_ok h)
  | error err =>
    obtain ⟨name, hname, hfirst⟩ := fails_of_loadScope_eq_error h
    cases h' : c'.loadScope files' with
    | ok scope' => exact absurd ((hfails name err).1 hname) (not_fails_of_loadScope_eq_ok h')
    | error err' =>
      obtain ⟨name', hname', hfirst'⟩ := fails_of_loadScope_eq_error h'
      rcases Std.lt_trichotomy name name' with hlt | rfl | hlt
      · exact absurd ((hfails name err).1 hname) (hfirst' name hlt err)
      · exact congrArg Except.error (((hfails name err).1 hname).unique hname')
      · exact absurd ((hfails name' err').2 hname') (hfirst name' hlt err')

/-- The value under a name is data, which a file or the config itself says. -/
inductive Holds (c : Config) (files : Files) (name : Text) (d : Data) : Prop
  | file {source : DataSource} {f : DataFormat} {t : Text} (data : c.data.find? name = some source)
    (scope : c.scope.find? name = none) (format : DataFormat.ofText? source.format = some f)
    (text : files.read? source.path = some t) (writes : f.Writes d t)
  | inline (data : c.data.find? name = none) (scope : c.scope.find? name = some (d.write .toml))

/-- Two configs say the same under a name, and a file there is the same. -/
structure Shares (c : Config) (files : Files) (c' : Config) (files' : Files) (name : Text) :
    Prop where
  scope : c.scope.find? name = c'.scope.find? name
  data : c.data.find? name = c'.data.find? name
  file : ∀ source, c.data.find? name = some source →
    files.read? source.path = files'.read? source.path

/-- Data was moved, under whatever names, and nothing else was changed. -/
def Relocated (c : Config) (files : Files) (c' : Config) (files' : Files) : Prop :=
  ∀ name, c.Shares files c' files' name ∨ ∃ d, c.Holds files name d ∧ c'.Holds files' name d

theorem Holds.not_fails {d : Data} (h : c.Holds files name d) {err : ProjectError} :
    ¬ c.Fails files name err := by
  rintro ⟨source, hsource, herr⟩
  cases h with
  | file data scope format text writes =>
    obtain rfl := Option.some.inj (data.symm.trans hsource)
    have hread := DataSource.load_eq_ok_iff.2
      (DataSource.reads_iff.2 ⟨_, _, text, format, writes.read?⟩)
    cases hread.symm.trans herr
  | inline data scope => cases data.symm.trans hsource

theorem Holds.binds_iff {d : Data} (h : c.Holds files name d) {v : Value} :
    c.Binds files name v ↔ d.write .value = v := by
  unfold Binds
  cases h with
  | file data scope format text writes =>
    have hread := DataSource.load_eq_ok_iff.2
      (DataSource.reads_iff.2 ⟨_, _, text, format, writes.read?⟩)
    simp [data, scope, ← DataSource.load_eq_ok_iff, hread]
  | inline data scope => simp [scope, Value.ofToml_write]

theorem Shares.load_eq {source : DataSource} (h : c.Shares files c' files' name)
    (hsource : c.data.find? name = some source) : source.load files = source.load files' := by
  unfold DataSource.load
  rw [h.file source hsource]

theorem Shares.fails_iff (h : c.Shares files c' files' name) {err : ProjectError} :
    c.Fails files name err ↔ c'.Fails files' name err := by
  unfold Fails
  rw [← h.data]
  refine exists_congr fun source => and_congr_right fun hsource => ?_
  rw [h.load_eq hsource]

theorem Shares.binds_iff (h : c.Shares files c' files' name) {v : Value} :
    c.Binds files name v ↔ c'.Binds files' name v := by
  unfold Binds
  rw [← h.data, ← h.scope]
  refine or_congr_right (and_congr_right fun _ => exists_congr fun source => ?_)
  refine and_congr_right fun hsource => ?_
  rw [← DataSource.load_eq_ok_iff, ← DataSource.load_eq_ok_iff, h.load_eq hsource]

theorem Holds.relocated {d : Data} (h : c.Holds files name d) (h' : c'.Holds files' name d)
    (hother : ∀ other, other ≠ name → c.Shares files c' files' other) :
    c.Relocated files c' files' := by
  intro other
  by_cases hname : other = name
  · exact .inr ⟨d, hname ▸ h, hname ▸ h'⟩
  · exact .inl (hother other hname)

theorem Relocated.loadScope_eq (h : c.Relocated files c' files') :
    c.loadScope files = c'.loadScope files' := by
  refine loadScope_congr (fun name err => ?_) fun name v => ?_
  · rcases h name with hshares | ⟨d, hd, hd'⟩
    · exact hshares.fails_iff
    · exact iff_of_false hd.not_fails hd'.not_fails
  · rcases h name with hshares | ⟨d, hd, hd'⟩
    · exact hshares.binds_iff
    · exact hd.binds_iff.trans hd'.binds_iff.symm

end Config
end Stencil
