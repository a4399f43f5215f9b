import Stencil.Proofs.Project.Source
import Stencil.Proofs.Scope.Overlay
import Stencil.Proofs.Text.Bytes

namespace Stencil

namespace DataSource

/-- The file of a source is text, which has the value in the format of the source. -/
def Reads (s : DataSource) (files : Files) (v : Value) : Prop :=
  ∃ path format t f, s.Gives path format ∧ files path = some (.text t) ∧
    format ∈ DataFormat.names f ∧ f.Reads t v

/-- What stops a source. Its format is asked for only once its file was read. -/
inductive FailsWith (s : DataSource) (files : Files) : ProjectError → Prop
  | unreadable (reason : String) {path format : Text} (hs : s.Gives path format)
      (hfile : ∀ t, files path ≠ some (.text t)) : FailsWith s files (.dataFile path reason)
  | malformed (reason : String) {path format t : Text} {f : DataFormat} (hs : s.Gives path format)
      (hfile : files path = some (.text t)) (hformat : format ∈ f.names)
      (hvalue : ∀ v, ¬ f.Reads t v) : FailsWith s files (.dataFile path reason)
  | unsupported {path format t : Text} (hs : s.Gives path format)
      (hfile : files path = some (.text t)) (hformat : ∀ f : DataFormat, format ∉ f.names) :
      FailsWith s files (.unsupportedFormat format)

variable {s : DataSource} {files : Files} {v : Value}

theorem read?_eq_some_iff {path t : Text} :
    files.read? path = some t ↔ files path = some (.text t) := by
  unfold Files.read?
  cases files path with
  | none => simp
  | some content => cases content <;> simp

theorem reads_iff : s.Reads files v ↔ ∃ t f, files.read? s.path = some t ∧
    DataFormat.ofText? s.format = some f ∧ f.read? t = some v := by
  simp only [← DataFormat.mem_names_iff, ← DataFormat.reads_iff, read?_eq_some_iff]
  constructor
  · rintro ⟨path, format, t, f, hs, h⟩
    obtain ⟨rfl, rfl⟩ := hs.eq
    exact ⟨t, f, h⟩
  · rintro ⟨t, f, h⟩
    exact ⟨s.path, s.format, t, f, s.gives, h⟩

theorem FailsWith.not_reads {e : ProjectError} (h : s.FailsWith files e) :
    ¬ ∃ v, s.Reads files v := by
  rintro ⟨v, path, format, t, f, hs, ht, hf, hv⟩
  obtain ⟨rfl, rfl⟩ := hs.eq
  cases h with
  | unreadable reason hs hfile =>
    obtain ⟨rfl, rfl⟩ := hs.eq
    exact hfile t ht
  | malformed reason hs hfile hformat hvalue =>
    obtain ⟨rfl, rfl⟩ := hs.eq
    cases hfile.symm.trans ht
    have hsame := (DataFormat.ofText?_of_mem_names hformat).symm.trans
      (DataFormat.ofText?_of_mem_names hf)
    cases hsame
    exact hvalue v hv
  | unsupported hs hfile hformat =>
    rw [hs.eq.2] at hformat
    exact hformat f hf

theorem load_cases (s : DataSource) (files : Files) :
    (∃ v, s.load files = .ok v ∧ s.Reads files v) ∨
      ∃ e, s.load files = .error e ∧ s.FailsWith files e := by
  unfold load
  cases ht : files.read? s.path with
  | none =>
    refine .inr ⟨_, rfl, .unreadable _ s.gives fun t h => ?_⟩
    cases ht.symm.trans (read?_eq_some_iff.2 h)
  | some t =>
    have hfile : files s.path = some (.text t) := read?_eq_some_iff.1 ht
    dsimp only
    unfold readData
    cases hf : DataFormat.ofText? s.format with
    | none =>
      refine .inr ⟨_, rfl, .unsupported s.gives hfile fun f h => ?_⟩
      cases hf.symm.trans (DataFormat.ofText?_of_mem_names h)
    | some f =>
      have hformat : s.format ∈ f.names := DataFormat.mem_names_of_ofText? hf
      dsimp only
      cases hv : f.read? t with
      | none =>
        refine .inr ⟨_, rfl, .malformed _ s.gives hfile hformat fun v h => ?_⟩
        cases hv.symm.trans (DataFormat.reads_iff.1 h)
      | some v =>
        exact .inl ⟨v, rfl, s.path, s.format, t, f, s.gives, hfile, hformat,
          DataFormat.reads_iff.2 hv⟩

theorem load_eq_ok_iff : s.load files = .ok v ↔ s.Reads files v := by
  constructor
  · intro h
    rcases load_cases s files with ⟨w, hw, hreads⟩ | ⟨e, he, -⟩
    · obtain rfl := Except.ok.inj (h.symm.trans hw)
      exact hreads
    · cases h.symm.trans he
  · intro h
    obtain ⟨t, f, ht, hf, hv⟩ := reads_iff.1 h
    simp [load, readData, ht, hf, hv]

theorem Reads.unique {w : Value} (h : s.Reads files v) (h' : s.Reads files w) : v = w :=
  Except.ok.inj ((load_eq_ok_iff.2 h).symm.trans (load_eq_ok_iff.2 h'))

theorem failsWith_of_load {e : ProjectError} (h : s.load files = .error e) :
    s.FailsWith files e := by
  rcases load_cases s files with ⟨v, hv, -⟩ | ⟨e', he', hfails⟩
  · cases h.symm.trans hv
  · obtain rfl := Except.error.inj (h.symm.trans he')
    exact hfails

end DataSource

namespace Config

variable {files : Files} {data : Bindings DataSource} {scope loaded : Scope}

/-- The first source that fails decides. -/
theorem loadData_cases (files : Files) (data : Bindings DataSource) (scope : Scope) :
    ((∀ e ∈ data, ∃ v, e.2.Reads files v) ∧ ∃ loaded, loadData files data scope = .ok loaded) ∨
      ∃ before e after err, data = before ++ e :: after ∧
        (∀ b ∈ before, ∃ v, b.2.Reads files v) ∧ e.2.FailsWith files err ∧
        loadData files data scope = .error err := by
  induction data generalizing scope with
  | nil => exact .inl ⟨by simp, scope, rfl⟩
  | cons e data ih =>
    rw [loadData]
    cases hload : e.2.load files with
    | error err =>
      exact .inr ⟨[], e, data, err, rfl, by simp, DataSource.failsWith_of_load hload, rfl⟩
    | ok v =>
      have hreads : ∃ v, e.2.Reads files v := ⟨v, DataSource.load_eq_ok_iff.1 hload⟩
      rcases ih (scope.insert e.1 v) with ⟨hall, hloaded⟩ | ⟨before, f, after, err, rfl, hall, hf⟩
      · exact .inl ⟨List.forall_mem_cons.2 ⟨hreads, hall⟩, hloaded⟩
      · exact .inr ⟨e :: before, f, after, err, rfl, List.forall_mem_cons.2 ⟨hreads, hall⟩, hf⟩

/-- Each name of the data is bound to what its source reads, and every other one as before. -/
theorem find?_loadData (hdata : data.Ordered) (h : loadData files data scope = .ok loaded)
    (name : Text) (v : Value) : loaded.find? name = some v ↔
      (∃ s, data.find? name = some s ∧ s.Reads files v) ∨
        data.find? name = none ∧ scope.find? name = some v := by
  induction data generalizing scope with
  | nil =>
    obtain rfl := Except.ok.inj h
    simp
  | cons e data ih =>
    have htail : Bindings.Ordered data := (List.pairwise_cons.1 hdata).2
    rw [loadData] at h
    cases hload : e.2.load files with
    | error err => simp [hload] at h
    | ok w =>
      simp only [hload] at h
      rw [ih htail h, Scope.find?_insert, Bindings.find?]
      by_cases he : e.1 = name
      · have hnone : Bindings.find? data name = none := he ▸ hdata.find?_tail
        simp [he, hnone, ← DataSource.load_eq_ok_iff, hload]
      · simp [he]

theorem find?_foldl_insert {values : Bindings Toml} (hvalues : values.Ordered) (scope : Scope)
    (name : Text) :
    (values.foldl (fun scope e => scope.insert e.1 (.ofToml e.2)) scope).find? name =
      ((values.find? name).map Value.ofToml).or (scope.find? name) := by
  induction values generalizing scope with
  | nil => simp
  | cons e values ih =>
    have htail : Bindings.Ordered values := (List.pairwise_cons.1 hvalues).2
    rw [List.foldl_cons, ih htail, Scope.find?_insert, Bindings.find?]
    by_cases he : e.1 = name
    · have hnone : Bindings.find? values name = none := he ▸ hvalues.find?_tail
      simp [he, hnone]
    · simp [he]

theorem loadScope_eq_ok_iff {c : Config} {scope : Scope} : c.loadScope files = .ok scope ↔
    ∃ loaded, loadData files c.data .empty = .ok loaded ∧
      scope = c.scope.foldl (fun scope e => scope.insert e.1 (.ofToml e.2)) loaded := by
  unfold loadScope
  cases loadData files c.data .empty with
  | error e => simp [Except.map]
  | ok loaded =>
    simp only [Except.map, Except.ok.injEq, exists_eq_left']
    exact eq_comm

theorem loadScope_eq_error_iff {c : Config} {e : ProjectError} :
    c.loadScope files = .error e ↔ loadData files c.data .empty = .error e := by
  unfold loadScope
  cases loadData files c.data .empty <;> simp [Except.map]

/-- A name is bound to its value in the config, or else to what its source reads. -/
theorem find?_loadScope {c : Config} {scope : Scope} (h : c.loadScope files = .ok scope)
    (name : Text) (v : Value) : scope.find? name = some v ↔
      (∃ value, c.scope.find? name = some value ∧ .ofToml value = v) ∨
        c.scope.find? name = none ∧ ∃ s, c.data.find? name = some s ∧ s.Reads files v := by
  obtain ⟨loaded, hloaded, rfl⟩ := loadScope_eq_ok_iff.1 h
  have hdata := find?_loadData c.dataOrdered hloaded name v
  rw [Scope.find?_empty] at hdata
  rw [find?_foldl_insert c.scopeOrdered]
  cases c.scope.find? name with
  | none => simp [hdata]
  | some value => simp

theorem exists_loadScope_iff {c : Config} :
    (∃ scope, c.loadScope files = .ok scope) ↔ ∀ e ∈ c.data, ∃ v, e.2.Reads files v := by
  have hloaded : (∃ scope, c.loadScope files = .ok scope) ↔
      ∃ loaded, loadData files c.data .empty = .ok loaded := by
    simp only [loadScope_eq_ok_iff]
    constructor
    · rintro ⟨_, loaded, hloaded, -⟩
      exact ⟨loaded, hloaded⟩
    · rintro ⟨loaded, hloaded⟩
      exact ⟨_, loaded, hloaded, rfl⟩
  rw [hloaded]
  rcases loadData_cases files c.data .empty with ⟨hall, hok⟩ | ⟨before, e, after, err, hdata, -, hf⟩
  · exact iff_of_true hok hall
  · apply iff_of_false
    · rintro ⟨loaded, hok⟩
      cases hok.symm.trans hf.2
    · intro hall
      have he : e ∈ c.data := hdata ▸ List.mem_append_cons_self
      exact hf.1.not_reads (hall e he)

theorem mem_names_loadScope {c : Config} {scope : Scope} (h : c.loadScope files = .ok scope)
    (name : Text) : name ∈ scope.names ↔ name ∈ c.data.names ∨ name ∈ c.scope.names := by
  have hnames : name ∈ scope.names ↔ ∃ v, scope.find? name = some v := Bindings.mem_names_iff
  rw [hnames, Bindings.mem_names_iff, Bindings.mem_names_iff]
  simp only [find?_loadScope h]
  constructor
  · rintro ⟨v, ⟨value, hvalue, -⟩ | ⟨-, source, hsource, -⟩⟩
    · exact .inr ⟨value, hvalue⟩
    · exact .inl ⟨source, hsource⟩
  · intro hname
    cases hvalue : c.scope.find? name with
    | some value => exact ⟨_, .inl ⟨value, rfl, rfl⟩⟩
    | none =>
      obtain ⟨source, hsource⟩ := hname.resolve_right (by simp [hvalue])
      obtain ⟨v, hv⟩ := exists_loadScope_iff.1 ⟨scope, h⟩ _ (Bindings.mem_of_find? hsource)
      exact ⟨v, .inr ⟨rfl, source, hsource, hv⟩⟩

/-- A name in front of a part of the data, by bytes, stands in front of that part. -/
theorem mem_of_bytes_lt {before after : Bindings DataSource} {e other : Text × DataSource}
    (hordered : Bindings.Ordered (before ++ e :: after)) (hother : other ∈ before ++ e :: after)
    (hlt : Text.bytes other.1 < Text.bytes e.1) : other ∈ before := by
  rw [Text.bytes_lt_bytes_iff] at hlt
  rcases List.mem_append.1 hother with hbefore | hrest
  · exact hbefore
  · rcases List.mem_cons.1 hrest with rfl | hafter
    · exact absurd hlt (List.lt_irrefl _)
    · have hgt : e.1 < other.1 :=
        (List.pairwise_cons.1 (List.pairwise_append.1 hordered).2.1).1 other hafter
      exact absurd (List.lt_trans hlt hgt) (List.lt_irrefl _)

/-- Every source has to be read, also a hidden one, and the first that fails gives the error. -/
theorem loadScope_ok_or_first_failure (c : Config) (files : Files) :
    ((∃ scope, c.loadScope files = .ok scope) ↔ ∀ e ∈ c.data, ∃ v, e.2.Reads files v) ∧
    (∀ scope, c.loadScope files = .ok scope → ∀ name,
      (name ∈ scope.names ↔ name ∈ c.data.names ∨ name ∈ c.scope.names) ∧
      (∀ value, (name, value) ∈ c.scope → scope.find? name = some (.ofToml value)) ∧
      ∀ source, (name, source) ∈ c.data → name ∉ c.scope.names →
        ∃ v, source.Reads files v ∧ scope.find? name = some v) ∧
    ∀ err, c.loadScope files = .error err →
      ∃ name source, (name, source) ∈ c.data ∧ source.FailsWith files err ∧
        ∀ other ∈ c.data, Text.bytes other.1 < Text.bytes name → ∃ v, other.2.Reads files v := by
  refine ⟨exists_loadScope_iff, fun scope h name => ⟨mem_names_loadScope h name, ?_, ?_⟩, ?_⟩
  · intro value hvalue
    rw [find?_loadScope h]
    exact .inl ⟨value, c.scopeOrdered.find?_of_mem hvalue, rfl⟩
  · intro source hsource hname
    obtain ⟨v, hv⟩ := exists_loadScope_iff.1 ⟨scope, h⟩ _ hsource
    have hnone : c.scope.find? name = none := by
      rw [Option.eq_none_iff_forall_ne_some]
      intro value hvalue
      exact hname (Bindings.mem_names_iff.2 ⟨value, hvalue⟩)
    have hfound : c.data.find? name = some source := c.dataOrdered.find?_of_mem hsource
    exact ⟨v, hv, (find?_loadScope h name v).2 (.inr ⟨hnone, source, hfound, hv⟩)⟩
  · intro err h
    rw [loadScope_eq_error_iff] at h
    rcases loadData_cases files c.data .empty with ⟨-, loaded, hok⟩ |
      ⟨before, e, after, err', hdata, hbefore, hfails, herr⟩
    · cases h.symm.trans hok
    · obtain rfl := Except.error.inj (h.symm.trans herr)
      have he : e ∈ c.data := hdata ▸ List.mem_append_cons_self
      refine ⟨e.1, e.2, he, hfails, fun other hother hlt => hbefore other ?_⟩
      have hordered := c.dataOrdered
      rw [hdata] at hordered hother
      exact mem_of_bytes_lt hordered hother hlt

/-- Of two names that fail the first is hidden by a value, which does not help. -/
theorem loadScope_ok_or_first_failure_entries :
    let files := Files.ofList [("d/a.JSON".toList, .text "[1]".toList), (['f'], .text ['x']),
      ("c.conf".toList, .text []), (['g'], .text ['['])]
    let data : Bindings DataSource := [(['a'], .plain "d/a.JSON".toList),
      (['b'], .typed ['f'] " Txt ".toList)]
    let c : Config := ⟨none, data, [(['b'], .boolean true)], by decide, by decide⟩
    let c' : Config := ⟨none, data ++ [(['c'], .plain "c.conf".toList),
      (['d'], .typed ['g'] "json".toList)], [(['c'], .boolean true)], by decide, by decide⟩
    (∃ scope, c.loadScope files = .ok scope ∧
      scope.find? ['a'] = some (.list [.number (.ofInt 1)]) ∧
      scope.find? ['b'] = some (.bool true)) ∧
    (DataSource.typed ['g'] "json".toList).FailsWith files (.dataFile ['g'] "") ∧
    c'.loadScope files = .error (.unsupportedFormat "conf".toList) := by
  intro files data c c'
  have ha : (DataSource.plain "d/a.JSON".toList).Reads files (.list [.number (.ofInt 1)]) :=
    ⟨_, _, _, .json, DataSource.gives _, rfl, by decide, DataFormat.reads_iff.2 rfl⟩
  have hb : (DataSource.typed ['f'] " Txt ".toList).Reads files (.string ['x']) :=
    ⟨_, _, _, .text, DataSource.gives _, rfl, by decide, .text⟩
  have hc : ∀ err, (DataSource.plain "c.conf".toList).FailsWith files err →
      err = .unsupportedFormat "conf".toList := by
    intro err h
    cases h with
    | unreadable reason hs hfile =>
      obtain ⟨rfl, rfl⟩ := hs.eq
      exact absurd rfl (hfile [])
    | malformed reason hs hfile hformat hvalue =>
      obtain ⟨rfl, rfl⟩ := hs.eq
      cases DataFormat.ofText?_of_mem_names hformat
    | unsupported hs hfile hformat => exact congrArg ProjectError.unsupportedFormat hs.eq.2
  have hconf : (DataSource.plain "c.conf".toList).FailsWith files
      (.unsupportedFormat "conf".toList) := by
    refine .unsupported (DataSource.gives _) (t := []) rfl fun f h => ?_
    cases DataFormat.ofText?_of_mem_names h
  have hd : (DataSource.typed ['g'] "json".toList).FailsWith files (.dataFile ['g'] "") := by
    refine .malformed "" (DataSource.gives _) (t := ['[']) rfl (f := .json) (by decide)
      fun v h => ?_
    cases DataFormat.reads_iff.1 h
  refine ⟨?_, hd, ?_⟩
  · obtain ⟨hok, hscope, -⟩ := loadScope_ok_or_first_failure c files
    have hall : ∀ e ∈ c.data, ∃ v, e.2.Reads files v := by
      intro e he
      simp only [c, data, List.mem_cons, List.not_mem_nil, or_false] at he
      rcases he with rfl | rfl
      · exact ⟨_, ha⟩
      · exact ⟨_, hb⟩
    obtain ⟨scope, h⟩ := hok.2 hall
    obtain ⟨v, hv, hfound⟩ := (hscope scope h ['a']).2.2 _ List.mem_cons_self (by decide)
    obtain rfl := hv.unique ha
    exact ⟨scope, h, hfound, (hscope scope h ['b']).2.1 (.boolean true) List.mem_cons_self⟩
  · obtain ⟨hok, -, herror⟩ := loadScope_ok_or_first_failure c' files
    cases h : c'.loadScope files with
    | ok scope =>
      have hreads := hok.1 ⟨scope, h⟩ (['d'], .typed ['g'] "json".toList) (by simp [c'])
      exact absurd hreads hd.not_reads
    | error err =>
      obtain ⟨name, source, hmem, hfails, hbefore⟩ := herror err h
      simp only [c', data, List.mem_append, List.mem_cons, List.not_mem_nil, or_false,
        Prod.mk.injEq] at hmem
      rcases hmem with (⟨-, rfl⟩ | ⟨-, rfl⟩) | ⟨-, rfl⟩ | ⟨rfl, rfl⟩
      · exact absurd ⟨_, ha⟩ hfails.not_reads
      · exact absurd ⟨_, hb⟩ hfails.not_reads
      · exact congrArg Except.error (hc err hfails)
      · have hfirst := hbefore (['c'], .plain "c.conf".toList) (by simp [c', data]) (by decide)
        exact absurd hfirst hconf.not_reads

end Config
end Stencil
