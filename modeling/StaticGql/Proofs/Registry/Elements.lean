import StaticGql.Proofs.Graph.Declarations
import StaticGql.Proofs.Registry.Project

/-!
What comes out of a registry that has been brought to a project: for every declaration that produces an
element, an element of its kind.
-/

namespace StaticGql

/-- What a declaration evaluates to is of its kind. -/
theorem Declaration.kind_of_value {d : Declaration} {c : Context} {v : Value} (h : d.value c = .ok v) :
    v.kind = d.kind := by
  rw [value] at h
  cases hkind : d.kind with
  | define =>
      simp only [hkind] at h
      cases h
      rfl
  | model | slice | operation | fragment =>
      simp only [hkind] at h
      obtain ⟨e, -, rfl⟩ := map_eq_ok_iff.1 h
      rfl

theorem Value.exists_element {v : Value} (h : v.kind.producesElement = true) :
    ∃ e, v.element? = some e ∧ e.kind = v.kind := by
  cases v with
  | element e => exact ⟨e, rfl, rfl⟩
  | define metadata => cases h

namespace Registry

variable {modules : Dict ModuleDefinition} {file : String} {m : ModuleDefinition}

/-- One of these modules. -/
def IsOne (modules : Dict ModuleDefinition) (m : ModuleDefinition) : Prop :=
  ∃ file, modules.get? file = some m

theorem told_isOne (hfile : ∀ {file m}, modules.get? file = some m → m.file = file)
    (hstatic : ∀ {file m}, modules.get? file = some m → ∀ d ∈ m.elements, Factory.IsStatic d.factory) :
    Told (IsOne modules) := by
  rintro m m' ⟨file, hm⟩ ⟨file', hm'⟩ hsame -
  rw [← hfile hm, hsame, hfile hm', hm', Option.some.injEq] at hm
  subst hm
  rw [List.forall₂_same]
  exact fun d hd => ⟨rfl, rfl, rfl, hstatic hm' d hd⟩

/-- After an evaluation that goes through, the factory of every element has given its value. -/
theorem exists_value (scheduler : Scheduler) (hp : IsProject (IsOne modules) modules)
    (hstatic : ∀ {file m}, modules.get? file = some m → ∀ d ∈ m.elements, Factory.IsStatic d.factory)
    {n : Nat} (hok : (empty.bring scheduler modules).1 = .ok (.ok n)) (hm : modules.get? file = some m)
    {d : Definition} (hd : d ∈ m.elements) : ∃ e c v,
      Registry.entry? (empty.bring scheduler modules).2 d.id = some e ∧ e.kind = d.kind ∧
        e.value = some v ∧ d.factory c = .ready (.ok v) := by
  have hU := told_isOne hp.file hstatic
  obtain ⟨r, hr, hbring⟩ := bring_eq scheduler hU hp (.empty _)
  rw [hbring, Except.ok.injEq] at hok
  obtain ⟨hcoherent, hgrows, hevaluated⟩ :=
    evaluatePending_spec scheduler hr.settled.coherent (hr.static hU hp)
  rw [hok] at hevaluated
  rw [hbring]
  obtain ⟨m', hm', -⟩ := hr.exists_module hU hp hm
  have hsame : m'.definition = m := by
    obtain ⟨file', hm''⟩ := hr.settled.known hm'
    rw [← hp.file hm'', hr.settled.placed hm', hm, Option.some.injEq] at hm''
    exact hm''.symm
  obtain ⟨v₀, hentry⟩ := hr.settled.filed.exists_entry hm' (hr.complete hm') (hsame ▸ hd)
  obtain ⟨v₁, hentry⟩ := entry?_of_blank hgrows.blank.symm hentry
  obtain ⟨v, hv⟩ := hevaluated hentry
  obtain ⟨e, c, he, -, hfactory⟩ := hcoherent.holds hv
  obtain ⟨e', he', hvalue⟩ := value?_eq_some_iff.1 hv
  rw [hentry, Option.some.injEq] at he he'
  subst he he'
  exact ⟨_, c, v, hentry, rfl, hvalue, hfactory⟩

end Registry

/-! ### Elements of a project -/

namespace Project

variable {mode : IdMode} {p : Project mode} {modules : Dict ModuleDefinition} {file : String}
  {a : Analysis} {m : ModuleDefinition}

theorem static_of_modules (h : p.modules = .ok modules) (hm : modules.get? file = some m) :
    ∀ d ∈ m.elements, Factory.IsStatic d.factory := by
  obtain ⟨-, file', a, -, hm⟩ := ModuleDefinition.get?_ofAnalyses h hm
  obtain ⟨-, -, helements, -⟩ := ModuleDefinition.ofAnalysis_spec hm
  rw [helements]
  rintro _ hd
  obtain ⟨d, -, rfl⟩ := List.mem_map.1 hd
  exact (Declaration.definition_alike (.refl d)).factory

/-- Under the key of a file there is its module, or that of another file with this key. -/
theorem exists_module (h : p.modules = .ok modules) (ha : p.analyses.get? file = some a) :
    ∃ file' a' m, p.analyses.get? file' = some a' ∧
      CanonicalId.fileKey mode file' = CanonicalId.fileKey mode file ∧ modules.get? m.file = some m ∧
        m.elements = (p.graph.declarationsIn file').map (·.definition) := by
  obtain ⟨l, hl, hmodules⟩ := bind_eq_ok_iff.1 h
  obtain ⟨m, hm, hfile⟩ := exists_of_forall₂ (mapM_eq_ok_iff.1 hl) (Dict.mem_toList_iff.2 ha)
  obtain ⟨hkey, -⟩ := ModuleDefinition.ofAnalysis_spec hfile
  cases hmodules
  have hsome : ((Dict.ofList (l.map fun m => (m.file, m))).get? m.file).isSome = true := by
    apply Dict.isSome_get?_ofList.2
    simp only [List.map_map]
    exact List.mem_map_of_mem (f := fun m => m.file) hm
  obtain ⟨m', hm'⟩ := Option.isSome_iff_exists.1 hsome
  obtain ⟨hfile', file', a', ha', h'⟩ := ModuleDefinition.get?_ofAnalyses h hm'
  obtain ⟨hkey', -, helements, -⟩ := ModuleDefinition.ofAnalysis_spec h'
  refine ⟨file', a', m', ha', ?_, hfile'.symm ▸ hm', helements⟩
  rw [hkey, hkey', hfile']

/-- No other file of the project has the key of this one. -/
def Alone (p : Project mode) (file : String) : Prop :=
  ∀ file' a', p.analyses.get? file' = some a' →
    CanonicalId.fileKey mode file' = CanonicalId.fileKey mode file → file' = file

theorem exists_element (scheduler : Scheduler) (h : p.modules = .ok modules) {n : Nat}
    (hok : (Registry.empty.bring scheduler modules).1 = .ok (.ok n)) (ha : p.analyses.get? file = some a)
    (halone : p.Alone file) {d : Declaration} (hd : d ∈ p.graph.declarationsIn file)
    (hproduces : d.kind.producesElement = true) : ∃ e,
      (Registry.empty.bring scheduler modules).2.elements.get? d.id.text = some e ∧ e.kind = d.kind := by
  obtain ⟨file', a', m, ha', hkey, hm, helements⟩ := exists_module h ha
  obtain rfl := halone file' a' ha' hkey
  have hmem : d.definition ∈ m.elements := by
    rw [helements]
    exact List.mem_map_of_mem hd
  have hp : Registry.IsProject (Registry.IsOne modules) modules := by
    have hproject := p.isProject (fun _ hm => hm) h
    refine ⟨fun hm => ⟨_, hm⟩, hproject.file, hproject.nodup, hproject.apart⟩
  obtain ⟨e, c, v, hentry, hkind, hvalue, hfactory⟩ :=
    Registry.exists_value scheduler hp (static_of_modules h) hok hm hmem
  have hv : d.value c = .ok v := Effect.ready.inj hfactory
  have hkind' := d.kind_of_value hv
  obtain ⟨element, helement, hsame⟩ := Value.exists_element (hkind' ▸ hproduces)
  refine ⟨element, ?_, hsame.trans hkind'⟩
  have hshown : e.shown? = some element := by
    have hproduces' : e.kind.producesElement = true := by
      rw [hkind]
      exact hproduces
    rw [Registry.Entry.shown?, if_pos hproduces', hvalue]
    exact helement
  rw [Registry.get?_elements]
  have hentry' : Registry.entry? (Registry.empty.bring scheduler modules).2 ⟨d.id.text⟩ = some e := hentry
  rw [hentry', Option.bind_some, hshown]

/-- Where no two declarations share an id, every place of the project has its element. -/
theorem exists_element_of_site (scheduler : Scheduler) (h : p.modules = .ok modules) {n : Nat}
    (hok : (Registry.empty.bring scheduler modules).1 = .ok (.ok n))
    (hnodup : (declaredIds mode p.analyses).Nodup) (ha : p.analyses.get? file = some a)
    (halone : p.Alone file) {s : Site} (hs : s ∈ a.declarations) (hdefine : s.kind ≠ .define) : ∃ id e,
      CanonicalId.create mode file s.structuralPath = .ok id ∧
        (Registry.empty.bring scheduler modules).2.elements.get? id.text = some e ∧ e.kind = s.kind := by
  obtain ⟨d, hd, hstands⟩ := Graph.declarationsIn_spec p.built hnodup ha hs
  have hproduces : d.kind.producesElement = true := by
    rw [hstands.kind]
    cases hkind : s.kind with
    | define => exact absurd hkind hdefine
    | model | slice | operation | fragment => rfl
  obtain ⟨e, he, hkind⟩ := exists_element scheduler h hok ha halone hd hproduces
  exact ⟨d.id, e, hstands.id, he, hkind.trans hstands.kind⟩

end Project
end StaticGql
