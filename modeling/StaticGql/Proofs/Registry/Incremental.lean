import StaticGql.Proofs.Registry.Resting
import StaticGql.Registry.Modules

/-!
Bringing a registry to the modules of a project and evaluating it. What is kept of earlier projects,
evaluated as far as they got, makes no difference: the outcome is that of an empty registry.
-/

namespace StaticGql.Registry

variable {r r' s : Registry} {id : CanonicalId} {e : Entry} {m : Module} {file : String}
  {d : ModuleDefinition} {modules modules' : Dict ModuleDefinition} {U U' : ModuleDefinition → Prop}

/-! ### Modules that may be in a registry -/

/-- Among these modules of a file a signature tells the elements. -/
def Told (U : ModuleDefinition → Prop) : Prop :=
  ∀ d d', U d → U d' → d.file = d'.file → d.signature = d'.signature →
    List.Forall₂ Definition.Alike d.elements d'.elements

/-- The modules of a project, under their files, with no id in two places. -/
structure IsProject (U : ModuleDefinition → Prop) (modules : Dict ModuleDefinition) : Prop where
  known : ∀ {file d}, modules.get? file = some d → U d
  file : ∀ {file d}, modules.get? file = some d → d.file = file
  nodup : ∀ {file d}, modules.get? file = some d → (d.elements.map (·.id)).Nodup
  apart : ∀ {file d e file' d' e'}, modules.get? file = some d → modules.get? file' = some d' →
    e ∈ d.elements → e' ∈ d'.elements → e.id = e'.id → file = file'

/-- Alike elements under the same files. -/
def SameModules (modules modules' : Dict ModuleDefinition) : Prop :=
  ∀ file, Option.Rel (fun d d' => List.Forall₂ Definition.Alike d.elements d'.elements)
    (modules.get? file) (modules'.get? file)

theorem Told.sameModules (hU : Told U) (hp : IsProject U modules) : SameModules modules modules := by
  intro file
  cases hd : modules.get? file with
  | none => exact .none
  | some d => exact .some (hU d d (hp.known hd) (hp.known hd) rfl rfl)

theorem SameModules.symm (h : SameModules modules modules') : SameModules modules' modules := by
  intro file
  have hfile := h file
  generalize modules.get? file = o, modules'.get? file = o' at hfile
  cases hfile with
  | none => exact .none
  | some hd => exact .some (hd.flip.imp fun _ _ h => h.symm)

theorem SameModules.exists_definition (h : SameModules modules modules')
    (hd : modules.get? file = some d) : ∃ d', modules'.get? file = some d' ∧
      List.Forall₂ Definition.Alike d.elements d'.elements := by
  have hfile := h file
  rw [hd] at hfile
  generalize modules'.get? file = o at hfile
  cases hfile with
  | some halike => exact ⟨_, rfl, halike⟩

/-- How a registry is found between two operations. -/
structure Settled (U : ModuleDefinition → Prop) (r : Registry) : Prop extends Resting r where
  coherent : r.Coherent
  known : ∀ {file m}, r.modules.get? file = some m → U m.definition

theorem Settled.empty (U : ModuleDefinition → Prop) : Settled U empty :=
  ⟨.empty, ⟨nofun, nofun⟩, nofun⟩

theorem Settled.dropModule (h : Settled U r) (file : String) : Settled U (r.dropModule file).2.2 where
  toResting := h.toResting.dropModule file
  coherent := h.coherent.dropModule file
  known hm := h.known (get?_dropModule hm).2

theorem Settled.install (h : Settled U r) (hd : U d) : Settled U (r.install d).2 where
  toResting := h.toResting.install d
  coherent := h.coherent.install d
  known := by
    intro file m hm
    rw [get?_install] at hm
    split at hm
    · rw [Option.some.injEq] at hm
      exact hm ▸ hd
    · exact h.known hm

/-! ### Syncing -/

theorem Settled.renew (h : Settled U r) (hd : U d) : Settled U (r.renew d) := by
  rw [Registry.renew]
  split
  · exact h
  · exact h.install hd

theorem get?_renew_of_ne (h : d.file ≠ file) :
    (r.renew d).modules.get? file = r.modules.get? file := by
  rw [renew]
  split
  · rfl
  · rw [get?_install, if_neg h]

theorem signature?_renew (r : Registry) (d : ModuleDefinition) :
    (r.renew d).signature? d.file = some d.signature := by
  rw [renew]
  split
  · assumption
  · rw [signature?, get?_install, if_pos rfl]
    rfl

theorem signature?_renew_of_ne (h : d.file ≠ file) :
    (r.renew d).signature? file = r.signature? file := by
  rw [signature?, signature?, get?_renew_of_ne h]

theorem Settled.removeStale (h : Settled U r) (modules : Dict ModuleDefinition) :
    Settled U (r.removeStale modules) := by
  rw [Registry.removeStale]
  generalize r.modules.keys.filter _ = l
  induction l generalizing r with
  | nil => exact h
  | cons file rest ih => exact ih (h.dropModule file)

theorem get?_removeStale (r : Registry) (modules : Dict ModuleDefinition) (file : String) :
    (r.removeStale modules).modules.get? file =
      if modules.contains file then r.modules.get? file else none := by
  have hfold : ∀ (l : List String) (r : Registry),
      (l.foldl (fun r file => (r.removeModule file).2) r).modules.get? file =
        if file ∈ l then none else r.modules.get? file := by
    intro l
    induction l with
    | nil => exact fun r => rfl
    | cons a rest ih =>
        intro r
        rw [List.foldl_cons, ih]
        have : (r.removeModule a).2.modules = r.modules.erase a := rfl
        rw [this, Dict.get?_erase]
        by_cases ha : a = file
        · simp [ha]
        · simp [ha, Ne.symm ha]
  rw [Registry.removeStale, hfold]
  cases hc : modules.contains file with
  | true => simp [hc]
  | false =>
      cases hm : r.modules.get? file with
      | none => simp
      | some m =>
          have : file ∈ r.modules.keys := Dict.mem_keys_iff.2 (by simp [hm])
          simp [hc, this]

/-- A settled registry that has been brought to modules: it is settled, and has the modules that are
asked for, as far as their signatures tell. -/
structure Synced (U : ModuleDefinition → Prop) (modules : Dict ModuleDefinition) (r : Registry) :
    Prop where
  settled : Settled U r
  signature : ∀ file, r.signature? file = (modules.get? file).map (·.signature)

theorem signature?_foldl_renew (l : List ModuleDefinition) (r : Registry) (file : String)
    (hnodup : (l.map (·.file)).Nodup) :
    (l.foldl renew r).signature? file =
      ((l.find? (·.file = file)).map (·.signature)).or (r.signature? file) := by
  induction l generalizing r with
  | nil => rfl
  | cons d rest ih =>
      rw [List.map_cons, List.nodup_cons] at hnodup
      rw [List.foldl_cons, ih _ hnodup.2]
      by_cases hd : d.file = file
      · have hnone : rest.find? (·.file = file) = none := by
          rw [List.find?_eq_none]
          intro d' hd' hfile
          exact hnodup.1 (List.mem_map.2 ⟨d', hd', by simpa [hd] using hfile⟩)
        subst hd
        rw [hnone, signature?_renew]
        simp
      · rw [signature?_renew_of_ne hd]
        simp [hd]

theorem find?_values (h : ∀ {file d}, modules.get? file = some d → d.file = file) (file : String) :
    modules.values.find? (·.file = file) = modules.get? file := by
  have hentries : ∀ q ∈ modules.entries, q.2.file = q.1 := fun q hq =>
    h (Dict.mem_toList_iff.1 hq)
  rw [Dict.values, Dict.get?]
  generalize modules.entries = l at hentries
  induction l with
  | nil => rfl
  | cons q rest ih =>
      have hq := hentries q (by simp)
      have hrest := ih fun p hp => hentries p (List.mem_cons_of_mem q hp)
      by_cases hfile : q.1 = file
      · simp [Dict.find, hq, hfile]
      · simp [Dict.find, hq, hfile, hrest]

theorem Settled.sync (h : Settled U r) (hp : IsProject U modules) :
    Synced U modules (r.sync modules) where
  settled := by
    rw [Registry.sync]
    have hall : ∀ d ∈ modules.values, U d := by
      intro d hd
      obtain ⟨k, hk⟩ := Dict.mem_values_iff.1 hd
      exact hp.known hk
    have hstart := h.removeStale modules
    generalize r.removeStale modules = r₀ at hstart
    generalize modules.values = l at hall
    induction l generalizing r₀ with
    | nil => exact hstart
    | cons d rest ih =>
        exact ih _ (hstart.renew (hall d (by simp))) fun d' hd' => hall d' (List.mem_cons_of_mem d hd')
  signature := by
    intro file
    have hfiles : modules.values.map (·.file) = modules.keys := by
      rw [Dict.values, Dict.keys, List.map_map]
      refine List.map_congr_left fun q hq => ?_
      exact hp.file (Dict.mem_toList_iff.1 hq)
    rw [Registry.sync, signature?_foldl_renew _ _ _ (hfiles ▸ Dict.nodup_keys modules), signature?,
      get?_removeStale]
    rw [find?_values hp.file]
    cases hd : modules.get? file <;> simp [Dict.contains, hd]

/-! ### Registering what has been synced -/

theorem ids_eq_of_alike {l l' : List Definition} (h : List.Forall₂ Definition.Alike l l') :
    l.map (·.id) = l'.map (·.id) := by
  induction h with
  | nil => rfl
  | cons hd _ ih => rw [List.map_cons, List.map_cons, hd.id, ih]

theorem Synced.exists_definition (hU : Told U) (hp : IsProject U modules) (h : Synced U modules r)
    (hm : r.modules.get? file = some m) : ∃ d, modules.get? file = some d ∧
      List.Forall₂ Definition.Alike m.definition.elements d.elements := by
  have hsignature := h.signature file
  rw [signature?, hm, Option.map_some] at hsignature
  obtain ⟨d, hd, hs⟩ := Option.map_eq_some_iff.1 hsignature.symm
  have hfile := (h.settled.placed hm).trans (hp.file hd).symm
  exact ⟨d, hd, hU _ _ (h.settled.known hm) (hp.known hd) hfile hs.symm⟩

theorem Synced.exists_module (hU : Told U) (hp : IsProject U modules) (h : Synced U modules r)
    (hd : modules.get? file = some d) : ∃ m, r.modules.get? file = some m ∧
      List.Forall₂ Definition.Alike d.elements m.definition.elements := by
  have hsignature := h.signature file
  rw [signature?, hd, Option.map_some] at hsignature
  obtain ⟨m, hm, hs⟩ := Option.map_eq_some_iff.1 hsignature
  have hfile := (hp.file hd).trans (h.settled.placed hm).symm
  exact ⟨m, hm, hU _ _ (hp.known hd) (h.settled.known hm) hfile hs.symm⟩

theorem Synced.distinct (hU : Told U) (hp : IsProject U modules) (h : Synced U modules r) :
    Distinct r.modules where
  nodup := by
    intro file m hm
    obtain ⟨d, hd, halike⟩ := h.exists_definition hU hp hm
    rw [ids_eq_of_alike halike]
    exact hp.nodup hd
  apart := by
    intro file m e file' m' e' hm hm' he he' hid
    obtain ⟨d, hd, halike⟩ := h.exists_definition hU hp hm
    obtain ⟨d', hd', halike'⟩ := h.exists_definition hU hp hm'
    obtain ⟨f, hf, hef⟩ := exists_of_forall₂ halike he
    obtain ⟨f', hf', hef'⟩ := exists_of_forall₂ halike' he'
    exact hp.apart hd hd' hf hf' (by rw [← hef.id, ← hef'.id, hid])

/-- Brought to a project, with all of its modules registered. -/
structure Registered (U : ModuleDefinition → Prop) (modules : Dict ModuleDefinition) (r : Registry) :
    Prop extends Synced U modules r where
  complete : ∀ {file m}, r.modules.get? file = some m → m.state = .registered

theorem Synced.registerAll (hU : Told U) (hp : IsProject U modules) (h : Synced U modules r) :
    Step.Ensures registerAll r fun _ r' => Registered U modules r' := by
  refine (registerAll_spec h.settled.filed (h.distinct hU hp)).mono fun _ r' h' => ?_
  obtain ⟨hfiled, ha, hreached⟩ := h'
  have hstate : ∀ {file m}, r'.modules.get? file = some m → m.state = .registered := by
    intro file m hm
    obtain ⟨m₀, hm₀, -, hstate⟩ := ha.exists_module hm
    have hidle := h.settled.idle hm₀
    have hun := hreached file hm
    rcases hstate with heq | ⟨-, hs⟩
    · rw [← heq] at hidle
      cases hs : m.state <;> simp_all
    · exact hs
  refine ⟨⟨⟨h.settled.toResting.advances ha hfiled, h.settled.coherent.advances ha, ?_⟩, ?_⟩, hstate⟩
  · intro file m hm
    obtain ⟨m₀, hm₀, hdefinition, -⟩ := ha.exists_module hm
    exact hdefinition ▸ h.settled.known hm₀
  · intro file
    rw [← h.signature, signature?, signature?]
    rcases ha.module file with heq | ⟨m, hm, -, hm'⟩
    · rw [heq]
    · rw [hm, hm']
      rfl

theorem Registered.exists_alike (hU : Told U) (hp : IsProject U modules) (hU' : Told U')
    (hp' : IsProject U' modules') (hsame : SameModules modules modules') (h : Registered U modules r)
    (h' : Registered U' modules' s) (he : r.entry? id = some e) :
    ∃ e', s.entry? id = some e' ∧ e.Alike e' := by
  obtain ⟨m, d, hm, -, hd, rfl, hentry⟩ := h.settled.filed.entry he
  obtain ⟨D, hD, halike⟩ := h.exists_definition hU hp hm
  obtain ⟨f, hf, hdf⟩ := exists_of_forall₂ halike hd
  obtain ⟨D', hD', hDD'⟩ := hsame.exists_definition hD
  obtain ⟨f', hf', hff'⟩ := exists_of_forall₂ hDD' hf
  obtain ⟨m', hm', halike'⟩ := h'.exists_module hU' hp' hD'
  obtain ⟨d', hd', hfd'⟩ := exists_of_forall₂ halike' hf'
  obtain ⟨v, he'⟩ := h'.settled.filed.exists_entry hm' (h'.complete hm') hd'
  rw [← hfd'.id, ← hff'.id, ← hdf.id] at he'
  obtain ⟨k, f, deps, fac, value⟩ := e
  simp only [entryOf, Entry.mk.injEq, and_true, true_and] at hentry
  obtain ⟨rfl, rfl, rfl⟩ := hentry
  exact ⟨_, he', hdf.kind.trans (hff'.kind.trans hfd'.kind),
    hdf.dependencies.trans (hff'.dependencies.trans hfd'.dependencies),
    hdf.factory.trans (hff'.factory.trans hfd'.factory)⟩

theorem Registered.alike (hU : Told U) (hp : IsProject U modules) (hU' : Told U')
    (hp' : IsProject U' modules') (hsame : SameModules modules modules') (h : Registered U modules r)
    (h' : Registered U' modules' s) : r.Alike s where
  left he := h.exists_alike hU hp hU' hp' hsame h' he
  right he := by
    obtain ⟨e, he', ha⟩ := h'.exists_alike hU' hp' hU hp hsame.symm h he
    exact ⟨e, he', ha.kind.symm, ha.dependencies.symm, ha.factory.symm⟩

theorem Registered.static (hU : Told U) (hp : IsProject U modules) (h : Registered U modules r) :
    r.Static where
  entry he := by
    obtain ⟨e', he', ha⟩ := h.exists_alike hU hp hU hp (hU.sameModules hp) h he
    exact ha.factory.isStatic

/-! ### Bringing a registry to a project -/

/-- A registry brought to the modules of a project and evaluated. -/
def bring (scheduler : Scheduler) (modules : Dict ModuleDefinition) (r : Registry) :
    Except RegisteredTwice (Build Nat) × Registry :=
  (evaluate scheduler).run.run (r.sync modules)

theorem bring_eq (scheduler : Scheduler) (hU : Told U) (hp : IsProject U modules) (h : Settled U r) :
    ∃ r₁, Registered U modules r₁ ∧ r.bring scheduler modules =
      (.ok (r₁.evaluatePending scheduler).1, (r₁.evaluatePending scheduler).2) := by
  have hevaluate : Step.Ensures (evaluate scheduler) (r.sync modules) fun result r' =>
      ∃ r₁, Registered U modules r₁ ∧ result = (r₁.evaluatePending scheduler).1 ∧
        r' = (r₁.evaluatePending scheduler).2 := by
    refine .bind ((h.sync hp).registerAll hU hp).discard fun _ r₁ h₁ => ?_
    obtain ⟨-, hr₁⟩ := h₁
    refine .bind (P := fun a r' => a = r₁ ∧ r' = r₁) (.get ⟨rfl, rfl⟩) ?_
    rintro _ _ ⟨rfl, rfl⟩
    exact .bind (.set rfl) fun _ r' hr' => .pure ⟨_, hr₁, rfl, hr'⟩
  obtain ⟨result, r', hrun, r₁, hr₁, rfl, rfl⟩ := hevaluate
  exact ⟨r₁, hr₁, hrun⟩

/-- However evaluating ends, the registry is fit for what comes next. -/
theorem Settled.bring (scheduler : Scheduler) (hU : Told U) (hp : IsProject U modules)
    (h : Settled U r) : Settled U (r.bring scheduler modules).2 := by
  obtain ⟨r₁, hr₁, hbring⟩ := bring_eq scheduler hU hp h
  obtain ⟨hc, hgrows, -⟩ :=
    evaluatePending_spec scheduler hr₁.settled.coherent (hr₁.static hU hp)
  have hmodules := modules_of_blank hgrows.blank
  rw [hbring]
  exact ⟨hr₁.settled.toResting.of_blank hgrows.blank, hc, fun hm => hr₁.settled.known (hmodules ▸ hm)⟩

/-- Projects with alike modules are evaluated alike in any two settled registries. -/
theorem bring_agree (scheduler scheduler' : Scheduler) (hU : Told U) (hp : IsProject U modules)
    (hU' : Told U') (hp' : IsProject U' modules') (hsame : SameModules modules modules')
    (hr : Settled U r) (hs : Settled U' s) {n : Nat}
    (hok : (r.bring scheduler modules).1 = .ok (.ok n)) :
    (∃ m, (s.bring scheduler' modules').1 = .ok (.ok m)) ∧
      (r.bring scheduler modules).2.elements = (s.bring scheduler' modules').2.elements := by
  obtain ⟨r₁, hr₁, hbring⟩ := bring_eq scheduler hU hp hr
  obtain ⟨s₁, hs₁, hbring'⟩ := bring_eq scheduler' hU' hp' hs
  rw [hbring, Except.ok.injEq] at hok
  obtain ⟨⟨m, hm⟩, helements⟩ := evaluatePending_agree scheduler scheduler'
    hr₁.settled.coherent (hr₁.static hU hp) hs₁.settled.coherent (hs₁.static hU' hp')
    (hr₁.alike hU hp hU' hp' hsame hs₁) hok
  rw [hbring, hbring']
  exact ⟨⟨m, by rw [hm]⟩, helements⟩

end StaticGql.Registry
