import Mathlib.Data.List.Pairwise
import StaticGql.Proofs.Registry.Asked
import StaticGql.Proofs.Registry.Origin

/-!
Modules whose elements have ids of their own are registered once each, whatever they import and whichever of them are
asked for their exports before. No factory has a part in it.
-/

namespace StaticGql

/-! ### Other factories -/

def Definition.withFactory (f : Factory → Factory) (d : Definition) : Definition := { d with factory := f d.factory }

def ModuleDefinition.withFactories (f : Factory → Factory) (d : ModuleDefinition) : ModuleDefinition :=
  { d with elements := d.elements.map (·.withFactory f) }

namespace Registry

variable {r r' r₁ r₂ : Registry} {file : String} {m : Module} {d : ModuleDefinition} {f : Factory → Factory}

def Module.withFactories (f : Factory → Factory) (m : Module) : Module :=
  { m with definition := m.definition.withFactories f }

def Entry.withFactory (f : Factory → Factory) (e : Entry) : Entry := { e with factory := f e.factory }

/-- The registry with other factories in place of those that it holds. -/
def withFactories (f : Factory → Factory) (r : Registry) : Registry :=
  ⟨r.modules.map fun _ m => m.withFactories f, r.entries.map fun _ e => e.withFactory f⟩

namespace Step

variable {α α' β β' γ γ' : Type} {x : Step α} {y : Step α'} {g : α → α'} {h : β → β'}

/-- The second step does with other factories what the first one does. -/
def Carries (f : Factory → Factory) (g : α → α') (x : Step α) (y : Step α') : Prop :=
  ∀ r, y.run.run (r.withFactories f) = ((x.run.run r).1.map g, (x.run.run r).2.withFactories f)

theorem Carries.pure (a : α) : Carries f g (Pure.pure a) (Pure.pure (g a)) := fun _ => rfl

theorem Carries.get : Carries f (withFactories f) MonadState.get MonadState.get := fun _ => rfl

theorem Carries.set (r : Registry) : Carries f id (MonadState.set r) (MonadState.set (r.withFactories f)) :=
  fun _ => rfl

theorem Carries.bind {k : α → Step β} {k' : α' → Step β'} (hx : Carries f g x y)
    (hk : ∀ a, Carries f h (k a) (k' (g a))) : Carries f h (x >>= k) (y >>= k') := by
  intro r
  simp only [ExceptT.run_bind, StateT.run_bind, hx r]
  rcases x.run.run r with ⟨_ | a, r'⟩
  · rfl
  · exact hk a r'

theorem Carries.modify {c : Registry → Registry} (hc : ∀ r, c (r.withFactories f) = (c r).withFactories f) :
    Carries f id (modify c : Step Unit) (modify c) :=
  fun r => Prod.ext rfl (hc r)

theorem Carries.forM {t : γ → γ'} {k : γ → Step Unit} {k' : γ' → Step Unit} (l : List γ)
    (hk : ∀ a, Carries f id (k a) (k' (t a))) : Carries f id (l.forM k) ((l.map t).forM k') := by
  induction l with
  | nil => exact .pure ()
  | cons a rest ih => exact .bind (hk a) fun _ => ih

theorem Carries.foldlM {k k' : β → γ → Step β} (l : List γ) (b : β)
    (hk : ∀ b a, Carries f id (k b a) (k' b a)) : Carries f id (l.foldlM k b) (l.foldlM k' b) := by
  induction l generalizing b with
  | nil => exact .pure b
  | cons a rest ih =>
      rw [List.foldlM_cons, List.foldlM_cons]
      exact .bind (hk b a) ih

theorem Carries.mapM {k k' : γ → Step β} (l : List γ) (hk : ∀ a, Carries f id (k a) (k' a)) :
    Carries f id (l.mapM k) (l.mapM k') := by
  induction l with
  | nil =>
      rw [List.mapM_nil, List.mapM_nil]
      exact .pure []
  | cons a rest ih =>
      rw [List.mapM_cons, List.mapM_cons]
      exact .bind (hk a) fun b => .bind ih fun bs => .pure (b :: bs)

end Step

theorem get?_withFactories (r : Registry) (f : Factory → Factory) (file : String) :
    (r.withFactories f).modules.get? file = (r.modules.get? file).map (·.withFactories f) :=
  Dict.get?_map ..

theorem entry?_withFactories (r : Registry) (f : Factory → Factory) (id : CanonicalId) :
    Registry.entry? (r.withFactories f) id = (r.entry? id).map (·.withFactory f) :=
  Dict.get?_map ..

theorem withModule_withFactories {c : Module → Module} (hc : ∀ m, (c m).withFactories f = c (m.withFactories f))
    (r : Registry) (file : String) : (r.withFactories f).withModule file c = (r.withModule file c).withFactories f := by
  unfold withModule withFactories
  congr 1
  refine Dict.ext_get? fun file' => ?_
  simp only [Dict.get?_modify, Dict.get?_map]
  split
  · simp only [Option.map_map, Function.comp_def, hc]
  · rfl

theorem carries_setState (f : Factory → Factory) (file : String) (state : ModuleState) :
    Step.Carries f id (setState file state) (setState file state) :=
  .modify fun r => withModule_withFactories (c := fun m => { m with state }) (fun _ => rfl) r file

theorem carries_countRegistration (f : Factory → Factory) (file : String) :
    Step.Carries f id (countRegistration file) (countRegistration file) :=
  .modify fun r =>
    withModule_withFactories (c := fun m => { m with registrations := m.registrations + 1 }) (fun _ => rfl) r file

theorem carries_add (f : Factory → Factory) (file : String) (d : Definition) :
    Step.Carries f id (add file d) (add file (d.withFactory f)) := by
  refine .bind .get fun r => ?_
  have hcontains : (r.withFactories f).contains (d.withFactory f).id = r.contains d.id := by
    rw [contains, contains, Definition.withFactory, entry?_withFactories, Option.isSome_map]
  have hinsert : ({ r with entries := r.entries.insert d.id.text (entryOf file d) } : Registry).withFactories f =
      { r.withFactories f with
        entries := (r.withFactories f).entries.insert d.id.text (entryOf file (d.withFactory f)) } := by
    unfold withFactories
    congr 1
    refine Dict.ext_get? fun k => ?_
    simp only [Dict.get?_insert, Dict.get?_map]
    split <;> rfl
  rw [hcontains]
  by_cases hr : r.contains d.id = true
  · rw [if_pos hr, if_pos hr]
    exact fun _ => rfl
  · rw [if_neg hr, if_neg hr]
    have hset := Step.Carries.set (f := f) ({ r with entries := r.entries.insert d.id.text (entryOf file d) } : Registry)
    rw [hinsert] at hset
    exact .bind (.pure ()) fun _ => hset

theorem carries_moduleIn? (f : Factory → Factory) (file : String) :
    Step.Carries f (Option.map (·.withFactories f)) (moduleIn? file) (moduleIn? file) := by
  refine .bind .get fun r => ?_
  rw [get?_withFactories]
  exact .pure _

theorem carries_registerModule (f : Factory → Factory) (fuel : Nat) (file : String) :
    Step.Carries f id (registerModule fuel file) (registerModule fuel file) := by
  induction fuel generalizing file with
  | zero => exact .pure ()
  | succ fuel ih =>
      rw [registerModule]
      refine .bind (carries_moduleIn? f file) fun m => ?_
      cases m with
      | none => exact .pure ()
      | some m =>
          obtain ⟨d, state, answered⟩ := m
          cases state with
          | registering | registered => exact .pure ()
          | unregistered =>
              have himports := Step.Carries.forM (t := id) d.imports ih
              rw [List.map_id] at himports
              refine .bind (carries_setState f file _) fun _ => .bind himports fun _ => ?_
              refine .bind (.forM d.elements (carries_add f file)) fun _ => ?_
              exact .bind (carries_setState f file _) fun _ => carries_countRegistration f file

theorem carries_register (f : Factory → Factory) (file : String) :
    Step.Carries f id (register file) (register file) := by
  refine .bind .get fun r => ?_
  rw [withFactories, Dict.size_map]
  exact carries_registerModule f _ file

theorem carries_exports? (f : Factory → Factory) (file : String) :
    Step.Carries f id (exports? file) (exports? file) := by
  refine .bind (carries_register f file) fun _ => .bind (carries_moduleIn? f file) fun m => ?_
  rw [Option.map_map]
  exact .pure (m.map (·.definition.exports))

theorem moduleState?_withFactories (r : Registry) (f : Factory → Factory) (file : String) :
    (r.withFactories f).moduleState? file = r.moduleState? file := by
  rw [moduleState?, get?_withFactories, Option.map_map]
  rfl

theorem carries_registerNew (f : Factory → Factory) (count : Nat) (file : String) :
    Step.Carries f id (registerNew count file) (registerNew count file) := by
  refine .bind .get fun r => ?_
  rw [moduleState?_withFactories]
  by_cases hr : r.moduleState? file = some .unregistered
  · rw [if_pos hr]
    exact .bind (carries_register f file) fun _ => .pure (count + 1)
  · rw [if_neg hr]
    exact .pure count

theorem keys_withFactories (r : Registry) (f : Factory → Factory) : (r.withFactories f).modules.keys = r.modules.keys :=
  List.map_map ..

theorem carries_registerAll (f : Factory → Factory) : Step.Carries f id registerAll registerAll := by
  refine .bind .get fun r => ?_
  rw [keys_withFactories]
  exact .foldlM _ 0 (carries_registerNew f)

/-! ### Counting -/

/-- Every module was registered once since it was installed, or not at all. -/
def Counted (r : Registry) : Prop :=
  ∀ file m, r.modules.get? file = some m → m.registrations = if m.state = .registered then 1 else 0

theorem Counted.advances (h : r.Counted) (ha : r.Advances r') : r'.Counted := by
  intro file m hm
  rcases ha.module file with heq | ⟨m₀, hm₀, hs, hm'⟩
  · exact h file m (heq ▸ hm)
  · rw [hm', Option.some.injEq] at hm
    have hnone := h file m₀ hm₀
    rw [hs, if_neg (by simp)] at hnone
    rw [← hm, if_pos rfl, hnone]

theorem Counted.install (h : r.Counted) (d : ModuleDefinition) : (r.install d).2.Counted := by
  intro file m hm
  rw [get?_install] at hm
  split at hm
  · cases hm
    rfl
  · exact h file m hm

theorem Counted.of_modules (h : r.Counted) (heq : r'.modules = r.modules) : r'.Counted :=
  fun file m hm => h file m (heq ▸ hm)

theorem evaluate_counted (scheduler : Scheduler) (h : r.Sound) (hc : r.Counted) :
    Step.Leads (evaluate scheduler) r fun _ => Counted := by
  refine (registerAll_leads h.filed).discard.bind fun _ r₁ ⟨_, h₁⟩ => ?_
  refine .bind (P := fun a r' => a = r₁ ∧ r' = r₁) (.get ⟨rfl, rfl⟩) ?_
  rintro _ r₁ ⟨rfl, rfl⟩
  have hblank : (r₁.evaluatePending scheduler).2.blank = r₁.blank := blank_evaluatePending r₁
  have hcounted := (hc.advances h₁.advances).of_modules (modules_of_blank hblank)
  exact .bind (.set hcounted) fun _ _ h' => .pure h'

theorem Command.run_counted (c : Command) (h : r.Sound) (hc : r.Counted) : Step.Leads c.run r fun _ => Counted := by
  cases c with
  | install d => exact .modify (hc.install d)
  | remove file => exact .modify fun _ _ hm => hc _ _ (get?_dropModule hm).2
  | exports file => exact (exports?_leads file h.filed).discard.mono fun _ _ ⟨_, h'⟩ => hc.advances h'.advances
  | registerAll => exact (registerAll_leads h.filed).discard.mono fun _ _ ⟨_, h'⟩ => hc.advances h'.advances
  | invalidate ids => exact .modify (hc.of_modules (modules_of_blank (blank_invalidate r ids)))
  | evaluate scheduler =>
      exact (evaluate_counted scheduler h hc).discard.mono fun _ _ ⟨_, h'⟩ => h'
  | clear => exact .set nofun

/-- Modules installed one after the other. -/
def installAll (installed : List ModuleDefinition) (r : Registry) : Registry :=
  installed.foldl (fun r d => (r.install d).2) r

theorem installAll_resting (installed : List ModuleDefinition) (h : r.Resting) (hc : r.Counted) :
    (installAll installed r).Resting ∧ (installAll installed r).Counted := by
  induction installed generalizing r with
  | nil => exact ⟨h, hc⟩
  | cons d rest ih => exact ih (h.install d) (hc.install d)

theorem runAll_counted (commands : List Command) (hok : (runAll commands empty).1 = .ok ()) :
    (runAll commands empty).2.Resting ∧ (runAll commands empty).2.Counted := by
  have hall : Step.Leads (commands.forM Command.run) empty fun _ r => r.Sound ∧ r.Counted :=
    .forM ⟨.empty, nofun⟩ fun c _ h => (c.run_leads h.1).and (c.run_counted h.1 h.2)
  obtain ⟨hsound, hcounted⟩ := hall () _ (Prod.ext hok rfl)
  exact ⟨hsound.toResting, hcounted⟩

/-! ### Ids of their own -/

/-- The ids of all elements of all modules. -/
def elementIds (modules : Dict Module) : List CanonicalId :=
  modules.values.flatMap fun m => m.definition.elements.map (·.id)

theorem mem_elementIds {modules : Dict Module} {id : CanonicalId} :
    id ∈ elementIds modules ↔ ∃ file m d, modules.get? file = some m ∧ d ∈ m.definition.elements ∧ d.id = id := by
  simp only [elementIds, List.mem_flatMap, Dict.mem_values_iff, List.mem_map]
  constructor
  · rintro ⟨m, ⟨file, hm⟩, d, hd, hid⟩
    exact ⟨file, m, d, hm, hd, hid⟩
  · rintro ⟨file, m, d, hm, hd, hid⟩
    exact ⟨m, ⟨file, hm⟩, d, hd, hid⟩

theorem distinct_of_nodup {modules : Dict Module} (h : (elementIds modules).Nodup) : Distinct modules := by
  rw [elementIds, List.nodup_flatMap, Dict.values, List.pairwise_map] at h
  obtain ⟨hnodup, hapart⟩ := h
  refine ⟨fun {file m} hm => hnodup m (Dict.mem_values_iff.2 ⟨file, hm⟩), ?_⟩
  intro file m d file' m' d' hm hm' hd hd' hid
  by_contra hne
  let ids := fun m : Module => m.definition.elements.map (·.id)
  have : Std.Symm fun a b : String × Module => (ids a.2).Disjoint (ids b.2) := ⟨fun _ _ h => h.symm⟩
  have hdisjoint : (ids m).Disjoint (ids m') := List.Pairwise.forall hapart (Dict.mem_toList_iff.2 hm)
    (Dict.mem_toList_iff.2 hm') fun heq => hne (Prod.mk.inj heq).1
  exact hdisjoint (List.mem_map_of_mem hd) (hid ▸ List.mem_map_of_mem hd')

/-! ### Registered once -/

/-- What registering all modules makes of a registry. -/
structure Completed (r r' : Registry) : Prop where
  module : ∀ file, r'.modules.get? file = (r.modules.get? file).map fun m => ⟨m.definition, .registered, 1⟩
  /-- Each element is there, and nothing else is. -/
  keys : r'.entries.keys.Perm ((elementIds r.modules).map (·.text))
  entry : ∀ file m d, r.modules.get? file = some m → d ∈ m.definition.elements →
    r'.entry? d.id = some { entryOf file d with value := r.value? d.id }

theorem Completed.of_advances (h : r.Resting) (hc : r.Counted) (hnodup : (elementIds r.modules).Nodup)
    (ha : r.Advances r') (hfiled : r'.Filed) (hreached : ∀ file, r'.Reached file) : r.Completed r' := by
  have hmodule : ∀ file, r'.modules.get? file = (r.modules.get? file).map fun m => ⟨m.definition, .registered, 1⟩ := by
    intro file
    rcases ha.module file with heq | ⟨m, hm, hs, hm'⟩
    · cases hm : r.modules.get? file with
      | none => exact heq.trans hm
      | some m =>
          have hm' := heq.trans hm
          obtain ⟨d, state, n⟩ := m
          have hcount := hc file _ hm
          cases state with
          | unregistered => exact absurd rfl (hreached file hm')
          | registering => exact absurd rfl (h.idle hm)
          | registered =>
              obtain rfl : n = 1 := hcount
              exact hm'
    · have hcount := hc file _ hm
      rw [hs, if_neg (by simp)] at hcount
      rw [hm', hm, hcount]
      rfl
  have hentry : ∀ file m d, r.modules.get? file = some m → d ∈ m.definition.elements →
      r'.entry? d.id = some { entryOf file d with value := r.value? d.id } := by
    intro file m d hm hd
    have hm' := hmodule file
    rw [hm] at hm'
    obtain ⟨v, hv⟩ := hfiled.exists_entry hm' rfl hd
    rw [← ha.adds.value?_eq, value?, hv]
    rfl
  refine ⟨hmodule, ?_, hentry⟩
  have htexts : ((elementIds r.modules).map (·.text)).Nodup :=
    hnodup.map fun a b hab => by rwa [CanonicalId.mk.injEq]
  refine (List.perm_ext_iff_of_nodup (Dict.nodup_keys _) htexts).2 fun k => ?_
  rw [Dict.mem_keys_iff, List.mem_map]
  constructor
  · intro hk
    obtain ⟨e, he⟩ := Option.isSome_iff_exists.1 hk
    have he : r'.entry? ⟨k⟩ = some e := he
    obtain ⟨m', d, hm', -, hd, hid, -⟩ := hfiled.entry he
    rw [hmodule] at hm'
    obtain ⟨m, hm, rfl⟩ := Option.map_eq_some_iff.1 hm'
    exact ⟨⟨k⟩, mem_elementIds.2 ⟨_, m, d, hm, hd, hid⟩, rfl⟩
  · rintro ⟨id, hid, rfl⟩
    obtain ⟨file, m, d, hm, hd, rfl⟩ := mem_elementIds.1 hid
    exact Option.isSome_iff_exists.2 ⟨_, hentry file m d hm hd⟩

theorem exports?_spec (file : String) (h : r.Filed) (hd : Distinct r.modules) :
    Step.Ensures (exports? file) r fun a r' => a = r.stated? file ∧ r'.Filed ∧ r.Advances r' := by
  refine (register_spec file h hd).bind fun _ r' ⟨hfiled, ha, _⟩ => ?_
  refine (moduleIn?_spec r' file).bind ?_
  rintro _ _ ⟨rfl, rfl⟩
  exact .pure ⟨ha.restates file, hfiled, ha⟩

theorem mapM_exports?_spec (files : List String) (h : r.Filed) (hd : Distinct r.modules) :
    Step.Ensures (files.mapM exports?) r fun answers r' =>
      answers = files.map r.stated? ∧ r'.Filed ∧ r.Advances r' := by
  induction files generalizing r with
  | nil => exact .pure ⟨rfl, h, .refl r⟩
  | cons file rest ih =>
      rw [List.mapM_cons]
      refine (exports?_spec file h hd).bind fun a r₁ ⟨ha, h₁, hr₁⟩ => ?_
      refine (ih h₁ (hr₁.distinct hd)).bind fun answers r₂ ⟨hanswers, h₂, hr₂⟩ => .pure ⟨?_, h₂, hr₁.trans hr₂⟩
      rw [ha, hanswers, List.map_cons]
      exact congrArg _ (List.map_congr_left fun file' _ => hr₁.restates file')

theorem Step.mapM_map {α β γ : Type} (g : β → γ) (k : α → Step β) (l : List α) :
    l.mapM (fun a => g <$> k a) = List.map g <$> l.mapM k := by
  induction l with
  | nil =>
      rw [List.mapM_nil, List.mapM_nil, map_pure]
      rfl
  | cons a rest ih =>
      rw [List.mapM_cons, List.mapM_cons, ih]
      simp only [map_eq_pure_bind, bind_assoc, pure_bind, List.map_cons]

theorem Step.exists_run {α β : Type} {x : Step α} {g : α → β} {b : β} (h : (g <$> x).run.run r = (.ok b, r')) :
    ∃ a, x.run.run r = (.ok a, r') := by
  rw [map_eq_pure_bind] at h
  obtain ⟨a, r₁, hx, hpure⟩ := run_bind_eq_ok h
  cases hpure
  exact ⟨a, hx⟩

/-- Asking modules for their exports makes the same of a registry as asking them with a record. -/
theorem exists_run_ask {files : List String} {answers : List (Option (Dict CanonicalId))}
    (h : (files.mapM exports?).run.run r = (.ok answers, r')) :
    ∃ calls, (files.mapM ask).run.run r = (.ok calls, r') := by
  refine Step.exists_run (g := List.map fun calls : List Asked => calls.getLast?.bind (·.answer)) (b := answers) ?_
  rw [← Step.mapM_map, ← funext exports?_eq, h]

/-- Wherever the elements of all modules have ids of their own, modules may be asked for their exports in any order,
and all of them registered then. Each of them is registered once, with all its elements; whichever module is asked,
by whom and in whatever state, answers what stands in its definition; and it all is the same with other factories. -/
theorem registers_once (history : List Command) (hok : (runAll history empty).1 = .ok ())
    (installed : List ModuleDefinition)
    (hnodup : (elementIds (installAll installed (runAll history empty).2).modules).Nodup) (files : List String) :
    let r := installAll installed (runAll history empty).2
    ∃ r₁ n r₂ calls₁ calls₂,
      (files.mapM exports?).run.run r = (.ok (files.map r.stated?), r₁) ∧
      registerAll.run.run r₁ = (.ok n, r₂) ∧ r.Completed r₂ ∧
      (files.mapM ask).run.run r = (.ok calls₁, r₁) ∧ askAll.run.run r₁ = (.ok calls₂, r₂) ∧
      r.Stated (calls₁.flatten ++ calls₂) ∧
      ∀ f, (files.mapM exports?).run.run (r.withFactories f) = (.ok (files.map r.stated?), r₁.withFactories f) ∧
        registerAll.run.run (r₁.withFactories f) = (.ok n, r₂.withFactories f) := by
  intro r
  obtain ⟨hresting, hcounted⟩ := runAll_counted history hok
  obtain ⟨hr, hc⟩ := installAll_resting installed hresting hcounted
  have hd : Distinct r.modules := distinct_of_nodup hnodup
  obtain ⟨_, r₁, hexports, rfl, h₁, ha₁⟩ := mapM_exports?_spec files hr.filed hd
  obtain ⟨n, r₂, hall, h₂, ha₂, hreached⟩ := registerAll_spec h₁ (ha₁.distinct hd)
  obtain ⟨calls₁, hcalls₁⟩ := exists_run_ask hexports
  obtain ⟨calls₂, hcalls₂⟩ : ∃ calls, askAll.run.run r₁ = (.ok calls, r₂) := by
    refine Step.exists_run (g := fun _ => PUnit.unit) (b := ⟨⟩) ?_
    have hdiscard : (discard registerAll).run.run r₁ = (.ok ⟨⟩, r₂) := by
      rw [Step.discard_eq, ExceptT.run_bind, StateT.run_bind, hall]
      rfl
    rw [← hdiscard, ← discard_askAll]
    rfl
  refine ⟨r₁, n, r₂, calls₁, calls₂, hexports, hall, ?_, hcalls₁, hcalls₂, ?_, fun f => ⟨?_, ?_⟩⟩
  · exact .of_advances hr hc hnodup (ha₁.trans ha₂) h₂ hreached
  · have hstated₁ := (mapM_leads files hr.filed fun file _ => ask_leads file) calls₁ r₁ hcalls₁
    have hstated₂ := askAll_leads h₁ calls₂ r₂ hcalls₂
    refine List.forall_mem_append.2 ⟨hstated₁.2, fun c hc => ?_⟩
    exact (hstated₂.2 c hc).trans (ha₁.restates c.file)
  · rw [Step.Carries.mapM files (carries_exports? f) r, hexports]
    rfl
  · rw [carries_registerAll f r₁, hall]
    rfl

/-- A module that exports its one element. -/
def member (file name : String) (imports : List String) : ModuleDefinition :=
  { tally file name imports [] with exports := .ofList [(name, ⟨name⟩)] }

/-- Two modules that import each other, beside one that was registered before. -/
def circle : Registry :=
  installAll [member "/a" "A" ["/b"], member "/b" "B" ["/a", "/b", "/gone"]]
    (runAll [.install (member "/c" "C" ["/c"]), .exports "/c"] empty).2

/-- One of them is asked twice on the way, by the other and by itself, while it is being registered. -/
theorem circle_registers_once :
    (∃ r₁ n r₂, (["/b", "/gone"].mapM exports?).run.run circle = (.ok [some (.ofList [("B", ⟨"B"⟩)]), none], r₁) ∧
      registerAll.run.run r₁ = (.ok n, r₂) ∧ circle.Completed r₂) ∧
    ((ask "/b").run.run circle).1.toOption.map (·.map fun c => (c.file, c.found)) =
      some [("/b", some .registering), ("/a", some .unregistered), ("/b", some .registering), ("/gone", none),
        ("/b", some .unregistered)] := by
  obtain ⟨r₁, n, r₂, -, -, hexports, hall, hcompleted, -⟩ :=
    registers_once [.install (member "/c" "C" ["/c"]), .exports "/c"] (by decide +kernel)
      [member "/a" "A" ["/b"], member "/b" "B" ["/a", "/b", "/gone"]] (by decide +kernel) ["/b", "/gone"]
  have hstated : ["/b", "/gone"].map circle.stated? = [some (.ofList [("B", ⟨"B"⟩)]), none] := by decide +kernel
  exact ⟨⟨r₁, n, r₂, hstated ▸ hexports, hall, hcompleted⟩, by decide +kernel⟩

end Registry
end StaticGql
