import Mathlib.Data.Finset.Card
import StaticGql.Proofs.Registry.Evaluation

/-!
Registering: a module after its imports, each once, whatever circles the imports run in. Where no id
belongs to two elements nothing stops it, and in the end the elements are those of the modules.
-/

namespace StaticGql.Registry

variable {r r' r₁ r₂ : Registry} {id : CanonicalId} {e : Entry} {m : Module} {file : String}

/-! ### Steps that go through -/

namespace Step

variable {α β : Type} {x : Step α} {f : α → Step β} {P : α → Registry → Prop}
  {Q : β → Registry → Prop}

/-- The step goes through from this registry, and `P` holds of what it returns and leaves. -/
def Ensures (x : Step α) (r : Registry) (P : α → Registry → Prop) : Prop :=
  ∃ a r', x.run.run r = (.ok a, r') ∧ P a r'

theorem Ensures.bind (hx : Ensures x r P) (hf : ∀ a r', P a r' → Ensures (f a) r' Q) :
    Ensures (x >>= f) r Q := by
  obtain ⟨a, r', hx, ha⟩ := hx
  obtain ⟨b, r'', hb, hQ⟩ := hf a r' ha
  refine ⟨b, r'', ?_, hQ⟩
  have : (x >>= f).run.run r = (f a).run.run r' := by
    simp only [ExceptT.run_bind, StateT.run_bind, hx]
    rfl
  rw [this, hb]

theorem discard_eq (x : Step α) : discard x = x >>= fun _ => Pure.pure ⟨⟩ := by
  rw [← map_eq_pure_bind]
  rfl

theorem Ensures.discard (hx : Ensures x r P) : Ensures (discard x) r fun _ r' => ∃ a, P a r' := by
  rw [discard_eq]
  exact hx.bind fun a r' ha => ⟨⟨⟩, r', rfl, a, ha⟩

theorem Ensures.pure {a : α} (h : P a r) : Ensures (Pure.pure a) r P := ⟨a, r, rfl, h⟩

theorem Ensures.modify {g : Registry → Registry} {P : PUnit → Registry → Prop} (h : P ⟨⟩ (g r)) :
    Ensures (modify g) r P :=
  ⟨⟨⟩, g r, rfl, h⟩

theorem Ensures.get {P : Registry → Registry → Prop} (h : P r r) : Ensures get r P := ⟨r, r, rfl, h⟩

theorem Ensures.set {P : PUnit → Registry → Prop} (h : P ⟨⟩ r') : Ensures (set r') r P :=
  ⟨⟨⟩, r', rfl, h⟩

theorem Ensures.mono {P' : α → Registry → Prop} (h : Ensures x r P) (hP : ∀ a r', P a r' → P' a r') :
    Ensures x r P' := by
  obtain ⟨a, r', hx, ha⟩ := h
  exact ⟨a, r', hx, hP a r' ha⟩

/-- What each round keeps up is there after all of them. -/
theorem Ensures.forM {γ : Type} {g : γ → Step PUnit} {I : Registry → Prop} {l : List γ} (h : I r)
    (hstep : ∀ a ∈ l, ∀ r', I r' → Ensures (g a) r' fun _ => I) : Ensures (l.forM g) r fun _ => I := by
  induction l generalizing r with
  | nil => exact .pure h
  | cons a rest ih =>
      refine .bind (hstep a (by simp) r h) fun _ r' hr' => ?_
      exact ih hr' fun b hb => hstep b (List.mem_cons_of_mem a hb)

end Step

/-! ### What a registry holds -/

/-- The entry that an element makes in the module under a file. -/
def entryOf (file : String) (d : Definition) : Entry := ⟨d.kind, file, d.dependencies, d.factory, none⟩

/-- The entries are those of the elements of the registered modules, one for each, under the file of its
module. -/
structure Filed (r : Registry) : Prop where
  entry : ∀ {id e}, r.entry? id = some e → ∃ m d, r.modules.get? e.file = some m ∧
    m.state = .registered ∧ d ∈ m.definition.elements ∧ d.id = id ∧
      { e with value := none } = entryOf e.file d
  element : ∀ {file m d}, r.modules.get? file = some m → m.state = .registered →
    d ∈ m.definition.elements → ∃ e, r.entry? d.id = some e ∧ e.file = file
  nodup : ∀ {file m}, r.modules.get? file = some m → m.state = .registered →
    (m.definition.elements.map (·.id)).Nodup

/-- The entry of an element that a registered module has. -/
theorem Filed.exists_entry (h : r.Filed) (hm : r.modules.get? file = some m)
    (hs : m.state = .registered) {d : Definition} (hd : d ∈ m.definition.elements) :
    ∃ v, r.entry? d.id = some { entryOf file d with value := v } := by
  obtain ⟨e, he, rfl⟩ := h.element hm hs hd
  obtain ⟨m', d', hm', -, hd', hid, hentry⟩ := h.entry he
  rw [hm, Option.some.injEq] at hm'
  subst hm'
  obtain rfl := List.inj_on_of_nodup_map (h.nodup hm hs) hd' hd hid
  exact ⟨e.value, by rw [he, ← hentry]⟩

/-- No id belongs to two elements. -/
structure Distinct (modules : Dict Module) : Prop where
  nodup : ∀ {file m}, modules.get? file = some m → (m.definition.elements.map (·.id)).Nodup
  apart : ∀ {file m d file' m' d'}, modules.get? file = some m → modules.get? file' = some m' →
    d ∈ m.definition.elements → d' ∈ m'.definition.elements → d.id = d'.id → file = file'

/-- Some modules more are registered, with all that comes with them. -/
structure Advances (r r' : Registry) : Prop where
  module : ∀ file, r'.modules.get? file = r.modules.get? file ∨
    ∃ m, r.modules.get? file = some m ∧ m.state = .unregistered ∧
      r'.modules.get? file =
        some { m with state := .registered, registrations := m.registrations + 1 }
  kept : ∀ {id e}, r.entry? id = some e → r'.entry? id = some e
  fresh : ∀ {id e}, r'.entry? id = some e →
    r.entry? id = some e ∨ r.entry? id = none ∧ e.value = none

theorem Advances.refl (r : Registry) : r.Advances r := ⟨fun _ => .inl rfl, id, .inl⟩

theorem Advances.trans (h : r.Advances r₁) (h' : r₁.Advances r₂) : r.Advances r₂ where
  module file := by
    rcases h.module file with heq | ⟨m, hm, hs, hm₁⟩
    · rcases h'.module file with heq' | ⟨m, hm, hs, hm₂⟩
      · exact .inl (heq'.trans heq)
      · exact .inr ⟨m, by rw [← heq, hm], hs, hm₂⟩
    · rcases h'.module file with heq' | ⟨m', hm', hs', -⟩
      · exact .inr ⟨m, hm, hs, by rw [heq', hm₁]⟩
      · rw [hm₁, Option.some.injEq] at hm'
        simp [← hm'] at hs'
  kept he := h'.kept (h.kept he)
  fresh := by
    intro id e he
    rcases h'.fresh he with he | ⟨hnone, hv⟩
    · exact h.fresh he
    · cases he₀ : r.entry? id with
      | none => exact .inr ⟨rfl, hv⟩
      | some e₀ => simp [h.kept he₀] at hnone

theorem Advances.exists_module (h : r.Advances r') (hm : r'.modules.get? file = some m) :
    ∃ m₀, r.modules.get? file = some m₀ ∧ m.definition = m₀.definition ∧
      (m.state = m₀.state ∨ m₀.state = .unregistered ∧ m.state = .registered) := by
  rcases h.module file with heq | ⟨m₀, hm₀, hs, hm'⟩
  · exact ⟨m, by rw [← heq, hm], rfl, .inl rfl⟩
  · rw [hm', Option.some.injEq] at hm
    subst hm
    exact ⟨m₀, hm₀, rfl, .inr ⟨hs, rfl⟩⟩

theorem Distinct.of_definitions {a b : Dict Module} (h : Distinct a)
    (hb : ∀ {file m}, b.get? file = some m → ∃ m₀, a.get? file = some m₀ ∧ m.definition = m₀.definition) :
    Distinct b where
  nodup hm := by
    obtain ⟨m₀, hm₀, hd⟩ := hb hm
    exact hd ▸ h.nodup hm₀
  apart hm hm' hd hd' hid := by
    obtain ⟨m₀, hm₀, he⟩ := hb hm
    obtain ⟨m₁, hm₁, he'⟩ := hb hm'
    exact h.apart hm₀ hm₁ (he ▸ hd) (he' ▸ hd') hid

theorem Advances.distinct (h : r.Advances r') (hd : Distinct r.modules) : Distinct r'.modules := by
  refine hd.of_definitions fun hm => ?_
  obtain ⟨m₀, hm₀, hdef, -⟩ := h.exists_module hm
  exact ⟨m₀, hm₀, hdef⟩

/-! ### Fuel -/

/-- The modules that are still to be registered. -/
def unregistered (modules : Dict Module) : Finset String :=
  modules.keys.toFinset.filter fun file => (modules.get? file).map (·.state) = some .unregistered

theorem mem_unregistered_iff {modules : Dict Module} :
    file ∈ unregistered modules ↔ ∃ m, modules.get? file = some m ∧ m.state = .unregistered := by
  rw [unregistered, Finset.mem_filter, List.mem_toFinset, Dict.mem_keys_iff, Option.map_eq_some_iff]
  constructor
  · exact fun h => h.2
  · rintro ⟨m, hm, hs⟩
    exact ⟨by simp [hm], m, hm, hs⟩

theorem card_unregistered_le (modules : Dict Module) : (unregistered modules).card ≤ modules.size := by
  refine (Finset.card_filter_le _ _).trans ((List.toFinset_card_le _).trans ?_)
  simp [Dict.keys, Dict.size]

theorem Advances.unregistered_subset (h : r.Advances r') :
    unregistered r'.modules ⊆ unregistered r.modules := by
  intro file hfile
  obtain ⟨m, hm, hs⟩ := mem_unregistered_iff.1 hfile
  obtain ⟨m₀, hm₀, -, hstate⟩ := h.exists_module hm
  rcases hstate with heq | ⟨hs₀, -⟩
  · exact mem_unregistered_iff.2 ⟨m₀, hm₀, by rw [← heq, hs]⟩
  · exact mem_unregistered_iff.2 ⟨m₀, hm₀, hs₀⟩

/-! ### One module -/

/-- The registry with a change to one module. -/
def withModule (r : Registry) (file : String) (f : Module → Module) : Registry :=
  { r with modules := r.modules.modify file f }

theorem get?_withModule (r : Registry) (file file' : String) (f : Module → Module) :
    (r.withModule file f).modules.get? file' =
      if file' = file then (r.modules.get? file').map f else r.modules.get? file' :=
  Dict.get?_modify _ _ _ _

/-- The registry with a module whose imports are looked at next. -/
def registering (r : Registry) (file : String) : Registry :=
  r.withModule file fun m => { m with state := .registering }

theorem get?_registering (hm : r.modules.get? file = some m) :
    (r.registering file).modules.get? file = some { m with state := .registering } := by
  rw [registering, get?_withModule, if_pos rfl, hm]
  rfl

theorem Distinct.registering (hd : Distinct r.modules) (file : String) :
    Distinct (r.registering file).modules := by
  refine hd.of_definitions fun {file' m} hm => ?_
  rw [Registry.registering, get?_withModule] at hm
  split at hm
  · obtain ⟨m₀, hm₀, rfl⟩ := Option.map_eq_some_iff.1 hm
    exact ⟨m₀, hm₀, rfl⟩
  · exact ⟨m, hm, rfl⟩

theorem registered_of_registering {file' : String} (hm : (r.registering file).modules.get? file' = some m)
    (hs : m.state = .registered) : r.modules.get? file' = some m := by
  rw [registering, get?_withModule] at hm
  split at hm
  · obtain ⟨m₀, -, rfl⟩ := Option.map_eq_some_iff.1 hm
    cases hs
  · exact hm

theorem unregistered_registering (hm : r.modules.get? file = some m) (hs : m.state = .unregistered) :
    (unregistered (r.registering file).modules).card < (unregistered r.modules).card := by
  refine Finset.card_lt_card (Finset.ssubset_iff_subset_ne.2 ⟨fun file' h => ?_, fun heq => ?_⟩)
  · obtain ⟨m', hm', hs'⟩ := mem_unregistered_iff.1 h
    rw [registering, get?_withModule] at hm'
    split at hm'
    · obtain ⟨m₀, -, rfl⟩ := Option.map_eq_some_iff.1 hm'
      cases hs'
    · exact mem_unregistered_iff.2 ⟨m', hm', hs'⟩
  · have hmem := mem_unregistered_iff.2 ⟨m, hm, hs⟩
    rw [← heq, mem_unregistered_iff] at hmem
    obtain ⟨m', hm', hs'⟩ := hmem
    rw [get?_registering hm, Option.some.injEq] at hm'
    subst hm'
    cases hs'

theorem add_spec (file : String) {d : Definition} (hnew : r.entry? d.id = none) :
    Step.Ensures (add file d) r fun _ r' => r'.modules = r.modules ∧
      r'.entry? d.id = some (entryOf file d) ∧ ∀ id, id ≠ d.id → r'.entry? id = r.entry? id := by
  refine .bind (P := fun a r' => a = r ∧ r' = r) (.get ⟨rfl, rfl⟩) ?_
  rintro _ _ ⟨rfl, rfl⟩
  rw [if_neg (by simp [contains, hnew])]
  refine .set ⟨rfl, ?_, fun id hid => ?_⟩
  · simp [Registry.entry?, Dict.get?_insert, entryOf]
  · have : d.id.text ≠ id.text := fun h => hid (CanonicalId.mk.injEq .. ▸ h.symm)
    simp [Registry.entry?, Dict.get?_insert, this]

/-- Elements added one by one, none of them being there yet. -/
theorem addAll_spec {α : Type} {file : α → String} (definition : α → Definition) (l : List α)
    (hnodup : (l.map fun a => (definition a).id).Nodup)
    (hnew : ∀ a ∈ l, r.entry? (definition a).id = none) :
    Step.Ensures (l.forM fun a => add (file a) (definition a)) r fun _ r' => r'.modules = r.modules ∧
      (∀ a ∈ l, r'.entry? (definition a).id = some (entryOf (file a) (definition a))) ∧
      ∀ id, id ∉ l.map (fun a => (definition a).id) → r'.entry? id = r.entry? id := by
  induction l generalizing r with
  | nil => exact .pure ⟨rfl, by simp, fun _ _ => rfl⟩
  | cons a rest ih =>
      rw [List.map_cons, List.nodup_cons] at hnodup
      refine .bind (add_spec (file a) (hnew a (by simp))) fun _ r₁ h₁ => ?_
      obtain ⟨hmodules, hself, hothers⟩ := h₁
      have hne : ∀ b ∈ rest, (definition b).id ≠ (definition a).id := by
        intro b hb h
        exact hnodup.1 (h ▸ List.mem_map.2 ⟨b, hb, rfl⟩)
      have hrest := ih (r := r₁) hnodup.2 fun b hb => by
        rw [hothers _ (hne b hb), hnew b (List.mem_cons_of_mem a hb)]
      refine hrest.mono fun _ r₂ h₂ => ?_
      obtain ⟨hmodules', hself', hothers'⟩ := h₂
      refine ⟨hmodules'.trans hmodules, fun b hb => ?_, fun id hid => ?_⟩
      · rcases List.mem_cons.1 hb with rfl | hb
        · rw [hothers' _ hnodup.1, hself]
        · exact hself' b hb
      · rw [List.map_cons, List.mem_cons, not_or] at hid
        rw [hothers' id hid.2, hothers id hid.1]

/-- No entry belongs to a module that is not registered. -/
theorem Filed.entry?_eq_none (h : r.Filed) (hd : Distinct r.modules)
    (hm : r.modules.get? file = some m) (hs : m.state ≠ .registered) {d : Definition}
    (hmem : d ∈ m.definition.elements) : r.entry? d.id = none := by
  cases he : r.entry? d.id with
  | none => rfl
  | some e =>
      obtain ⟨m', d', hm', hs', hmem', hid, -⟩ := h.entry he
      obtain rfl := hd.apart hm' hm hmem' hmem hid
      rw [hm, Option.some.injEq] at hm'
      exact absurd (hm' ▸ hs') hs

theorem Filed.registering (h : r.Filed) (hm : r.modules.get? file = some m)
    (hs : m.state = .unregistered) : (r.registering file).Filed where
  entry he := by
    obtain ⟨m', d, hm', hs', hrest⟩ := h.entry he
    refine ⟨m', d, ?_, hs', hrest⟩
    rw [Registry.registering, get?_withModule, if_neg, hm']
    rintro rfl
    rw [hm, Option.some.injEq] at hm'
    simp [← hm', hs] at hs'
  element := by
    intro file' m' d hm' hs' hd
    exact h.element (registered_of_registering hm' hs') hs' hd
  nodup := by
    intro file' m' hm' hs'
    exact h.nodup (registered_of_registering hm' hs') hs'

/-- Once its elements are there a module is registered. -/
theorem Filed.registered {m' : Module} (h : r.Filed) (hm : r.modules.get? file = some m)
    (hs : m.state ≠ .registered) (hnodup : (m.definition.elements.map (·.id)).Nodup)
    (hnew : ∀ d ∈ m.definition.elements, r.entry? d.id = none)
    (hself : ∀ d ∈ m.definition.elements, r'.entry? d.id = some (entryOf file d))
    (hothers : ∀ id, id ∉ m.definition.elements.map (·.id) → r'.entry? id = r.entry? id)
    (hmodules : ∀ file', r'.modules.get? file' =
      if file' = file then some m' else r.modules.get? file')
    (hdefinition : m'.definition = m.definition) (hs' : m'.state = .registered) : r'.Filed where
  entry := by
    intro id e he
    by_cases hid : id ∈ m.definition.elements.map (·.id)
    · obtain ⟨d, hd, rfl⟩ := List.mem_map.1 hid
      rw [hself d hd, Option.some.injEq] at he
      subst he
      exact ⟨m', d, (hmodules _).trans (if_pos rfl), hs', hdefinition ▸ hd, rfl, rfl⟩
    · rw [hothers id hid] at he
      obtain ⟨m₀, d, hm₀, hs₀, hrest⟩ := h.entry he
      refine ⟨m₀, d, ?_, hs₀, hrest⟩
      rw [hmodules, if_neg, hm₀]
      intro hfile
      rw [hfile, hm, Option.some.injEq] at hm₀
      exact hs (hm₀ ▸ hs₀)
  element := by
    intro file' m₀ d hm₀ hs₀ hd
    rw [hmodules] at hm₀
    split at hm₀
    · rename_i hfile
      rw [Option.some.injEq] at hm₀
      rw [← hm₀, hdefinition] at hd
      exact ⟨entryOf file d, hself d hd, hfile.symm⟩
    · obtain ⟨e, he, hfile⟩ := h.element hm₀ hs₀ hd
      refine ⟨e, ?_, hfile⟩
      rw [hothers, he]
      intro hmem
      obtain ⟨d', hd', hid⟩ := List.mem_map.1 hmem
      have := hnew d' hd'
      simp [hid, he] at this
  nodup := by
    intro file' m₀ hm₀ hs₀
    rw [hmodules] at hm₀
    split at hm₀
    · rw [Option.some.injEq] at hm₀
      rw [← hm₀, hdefinition]
      exact hnodup
    · exact h.nodup hm₀ hs₀

/-- A module that is not unregistered any more. -/
def Reached (r : Registry) (file : String) : Prop :=
  ∀ {m}, r.modules.get? file = some m → m.state ≠ .unregistered

theorem Reached.advances (h : r.Reached file) (ha : r.Advances r') : r'.Reached file := by
  intro m hm hs
  obtain ⟨m₀, hm₀, -, hstate⟩ := ha.exists_module hm
  rcases hstate with heq | ⟨hs₀, -⟩
  · exact h hm₀ (by rw [← heq, hs])
  · exact h hm₀ hs₀

theorem moduleIn?_spec (r : Registry) (file : String) :
    Step.Ensures (moduleIn? file) r fun a r' => a = r.modules.get? file ∧ r' = r := by
  refine .bind (P := fun a r' => a = r ∧ r' = r) (.get ⟨rfl, rfl⟩) ?_
  rintro _ _ ⟨rfl, rfl⟩
  exact .pure ⟨rfl, rfl⟩

/-- What registering a module does between its imports and its end: its elements are added. -/
theorem Advances.through (hm : r.modules.get? file = some m) (hs : m.state = .unregistered)
    (h : (r.registering file).Advances r₁)
    (hself : ∀ d ∈ m.definition.elements, r'.entry? d.id = some (entryOf file d))
    (hothers : ∀ id, id ∉ m.definition.elements.map (·.id) → r'.entry? id = r₁.entry? id)
    (hnew : ∀ d ∈ m.definition.elements, r₁.entry? d.id = none)
    (hmodules : ∀ file', r'.modules.get? file' = if file' = file then
      some { m with state := .registered, registrations := m.registrations + 1 }
      else r₁.modules.get? file') : r.Advances r' where
  module file' := by
    rw [hmodules]
    by_cases hfile : file' = file
    · subst hfile
      exact .inr ⟨m, hm, hs, if_pos rfl⟩
    · rw [if_neg hfile]
      simpa only [registering, get?_withModule, if_neg hfile] using h.module file'
  kept := by
    intro id e he
    have he₁ := h.kept he
    rw [hothers, he₁]
    intro hmem
    obtain ⟨d, hd, rfl⟩ := List.mem_map.1 hmem
    simp [hnew d hd] at he₁
  fresh := by
    intro id e he
    by_cases hid : id ∈ m.definition.elements.map (·.id)
    · obtain ⟨d, hd, rfl⟩ := List.mem_map.1 hid
      rw [hself d hd, Option.some.injEq] at he
      subst he
      refine .inr ⟨?_, rfl⟩
      cases he₀ : r.entry? d.id with
      | none => rfl
      | some e₀ =>
          have := h.kept he₀
          simp [hnew d hd] at this
    · rw [hothers id hid] at he
      exact h.fresh he

/-- A module stays as it is while its imports are registered. -/
theorem Advances.get?_registering (ha : (r.registering file).Advances r₁)
    (hm : r.modules.get? file = some m) :
    r₁.modules.get? file = some { m with state := .registering } := by
  have hself := Registry.get?_registering hm
  rcases ha.module file with heq | ⟨m', hm', hs', -⟩
  · rw [heq, hself]
  · rw [hself, Option.some.injEq] at hm'
    simp [← hm'] at hs'

/-- After its imports a module is registered, unless an id of its elements is taken. -/
theorem registerElements_spec {d : ModuleDefinition} {n : Nat}
    (hm : r.modules.get? file = some ⟨d, .unregistered, n⟩) (h : r₁.Filed)
    (ha : (r.registering file).Advances r₁) (hnodup : (d.elements.map (·.id)).Nodup)
    (hnew : ∀ d' ∈ d.elements, r₁.entry? d'.id = none) :
    Step.Ensures (do
      d.elements.forM (add file)
      setState file .registered
      countRegistration file) r₁ fun _ r' => r'.Filed ∧ r.Advances r' ∧ r'.Reached file := by
  have hm₁ := ha.get?_registering hm
  refine .bind (addAll_spec (fun d => d) d.elements hnodup hnew) fun _ r₂ h₂ => ?_
  obtain ⟨hmodules, hadded, hothers⟩ := h₂
  refine .bind (P := fun _ r' => r' = r₂.withModule file fun m => { m with state := .registered })
    (.modify rfl) ?_
  rintro _ _ rfl
  have hmodules' : ∀ file', ((r₂.withModule file fun m => { m with state := .registered }).withModule
      file fun m => { m with registrations := m.registrations + 1 }).modules.get? file' =
        if file' = file then some ⟨d, .registered, n + 1⟩ else r₁.modules.get? file' := by
    intro file'
    rw [get?_withModule, get?_withModule, hmodules]
    by_cases hfile : file' = file
    · simp [hfile, hm₁]
    · simp [hfile]
  refine .modify ⟨?_, ?_, ?_⟩
  · exact h.registered hm₁ (by simp) hnodup hnew hadded hothers hmodules' rfl rfl
  · exact Advances.through hm rfl ha hadded hothers hnew hmodules'
  · intro m hm'
    have := (hmodules' file).symm.trans hm'
    rw [if_pos rfl, Option.some.injEq] at this
    simp [← this]

/-- One unregistered module is registered where its imports are. -/
theorem registerUnregistered_spec {d : ModuleDefinition} {n : Nat} {imports : Step Unit}
    (hd : Distinct r.modules) (hm : r.modules.get? file = some ⟨d, .unregistered, n⟩)
    (himports : Step.Ensures imports (r.registering file) fun _ r₁ =>
      r₁.Filed ∧ (r.registering file).Advances r₁) :
    Step.Ensures (do
      setState file .registering
      imports
      d.elements.forM (add file)
      setState file .registered
      countRegistration file) r fun _ r' => r'.Filed ∧ r.Advances r' ∧ r'.Reached file := by
  refine .bind (P := fun _ r' => r' = r.registering file) (.modify rfl) ?_
  rintro _ _ rfl
  refine .bind himports fun _ r₁ h₁ => ?_
  obtain ⟨hfiled, ha⟩ := h₁
  have hm₁ := ha.get?_registering hm
  have hd₁ := ha.distinct (hd.registering file)
  exact registerElements_spec hm hfiled ha (hd₁.nodup hm₁) fun d' hd' =>
    hfiled.entry?_eq_none hd₁ hm₁ (by simp) hd'

/-- Registering a module goes through. Modules that are being registered are passed over, so each
call that goes deeper finds one unregistered module less. -/
theorem registerModule_spec (fuel : Nat) (file : String) (h : r.Filed) (hd : Distinct r.modules)
    (hfuel : (unregistered r.modules).card < fuel) :
    Step.Ensures (registerModule fuel file) r fun _ r' =>
      r'.Filed ∧ r.Advances r' ∧ r'.Reached file := by
  induction fuel generalizing r file with
  | zero => omega
  | succ fuel ih =>
      rw [registerModule]
      refine .bind (moduleIn?_spec r file) ?_
      rintro _ r ⟨rfl, rfl⟩
      split
      · rename_i d n hm
        refine registerUnregistered_spec hd hm ?_
        have hcard := unregistered_registering hm rfl
        refine .forM ⟨h.registering hm rfl, .refl _⟩ fun file' _ r₁ h₁ => ?_
        obtain ⟨hfiled, ha⟩ := h₁
        have hle := Finset.card_le_card ha.unregistered_subset
        refine (ih file' hfiled (ha.distinct (hd.registering file)) (by omega)).mono fun _ r₂ h₂ => ?_
        exact ⟨h₂.1, ha.trans h₂.2.1⟩
      · rename_i hnot
        refine .pure ⟨h, .refl r, fun {m} hm hs => ?_⟩
        obtain ⟨d, state, n⟩ := m
        obtain rfl : state = .unregistered := hs
        exact hnot d n hm

/-! ### All modules -/

theorem register_spec (file : String) (h : r.Filed) (hd : Distinct r.modules) :
    Step.Ensures (register file) r fun _ r' => r'.Filed ∧ r.Advances r' ∧ r'.Reached file := by
  refine .bind (P := fun a r' => a = r ∧ r' = r) (.get ⟨rfl, rfl⟩) ?_
  rintro _ r ⟨rfl, rfl⟩
  exact registerModule_spec _ file h hd (Nat.lt_succ_of_le (card_unregistered_le _))

theorem registerNew_spec (count : Nat) (file : String) (h : r.Filed) (hd : Distinct r.modules) :
    Step.Ensures (registerNew count file) r fun _ r' => r'.Filed ∧ r.Advances r' ∧ r'.Reached file := by
  refine .bind (P := fun a r' => a = r ∧ r' = r) (.get ⟨rfl, rfl⟩) ?_
  rintro _ r ⟨rfl, rfl⟩
  split
  · exact .bind (register_spec file h hd) fun _ _ h' => .pure h'
  · rename_i hstate
    refine .pure ⟨h, .refl r, fun {m} hm hs => hstate ?_⟩
    rw [moduleState?, hm, Option.map_some, hs]

/-- Registering all modules goes through and leaves none behind. -/
theorem registerAll_spec (h : r.Filed) (hd : Distinct r.modules) :
    Step.Ensures registerAll r fun _ r' => r'.Filed ∧ r.Advances r' ∧ ∀ file, r'.Reached file := by
  have hfold : ∀ (l : List String) (count : Nat) (r₁ : Registry), r₁.Filed → r.Advances r₁ →
      Step.Ensures (l.foldlM registerNew count) r₁ fun _ r' =>
        r'.Filed ∧ r.Advances r' ∧ r₁.Advances r' ∧ ∀ file ∈ l, r'.Reached file := by
    intro l
    induction l with
    | nil => exact fun _ r₁ h₁ ha => .pure ⟨h₁, ha, .refl r₁, by simp⟩
    | cons file rest ih =>
        intro count r₁ h₁ ha
        rw [List.foldlM_cons]
        refine .bind (registerNew_spec count file h₁ (ha.distinct hd)) fun n r₂ h₂ => ?_
        obtain ⟨hfiled, ha₂, hreached⟩ := h₂
        refine (ih n r₂ hfiled (ha.trans ha₂)).mono fun _ r₃ h₃ => ?_
        obtain ⟨hfiled₃, ha₃, ha₂₃, hrest⟩ := h₃
        refine ⟨hfiled₃, ha₃, ha₂.trans ha₂₃, fun file' hmem => ?_⟩
        rcases List.mem_cons.1 hmem with rfl | hmem
        · exact hreached.advances ha₂₃
        · exact hrest file' hmem
  refine .bind (P := fun a r' => a = r ∧ r' = r) (.get ⟨rfl, rfl⟩) ?_
  rintro _ r ⟨rfl, rfl⟩
  refine (hfold r.modules.keys 0 r h (.refl r)).mono fun _ r' h' => ?_
  obtain ⟨hfiled, ha, -, hreached⟩ := h'
  refine ⟨hfiled, ha, fun file m hm => ?_⟩
  obtain ⟨m₀, hm₀, -⟩ := ha.exists_module hm
  exact hreached file (Dict.mem_keys_iff.2 (by rw [hm₀]; rfl)) hm

/-! ### Values beside new entries -/

/-- Entries without values are added, if anything changes in the entries. -/
structure Adds (r r' : Registry) : Prop where
  kept : ∀ {id e}, r.entry? id = some e → r'.entry? id = some e
  fresh : ∀ {id e}, r'.entry? id = some e → r.entry? id = some e ∨ e.value = none

theorem Adds.refl (r : Registry) : r.Adds r := ⟨id, .inl⟩

theorem Advances.adds (h : r.Advances r') : r.Adds r' := ⟨h.kept, fun he => (h.fresh he).imp_right And.right⟩

theorem Adds.value?_eq (h : r.Adds r') (id : CanonicalId) : r'.value? id = r.value? id := by
  cases he : r.entry? id with
  | some e => rw [value?, value?, h.kept he, he]
  | none =>
      cases he' : r'.entry? id with
      | none => rw [value?, value?, he, he']
      | some e' =>
          rcases h.fresh he' with heq | hv
          · simp [he] at heq
          · simp [value?, he, he', hv]

/-- Values stay and hold as before beside entries that are added. -/
theorem CoherentBy.adds {P : Effect Value → Outcome Value → Prop} (h : r.CoherentBy P) (ha : r.Adds r') :
    r'.CoherentBy P := by
  have hentry : ∀ {id}, r.Grounded id → r'.entry? id = r.entry? id := by
    intro id hid
    obtain ⟨v, hv⟩ := hid.value
    obtain ⟨e, he, -⟩ := value?_eq_some_iff.1 hv
    rw [ha.kept he, he]
  constructor
  · intro id v hv
    rw [ha.value?_eq] at hv
    have hid := h.grounded hv
    clear hv
    induction hid with
    | @intro id v value dependencies ih =>
        have hid : r'.entry? id = r.entry? id := hentry (.intro value dependencies)
        refine .intro (by rw [value?, hid]; exact value) fun x hx => ih x ?_
        rwa [DependsOn, dependenciesOf, hid] at hx
  · intro id v hv
    rw [ha.value?_eq] at hv
    have hid := h.grounded hv
    obtain ⟨e, c, he, hc, ho⟩ := h.holds hv
    refine ⟨e, c, by rw [hentry hid, he], hc.frame ?_ fun x hx => hentry (hid.of_transGen hx), ho⟩
    rw [dependenciesOf, dependenciesOf, hentry hid]

/-- What is registered is all that changes. -/
theorem CoherentBy.advances {P : Effect Value → Outcome Value → Prop} (h : r.CoherentBy P)
    (ha : r.Advances r') : r'.CoherentBy P :=
  h.adds ha.adds

end StaticGql.Registry
