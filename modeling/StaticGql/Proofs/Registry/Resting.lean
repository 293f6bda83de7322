import StaticGql.Proofs.Registry.Levels
import StaticGql.Proofs.Registry.Registration

/-!
Forgetting: where a value goes, so do those of all that depends on it. What is kept therefore lies over
kept values alone, and a coherent registry stays coherent.

Registries at rest, as they are found between two operations: no module is being registered, and the
elements are those of the registered modules.
-/

namespace StaticGql.Registry

open Relation

variable {r r' : Registry} {id x y : CanonicalId} {ids : List CanonicalId} {e : Entry} {v : Value}
  {file : String} {P : Effect Value → Outcome Value → Prop}

/-! ### What is affected -/

theorem mem_dependentsOf_iff : id ∈ r.dependentsOf ids ↔ ∃ x ∈ ids, r.DependsOn id x := by
  rw [dependentsOf, mem_ids_iff]
  constructor
  · rintro ⟨e, he, hx⟩
    obtain ⟨x, hx, hids⟩ := List.any_eq_true.1 hx
    refine ⟨x, by simpa using hids, ?_⟩
    rwa [DependsOn, dependenciesOf_of_entry he]
  · rintro ⟨x, hids, hx⟩
    obtain ⟨e, he, hmem⟩ := hx.exists_entry
    exact ⟨e, he, List.any_eq_true.2 ⟨x, hmem, by simpa using hids⟩⟩

/-- Elements that are not among `ids`. -/
def others (r : Registry) (ids : List CanonicalId) : List CanonicalId :=
  (r.entries.toList.filter fun q => (⟨q.1⟩ : CanonicalId) ∉ ids).map fun q => ⟨q.1⟩

theorem mem_others_iff : id ∈ r.others ids ↔ (∃ e, r.entry? id = some e) ∧ id ∉ ids := by
  rw [others, mem_ids_iff]
  simp

theorem length_others_lt {more : List CanonicalId} (hx : x ∈ r.others ids) (hmore : x ∈ more) :
    (r.others (ids ++ more)).length < (r.others ids).length := by
  have hfilter : r.others (ids ++ more) = (r.others ids).filter (· ∉ more) := by
    simp [others, List.filter_map, List.filter_filter, Function.comp_def, Bool.and_comm]
  rw [hfilter]
  exact List.length_filter_lt_length_iff_exists.2 ⟨x, hx, by simpa using hmore⟩

theorem subset_affected (fuel : Nat) (ids : List CanonicalId) : ids ⊆ r.affected fuel ids := by
  induction fuel generalizing ids with
  | zero => exact fun _ hx => hx
  | succ fuel ih =>
      rw [affected]
      split
      · exact fun _ hx => hx
      · exact fun _ hx => ih _ (List.mem_append_left _ hx)

/-- Whatever depends on something affected is affected. Each step takes in one element more, so as
many steps as there are elements suffice. -/
theorem affected_closed (fuel : Nat) (ids : List CanonicalId) (hfuel : (r.others ids).length ≤ fuel)
    (hid : r.DependsOn id x) (hx : x ∈ r.affected fuel ids) : id ∈ r.affected fuel ids := by
  induction fuel generalizing ids with
  | zero =>
      rw [affected] at hx ⊢
      by_contra hnot
      obtain ⟨e, he, -⟩ := hid.exists_entry
      have := List.length_pos_of_mem (mem_others_iff.2 ⟨⟨e, he⟩, hnot⟩)
      omega
  | succ fuel ih =>
      rw [affected] at hx ⊢
      split at hx
      · rename_i hmore
        rw [if_pos hmore]
        by_contra hnot
        have : id ∈ (r.dependentsOf ids).filter (· ∉ ids) :=
          List.mem_filter.2 ⟨mem_dependentsOf_iff.2 ⟨x, hx, hid⟩, by simpa using hnot⟩
        rw [List.isEmpty_iff.1 hmore] at this
        cases this
      · rename_i hmore
        rw [if_neg hmore]
        obtain ⟨y, hy⟩ := List.exists_mem_of_ne_nil _ fun e => hmore (List.isEmpty_iff.2 e)
        have hother : y ∈ r.others ids := by
          obtain ⟨hdep, hnot⟩ := List.mem_filter.1 hy
          obtain ⟨z, -, hz⟩ := mem_dependentsOf_iff.1 hdep
          obtain ⟨e, he, -⟩ := hz.exists_entry
          exact mem_others_iff.2 ⟨⟨e, he⟩, by simpa using hnot⟩
        exact ih _ (Nat.le_of_lt_succ ((length_others_lt hother hy).trans_le hfuel)) hx

theorem length_others_le (r : Registry) (ids : List CanonicalId) :
    (r.others ids).length ≤ r.entries.size := by
  rw [others, List.length_map]
  exact List.length_filter_le _ _

/-! ### Invalidating -/

theorem entry?_invalidate (r : Registry) (ids : List CanonicalId) (id : CanonicalId) :
    Registry.entry? (r.invalidate ids).2 id =
      (r.entry? id).map fun e =>
        if id ∈ r.affected r.entries.size ids then { e with value := none } else e :=
  Dict.get?_map _ _ _

/-- Whatever keeps its value is as it was, and nothing that it depends on is among `ids`. -/
theorem invalidate_kept (h : (r.invalidate ids).2.value? id = some v) :
    Registry.entry? (r.invalidate ids).2 id = r.entry? id ∧ id ∉ ids ∧
      ∀ x, r.DependsOn id x → x ∉ ids ∧ Registry.entry? (r.invalidate ids).2 x = r.entry? x := by
  have hkept : ∀ x, x ∉ r.affected r.entries.size ids →
      Registry.entry? (r.invalidate ids).2 x = r.entry? x := by
    intro x hx
    rw [entry?_invalidate]
    simp [hx]
  have hid : id ∉ r.affected r.entries.size ids := by
    intro hid
    rw [value?, entry?_invalidate] at h
    cases he : r.entry? id <;> simp [he, hid] at h
  refine ⟨hkept id hid, fun hmem => hid (subset_affected _ _ hmem), fun x hx => ?_⟩
  have hx : x ∉ r.affected r.entries.size ids := fun hmem =>
    hid (affected_closed _ _ (length_others_le r ids) hx hmem)
  exact ⟨fun hmem => hx (subset_affected _ _ hmem), hkept x hx⟩

/-! ### What is kept stays coherent -/

/-- Values may go from a coherent registry, and whole elements, as long as what keeps its value keeps
those that it depends on. -/
theorem CoherentBy.restrict (h : r.CoherentBy P)
    (hkept : ∀ {id v}, r'.value? id = some v →
      r'.entry? id = r.entry? id ∧ ∀ x, r.DependsOn id x → r'.entry? x = r.entry? x) :
    r'.CoherentBy P := by
  have hvalue : ∀ {id v}, r'.value? id = some v → r.value? id = some v := by
    intro id v hv
    rw [value?, ← (hkept hv).1]
    exact hv
  have hdeps : ∀ {id v}, r'.value? id = some v → r'.dependenciesOf id = r.dependenciesOf id := by
    intro id v hv
    rw [dependenciesOf, dependenciesOf, (hkept hv).1]
  have hall : ∀ {id}, r.Grounded id → (∃ v, r'.value? id = some v) →
      r'.Grounded id ∧ ∀ x, TransGen r.DependsOn id x → r'.entry? x = r.entry? x := by
    intro id hid
    induction hid with
    | @intro id v _ dependencies ih =>
        rintro ⟨w, hw⟩
        have hdown : ∀ x, r.DependsOn id x → ∃ v, r'.value? x = some v := by
          intro x hx
          obtain ⟨v, hv⟩ := (dependencies x hx).value
          exact ⟨v, by rw [value?, (hkept hw).2 x hx]; exact hv⟩
        refine ⟨.intro hw fun x hx => ?_, fun x hx => ?_⟩
        · rw [DependsOn, hdeps hw] at hx
          exact (ih x hx (hdown x hx)).1
        · obtain ⟨y, hy, hyx⟩ := TransGen.head'_iff.1 hx
          rcases reflTransGen_iff_eq_or_transGen.1 hyx with rfl | hyx
          · exact (hkept hw).2 x hy
          · exact (ih y hy (hdown y hy)).2 x hyx
  constructor
  · intro id v hv
    exact (hall (h.grounded (hvalue hv)) ⟨v, hv⟩).1
  · intro id v hv
    obtain ⟨e, c, he, hc, ho⟩ := h.holds (hvalue hv)
    have := (hall (h.grounded (hvalue hv)) ⟨v, hv⟩).2
    exact ⟨e, c, by rw [(hkept hv).1, he], hc.frame (hdeps hv) this, ho⟩

theorem CoherentBy.invalidate (h : r.CoherentBy P) (ids : List CanonicalId) :
    (r.invalidate ids).2.CoherentBy P := by
  refine h.restrict fun {id v} hv => ?_
  obtain ⟨hid, -, hx⟩ := invalidate_kept hv
  exact ⟨hid, fun x hx' => (hx x hx').2⟩

/-! ### Dropping a module -/

/-- The registry without a module and its elements, whatever depends on them. -/
def without (r : Registry) (file : String) : Registry :=
  ⟨r.modules.erase file, r.entries.filter fun _ e => e.file ≠ file⟩

/-- The ids of the elements of a module. -/
def idsIn (r : Registry) (file : String) : List CanonicalId :=
  (r.entries.toList.filter fun q => q.2.file = file).map fun q => ⟨q.1⟩

theorem dropModule_eq (r : Registry) (file : String) :
    (r.dropModule file).2.2 = ((r.without file).invalidate (r.idsIn file)).2 := rfl

theorem entry?_without (r : Registry) (file : String) (id : CanonicalId) :
    Registry.entry? (r.without file) id = (r.entry? id).filter fun e => e.file ≠ file :=
  Dict.get?_filter _ _ _

theorem mem_idsIn_iff : id ∈ r.idsIn file ↔ ∃ e, r.entry? id = some e ∧ e.file = file := by
  rw [idsIn, mem_ids_iff]
  simp

/-- What is left of the entries after a module is dropped: those of other modules, perhaps without
their values. -/
theorem entry?_dropModule (h : Registry.entry? (r.dropModule file).2.2 id = some e) :
    e.file ≠ file ∧ ∃ v, r.entry? id = some { e with value := v } := by
  rw [dropModule_eq, entry?_invalidate, Option.map_eq_some_iff] at h
  obtain ⟨e', he', rfl⟩ := h
  rw [entry?_without, Option.filter_eq_some_iff] at he'
  obtain ⟨he', hfile⟩ := he'
  split
  · exact ⟨by simpa using hfile, e'.value, he'⟩
  · exact ⟨by simpa using hfile, e'.value, he'⟩

theorem exists_entry_dropModule (h : r.entry? id = some e) (hfile : e.file ≠ file) :
    ∃ v, Registry.entry? (r.dropModule file).2.2 id = some { e with value := v } := by
  rw [dropModule_eq, entry?_invalidate, entry?_without, h]
  simp only [Option.filter_some, hfile, ne_eq, not_false_eq_true, decide_true, if_true, Option.map_some]
  split
  · exact ⟨none, rfl⟩
  · exact ⟨e.value, rfl⟩

theorem modules_dropModule (r : Registry) (file : String) :
    (r.dropModule file).2.2.modules = r.modules.erase file := rfl

theorem CoherentBy.dropModule (h : r.CoherentBy P) (file : String) :
    (r.dropModule file).2.2.CoherentBy P := by
  have hleft : ∀ {x}, x ∉ r.idsIn file → Registry.entry? (r.without file) x = r.entry? x := by
    intro x hx
    rw [entry?_without]
    cases he : r.entry? x with
    | none => rfl
    | some e =>
        have : e.file ≠ file := fun hf => hx (mem_idsIn_iff.2 ⟨e, he, hf⟩)
        simp [this]
  refine h.restrict fun {id v} hv => ?_
  rw [dropModule_eq] at hv ⊢
  obtain ⟨hid, hnot, hx⟩ := invalidate_kept hv
  have hself := hleft hnot
  refine ⟨by rw [hid, hself], fun x hdep => ?_⟩
  have hdep : (r.without file).DependsOn id x := by
    rwa [DependsOn, dependenciesOf, hself]
  rw [(hx x hdep).2, hleft (hx x hdep).1]

end StaticGql.Registry

namespace StaticGql.Registry

variable {r r' : Registry} {id : CanonicalId} {e : Entry} {m : Module} {file : String}
  {d : ModuleDefinition}

/-- How the modules of a registry are found between two operations. -/
structure Resting (r : Registry) : Prop where
  filed : r.Filed
  placed : ∀ {file m}, r.modules.get? file = some m → m.definition.file = file
  idle : ∀ {file m}, r.modules.get? file = some m → m.state ≠ .registering

theorem Filed.empty : Filed empty := ⟨nofun, nofun, nofun⟩

theorem Resting.empty : Resting empty := ⟨.empty, nofun, nofun⟩

/-! ### Modules that go and come -/

/-- Modules may go from a registry at rest as long as their elements go with them. -/
theorem Resting.restrict (h : r.Resting) (hf : r'.Filed)
    (hmodules : ∀ {file m}, r'.modules.get? file = some m → r.modules.get? file = some m) :
    r'.Resting where
  filed := hf
  placed hm := h.placed (hmodules hm)
  idle hm := h.idle (hmodules hm)

theorem get?_dropModule {file' : String} (hm : (r.dropModule file).2.2.modules.get? file' = some m) :
    file ≠ file' ∧ r.modules.get? file' = some m := by
  rw [modules_dropModule, Dict.get?_erase] at hm
  split at hm
  · cases hm
  · exact ⟨‹_›, hm⟩

theorem Filed.dropModule (h : r.Filed) (file : String) : (r.dropModule file).2.2.Filed where
  entry := by
    intro id e he
    obtain ⟨hfile, v, he⟩ := entry?_dropModule he
    obtain ⟨m, d, hm, hs, hd, hid, hentry⟩ := h.entry he
    refine ⟨m, d, ?_, hs, hd, hid, hentry⟩
    rw [modules_dropModule, Dict.get?_erase, if_neg (Ne.symm hfile)]
    exact hm
  element := by
    intro file' m d hm hs hd
    obtain ⟨hfile, hm⟩ := get?_dropModule hm
    obtain ⟨e, he, rfl⟩ := h.element hm hs hd
    obtain ⟨v, hv⟩ := exists_entry_dropModule he (Ne.symm hfile)
    exact ⟨_, hv, rfl⟩
  nodup hm := h.nodup (get?_dropModule hm).2

theorem Resting.dropModule (h : r.Resting) (file : String) : (r.dropModule file).2.2.Resting :=
  h.restrict (h.filed.dropModule file) fun hm => (get?_dropModule hm).2

/-- The registry with a module under a file that has none. -/
def place (r : Registry) (d : ModuleDefinition) : Registry :=
  { r with modules := r.modules.insert d.file ⟨d, .unregistered, 0⟩ }

theorem get?_place (r : Registry) (d : ModuleDefinition) (file : String) :
    (r.place d).modules.get? file =
      if d.file = file then some ⟨d, .unregistered, 0⟩ else r.modules.get? file :=
  Dict.get?_insert _ _ _ _

theorem of_get?_place (hm : (r.place d).modules.get? file = some m) :
    (d.file = file ∧ m = ⟨d, .unregistered, 0⟩) ∨ r.modules.get? file = some m := by
  rw [get?_place] at hm
  split at hm
  · rename_i hfile
    exact .inl ⟨hfile, (Option.some.inj hm).symm⟩
  · exact .inr hm

theorem Filed.place (h : r.Filed) (hnew : r.modules.get? d.file = none) : (r.place d).Filed where
  entry := by
    intro id e he
    obtain ⟨m, d', hm, hrest⟩ := h.entry he
    refine ⟨m, d', ?_, hrest⟩
    rw [get?_place, if_neg, hm]
    intro hfile
    simp [← hfile, hnew] at hm
  element := by
    intro file m d' hm hs hd'
    obtain ⟨-, rfl⟩ | hm := of_get?_place hm
    · cases hs
    · exact h.element hm hs hd'
  nodup := by
    intro file m hm hs
    obtain ⟨-, rfl⟩ | hm := of_get?_place hm
    · cases hs
    · exact h.nodup hm hs

theorem Resting.place (h : r.Resting) (hnew : r.modules.get? d.file = none) : (r.place d).Resting where
  filed := h.filed.place hnew
  placed := by
    intro file m hm
    obtain ⟨hfile, rfl⟩ | hm := of_get?_place hm
    · exact hfile
    · exact h.placed hm
  idle := by
    intro file m hm
    obtain ⟨-, rfl⟩ | hm := of_get?_place hm
    · nofun
    · exact h.idle hm

theorem CoherentBy.place {P : Effect Value → Outcome Value → Prop} (h : r.CoherentBy P)
    (d : ModuleDefinition) : (r.place d).CoherentBy P :=
  h.restrict fun _ => ⟨rfl, fun _ _ => rfl⟩

theorem install_eq (r : Registry) (d : ModuleDefinition) :
    (r.install d).2 = if r.modules.contains d.file then (r.dropModule d.file).2.2.place d
      else r.place d := by
  rw [install]
  by_cases hm : r.modules.contains d.file = true
  · rw [if_pos hm, if_pos hm]
    rfl
  · rw [if_neg hm, if_neg hm]
    rfl

theorem get?_install (r : Registry) (d : ModuleDefinition) (file : String) :
    (r.install d).2.modules.get? file =
      if d.file = file then some ⟨d, .unregistered, 0⟩ else r.modules.get? file := by
  rw [install_eq]
  split
  · rw [get?_place, modules_dropModule, Dict.get?_erase]
    split <;> rfl
  · rw [get?_place]

theorem Resting.install (h : r.Resting) (d : ModuleDefinition) : (r.install d).2.Resting := by
  rw [install_eq]
  split
  · refine (h.dropModule d.file).place ?_
    rw [modules_dropModule, Dict.get?_erase, if_pos rfl]
  · rename_i hnew
    refine h.place ?_
    simpa [Dict.contains] using hnew

theorem CoherentBy.install {P : Effect Value → Outcome Value → Prop} (h : r.CoherentBy P)
    (d : ModuleDefinition) : (r.install d).2.CoherentBy P := by
  rw [install_eq]
  split
  · exact (h.dropModule d.file).place d
  · exact h.place d

/-! ### Values that go and come -/

theorem Filed.of_blank (h : r.Filed) (hb : r'.blank = r.blank) : r'.Filed := by
  have hmodules := modules_of_blank hb
  constructor
  · intro id e he
    obtain ⟨v, he⟩ := entry?_of_blank hb he
    have := h.entry he
    exact hmodules ▸ this
  · intro file m d hm hs hd
    obtain ⟨e, he, hfile⟩ := h.element (hmodules ▸ hm) hs hd
    obtain ⟨v, he⟩ := entry?_of_blank hb.symm he
    exact ⟨_, he, hfile⟩
  · intro file m hm
    exact h.nodup (hmodules ▸ hm)

theorem Resting.of_blank (h : r.Resting) (hb : r'.blank = r.blank) : r'.Resting :=
  h.restrict (h.filed.of_blank hb) fun hm => modules_of_blank hb ▸ hm

theorem blank_invalidate (r : Registry) (ids : List CanonicalId) :
    (r.invalidate ids).2.blank = r.blank := by
  unfold blank
  congr 1
  refine Dict.ext_get? fun k => ?_
  simp only [invalidate, Dict.get?_map, Option.map_map]
  refine congrFun (congrArg _ (funext fun e => ?_)) _
  simp only [Function.comp_apply]
  split <;> rfl

/-! ### Modules that are registered -/

theorem Resting.advances (h : r.Resting) (ha : r.Advances r') (hf : r'.Filed) : r'.Resting where
  filed := hf
  placed := by
    intro file m hm
    obtain ⟨m₀, hm₀, hdefinition, -⟩ := ha.exists_module hm
    exact hdefinition ▸ h.placed hm₀
  idle := by
    intro file m hm
    obtain ⟨m₀, hm₀, -, heq | ⟨-, hs⟩⟩ := ha.exists_module hm
    · exact heq ▸ h.idle hm₀
    · simp [hs]

end StaticGql.Registry
