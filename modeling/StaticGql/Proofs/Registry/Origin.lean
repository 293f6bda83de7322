import StaticGql.Proofs.Registry.Commands
import StaticGql.Registry.Modules

/-!
Where the elements of a registry come from. What has been said of all elements that modules bring stays
true of whatever is registered, also where a step stops halfway, and evaluating adds nothing but values.
-/

namespace StaticGql.Registry

variable {r r' : Registry} {id : CanonicalId} {e : Entry} {m : Module} {file : String}
  {d : ModuleDefinition} {P : Definition → Prop} {scheduler : Scheduler}

/-! ### Steps that may stop halfway -/

namespace Step

variable {α β : Type} {x : Step α} {f : α → Step β} {I : Registry → Prop}

/-- However the step ends, this holds of what it leaves. -/
def Leaves (x : Step α) (r : Registry) (I : Registry → Prop) : Prop := I (x.run.run r).2

theorem Leaves.bind (hx : Leaves x r I)
    (hf : ∀ a r', x.run.run r = (.ok a, r') → I r' → Leaves (f a) r' I) : Leaves (x >>= f) r I := by
  rw [Leaves] at hx
  rw [Leaves, ExceptT.run_bind, StateT.run_bind]
  rcases hrun : x.run.run r with ⟨e | a, r'⟩
  · rw [hrun] at hx
    exact hx
  · rw [hrun] at hx
    exact hf a r' hrun hx

theorem Leaves.discard (hx : Leaves x r I) : Leaves (discard x) r I := by
  rw [discard_eq]
  exact hx.bind fun _ _ _ h => h

/-- A step that looks at the registry first. -/
theorem Leaves.get_bind {f : Registry → Step β} (h : Leaves (f r) r I) :
    Leaves (MonadState.get >>= f) r I := h

/-- What each round keeps up is there after all of them. -/
theorem Leaves.forM {γ : Type} {g : γ → Step PUnit} {l : List γ} (h : I r)
    (hstep : ∀ a ∈ l, ∀ r', I r' → Leaves (g a) r' I) : Leaves (l.forM g) r I := by
  induction l generalizing r with
  | nil => exact h
  | cons a rest ih =>
      refine .bind (hstep a (by simp) r h) fun _ r' _ hr' => ?_
      exact ih hr' fun b hb => hstep b (List.mem_cons_of_mem a hb)

theorem Leaves.foldlM {γ : Type} {g : β → γ → Step β} {l : List γ} {b : β} (h : I r)
    (hstep : ∀ b a r', I r' → Leaves (g b a) r' I) : Leaves (l.foldlM g b) r I := by
  induction l generalizing r b with
  | nil => exact h
  | cons a rest ih =>
      rw [List.foldlM_cons]
      exact .bind (hstep b a r h) fun _ r' _ hr' => ih hr'

end Step

/-! ### What outlasts registering -/

/-- What stays true where the state of a module changes, and where an element is added that is of the
sort of all elements that modules bring. -/
structure Lasting (Q : Definition → Prop) (I : Registry → Prop) : Prop where
  element : ∀ {r file m d}, I r → r.modules.get? file = some m → d ∈ m.definition.elements → Q d
  withModule : ∀ {r} {f : Module → Module} (file : String), (∀ m, (f m).definition = m.definition) →
    (∀ m, (f m).state = .unregistered → m.state = .unregistered) → I r → I (r.withModule file f)
  withEntry : ∀ {r d} (file : String), Q d → r.entry? d.id = none → I r →
    I { r with entries := r.entries.insert d.id.text (entryOf file d) }

namespace Lasting

variable {Q : Definition → Prop} {I : Registry → Prop}

theorem add {d : Definition} (hI : Lasting Q I) (hd : Q d) (file : String) (h : I r) :
    Step.Leaves (add file d) r I := by
  refine .get_bind ?_
  split
  · exact h
  · rename_i hnew
    exact hI.withEntry file hd (by simpa [contains] using hnew) h

/-- Whether it goes through or stops halfway. -/
theorem registerModule (hI : Lasting Q I) (fuel : Nat) (file : String) (h : I r) :
    Step.Leaves (registerModule fuel file) r I := by
  induction fuel generalizing r file with
  | zero => exact h
  | succ fuel ih =>
      rw [Registry.registerModule]
      refine .bind h fun a r₁ hrun h₁ => ?_
      cases hrun
      split
      · rename_i d n hm
        have hd := fun d' => hI.element (d := d') h hm
        refine .bind (hI.withModule file (fun _ => rfl) (fun _ hs => by cases hs) h) fun _ r₁ _ h₁ => ?_
        refine .bind (.forM h₁ fun file' _ _ h' => ih file' h') fun _ r₂ _ h₂ => ?_
        refine .bind (.forM h₂ fun d' hd' _ h' => hI.add (hd d' hd') file h') fun _ r₃ _ h₃ => ?_
        refine .bind (hI.withModule file (fun _ => rfl) (fun _ hs => by cases hs) h₃) fun _ r₄ _ h₄ => ?_
        exact hI.withModule file (fun _ => rfl) (fun _ hs => hs) h₄
      · exact h

theorem register (hI : Lasting Q I) (file : String) (h : I r) : Step.Leaves (register file) r I :=
  .get_bind (hI.registerModule _ file h)

theorem exports? (hI : Lasting Q I) (file : String) (h : I r) : Step.Leaves (exports? file) r I :=
  .bind (hI.register file h) fun _ _ _ h' => h'

theorem registerNew (hI : Lasting Q I) (count : Nat) (file : String) (h : I r) :
    Step.Leaves (registerNew count file) r I := by
  refine .get_bind ?_
  split
  · exact .bind (hI.register file h) fun _ _ _ h' => h'
  · exact h

theorem registerAll (hI : Lasting Q I) (h : I r) : Step.Leaves registerAll r I :=
  .get_bind (.foldlM h fun count file _ h' => hI.registerNew count file h')

end Lasting

/-! ### What elements stem from -/

def Entry.definition (id : CanonicalId) (e : Entry) : Definition := ⟨id, e.kind, e.dependencies, e.factory⟩

/-- All elements are of this sort, those that are registered and those that modules would add. -/
structure StemsFrom (P : Definition → Prop) (r : Registry) : Prop where
  entry : ∀ {id e}, r.entry? id = some e → P (e.definition id)
  element : ∀ {file m d}, r.modules.get? file = some m → d ∈ m.definition.elements → P d

theorem StemsFrom.empty (P : Definition → Prop) : StemsFrom P empty := ⟨nofun, nofun⟩

theorem StemsFrom.mono {Q : Definition → Prop} (h : r.StemsFrom P) (hPQ : ∀ d, P d → Q d) :
    r.StemsFrom Q :=
  ⟨fun he => hPQ _ (h.entry he), fun hm hd => hPQ _ (h.element hm hd)⟩

theorem StemsFrom.of_blank (h : r.StemsFrom P) (hb : r'.blank = r.blank) : r'.StemsFrom P where
  entry he := by
    obtain ⟨v, he⟩ := entry?_of_blank hb he
    have := h.entry he
    exact this
  element hm := h.element (modules_of_blank hb ▸ hm)

/-! ### Modules that go and come -/

theorem StemsFrom.dropModule (h : r.StemsFrom P) (file : String) : (r.dropModule file).2.2.StemsFrom P where
  entry he := by
    obtain ⟨-, v, he⟩ := entry?_dropModule he
    have := h.entry he
    exact this
  element hm := h.element (get?_dropModule hm).2

theorem StemsFrom.place (h : r.StemsFrom P) (hd : ∀ d' ∈ d.elements, P d') : (r.place d).StemsFrom P where
  entry he := h.entry he
  element hm hmem := by
    obtain ⟨-, rfl⟩ | hm := of_get?_place hm
    · exact hd _ hmem
    · exact h.element hm hmem

theorem StemsFrom.install (h : r.StemsFrom P) (hd : ∀ d' ∈ d.elements, P d') :
    (r.install d).2.StemsFrom P := by
  rw [install_eq]
  split
  · exact (h.dropModule d.file).place hd
  · exact h.place hd

theorem StemsFrom.removeStale (h : r.StemsFrom P) (modules : Dict ModuleDefinition) :
    (r.removeStale modules).StemsFrom P := by
  rw [Registry.removeStale]
  generalize r.modules.keys.filter _ = l
  induction l generalizing r with
  | nil => exact h
  | cons file rest ih => exact ih (h.dropModule file)

theorem StemsFrom.renew (h : r.StemsFrom P) (hd : ∀ d' ∈ d.elements, P d') : (r.renew d).StemsFrom P := by
  rw [Registry.renew]
  split
  · exact h
  · exact h.install hd

theorem StemsFrom.sync {modules : Dict ModuleDefinition} (h : r.StemsFrom P)
    (hmodules : ∀ d ∈ modules.values, ∀ d' ∈ d.elements, P d') : (r.sync modules).StemsFrom P := by
  have hstale := h.removeStale modules
  rw [Registry.sync]
  generalize r.removeStale modules = r₁ at hstale
  generalize modules.values = l at hmodules
  induction l generalizing r₁ with
  | nil => exact hstale
  | cons d rest ih =>
      refine ih _ (hstale.renew (hmodules d (by simp))) fun d' hd' => ?_
      exact hmodules d' (List.mem_cons_of_mem d hd')

/-! ### Registering -/

theorem StemsFrom.withModule (h : r.StemsFrom P) (file : String) {f : Module → Module}
    (hf : ∀ m, (f m).definition = m.definition) : (r.withModule file f).StemsFrom P where
  entry he := h.entry he
  element hm hmem := by
    rw [get?_withModule] at hm
    split at hm
    · obtain ⟨m₀, hm₀, rfl⟩ := Option.map_eq_some_iff.1 hm
      rw [hf] at hmem
      exact h.element hm₀ hmem
    · exact h.element hm hmem

theorem StemsFrom.withEntry {d : Definition} (h : r.StemsFrom P) (hd : P d) (file : String) :
    StemsFrom P { r with entries := r.entries.insert d.id.text (entryOf file d) } where
  entry := by
    intro ⟨k⟩ e he
    rw [Registry.entry?, Dict.get?_insert] at he
    split at he
    · rename_i hid
      obtain rfl : d.id.text = k := hid
      cases he
      exact hd
    · exact h.entry he
  element hm := h.element hm

theorem lasting_stemsFrom (P : Definition → Prop) : Lasting P (StemsFrom P) where
  element h hm hd := h.element hm hd
  withModule file hf _ h := h.withModule file hf
  withEntry file hd _ h := h.withEntry hd file

theorem StemsFrom.registerAll (h : r.StemsFrom P) : Step.Leaves registerAll r (StemsFrom P) :=
  (lasting_stemsFrom P).registerAll h

/-! ### Evaluating -/

theorem blank_commit (r : Registry) (outcomes : List (CanonicalId × Outcome Value)) :
    (r.commit outcomes).2.blank = r.blank := by
  induction outcomes generalizing r with
  | nil => rfl
  | cons p rest ih =>
      obtain ⟨id, e | v⟩ := p
      · rfl
      · exact (ih _).trans (blank_store r id v)

theorem blank_evaluateLevels (r : Registry) (count : Nat) (levels : List (List CanonicalId)) :
    (evaluateLevels scheduler r count levels).2.blank = r.blank := by
  induction levels generalizing r count with
  | nil => rfl
  | cons level rest ih =>
      rw [evaluateLevels]
      split
      · rfl
      · rename_i outcomes _
        have hcommit := blank_commit r outcomes
        split
        · rename_i hr
          rwa [hr] at hcommit
        · rename_i hr
          rw [hr] at hcommit
          exact (ih _ _).trans hcommit

theorem blank_evaluatePending (r : Registry) : (r.evaluatePending scheduler).2.blank = r.blank := by
  rw [evaluatePending]
  split
  · rfl
  · exact blank_evaluateLevels r 0 _

theorem StemsFrom.evaluate (h : r.StemsFrom P) (scheduler : Scheduler) :
    Step.Leaves (evaluate scheduler) r (StemsFrom P) := by
  refine .bind h.registerAll.discard fun _ r₁ _ h₁ => .get_bind ?_
  exact h₁.of_blank (blank_evaluatePending r₁)

end StaticGql.Registry
