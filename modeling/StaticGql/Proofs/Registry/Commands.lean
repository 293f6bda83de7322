import StaticGql.Proofs.Registry.Resting

/-!
Everything that can be done to a registry, in any order. Unless an id comes up a second time, which
ends the run, the registry is at rest after it, and its values are those that the factories of the
elements come to over the values around them.
-/

namespace StaticGql.Registry

variable {r r' r₁ : Registry} {id x : CanonicalId} {e : Entry} {v : Value} {m : Module} {file : String}

/-! ### Steps that may stop -/

namespace Step

variable {α β : Type} {x : Step α} {f : α → Step β} {P : α → Registry → Prop}
  {Q : β → Registry → Prop}

/-- If the step goes through from this registry, `P` holds of what it returns and leaves. -/
def Leads (x : Step α) (r : Registry) (P : α → Registry → Prop) : Prop :=
  ∀ a r', x.run.run r = (.ok a, r') → P a r'

theorem Ensures.leads (h : Ensures x r P) : Leads x r P := by
  obtain ⟨a, r', hx, ha⟩ := h
  intro b r'' hb
  rw [hx, Prod.mk.injEq, Except.ok.injEq] at hb
  obtain ⟨rfl, rfl⟩ := hb
  exact ha

theorem Leads.pure {a : α} (h : P a r) : Leads (Pure.pure a) r P := (Ensures.pure h).leads

theorem Leads.modify {g : Registry → Registry} {P : PUnit → Registry → Prop} (h : P ⟨⟩ (g r)) :
    Leads (modify g) r P :=
  (Ensures.modify h).leads

theorem Leads.get {P : Registry → Registry → Prop} (h : P r r) : Leads get r P := (Ensures.get h).leads

theorem Leads.set {P : PUnit → Registry → Prop} (h : P ⟨⟩ r') : Leads (set r') r P :=
  (Ensures.set h).leads

theorem run_bind_eq_ok {b : β} (h : (x >>= f).run.run r = (.ok b, r')) :
    ∃ a r₁, x.run.run r = (.ok a, r₁) ∧ (f a).run.run r₁ = (.ok b, r') := by
  simp only [ExceptT.run_bind, StateT.run_bind] at h
  rcases hx : x.run.run r with ⟨_ | a, r₁⟩
  · rw [hx] at h
    cases h
  · rw [hx] at h
    exact ⟨a, r₁, rfl, h⟩

theorem Leads.bind (hx : Leads x r P) (hf : ∀ a r', P a r' → Leads (f a) r' Q) :
    Leads (x >>= f) r Q := by
  intro b r' h
  obtain ⟨a, r₁, ha, hb⟩ := run_bind_eq_ok h
  exact hf a r₁ (hx a r₁ ha) b r' hb

theorem Leads.discard (hx : Leads x r P) : Leads (discard x) r fun _ r' => ∃ a, P a r' := by
  rw [discard_eq]
  exact hx.bind fun a r' ha => .pure ⟨a, ha⟩

theorem Leads.mono {P' : α → Registry → Prop} (h : Leads x r P) (hP : ∀ a r', P a r' → P' a r') :
    Leads x r P' :=
  fun a r' hx => hP a r' (h a r' hx)

/-- What each round keeps up is there after all of them. -/
theorem Leads.foldlM {γ : Type} {g : β → γ → Step β} {I : Registry → Prop} {l : List γ} {b : β} (h : I r)
    (hstep : ∀ b a r', I r' → Leads (g b a) r' fun _ => I) : Leads (l.foldlM g b) r fun _ => I := by
  induction l generalizing r b with
  | nil => exact .pure h
  | cons a rest ih =>
      rw [List.foldlM_cons]
      exact (hstep b a r h).bind fun _ r' hr' => ih hr'

theorem Leads.forM {γ : Type} {g : γ → Step PUnit} {I : Registry → Prop} {l : List γ} (h : I r)
    (hstep : ∀ a r', I r' → Leads (g a) r' fun _ => I) : Leads (l.forM g) r fun _ => I := by
  induction l generalizing r with
  | nil => exact .pure h
  | cons a rest ih => exact (hstep a r h).bind fun _ r' hr' => ih hr'

end Step

/-! ### Registering whatever there is -/

theorem entry?_of_add {d : Definition} {u : Unit} (h : (add file d).run.run r = (.ok u, r')) :
    r.entry? d.id = none := by
  cases he : r.entry? d.id with
  | none => rfl
  | some e =>
      obtain ⟨_, _, hget, h⟩ := Step.run_bind_eq_ok h
      cases hget
      rw [if_pos (by simp [contains, he])] at h
      cases h

/-- Elements are added only if their ids are new and differ from one another. -/
theorem new_of_addAll {α : Type} {file : α → String} (definition : α → Definition) {l : List α} {u : Unit}
    (h : (l.forM fun a => add (file a) (definition a)).run.run r = (.ok u, r')) :
    (l.map fun a => (definition a).id).Nodup ∧ ∀ a ∈ l, r.entry? (definition a).id = none := by
  induction l generalizing r with
  | nil => simp
  | cons a rest ih =>
      obtain ⟨u', r₁, hadd, hrest⟩ := Step.run_bind_eq_ok h
      have ha := entry?_of_add hadd
      obtain ⟨-, hself, hothers⟩ := (add_spec (file a) ha).leads u' r₁ hadd
      obtain ⟨hnodup, hnew⟩ := ih hrest
      have hne : ∀ a' ∈ rest, (definition a').id ≠ (definition a).id := by
        intro a' ha' hid
        have := hnew a' ha'
        simp [hid, hself] at this
      refine ⟨List.nodup_cons.2 ⟨fun hmem => ?_, hnodup⟩, fun a' ha' => ?_⟩
      · obtain ⟨a', ha', hid⟩ := List.mem_map.1 hmem
        exact hne a' ha' hid
      · rcases List.mem_cons.1 ha' with rfl | ha'
        · exact ha
        · rw [← hothers _ (hne a' ha'), hnew a' ha']

/-- Modules that have been registered on top of what there was. -/
structure Extends (r r' : Registry) : Prop where
  filed : r'.Filed
  advances : r.Advances r'

theorem Extends.refl (h : r.Filed) : r.Extends r := ⟨h, .refl r⟩

theorem Extends.trans (h : r.Extends r₁) (h' : r₁.Extends r') : r.Extends r' :=
  ⟨h'.filed, h.advances.trans h'.advances⟩

/-- Registering a module: if it goes through, whatever came with it is there as well. -/
theorem registerModule_leads (fuel : Nat) (file : String) (h : r.Filed) :
    Step.Leads (registerModule fuel file) r fun _ => r.Extends := by
  induction fuel generalizing r file with
  | zero => exact .pure (Extends.refl h)
  | succ fuel ih =>
      rw [registerModule]
      refine (moduleIn?_spec r file).leads.bind ?_
      rintro _ r ⟨rfl, rfl⟩
      split
      · rename_i d n hm
        refine .bind (P := fun _ r' => r' = r.registering file) (.modify rfl) ?_
        rintro _ _ rfl
        have himports := Step.Leads.forM (l := d.imports) (g := registerModule fuel)
          (Extends.refl (h.registering hm rfl)) fun file' r' h' => (ih file' h'.filed).mono fun _ _ => h'.trans
        refine himports.bind fun _ r₁ h₁ u r' hrun => ?_
        obtain ⟨u', r₂, hadded, -⟩ := Step.run_bind_eq_ok hrun
        obtain ⟨hnodup, hnew⟩ := new_of_addAll (fun d => d) hadded
        obtain ⟨hfiled, ha, -⟩ :=
          (registerElements_spec hm h₁.filed h₁.advances hnodup hnew).leads u r' hrun
        exact ⟨hfiled, ha⟩
      · exact .pure (Extends.refl h)

theorem register_leads (file : String) (h : r.Filed) :
    Step.Leads (register file) r fun _ => r.Extends := by
  refine .bind (P := fun a r' => a = r ∧ r' = r) (.get ⟨rfl, rfl⟩) ?_
  rintro _ r ⟨rfl, rfl⟩
  exact registerModule_leads _ file h

theorem exports?_leads (file : String) (h : r.Filed) :
    Step.Leads (exports? file) r fun _ => r.Extends := by
  refine (register_leads file h).bind fun _ r' h' => ?_
  refine (moduleIn?_spec r' file).leads.bind ?_
  rintro _ _ ⟨-, rfl⟩
  exact .pure h'

theorem registerNew_leads (count : Nat) (file : String) (h : r.Filed) :
    Step.Leads (registerNew count file) r fun _ => r.Extends := by
  refine .bind (P := fun a r' => a = r ∧ r' = r) (.get ⟨rfl, rfl⟩) ?_
  rintro _ r ⟨rfl, rfl⟩
  split
  · exact (register_leads file h).bind fun _ _ h' => .pure h'
  · exact .pure (Extends.refl h)

theorem registerAll_leads (h : r.Filed) : Step.Leads registerAll r fun _ => r.Extends := by
  refine .bind (P := fun a r' => a = r ∧ r' = r) (.get ⟨rfl, rfl⟩) ?_
  rintro _ r ⟨rfl, rfl⟩
  exact .foldlM (Extends.refl h) fun count file r' h' =>
    (registerNew_leads count file h'.filed).mono fun _ _ => h'.trans

/-! ### Commands -/

/-- Whatever may be asked of a registry. -/
inductive Command where
  | install (d : ModuleDefinition)
  | remove (file : String)
  | exports (file : String)
  | registerAll
  | invalidate (ids : List CanonicalId)
  | evaluate (scheduler : Scheduler)
  | clear

/-- A command done, whatever it answers; that an evaluation fails is an answer. -/
def Command.run : Command → Step Unit
  | install d => modify fun r => (r.install d).2
  | remove file => modify fun r => (r.removeModule file).2
  | exports file => discard (exports? file)
  | registerAll => discard Registry.registerAll
  | invalidate ids => modify fun r => (r.invalidate ids).2
  | evaluate scheduler => discard (Registry.evaluate scheduler)
  | clear => set Registry.empty

/-- Commands one after the other, up to one that stops at an id added twice. -/
def runAll (commands : List Command) (r : Registry) : Except RegisteredTwice Unit × Registry :=
  (commands.forM Command.run).run.run r

/-- How every command leaves a registry. -/
structure Sound (r : Registry) : Prop extends Resting r where
  coherent : r.CoherentBy Effect.ComesTo

theorem Sound.empty : Sound empty := ⟨.empty, nofun, nofun⟩

theorem Sound.extends (h : r.Sound) (hr : r.Extends r') : r'.Sound where
  toResting := h.toResting.advances hr.advances hr.filed
  coherent := h.coherent.advances hr.advances

theorem Sound.evaluatePending (h : r.Sound) (scheduler : Scheduler) :
    (r.evaluatePending scheduler).2.Sound := by
  obtain ⟨hcoherent, hgrows⟩ := evaluatePending_coherentBy scheduler h.coherent
  exact ⟨h.toResting.of_blank hgrows.blank, hcoherent⟩

theorem evaluate_leads (scheduler : Scheduler) (h : r.Sound) :
    Step.Leads (evaluate scheduler) r fun _ => Sound := by
  refine (registerAll_leads h.filed).discard.bind fun _ r₁ ⟨_, h₁⟩ => ?_
  refine .bind (P := fun a r' => a = r₁ ∧ r' = r₁) (.get ⟨rfl, rfl⟩) ?_
  rintro _ r₁ ⟨rfl, rfl⟩
  have hr := (h.extends h₁).evaluatePending scheduler
  exact .bind (.set hr) fun _ _ hr' => .pure hr'

theorem Command.run_leads (c : Command) (h : r.Sound) : Step.Leads c.run r fun _ => Sound := by
  cases c with
  | install d =>
      exact .modify ⟨h.toResting.install d, h.coherent.install d⟩
  | remove file =>
      exact .modify ⟨h.toResting.dropModule file, h.coherent.dropModule file⟩
  | exports file => exact (exports?_leads file h.filed).discard.mono fun _ _ ⟨_, h'⟩ => h.extends h'
  | registerAll => exact (registerAll_leads h.filed).discard.mono fun _ _ ⟨_, h'⟩ => h.extends h'
  | invalidate ids =>
      have hresting := h.toResting.of_blank (blank_invalidate r ids)
      exact .modify ⟨hresting, h.coherent.invalidate ids⟩
  | evaluate scheduler => exact (evaluate_leads scheduler h).discard.mono fun _ _ ⟨_, h'⟩ => h'
  | clear => exact .set Sound.empty

theorem runAll_sound (commands : List Command) (h : r.Sound) (hok : (runAll commands r).1 = .ok ()) :
    (runAll commands r).2.Sound :=
  Step.Leads.forM h (fun c _ => c.run_leads) () _ (Prod.ext hok rfl)

/-- The value of an element in a coherent registry, in terms of what evaluating would show its factory
now. -/
theorem CoherentBy.context {P : Effect Value → Outcome Value → Prop} (h : r.CoherentBy P)
    (hv : r.value? id = some v) :
    ∃ e c, r.entry? id = some e ∧ r.context id = .ok c ∧ P (e.factory c) (.ok v) := by
  obtain ⟨e, c, he, hc, ho⟩ := h.holds hv
  obtain ⟨c', hcontext, hc'⟩ := exists_isContext r id fun x hx => by
    obtain ⟨w, hw⟩ := ((h.grounded hv).of_transGen hx).value
    simp [hw]
  obtain rfl := hc.unique hc'
  exact ⟨e, c, he, hcontext, ho⟩

/-- Whatever has been done to a registry that was empty, as long as no id was added twice: no module is
left halfway; the elements are those of the registered modules, each under the file of its module; and
the value of an element, over values of all its dependencies, is what its factory comes to in the
context of now. -/
theorem runAll_empty (commands : List Command) (hok : (runAll commands empty).1 = .ok ()) :
    let r := (runAll commands empty).2
    (∀ file m, r.modules.get? file = some m → m.definition.file = file ∧ m.state ≠ .registering) ∧
      (∀ id e, r.entry? id = some e → ∃ m d, r.modules.get? e.file = some m ∧ m.state = .registered ∧
        d ∈ m.definition.elements ∧ d.id = id ∧ { e with value := none } = entryOf e.file d) ∧
      (∀ file m d, r.modules.get? file = some m → m.state = .registered → d ∈ m.definition.elements →
        ∃ v, r.entry? d.id = some { entryOf file d with value := v }) ∧
      ∀ id v, r.value? id = some v →
        (∀ x, r.DependsOn id x → ∃ w, r.value? x = some w) ∧
          ∃ e c, r.entry? id = some e ∧ r.context id = .ok c ∧ (e.factory c).ComesTo (.ok v) := by
  intro r
  have h : r.Sound := runAll_sound commands .empty hok
  refine ⟨fun file m hm => ⟨h.placed hm, h.idle hm⟩, fun id e => h.filed.entry, ?_, fun id v hv => ?_⟩
  · exact fun file m d hm hs hd => h.filed.exists_entry hm hs hd
  · exact ⟨fun x hx => ((h.coherent.grounded hv).of_dependsOn hx).value, h.coherent.context hv⟩

/-- A module of one element that tells how many values it is shown. -/
def tally (file name : String) (imports : List String) (dependencies : List CanonicalId) :
    ModuleDefinition where
  file := file
  imports := imports
  exports := ∅
  elements := [⟨⟨name⟩, .define, dependencies, fun c => .pure (.define (.nat c.transitive.size))⟩]
  signature := name

/-- Modules that import each other, evaluated, and evaluated again after one of them was replaced. -/
def tallies : List Command :=
  [.install (tally "/a" "A" ["/b"] []), .install (tally "/b" "B" ["/a"] [⟨"A"⟩]), .evaluate .sync,
    .install (tally "/a" "A" ["/b"] []), .exports "/b", .invalidate [⟨"B"⟩], .evaluate .async]

/-- Both of them have their elements, and the second one is evaluated over the first. -/
theorem runAll_tallies :
    (runAll tallies empty).2.evaluatedIds = [⟨"A"⟩, ⟨"B"⟩] ∧
      ∀ id v, (runAll tallies empty).2.value? id = some v →
        ∃ e c, Registry.entry? (runAll tallies empty).2 id = some e ∧
          (runAll tallies empty).2.context id = .ok c ∧ (e.factory c).ComesTo (.ok v) := by
  have hall := (runAll_empty tallies (by decide +kernel)).2.2.2
  exact ⟨by decide +kernel, fun id v hv => (hall id v hv).2⟩

end StaticGql.Registry
