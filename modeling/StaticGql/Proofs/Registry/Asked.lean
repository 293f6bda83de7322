import StaticGql.Proofs.Registry.Commands

/-!
Modules that ask each other for their exports while they are registered. Each of them, also one that is still being
registered, answers with the exports that stand in its definition.
-/

namespace StaticGql.Registry

variable {r r' : Registry} {file : String}

/-! ### Registering with a record -/

/-- The exports that stand in the definition of a module. -/
def stated? (r : Registry) (file : String) : Option (Dict CanonicalId) :=
  (r.modules.get? file).map (·.definition.exports)

/-- A module that is asked for its exports, with the state that it is found in. -/
structure Asked where
  file : String
  found : Option ModuleState
  answer : Option (Dict CanonicalId)

def answer (file : String) (found : Option ModuleState) : Step Asked := return ⟨file, found, (← get).stated? file⟩

/-- `registerModule` with all that is asked on the way: the imports of the module, and then the module itself. Where
the fuel runs out there is no answer. -/
def asking : Nat → String → Step (List Asked)
  | 0, file => return [⟨file, none, none⟩]
  | fuel + 1, file => do
    match ← moduleIn? file with
    | some ⟨d, .unregistered, _⟩ =>
      setState file .registering
      let inner ← d.imports.mapM (asking fuel)
      d.elements.forM (add file)
      setState file .registered
      countRegistration file
      return inner.flatten ++ [← answer file (some .unregistered)]
    | m => return [← answer file (m.map (·.state))]

def ask (file : String) : Step (List Asked) := do asking ((← get).modules.size + 1) file

def askNew (file : String) : Step (List Asked) := do
  if (← get).moduleState? file = some .unregistered then ask file else return []

/-- Registering all modules with all that is asked on the way. -/
def askAll : Step (List Asked) := do return (← (← get).modules.keys.mapM askNew).flatten

/-! ### The record changes nothing -/

namespace Step

variable {α β γ : Type} {x : Step α} {I : Registry → Prop}

theorem discard_bind (x : Step α) (f : α → Step β) : discard (x >>= f) = x >>= fun a => discard (f a) := by
  simp only [discard_eq, bind_assoc]

theorem bind_discard (x : Step α) (y : Step β) : (discard x >>= fun _ => y) = x >>= fun _ => y := by
  simp only [discard_eq, bind_assoc, pure_bind]

theorem discard_mapM (g : γ → Step β) (l : List γ) : discard (l.mapM g) = l.forM fun a => discard (g a) := by
  induction l with
  | nil =>
      rw [List.mapM_nil]
      rfl
  | cons a rest ih =>
      show _ = discard (g a) >>= fun _ => rest.forM fun a => discard (g a)
      rw [List.mapM_cons, ← ih, bind_discard, discard_bind]
      simp only [discard_eq, bind_assoc, pure_bind]

theorem leads_of_discard (h : Leads (Functor.discard x) r fun _ => I) : Leads x r fun _ => I := by
  intro a r' hx
  refine h ⟨⟩ r' ?_
  rw [discard_eq, ExceptT.run_bind, StateT.run_bind, hx]
  rfl

end Step

theorem discard_asking (fuel : Nat) (file : String) : discard (asking fuel file) = registerModule fuel file := by
  induction fuel generalizing file with
  | zero => rfl
  | succ fuel ih =>
      have hend : ∀ calls, (do
          countRegistration file
          discard (do return calls ++ [← answer file (some .unregistered)] : Step (List Asked))) =
            countRegistration file := fun _ => rfl
      rw [asking, registerModule, Step.discard_bind]
      refine congrArg _ (funext fun m => ?_)
      cases m with
      | none => rfl
      | some m =>
          obtain ⟨d, state, registrations⟩ := m
          cases state with
          | registering => rfl
          | registered => rfl
          | unregistered =>
              have himports := funext ih
              simp only [← himports, ← Step.discard_mapM, Step.bind_discard, Step.discard_bind (setState _ _),
                Step.discard_bind (List.mapM _ _), Step.discard_bind (List.forM _ _),
                Step.discard_bind (countRegistration _), hend]

/-- What a module answers in the end is what is told of its exports. -/
theorem exports?_eq (file : String) :
    exports? file = (fun calls : List Asked => calls.getLast?.bind (·.answer)) <$> ask file := by
  have hfuel : ∀ fuel, (do
      registerModule (fuel + 1) file
      return (← moduleIn? file).map (·.definition.exports) : Step (Option (Dict CanonicalId))) =
        (fun calls : List Asked => calls.getLast?.bind (·.answer)) <$> asking (fuel + 1) file := by
    intro fuel
    rw [← discard_asking, Step.bind_discard, asking, bind_assoc, map_bind]
    refine congrArg _ (funext fun m => ?_)
    split
    · simp only [bind_assoc, map_bind, pure_bind, map_pure, List.getLast?_concat]
      rfl
    · rfl
  simp only [exports?, register, ask, bind_assoc, map_bind]
  exact congrArg _ (funext fun r => hfuel r.modules.size)

theorem discard_ask (file : String) : discard (ask file) = register file := by
  rw [ask, Step.discard_bind]
  exact congrArg _ (funext fun r => discard_asking _ file)

theorem discard_askAll : discard askAll = discard registerAll := by
  have hfold : ∀ (l : List String) (count : Nat),
      discard (l.foldlM registerNew count) = l.forM fun file => discard (askNew file) := by
    intro l
    induction l with
    | nil => exact fun _ => rfl
    | cons file rest ih =>
        intro count
        show _ = discard (askNew file) >>= fun _ => rest.forM fun file => discard (askNew file)
        rw [List.foldlM_cons, Step.discard_bind, funext ih, askNew, registerNew, Step.bind_discard, bind_assoc,
          bind_assoc]
        refine congrArg _ (funext fun r => ?_)
        split
        · rw [← discard_ask]
          simp only [Step.bind_discard, bind_assoc, pure_bind]
        · rfl
  rw [askAll, registerAll, Step.discard_bind, Step.discard_bind]
  refine congrArg _ (funext fun r => ?_)
  rw [hfold, ← Step.discard_mapM]
  simp only [Step.discard_eq, bind_assoc, pure_bind]

/-! ### Answers -/

/-- The same definitions as before, as far as exports go. -/
def Restates (r r' : Registry) : Prop := ∀ file, r'.stated? file = r.stated? file

theorem Advances.restates (h : r.Advances r') : r.Restates r' := by
  intro file
  rcases h.module file with heq | ⟨m, hm, -, hm'⟩
  · rw [stated?, stated?, heq]
  · rw [stated?, stated?, hm', hm]
    rfl

theorem Restates.withModule {f : Module → Module} (h : r.Restates r') (hf : ∀ m, (f m).definition = m.definition)
    (file : String) : r.Restates (r'.withModule file f) := by
  intro file'
  rw [← h file', stated?, stated?, get?_withModule]
  split
  · simp only [Option.map_map, Function.comp_def, hf]
  · rfl

theorem Restates.add {d : Definition} (h : r.Restates r') (file : String) :
    Step.Leads (add file d) r' fun _ => r.Restates := by
  intro u r'' hrun file'
  have hnew := entry?_of_add hrun
  rw [← h file', stated?, stated?, ((add_spec file hnew).leads u r'' hrun).1]

/-- Every answer is the one that stands in the definition of the module that gives it. -/
def Stated (r : Registry) (calls : List Asked) : Prop := ∀ c ∈ calls, c.answer = r.stated? c.file

theorem Stated.flatten {calls : List (List Asked)} (h : ∀ l ∈ calls, r.Stated l) : r.Stated calls.flatten := by
  intro c hc
  obtain ⟨l, hl, hc⟩ := List.mem_flatten.1 hc
  exact h l hl c hc

namespace Step

variable {α β : Type} {I : Registry → Prop} {Q : β → Prop}

/-- What each round keeps up is there after all of them, and what they return is as each of them returns it. -/
theorem Leads.mapM {g : α → Step β} {l : List α} (h : I r)
    (hstep : ∀ a r', I r' → Leads (g a) r' fun b r'' => I r'' ∧ Q b) :
    Leads (l.mapM g) r fun bs r' => I r' ∧ ∀ b ∈ bs, Q b := by
  induction l generalizing r with
  | nil => exact .pure ⟨h, by simp⟩
  | cons a rest ih =>
      rw [List.mapM_cons]
      refine (hstep a r h).bind fun b r₁ ⟨h₁, hb⟩ => (ih h₁).bind fun bs r₂ ⟨h₂, hbs⟩ => ?_
      exact .pure ⟨h₂, List.forall_mem_cons.2 ⟨hb, hbs⟩⟩

theorem Leads.and {x : Step α} {P P' : α → Registry → Prop} (h : Leads x r P) (h' : Leads x r P') :
    Leads x r fun a r' => P a r' ∧ P' a r' :=
  fun a r' hx => ⟨h a r' hx, h' a r' hx⟩

end Step

theorem Restates.answer {found : Option ModuleState} (h : r.Restates r') :
    Step.Leads (answer file found) r' fun c _ => r.Stated [c] := by
  intro c r'' hrun
  cases hrun
  exact List.forall_mem_singleton.2 (h file)

theorem asking_extends (fuel : Nat) (file : String) (h : r.Filed) :
    Step.Leads (asking fuel file) r fun _ => r.Extends := by
  refine Step.leads_of_discard ?_
  rw [discard_asking]
  exact registerModule_leads fuel file h

theorem asking_leads (fuel : Nat) (file : String) (h : r.Filed) (hfuel : (unregistered r.modules).card < fuel) :
    Step.Leads (asking fuel file) r fun calls r' => r.Extends r' ∧ r.Stated calls := by
  refine (asking_extends fuel file h).and ?_
  induction fuel generalizing r file with
  | zero => omega
  | succ fuel ih =>
      rw [asking]
      refine (moduleIn?_spec r file).leads.bind ?_
      rintro _ r ⟨rfl, rfl⟩
      split
      · rename_i d n hm
        refine .bind (P := fun _ r' => r' = r.registering file) (.modify rfl) ?_
        rintro _ _ rfl
        have hr : r.Restates (r.registering file) :=
          (Advances.refl r).restates.withModule (f := fun m => { m with state := .registering }) (fun _ => rfl) file
        have himports := Step.Leads.mapM (l := d.imports) (g := asking fuel) (Q := r.Stated)
          (Extends.refl (h.registering hm rfl)) fun file' r' h' calls r'' hrun => by
            have hcard := unregistered_registering hm rfl
            have hle := Finset.card_le_card h'.advances.unregistered_subset
            refine ⟨h'.trans (asking_extends fuel file' h'.filed calls r'' hrun), fun c hc => ?_⟩
            rw [ih file' h'.filed (by omega) calls r'' hrun c hc, h'.advances.restates, hr]
        refine himports.bind fun inner r₁ ⟨h₁, hinner⟩ => ?_
        have hr₁ : r.Restates r₁ := fun file' => (h₁.advances.restates file').trans (hr file')
        refine (Step.Leads.forM hr₁ fun _ _ h' => h'.add file).bind fun _ r₂ h₂ => ?_
        have h₃ := h₂.withModule (f := fun m => { m with state := .registered }) (fun _ => rfl) file
        refine .bind (P := fun _ => r.Restates) (.modify h₃) fun _ r₃ h₃ => ?_
        have h₄ := h₃.withModule (f := fun m => { m with registrations := m.registrations + 1 }) (fun _ => rfl) file
        refine .bind (P := fun _ => r.Restates) (.modify h₄) fun _ r₄ h₄ => ?_
        refine h₄.answer.bind fun c _ hc => .pure (List.forall_mem_append.2 ⟨Stated.flatten hinner, hc⟩)
      · exact (Advances.refl r).restates.answer.bind fun _ _ h => .pure h

theorem ask_leads (file : String) (h : r.Filed) :
    Step.Leads (ask file) r fun calls r' => r.Extends r' ∧ r.Stated calls := by
  refine .bind (P := fun a r' => a = r ∧ r' = r) (.get ⟨rfl, rfl⟩) ?_
  rintro _ r ⟨rfl, rfl⟩
  exact asking_leads _ file h (Nat.lt_succ_of_le (card_unregistered_le _))

theorem askNew_leads (file : String) (h : r.Filed) :
    Step.Leads (askNew file) r fun calls r' => r.Extends r' ∧ r.Stated calls := by
  refine .bind (P := fun a r' => a = r ∧ r' = r) (.get ⟨rfl, rfl⟩) ?_
  rintro _ r ⟨rfl, rfl⟩
  split
  · exact ask_leads file h
  · exact .pure ⟨.refl h, by simp [Stated]⟩

/-- Modules asked one after the other give the answers that stood in their definitions at first. -/
theorem mapM_leads {g : String → Step (List Asked)} (l : List String) (h : r.Filed)
    (hg : ∀ file r', r'.Filed → Step.Leads (g file) r' fun calls r'' => r'.Extends r'' ∧ r'.Stated calls) :
    Step.Leads (l.mapM g) r fun calls r' => r.Extends r' ∧ r.Stated calls.flatten := by
  have hall := Step.Leads.mapM (l := l) (Q := r.Stated) (Extends.refl h) fun file r' h' =>
    (hg file r' h'.filed).mono fun calls r'' ⟨h'', hcalls⟩ =>
      ⟨h'.trans h'', fun c hc => (hcalls c hc).trans (h'.advances.restates c.file)⟩
  exact hall.mono fun calls r' ⟨h', hcalls⟩ => ⟨h', .flatten hcalls⟩

theorem askAll_leads (h : r.Filed) : Step.Leads askAll r fun calls r' => r.Extends r' ∧ r.Stated calls := by
  refine .bind (P := fun a r' => a = r ∧ r' = r) (.get ⟨rfl, rfl⟩) ?_
  rintro _ r ⟨rfl, rfl⟩
  exact (mapM_leads _ h fun file _ => askNew_leads file).bind fun _ _ h => .pure h

end StaticGql.Registry
