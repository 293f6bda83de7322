import StaticGql.Proofs.Element.Alike
import StaticGql.Proofs.Registry.Origin
import StaticGql.Registry.Declarations
import StaticGql.Registry.Modules

/-!
Registries of declarations. However far evaluating them gets, what has a value has the one that its
declaration derives from the values around it.
-/

namespace StaticGql.Registry

variable {r r' : Registry} {id x : CanonicalId} {v : Value} {d d' : Declaration} {l : List Declaration}

/-- The elements are those of declarations of a list, and their values hold. -/
structure DeclaredBy (l : List Declaration) (r : Registry) : Prop where
  stems : r.StemsFrom fun e => ∃ d ∈ l, d.definition = e
  coherent : r.CoherentBy Effect.ComesTo

theorem DeclaredBy.exists_declaration (h : r.DeclaredBy l) (hv : r.value? id = some v) :
    ∃ d ∈ l, ∃ c, d.id = id ∧ r.IsContext id c ∧ d.value c = .ok v := by
  obtain ⟨e, c, he, hc, ho⟩ := h.coherent.holds hv
  obtain ⟨d, hd, hdefinition⟩ := h.stems.entry he
  have hfactory : d.factory = e.factory := congrArg Definition.factory hdefinition
  refine ⟨d, hd, c, congrArg Definition.id hdefinition, hc, ?_⟩
  rw [← hfactory] at ho
  exact ho

/-! ### Evaluating declarations -/

/-- The registry that evaluating declarations leaves, also where that fails. -/
def evaluated (scheduler : Scheduler) (l : List Declaration) : Registry :=
  ((evaluateDeclarations scheduler l).run.run empty).2

/-- Declarations have been added, and nothing else has been done. -/
structure Added (l : List Declaration) (r : Registry) : Prop where
  stems : r.StemsFrom fun e => ∃ d ∈ l, d.definition = e
  modules : r.modules = ∅
  values : ∀ id, r.value? id = none

theorem Added.add (h : r.Added l) {d : Declaration} (hd : d ∈ l) :
    Step.Leaves (add d.file d.definition) r (Added l) := by
  refine .get_bind ?_
  split
  · exact h
  · refine ⟨h.stems.withEntry ⟨d, hd, rfl⟩ d.file, h.modules, fun ⟨k⟩ => ?_⟩
    have hvalue := h.values ⟨k⟩
    rw [value?, Registry.entry?] at hvalue
    show ((r.entries.insert d.definition.id.text (entryOf d.file d.definition)).get? k).bind _ = _
    rw [Dict.get?_insert]
    split
    · rfl
    · exact hvalue

theorem Added.declaredBy (h : r.Added l) : r.DeclaredBy l :=
  ⟨h.stems, fun hv => by simp [h.values] at hv, fun hv => by simp [h.values] at hv⟩

theorem DeclaredBy.evaluatePending (h : r.DeclaredBy l) (scheduler : Scheduler) :
    (r.evaluatePending scheduler).2.DeclaredBy l where
  stems := h.stems.of_blank (blank_evaluatePending r)
  coherent := (evaluatePending_coherentBy scheduler h.coherent).1

/-! ### Declarations that are registered -/

/-- All declarations of a list are there, each under an id of its own. -/
structure Registers (r : Registry) (l : List Declaration) : Prop where
  nodup : (l.map (·.id)).Nodup
  entry : ∀ d ∈ l, ∃ v, r.entry? d.id = some { entryOf d.file d.definition with value := v }

theorem Registers.eq_of_id (h : r.Registers l) (hd : d ∈ l) (hd' : d' ∈ l) (hid : d.id = d'.id) :
    d = d' :=
  List.inj_on_of_nodup_map h.nodup hd hd' hid

theorem Registers.dependsOn_iff (h : r.Registers l) (hd : d ∈ l) :
    r.DependsOn d.id x ↔ x ∈ d.references := by
  obtain ⟨v, hv⟩ := h.entry d hd
  rw [DependsOn, dependenciesOf_of_entry hv]
  rfl

theorem Registers.of_blank (h : r.Registers l) (hb : r'.blank = r.blank) : r'.Registers l where
  nodup := h.nodup
  entry d hd := by
    obtain ⟨v, hv⟩ := h.entry d hd
    obtain ⟨v', hv'⟩ := entry?_of_blank hb.symm hv
    exact ⟨v', hv'⟩

/-- Unless it stops at two declarations with one id, evaluating declarations evaluates what has been added. -/
theorem run_evaluateDeclarations (scheduler : Scheduler) (l : List Declaration) :
    (∃ r twice, r.Added l ∧ (evaluateDeclarations scheduler l).run.run empty = (.error twice, r)) ∨
      ∃ r : Registry, r.Added l ∧ r.Registers l ∧ (evaluateDeclarations scheduler l).run.run empty =
        (.ok (r.evaluatePending scheduler).1, (r.evaluatePending scheduler).2) := by
  have hadded : Step.Leaves (addDeclarations l) empty (Added l) :=
    .forM ⟨.empty _, rfl, fun _ => rfl⟩ fun d hd _ h => h.add hd
  rw [Step.Leaves] at hadded
  rw [evaluateDeclarations, ExceptT.run_bind, StateT.run_bind]
  rcases hrun : (addDeclarations l).run.run empty with ⟨twice | ⟨⟨⟩⟩, r⟩
  · rw [hrun] at hadded
    exact .inl ⟨r, twice, hadded, rfl⟩
  · rw [hrun] at hadded
    have hnodup := (new_of_addAll Declaration.definition hrun).1
    have hnew : ∀ d ∈ l, Registry.entry? empty d.definition.id = none := fun _ _ => rfl
    have hall : Step.Ensures (addDeclarations l) empty fun _ r' =>
        ∀ d ∈ l, r'.entry? d.id = some (entryOf d.file d.definition) := by
      refine (addAll_spec (·.definition) l hnodup hnew).mono fun _ _ h => ?_
      exact h.2.1
    obtain ⟨_, r', hrun', hself⟩ := hall
    obtain rfl : r = r' := congrArg Prod.snd (hrun.symm.trans hrun')
    refine .inr ⟨r, hadded, ⟨hnodup, fun d hd => ⟨none, hself d hd⟩⟩, ?_⟩
    exact evaluate_of_no_modules scheduler hadded.modules

theorem evaluated_declaredBy (scheduler : Scheduler) (l : List Declaration) :
    (evaluated scheduler l).DeclaredBy l := by
  rw [evaluated]
  rcases run_evaluateDeclarations scheduler l with ⟨r, twice, hadded, hrun⟩ | ⟨r, hadded, -, hrun⟩
  · rw [hrun]
    exact hadded.declaredBy
  · rw [hrun]
    exact hadded.declaredBy.evaluatePending scheduler

theorem registers_of_value (scheduler : Scheduler) (l : List Declaration)
    (hv : (evaluated scheduler l).value? id = some v) : (evaluated scheduler l).Registers l := by
  rw [evaluated] at hv ⊢
  rcases run_evaluateDeclarations scheduler l with ⟨r, twice, hadded, hrun⟩ | ⟨r, -, hr, hrun⟩
  · rw [hrun, hadded.values id] at hv
    cases hv
  · rw [hrun]
    exact hr.of_blank (blank_evaluatePending r)

theorem Added.static (h : r.Added l) : r.Static where
  entry he := by
    obtain ⟨d, -, hdefinition⟩ := h.stems.entry he
    have hfactory : d.factory = _ := congrArg Definition.factory hdefinition
    have hstatic : Factory.IsStatic d.factory := (Declaration.definition_alike (.refl d)).factory
    rw [hfactory] at hstatic
    exact hstatic

/-- Where evaluating goes through, every declaration has a value. -/
theorem exists_value_of_evaluated {k : Nat} (scheduler : Scheduler)
    (hok : ((evaluateDeclarations scheduler l).run.run empty).1 = .ok (.ok k)) (hd : d ∈ l) :
    ∃ v, (evaluated scheduler l).value? d.id = some v := by
  rw [evaluated]
  rcases run_evaluateDeclarations scheduler l with ⟨r, twice, hadded, hrun⟩ | ⟨r, hadded, hr, hrun⟩
  · rw [hrun] at hok
    cases hok
  · rw [hrun] at hok ⊢
    have hstatic := hadded.static
    obtain ⟨-, -, hevaluated⟩ := evaluatePending_spec scheduler
      (hstatic.coherent_iff.2 hadded.declaredBy.coherent) hstatic
    rw [Except.ok.inj hok] at hevaluated
    obtain ⟨v, hv⟩ := (hr.of_blank (blank_evaluatePending r)).entry d hd
    exact hevaluated hv

theorem DeclaredBy.exists_context (h : r.DeclaredBy l) (hr : r.Registers l) (hd : d ∈ l)
    (hv : r.value? d.id = some v) : ∃ c, r.IsContext d.id c ∧ d.value c = .ok v := by
  obtain ⟨d', hd', c, hid, hc, hvalue⟩ := h.exists_declaration hv
  obtain rfl := hr.eq_of_id hd' hd hid
  exact ⟨c, hc, hvalue⟩

end StaticGql.Registry
