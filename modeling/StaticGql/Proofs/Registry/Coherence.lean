import StaticGql.Proofs.Registry.Context

/-!
Coherence: every value in a registry is the one that its factory makes of the values around it.
Registries that hold alike elements, each coherent on its own, then show the same elements wherever
both have been evaluated, whatever led to either of them.
-/

namespace StaticGql

open Relation

/-! ### What looks the same to a factory -/

/-- Contexts that show the same elements. -/
structure Context.Alike (c c' : Context) : Prop where
  direct : c.directElements = c'.directElements
  all : c.allElements = c'.allElements

namespace Outcome

/-- Outcomes that fail alike or show the same element. -/
def Alike (o o' : Outcome Value) : Prop := o.map Value.element? = o'.map Value.element?

theorem Alike.symm {o o' : Outcome Value} (h : Alike o o') : Alike o' o := Eq.symm h

theorem Alike.trans {o o' o'' : Outcome Value} (h : Alike o o') (h' : Alike o' o'') : Alike o o'' :=
  Eq.trans h h'

theorem Alike.element?_eq {v w : Value} (h : Alike (.ok v) (.ok w)) : v.element? = w.element? := by
  simpa [Alike, Except.map] using h

theorem Alike.exists_of_ok {v : Value} {o : Outcome Value} (h : Alike (.ok v) o) : ∃ w, o = .ok w := by
  cases o with
  | ok w => exact ⟨w, rfl⟩
  | error e => simp [Alike, Except.map] at h

end Outcome

namespace Factory

/-- Factories that are ready at once and make alike outcomes of contexts that look the same. -/
def Alike (f f' : Factory) : Prop :=
  ∀ c c', c.Alike c' → ∃ o o', f c = .ready o ∧ f' c' = .ready o' ∧ Outcome.Alike o o'

theorem Alike.symm {f f' : Factory} (h : Alike f f') : Alike f' f := by
  intro c c' hc
  obtain ⟨o, o', ho, ho', hoo⟩ := h c' c ⟨hc.direct.symm, hc.all.symm⟩
  exact ⟨o', o, ho', ho, hoo.symm⟩

theorem Alike.trans {f f' f'' : Factory} (h : Alike f f') (h' : Alike f' f'') : Alike f f'' := by
  intro c c'' hc
  obtain ⟨o, o', ho, ho', hoo⟩ := h c c ⟨rfl, rfl⟩
  obtain ⟨p, p', hp, hp', hpp⟩ := h' c c'' hc
  rw [ho', Effect.ready.injEq] at hp
  subst hp
  exact ⟨o, p', ho, hp', hoo.trans hpp⟩

/-- A factory that is ready at once and goes by the elements that it is shown. -/
def IsStatic (f : Factory) : Prop := Alike f f

theorem Alike.isStatic {f f' : Factory} (h : Alike f f') : IsStatic f := h.trans h.symm

theorem IsStatic.ready {f : Factory} (h : IsStatic f) (c : Context) : ∃ o, f c = .ready o := by
  obtain ⟨o, _, ho, -⟩ := h c c ⟨rfl, rfl⟩
  exact ⟨o, ho⟩

end Factory

/-- Definitions of one element, whatever its payload is that nobody is shown. -/
structure Definition.Alike (d d' : Definition) : Prop where
  id : d.id = d'.id
  kind : d.kind = d'.kind
  dependencies : d.dependencies = d'.dependencies
  factory : Factory.Alike d.factory d'.factory

theorem Definition.Alike.symm {d d' : Definition} (h : d.Alike d') : d'.Alike d :=
  ⟨h.id.symm, h.kind.symm, h.dependencies.symm, h.factory.symm⟩

namespace Registry

variable {r r' : Registry} {id x y : CanonicalId} {e : Entry} {v : Value} {c c' : Context}

structure Entry.Alike (e e' : Entry) : Prop where
  kind : e.kind = e'.kind
  dependencies : e.dependencies = e'.dependencies
  factory : Factory.Alike e.factory e'.factory

/-- Registries of the same ids with alike elements, whatever has been evaluated of them. -/
structure Alike (r r' : Registry) : Prop where
  left : ∀ {id e}, r.entry? id = some e → ∃ e', r'.entry? id = some e' ∧ e.Alike e'
  right : ∀ {id e'}, r'.entry? id = some e' → ∃ e, r.entry? id = some e ∧ e.Alike e'

theorem Alike.symm (h : r.Alike r') : r'.Alike r where
  left he := by
    obtain ⟨e', he', ha⟩ := h.right he
    exact ⟨e', he', ha.kind.symm, ha.dependencies.symm, ha.factory.symm⟩
  right he := by
    obtain ⟨e', he', ha⟩ := h.left he
    exact ⟨e', he', ha.kind.symm, ha.dependencies.symm, ha.factory.symm⟩

theorem Alike.dependenciesOf (h : r.Alike r') (id : CanonicalId) :
    r.dependenciesOf id = r'.dependenciesOf id := by
  cases he : r.entry? id with
  | some e =>
      obtain ⟨e', he', ha⟩ := h.left he
      rw [dependenciesOf_of_entry he, dependenciesOf_of_entry he', ha.dependencies]
  | none =>
      cases he' : r'.entry? id with
      | none => simp [Registry.dependenciesOf, he, he']
      | some e' =>
          obtain ⟨e, he₁, -⟩ := h.right he'
          simp [he] at he₁

theorem dependsOn_congr (h : ∀ id, r.dependenciesOf id = r'.dependenciesOf id) :
    r.DependsOn = r'.DependsOn := by
  funext x y
  rw [DependsOn, DependsOn, h]

/-! ### Contexts that show the same -/

/-- What an element has to show for itself: nothing before it is evaluated, and nothing if it only
carries metadata. -/
def element? (r : Registry) (id : CanonicalId) : Option Element := (r.value? id).bind (·.element?)

theorem IsContext.directElements (h : r.IsContext id c) :
    c.directElements = (r.dependenciesOf id).filterMap r.element? := by
  have := congrArg (List.filterMap fun p => p.2.bind (·.element?)) h.direct
  simp only [List.filterMap_map, Function.comp_def, Option.bind_some] at this
  exact this

theorem IsContext.alike (h : r.IsContext id c) (h' : r'.IsContext id c')
    (hdeps : ∀ id, r.dependenciesOf id = r'.dependenciesOf id)
    (hshow : ∀ x, TransGen r.DependsOn id x → r.element? x = r'.element? x) : c.Alike c' where
  direct := by
    rw [h.directElements, h'.directElements, ← hdeps]
    exact List.filterMap_congr fun x hx => hshow x (.single hx)
  all := by
    refine Dict.filterMap_values_congr fun k => ?_
    have hsees : ∀ x, r'.Sees id x ↔ r.Sees id x := by
      simp [Sees, dependsOn_congr hdeps]
    by_cases hk : r.Sees id ⟨k⟩
    · have hget : c.transitive.get? k = r.value? ⟨k⟩ := by
        ext v
        rw [h.transitive]
        simp [hk]
      have hget' : c'.transitive.get? k = r'.value? ⟨k⟩ := by
        ext v
        rw [h'.transitive]
        simp [hk, hsees]
      rw [hget, hget']
      exact hshow ⟨k⟩ hk.1
    · have hget : c.transitive.get? k = none := by
        ext v
        rw [h.transitive]
        simp [hk]
      have hget' : c'.transitive.get? k = none := by
        ext v
        rw [h'.transitive]
        simp [hk, hsees]
      rw [hget, hget']

/-! ### Coherent registries -/

/-- Evaluated, and so is whatever it depends on, down to the ends. -/
inductive Grounded (r : Registry) : CanonicalId → Prop
  | intro {id : CanonicalId} {v : Value} (value : r.value? id = some v)
      (dependencies : ∀ x, r.DependsOn id x → r.Grounded x) : r.Grounded id

theorem Grounded.value (h : r.Grounded id) : ∃ v, r.value? id = some v := by
  cases h with
  | intro value _ => exact ⟨_, value⟩

theorem Grounded.of_dependsOn (h : r.Grounded id) (hx : r.DependsOn id x) : r.Grounded x := by
  cases h with
  | intro _ dependencies => exact dependencies x hx

theorem Grounded.of_transGen (h : r.Grounded id) (hx : TransGen r.DependsOn id x) : r.Grounded x := by
  induction hx with
  | single hx => exact h.of_dependsOn hx
  | tail _ hx ih => exact ih.of_dependsOn hx

theorem Grounded.not_loop (h : r.Grounded x) : ¬ TransGen r.DependsOn x x := by
  induction h with
  | intro _ _ ih =>
      intro hloop
      obtain ⟨y, hy, hyx⟩ := TransGen.head'_iff.1 hloop
      exact ih y hy (TransGen.trans_right hyx (.single hy))

theorem grounded_of_below (h : ∀ x, r.DependsOn id x → r.Grounded x) (hx : TransGen r.DependsOn id x) :
    r.Grounded x := by
  obtain ⟨y, hy, hyx⟩ := TransGen.head'_iff.1 hx
  have hy := h y hy
  rcases reflTransGen_iff_eq_or_transGen.1 hyx with rfl | hyx
  · exact hy
  · exact hy.of_transGen hyx

/-- The value is an outcome of what the factory of the element makes of its context, whatever is taken
for an outcome. -/
def HoldsBy (P : Effect Value → Outcome Value → Prop) (r : Registry) (id : CanonicalId) (v : Value) : Prop :=
  ∃ e c, r.entry? id = some e ∧ r.IsContext id c ∧ P (e.factory c) (.ok v)

structure CoherentBy (P : Effect Value → Outcome Value → Prop) (r : Registry) : Prop where
  grounded : ∀ {id v}, r.value? id = some v → r.Grounded id
  holds : ∀ {id v}, r.value? id = some v → r.HoldsBy P id v

/-- The values are what the factories of the elements are ready with. -/
abbrev Coherent (r : Registry) : Prop := r.CoherentBy fun e o => e = .ready o

/-- What is evaluated in two coherent registries of alike elements shows the same in both. The
induction is on how it is grounded in one of them, over all that it depends on at once, as its context
shows all of that. -/
theorem Coherent.element?_eq (hr : r.Coherent) (hr' : r'.Coherent) (h : r.Alike r')
    (hid : r.Grounded id) (hid' : r'.Grounded id) : r.element? id = r'.element? id := by
  have hdeps := h.dependenciesOf
  have hall : ∀ x, ReflTransGen r.DependsOn id x → r.element? x = r'.element? x := by
    induction hid with
    | @intro id v value _ ih =>
        have hbelow : ∀ x, TransGen r.DependsOn id x → r.element? x = r'.element? x := by
          intro x hx
          obtain ⟨y, hy, hyx⟩ := TransGen.head'_iff.1 hx
          have hy' : r'.DependsOn id y := by rwa [← dependsOn_congr hdeps]
          exact ih y hy (hid'.of_dependsOn hy') x hyx
        intro x hx
        rcases ReflTransGen.cases_head hx with rfl | ⟨y, hy, hyx⟩
        · obtain ⟨v', value'⟩ := hid'.value
          obtain ⟨e, c, he, hc, hv⟩ := hr.holds value
          obtain ⟨e', c', he', hc', hv'⟩ := hr'.holds value'
          obtain ⟨e₁, he₁, ha⟩ := h.left he
          obtain rfl : e₁ = e' := by rwa [he₁, Option.some.injEq] at he'
          obtain ⟨o, o', ho, ho', hoo⟩ := ha.factory c c' (hc.alike hc' hdeps hbelow)
          rw [hv, Effect.ready.injEq] at ho
          rw [hv', Effect.ready.injEq] at ho'
          subst ho ho'
          simp only [element?, value, value', Option.bind_some]
          exact hoo.element?_eq
        · exact hbelow x (TransGen.head'_iff.2 ⟨y, hy, hyx⟩)
  exact hall id .refl

end Registry
end StaticGql
