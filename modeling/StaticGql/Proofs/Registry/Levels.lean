import StaticGql.Proofs.Registry.Evaluation

/-!
The order of evaluating: levels of pending elements, each over what is evaluated by then. All pending
elements come up unless one depends on what is not registered, or some of them on each other in a
circle.
-/

namespace StaticGql.Registry

open Relation

variable {r r' s : Registry} {id x y : CanonicalId} {e : Entry} {v : Value}
  {P : Effect Value → Outcome Value → Prop}

/-! ### What is pending -/

theorem mem_ids_iff {p : String × Entry → Bool} :
    id ∈ (r.entries.toList.filter p).map (fun q => (⟨q.1⟩ : CanonicalId)) ↔
      ∃ e, r.entry? id = some e ∧ p (id.text, e) = true := by
  obtain ⟨k⟩ := id
  simp only [List.mem_map, List.mem_filter, Prod.exists, CanonicalId.mk.injEq, Dict.mem_toList_iff,
    entry?]
  constructor
  · rintro ⟨a, e, ⟨he, hp⟩, rfl⟩
    exact ⟨e, he, hp⟩
  · rintro ⟨e, he, hp⟩
    exact ⟨k, e, ⟨he, hp⟩, rfl⟩

theorem nodup_ids (r : Registry) (p : String × Entry → Bool) :
    ((r.entries.toList.filter p).map (fun q => (⟨q.1⟩ : CanonicalId))).Nodup := by
  have hkeys : ((r.entries.toList.filter p).map (·.1)).Nodup :=
    (Dict.nodup_keys r.entries).sublist (List.filter_sublist.map _)
  have := hkeys.map (f := CanonicalId.mk) fun a b h => by simpa using h
  simpa [Function.comp_def] using this

theorem mem_pendingIds_iff : id ∈ r.pendingIds ↔ (∃ e, r.entry? id = some e) ∧ r.value? id = none := by
  rw [pendingIds, mem_ids_iff]
  constructor
  · rintro ⟨e, he, hp⟩
    refine ⟨⟨e, he⟩, ?_⟩
    simpa [Entry.isPending, value?, he] using hp
  · rintro ⟨⟨e, he⟩, hv⟩
    refine ⟨e, he, ?_⟩
    simpa [Entry.isPending, value?, he] using hv

theorem nodup_pendingIds (r : Registry) : r.pendingIds.Nodup := nodup_ids r _

theorem length_pendingIds_le (r : Registry) : r.pendingIds.length ≤ r.entries.size := by
  rw [pendingIds, List.length_map]
  exact List.length_filter_le _ _

/-! ### Why evaluating stops -/

/-- A reason why some element of a registry cannot be evaluated. -/
inductive Stuck (r : Registry) : Prop
  | missing {id x : CanonicalId} {e : Entry} (registered : r.entry? id = some e)
      (dependency : r.DependsOn id x) (unregistered : r.entry? x = none)
  | circular (ids : List CanonicalId) (nonempty : ids ≠ [])
      (dependency : ∀ id ∈ ids, (∃ e, r.entry? id = some e) ∧ ∃ x ∈ ids, r.DependsOn id x)
  | failing {id : CanonicalId} (failure : EvaluationError) (due : r.Due id (.error failure))

/-- Every element has a value. -/
def Evaluated (r : Registry) : Prop := ∀ {id e}, r.entry? id = some e → ∃ v, r.value? id = some v

theorem Grounded.not_circular (h : r.Grounded x) {ids : List CanonicalId}
    (hids : ∀ id ∈ ids, ∃ x ∈ ids, r.DependsOn id x) : x ∉ ids := by
  induction h with
  | intro _ _ ih =>
      intro hx
      obtain ⟨y, hy, hxy⟩ := hids _ hx
      exact ih y hxy hy

theorem exists_entry_of_value (h : r.value? id = some v) : ∃ e, r.entry? id = some e := by
  obtain ⟨e, he, -⟩ := value?_eq_some_iff.1 h
  exact ⟨e, he⟩

/-- No registry is stuck of which an alike one has been evaluated. -/
theorem not_stuck (hr : r.Coherent) (hs : s.Coherent) (h : r.Alike s) (hev : s.Evaluated) :
    ¬ r.Stuck := by
  have hdeps := dependsOn_congr h.dependenciesOf
  have hgrounded : ∀ {id e}, r.entry? id = some e → s.Grounded id := by
    intro id e he
    obtain ⟨e', he', -⟩ := h.left he
    obtain ⟨v, hv⟩ := hev he'
    exact hs.grounded hv
  intro hstuck
  cases hstuck with
  | missing registered dependency unregistered =>
      have hx := (hgrounded registered).of_dependsOn (hdeps ▸ dependency)
      obtain ⟨v, hv⟩ := hx.value
      obtain ⟨e', he'⟩ := exists_entry_of_value hv
      obtain ⟨e, he, -⟩ := h.right he'
      simp [unregistered] at he
  | circular ids nonempty dependency =>
      obtain ⟨id, hid⟩ := List.exists_mem_of_ne_nil ids nonempty
      obtain ⟨⟨e, he⟩, -⟩ := dependency id hid
      refine (hgrounded he).not_circular (fun y hy => ?_) hid
      obtain ⟨-, x, hx, hyx⟩ := dependency y hy
      exact ⟨x, hx, hdeps ▸ hyx⟩
  | @failing id failure due =>
      obtain ⟨e, c, he, hc, ho⟩ := due.outcome
      obtain ⟨e', he', ha⟩ := h.left he
      obtain ⟨v, hv⟩ := hev he'
      obtain ⟨e₁, c', he₁, hc', ho'⟩ := hs.holds hv
      obtain rfl : e' = e₁ := by rwa [he', Option.some.injEq] at he₁
      have halike : c.Alike c' := by
        refine hc.alike hc' h.dependenciesOf fun x hx => ?_
        have hx' : s.Grounded x := (hgrounded he).of_transGen (hdeps ▸ hx)
        exact hr.element?_eq hs h (due.grounded_below hx) hx'
      obtain ⟨o, o', hready, hready', hoo⟩ := ha.factory c c' halike
      rw [ho, Effect.ready.injEq] at hready
      rw [ho', Effect.ready.injEq] at hready'
      subst hready hready'
      obtain ⟨w, hw⟩ := hoo.symm.exists_of_ok
      cases hw

/-! ### Levels -/

theorem levelsFrom_congr (h : ∀ id, r.dependenciesOf id = r'.dependenciesOf id) (fuel : Nat)
    (remaining : List CanonicalId) : r.levelsFrom fuel remaining = r'.levelsFrom fuel remaining := by
  induction fuel generalizing remaining with
  | zero => cases remaining <;> rfl
  | succ fuel ih => cases remaining <;> simp [levelsFrom, h, ih]

/-- The elements of a level: those that depend on none of the remaining ones. -/
def readyOf (r : Registry) (remaining : List CanonicalId) : List CanonicalId :=
  remaining.filter fun id => (r.dependenciesOf id).all (· ∉ remaining)

theorem mem_readyOf_iff {remaining : List CanonicalId} :
    id ∈ r.readyOf remaining ↔ id ∈ remaining ∧ ∀ x, r.DependsOn id x → x ∉ remaining := by
  simp [readyOf, DependsOn]

theorem levelsFrom_succ {fuel : Nat} {remaining : List CanonicalId} (h : remaining ≠ []) :
    r.levelsFrom (fuel + 1) remaining =
      if (r.readyOf remaining).isEmpty then .error (.circularDependency remaining)
      else (r.levelsFrom fuel (remaining.filter (· ∉ r.readyOf remaining))).map
        (r.readyOf remaining :: ·) := by
  cases remaining with
  | nil => simp at h
  | cons a rest => rfl

/-- Where the levels run out, what remains depends on itself. -/
theorem exists_circle_of_levelsFrom {fuel : Nat} {remaining : List CanonicalId} {b : BuildError}
    (h : r.levelsFrom fuel remaining = .error b) (hfuel : remaining.length ≤ fuel) :
    ∃ ids, ids ≠ [] ∧ ids ⊆ remaining ∧ ∀ id ∈ ids, ∃ x ∈ ids, r.DependsOn id x := by
  induction fuel generalizing remaining b with
  | zero =>
      obtain rfl := List.length_eq_zero_iff.1 (Nat.le_zero.1 hfuel)
      cases h
  | succ fuel ih =>
      by_cases hne : remaining = []
      · subst hne
        cases h
      rw [levelsFrom_succ hne] at h
      split at h
      · rename_i hready
        refine ⟨remaining, hne, fun _ hx => hx, fun id hid => ?_⟩
        by_contra hcon
        have : id ∈ r.readyOf remaining :=
          mem_readyOf_iff.2 ⟨hid, fun x hx hmem => hcon ⟨x, hmem, hx⟩⟩
        simp [List.isEmpty_iff.1 hready] at this
      · rename_i hready
        obtain ⟨a, ha⟩ := List.exists_mem_of_ne_nil _ fun e => hready (List.isEmpty_iff.2 e)
        have hlt : (remaining.filter (· ∉ r.readyOf remaining)).length < remaining.length := by
          refine List.length_filter_lt_length_iff_exists.2 ⟨a, (mem_readyOf_iff.1 ha).1, ?_⟩
          simpa using ha
        cases hrest : r.levelsFrom fuel (remaining.filter (· ∉ r.readyOf remaining)) with
        | ok levels =>
            rw [hrest] at h
            cases h
        | error b' =>
            obtain ⟨ids, hids, hsub, hcircle⟩ := ih hrest (Nat.le_of_lt_succ (hlt.trans_le hfuel))
            exact ⟨ids, hids, fun x hx => List.mem_of_mem_filter (hsub hx), hcircle⟩

/-! ### Evaluating them -/

/-- What remains to be evaluated: all that is pending, over what is registered. -/
structure Remains (r : Registry) (remaining : List CanonicalId) : Prop where
  nodup : remaining.Nodup
  mem_iff : ∀ {id}, id ∈ remaining ↔ (∃ e, r.entry? id = some e) ∧ r.value? id = none
  registered : ∀ {id x}, id ∈ remaining → r.DependsOn id x → ∃ e, r.entry? x = some e

theorem Remains.evaluated (h : r.Remains []) : r.Evaluated := by
  intro id e he
  cases hv : r.value? id with
  | some v => exact ⟨v, rfl⟩
  | none => exact absurd (h.mem_iff.2 ⟨⟨e, he⟩, hv⟩) List.not_mem_nil

/-- The elements of a level lie over evaluated ones. -/
theorem Remains.level {remaining : List CanonicalId} (h : r.Remains remaining) (hc : r.CoherentBy P) :
    r.IsLevel (r.readyOf remaining) := by
  intro id hid
  obtain ⟨hid, hx⟩ := mem_readyOf_iff.1 hid
  obtain ⟨he, hv⟩ := h.mem_iff.1 hid
  refine ⟨he, hv, fun x hdep => ?_⟩
  have hxe := h.registered hid hdep
  cases hxv : r.value? x with
  | none => exact absurd (h.mem_iff.2 ⟨hxe, hxv⟩) (hx x hdep)
  | some v => exact hc.grounded hxv

theorem Grows.exists_entry_iff (h : r.Grows r') :
    (∃ e, r'.entry? x = some e) ↔ ∃ e, r.entry? x = some e := by
  constructor
  · rintro ⟨e, he⟩
    obtain ⟨v, hv⟩ := entry?_of_blank h.blank he
    exact ⟨_, hv⟩
  · rintro ⟨e, he⟩
    obtain ⟨v, hv⟩ := entry?_of_blank h.blank.symm he
    exact ⟨_, hv⟩

theorem Remains.next {remaining level : List CanonicalId} (h : r.Remains remaining)
    (hgrows : r.Grows r') (hlevel : ∀ x, r'.value? x = none ↔ r.value? x = none ∧ x ∉ level) :
    r'.Remains (remaining.filter (· ∉ level)) where
  nodup := h.nodup.filter _
  mem_iff := by
    intro id
    rw [hgrows.exists_entry_iff, hlevel, ← and_assoc, ← h.mem_iff]
    simp
  registered := by
    intro id x hid hx
    rw [hgrows.exists_entry_iff]
    rw [dependsOn_congr (dependenciesOf_congr hgrows.blank)] at hx
    exact h.registered (List.mem_of_mem_filter hid) hx

/-- Why evaluating stops at a level: an element fails, or the level cannot be run. -/
inductive StopsAt (scheduler : Scheduler) (r : Registry) (b : BuildError) : Prop
  | failing {id : CanonicalId} (failure : EvaluationError)
      (due : r.DueBy Effect.ComesTo id (.error failure)) (told : b = .ofEvaluation id failure)
  | refused {level : List CanonicalId} (isLevel : r.IsLevel level)
      (refusal : (r.effects level).bind (run scheduler) = .error b)

theorem evaluateLevels_spec (scheduler : Scheduler) (fuel : Nat) (remaining : List CanonicalId)
    (levels : List (List CanonicalId)) (count : Nat) (hlevels : r.levelsFrom fuel remaining = .ok levels)
    (hc : r.CoherentBy Effect.ComesTo) (hremains : r.Remains remaining) :
    (evaluateLevels scheduler r count levels).2.CoherentBy Effect.ComesTo ∧
      r.Grows (evaluateLevels scheduler r count levels).2 ∧
      match (evaluateLevels scheduler r count levels).1 with
      | .ok _ => (evaluateLevels scheduler r count levels).2.Evaluated
      | .error b => StopsAt scheduler (evaluateLevels scheduler r count levels).2 b := by
  induction fuel generalizing r remaining levels count with
  | zero =>
      cases remaining with
      | nil =>
          cases hlevels
          exact ⟨hc, .refl r, hremains.evaluated⟩
      | cons a rest => cases hlevels
  | succ fuel ih =>
      by_cases hne : remaining = []
      · subst hne
        cases hlevels
        exact ⟨hc, .refl r, hremains.evaluated⟩
      rw [levelsFrom_succ hne] at hlevels
      split at hlevels
      · cases hlevels
      obtain ⟨rest, hrest, rfl⟩ := map_eq_ok_iff.1 hlevels
      have hlevel := hremains.level hc
      cases hrun : (r.effects (r.readyOf remaining)).bind (run scheduler) with
      | error b =>
          simp only [evaluateLevels, hrun]
          exact ⟨hc, .refl r, .refused hlevel hrun⟩
      | ok outcomes =>
          obtain ⟨hids, hdue⟩ := dueBy_of_run hlevel hrun
          have hcommit := commit_spec outcomes hc (by rw [hids]; exact hremains.nodup.filter _) hdue
          rcases hr : r.commit outcomes with ⟨failure, r'⟩
          rw [hr] at hcommit
          obtain ⟨hc', hgrows, hmatch⟩ := hcommit
          simp only [evaluateLevels, hrun, hr]
          cases failure with
          | some b =>
              obtain ⟨id, failure, hdue', hb⟩ := hmatch
              exact ⟨hc', hgrows, .failing failure hdue' hb⟩
          | none =>
              rw [← levelsFrom_congr (dependenciesOf_congr hgrows.blank)] at hrest
              have hnext := hremains.next hgrows (fun x => hids ▸ hmatch x)
              obtain ⟨hc'', hgrows', hres⟩ := ih _ rest (count + outcomes.length) hrest hc' hnext
              exact ⟨hc'', hgrows.trans hgrows', hres⟩

theorem missing?_eq_some {b : BuildError} (h : r.missing? = some b) : r.Stuck := by
  obtain ⟨id, hid, hx⟩ := List.exists_of_findSome?_eq_some h
  obtain ⟨x, hx, -⟩ := Option.map_eq_some_iff.1 hx
  obtain ⟨⟨e, he⟩, -⟩ := mem_pendingIds_iff.1 hid
  have hnone : r.entry? x = none := by simpa [contains] using List.find?_some hx
  exact .missing he (List.mem_of_find?_eq_some hx) hnone

theorem remains_of_missing? (h : r.missing? = none) : r.Remains r.pendingIds where
  nodup := nodup_pendingIds r
  mem_iff := mem_pendingIds_iff
  registered := by
    intro id x hid hx
    rw [missing?, List.findSome?_eq_none_iff] at h
    have := h id hid
    rw [Option.map_eq_none_iff, List.find?_eq_none] at this
    simpa [contains, ← Option.isSome_iff_exists, Option.isSome_iff_ne_none] using this x hx

/-- Evaluating keeps a registry coherent, also where it fails. -/
theorem evaluatePending_coherentBy (scheduler : Scheduler) (hc : r.CoherentBy Effect.ComesTo) :
    (r.evaluatePending scheduler).2.CoherentBy Effect.ComesTo ∧
      r.Grows (r.evaluatePending scheduler).2 := by
  rw [evaluatePending]
  cases hlevels : r.levels with
  | error b => exact ⟨hc, .refl r⟩
  | ok levels =>
      rw [Registry.levels] at hlevels
      cases hmissing : r.missing? with
      | some b => simp [hmissing] at hlevels
      | none =>
          rw [hmissing] at hlevels
          obtain ⟨hc', hgrows, -⟩ :=
            evaluateLevels_spec scheduler _ _ levels 0 hlevels hc (remains_of_missing? hmissing)
          exact ⟨hc', hgrows⟩

/-- Elements that are ready at once stop an evaluation only where one of them fails. -/
theorem StopsAt.stuck {scheduler : Scheduler} {b : BuildError} (h : StopsAt scheduler r b)
    (hs : r.Static) : r.Stuck := by
  cases h with
  | failing failure due _ => exact .failing failure (hs.due due)
  | refused isLevel refusal =>
      obtain ⟨outcomes, hok⟩ := hs.exists_outcomes scheduler isLevel
      rw [hok] at refusal
      cases refusal

/-- Evaluating keeps a registry coherent, also where it fails, and it fails only where some element
cannot be evaluated at all. -/
theorem evaluatePending_spec (scheduler : Scheduler) (hc : r.Coherent) (hs : r.Static) :
    (r.evaluatePending scheduler).2.Coherent ∧ r.Grows (r.evaluatePending scheduler).2 ∧
      match (r.evaluatePending scheduler).1 with
      | .ok _ => (r.evaluatePending scheduler).2.Evaluated
      | .error _ => (r.evaluatePending scheduler).2.Stuck := by
  have hc' := hs.coherent_iff.1 hc
  obtain ⟨hcoherent, hgrows⟩ := evaluatePending_coherentBy scheduler hc'
  have hs' := hs.of_blank hgrows.blank
  refine ⟨hs'.coherent_iff.2 hcoherent, hgrows, ?_⟩
  cases hmissing : r.missing? with
  | some b =>
      simp only [evaluatePending, levels, hmissing]
      exact missing?_eq_some hmissing
  | none =>
      simp only [evaluatePending, levels, hmissing] at hs' ⊢
      cases hlevels : r.levelsFrom r.entries.size r.pendingIds with
      | error b =>
          obtain ⟨ids, hne, hsub, hcircle⟩ :=
            exists_circle_of_levelsFrom hlevels (length_pendingIds_le r)
          refine .circular ids hne fun id hid => ⟨?_, hcircle id hid⟩
          exact (mem_pendingIds_iff.1 (hsub hid)).1
      | ok levels =>
          obtain ⟨-, -, hresult⟩ :=
            evaluateLevels_spec scheduler _ _ levels 0 hlevels hc' (remains_of_missing? hmissing)
          simp only [hlevels] at hs'
          cases hr : (evaluateLevels scheduler r 0 levels).1 with
          | ok n =>
              rw [hr] at hresult
              exact @hresult
          | error b =>
              rw [hr] at hresult
              simpa only [hr] using hresult.stuck hs'

/-! ### Two evaluations of alike elements -/

theorem Alike.of_blank (h : r.Alike s) (hb : r'.blank = r.blank) : r'.Alike s where
  left he := by
    obtain ⟨v, he⟩ := entry?_of_blank hb he
    obtain ⟨e', he', ha⟩ := h.left he
    exact ⟨e', he', ha.kind, ha.dependencies, ha.factory⟩
  right he' := by
    obtain ⟨e, he, ha⟩ := h.right he'
    obtain ⟨v, he⟩ := entry?_of_blank hb.symm he
    exact ⟨_, he, ha.kind, ha.dependencies, ha.factory⟩

/-- What an entry adds to an artifact. -/
def Entry.shown? (e : Entry) : Option Element :=
  if e.kind.producesElement then e.value.bind (·.element?) else none

theorem get?_elements (r : Registry) (k : String) :
    r.elements.get? k = (r.entry? ⟨k⟩).bind Entry.shown? := by
  rw [Registry.entry?, ← Dict.get?_ofList_pick]
  have : (fun q : String × Entry => if q.2.kind.producesElement then
        (q.2.value.bind (·.element?)).map fun v => (q.1, v) else none) =
      fun q => q.2.shown?.map fun v => (q.1, v) := by
    funext q
    rw [Entry.shown?]
    split <;> rfl
  rw [← this]
  rfl

theorem elements_congr (h : r.Alike s)
    (hshow : ∀ {id e}, r.entry? id = some e → r.element? id = s.element? id) :
    r.elements = s.elements := by
  refine Dict.ext_get? fun k => ?_
  rw [get?_elements, get?_elements]
  cases he : r.entry? ⟨k⟩ with
  | none =>
      cases he' : s.entry? ⟨k⟩ with
      | none => rfl
      | some e' =>
          obtain ⟨e, he₁, -⟩ := h.right he'
          simp [he] at he₁
  | some e =>
      obtain ⟨e', he', ha⟩ := h.left he
      have hview := hshow he
      simp only [element?, value?, he, he', Option.bind_some] at hview
      simp only [he', Option.bind_some, Entry.shown?, ha.kind, hview]

/-- Two coherent registries of alike elements are evaluated with the same success, and show the same
elements after it, whatever had been evaluated in them before. -/
theorem evaluatePending_agree (scheduler scheduler' : Scheduler) (hr : r.Coherent) (hrs : r.Static)
    (hs : s.Coherent) (hss : s.Static) (h : r.Alike s) {n : Nat}
    (hok : (r.evaluatePending scheduler).1 = .ok n) :
    (∃ m, (s.evaluatePending scheduler').1 = .ok m) ∧
      (r.evaluatePending scheduler).2.elements = (s.evaluatePending scheduler').2.elements := by
  obtain ⟨hrc, hrgrows, hrres⟩ := evaluatePending_spec scheduler hr hrs
  obtain ⟨hsc, hsgrows, hsres⟩ := evaluatePending_spec scheduler' hs hss
  rw [hok] at hrres
  have halike := (h.of_blank hrgrows.blank).symm.of_blank hsgrows.blank
  cases hres : (s.evaluatePending scheduler').1 with
  | error b =>
      rw [hres] at hsres
      exact absurd hsres (not_stuck hsc hrc halike hrres)
  | ok m =>
      rw [hres] at hsres
      refine ⟨⟨m, rfl⟩, elements_congr halike.symm fun {id e} he => ?_⟩
      obtain ⟨v, hv⟩ := hrres he
      obtain ⟨e', he', -⟩ := halike.right he
      obtain ⟨v', hv'⟩ := hsres he'
      exact hrc.element?_eq hsc halike.symm (hrc.grounded hv) (hsc.grounded hv')

end StaticGql.Registry
