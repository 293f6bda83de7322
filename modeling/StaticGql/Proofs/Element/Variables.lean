import StaticGql.Proofs.Element.Documents

/-!
The variables of an operation: its own, and those of all elements that it depends on. An operation fails where
two of these give one variable different types; but of its own entries that go by one name only the last counts.
-/

namespace StaticGql

open Relation

variable {entries : Dict String} {k name type : String} {b : Builder} {o : Outcome (Dict String)}

/-! ### Putting variables together -/

namespace Variables

/-- Whether types that are given to variables are put together: all of them, or some variable has two. -/
def Gathers (P : String → String → Prop) : Outcome (Dict String) → Prop
  | .ok all => ∀ k t, all.get? k = some t ↔ P k t
  | .error _ => ∃ k t t', t ≠ t' ∧ P k t ∧ P k t'

theorem Gathers.fails_iff {P : String → String → Prop} (h : Gathers P o) :
    (∃ failure, o = .error failure) ↔ ∃ k t t', t ≠ t' ∧ P k t ∧ P k t' := by
  cases o with
  | error failure => exact ⟨fun _ => h, fun _ => ⟨failure, rfl⟩⟩
  | ok all =>
      refine ⟨nofun, ?_⟩
      rintro ⟨k, t, t', hne, ht, ht'⟩
      have hsame := ((h k t).2 ht).symm.trans ((h k t').2 ht')
      exact absurd (Option.some.inj hsame) hne

theorem gathers_add (acc : Dict String) (name type : String) :
    Gathers (fun k t => acc.get? k = some t ∨ k = name ∧ t = type) (add acc name type) := by
  rw [add]
  cases hget : acc.get? name with
  | none =>
      intro k t
      rw [Dict.get?_insert]
      by_cases hk : name = k
      · subst hk
        simp [hget, eq_comm]
      · simp [hk, Ne.symm hk]
  | some existing =>
      by_cases hsame : existing = type
      · subst hsame
        simp only [if_true]
        intro k t
        refine ⟨.inl, ?_⟩
        rintro (h | ⟨rfl, rfl⟩)
        · exact h
        · exact hget
      · simp only [hsame, if_false]
        exact ⟨name, existing, type, hsame, .inl hget, .inr ⟨rfl, rfl⟩⟩

theorem Gathers.bind {P Q : String → String → Prop} {f : Dict String → Outcome (Dict String)} (h : Gathers P o)
    (hmono : ∀ k t, P k t → Q k t) (hf : ∀ all, (∀ k t, all.get? k = some t ↔ P k t) → Gathers Q (f all)) :
    Gathers Q (o >>= f) := by
  cases o with
  | error failure =>
      obtain ⟨k, t, t', hne, ht, ht'⟩ := h
      exact ⟨k, t, t', hne, hmono k t ht, hmono k t' ht'⟩
  | ok all => exact hf all h

theorem gathers_addAll (acc : Dict String) (l : List (String × String)) :
    Gathers (fun k t => acc.get? k = some t ∨ (k, t) ∈ l)
      (l.foldlM (fun acc (name, type) => add acc name type) acc) := by
  induction l generalizing acc with
  | nil => exact fun k t => by simp
  | cons e rest ih =>
      obtain ⟨name, type⟩ := e
      rw [List.foldlM_cons]
      apply (gathers_add acc name type).bind
      · rintro k t (h | ⟨rfl, rfl⟩)
        · exact .inl h
        · exact .inr List.mem_cons_self
      · intro acc' hacc'
        have hrest := ih acc'
        simp only [hacc', or_assoc] at hrest
        simpa only [List.mem_cons, Prod.mk.injEq] using hrest

theorem merge_eq (acc more : Dict String) :
    merge acc more = more.toList.foldlM (fun acc (name, type) => add acc name type) acc := rfl

theorem mergeAll_eq (acc : Dict String) (elements : List Element) : mergeAll acc elements =
    (elements.flatMap (·.variableTypes.toList)).foldlM (fun acc (name, type) => add acc name type) acc := by
  induction elements generalizing acc with
  | nil => rfl
  | cons e rest ih =>
      rw [mergeAll, List.foldlM_cons, List.flatMap_cons, List.foldlM_append, ← merge_eq]
      exact bind_congr fun acc' => ih acc'

theorem gathers_mergeAll (acc : Dict String) (elements : List Element) :
    Gathers (fun k t => acc.get? k = some t ∨ ∃ e ∈ elements, e.variableTypes.get? k = some t)
      (mergeAll acc elements) := by
  have h := gathers_addAll acc (elements.flatMap (·.variableTypes.toList))
  simp only [List.mem_flatMap, Dict.mem_toList_iff] at h
  rw [mergeAll_eq]
  exact h

/-! ### The entries of a call -/

/-- The name of a variable, which may be written with the dollar sign. -/
def bare (name : String) : String := String.ofList (name.toList.dropWhile (· = '$'))

/-- The variables that a call writes down: an object of type texts, or nothing. -/
inductive Written (b : Builder) : Dict String → Prop
  | nothing (h : b.option? "variables" = none) : Written b ∅
  | object {fields : List (String × Json)} {entries : Dict String}
      (h : b.option? "variables" = some (.obj fields))
      (htypes : Dict.ofList fields = entries.map fun _ t => .str t) : Written b entries

/-- A variable is given a type by one of the entries. -/
def Enters (entries : Dict String) (name type : String) : Prop :=
  ∃ key, entries.get? key = some type ∧ bare key = name

/-- The entry is the last one that goes by the name. -/
def EntersLast (entries : Dict String) (name type : String) : Prop :=
  ∃ key, entries.get? key = some type ∧ bare key = name ∧
    ∀ key' type', entries.get? key' = some type' → bare key' = name → key' ≤ key

/-- The entries by the bare names of their variables. -/
def named (entries : Dict String) : Dict String := .ofList (entries.toList.map fun e => (bare e.1, e.2))

theorem get?_named : (named entries).get? name = some type ↔ EntersLast entries name type := by
  have hsorted : (entries.toList.map fun e => (e.1, e)).Pairwise (fun a b => a.1 < b.1) :=
    List.pairwise_map.2 entries.sorted
  have hmem : ∀ key e, (key, e) ∈ (entries.toList.map fun e => (e.1, e)) ↔ e.1 = key ∧ entries.get? key = some e.2 := by
    rintro key ⟨key', t⟩
    simp only [List.mem_map, Prod.mk.injEq]
    constructor
    · rintro ⟨e, he, rfl, rfl⟩
      exact ⟨rfl, Dict.mem_toList_iff.1 he⟩
    · rintro ⟨rfl, he⟩
      exact ⟨_, Dict.mem_toList_iff.2 he, rfl, rfl⟩
  have hnamed : named entries = (Dict.ofList ((entries.toList.map fun e => (e.1, e)).map
      fun e => (bare e.2.1, e.2))).map fun _ e => e.2 := by
    rw [named, Dict.map_ofList, List.map_map, List.map_map]
    rfl
  have hlast := fun e => Dict.get?_ofList_map_iff (k := name) (v := e) hsorted fun e => bare e.1
  rw [hnamed, Dict.get?_map, Option.map_eq_some_iff]
  simp only [hlast, hmem]
  constructor
  · rintro ⟨⟨_, _⟩, ⟨key, ⟨rfl, hkey⟩, hbare, hmax⟩, rfl⟩
    exact ⟨_, hkey, hbare, fun key' type' hkey' hbare' => hmax key' (key', type') ⟨rfl, hkey'⟩ hbare'⟩
  · rintro ⟨key, hkey, hbare, hmax⟩
    refine ⟨(key, type), ⟨key, ⟨rfl, hkey⟩, hbare, ?_⟩, rfl⟩
    rintro key' ⟨_, type'⟩ ⟨rfl, hkey'⟩ hbare'
    exact hmax _ type' hkey' hbare'

theorem own_of_written (h : Written b entries) : own b = .ok (named entries) := by
  cases h with
  | nothing h =>
      rw [own, h]
      rfl
  | @object fields _ h htypes =>
      rw [own, h]
      show ofFields fields = _
      rw [ofFields, htypes, Dict.toList_map, named, Dict.ofList, List.foldl_map]
      show _ = Except.ok (List.foldl _ ∅ _)
      generalize (∅ : Dict String) = acc
      induction entries.toList generalizing acc with
      | nil => rfl
      | cons e rest ih => exact ih _

/-- Where the entries of one name agree, all of them count. -/
theorem entersLast_iff (hagree : ∀ k t t', Enters entries k t → Enters entries k t' → t = t') :
    EntersLast entries name type ↔ Enters entries name type := by
  constructor
  · rintro ⟨key, hkey, hbare, -⟩
    exact ⟨key, hkey, hbare⟩
  · rintro ⟨key, hkey, rfl⟩
    have hsome : ((named entries).get? (bare key)).isSome = true := by
      refine Dict.isSome_get?_ofList.2 (List.mem_map.2 ⟨(bare key, type), ?_, rfl⟩)
      exact List.mem_map.2 ⟨(key, type), Dict.mem_toList_iff.2 hkey, rfl⟩
    obtain ⟨last, hlast⟩ := Option.isSome_iff_exists.1 hsome
    obtain ⟨key', hkey', hbare, -⟩ := get?_named.1 hlast
    rw [hagree _ type last ⟨key, hkey, rfl⟩ ⟨key', hkey', hbare⟩]
    exact get?_named.1 hlast

end Variables

/-! ### One operation -/

open Variables

/-- The value of an operation goes by the variables that are put together. -/
theorem Declaration.value_operation {d : Declaration} {own : Dict String} (c : Context) (hkind : d.kind = .operation)
    (hname : d.builder.optionText? "name" = some name) (hown : Variables.own d.builder = .ok own) :
    match mergeAll own c.allElements with
    | .error failure => d.value c = .error failure
    | .ok types => ∃ e : OperationElement, d.value c = .ok (.element (.operation e)) ∧ e.variableTypes = types := by
  rw [Declaration.value, hkind]
  simp only [Element.operationOf, hname, hown]
  cases hall : mergeAll own c.allElements with
  | error failure => simp [hall, bind, Except.bind, Except.map]
  | ok types => simp [hall, bind, Except.bind, Except.map, pure, Except.pure]

namespace Registry

variable {r : Registry} {id x : CanonicalId} {e : Element} {c : Context}

theorem IsContext.mem_allElements (hc : r.IsContext id c) :
    e ∈ c.allElements ↔ ∃ x, r.Sees id x ∧ r.element? x = some e := by
  simp only [Context.allElements, List.mem_filterMap, Dict.mem_values_iff, hc.transitive, element?,
    Option.bind_eq_some_iff]
  constructor
  · rintro ⟨v, ⟨k, hk, hv⟩, he⟩
    exact ⟨⟨k⟩, hk, v, hv, he⟩
  · rintro ⟨x, hx, v, hv, he⟩
    exact ⟨v, ⟨x.text, hx, hv⟩, he⟩

/-- What evaluating one element by itself comes to. -/
def settle (r : Registry) (id : CanonicalId) : Outcome Value → Build Nat × Registry
  | .ok v => (.ok 1, r.store id v)
  | .error failure => (.error (.ofEvaluation id failure), r)

theorem evaluateLevels_single {entry : Entry} {o : Outcome Value} (scheduler : Scheduler)
    (he : r.entry? id = some entry) (hc : r.context id = .ok c) (ho : entry.factory c = .ready o) :
    evaluateLevels scheduler r 0 [[id]] = r.settle id o := by
  have heffects : r.effects [id] = .ok [(id, .ready o)] := by
    simp only [effects, List.filterMap_cons, List.filterMap_nil, he, Option.map_some, List.mapM_cons, List.mapM_nil,
      hc, Except.map, ho]
    rfl
  have hrun : run scheduler [(id, .ready o)] = .ok [(id, o)] := by
    rw [run_eq]
    cases scheduler <;> rfl
  simp only [evaluateLevels, heffects, Except.bind, hrun]
  cases o <;> rfl

/-- The types that a variable is given where an element is evaluated: by its own entries, and by all elements that
it depends on. -/
def Types (r : Registry) (id : CanonicalId) (own : String → String → Prop) (k t : String) : Prop :=
  own k t ∨ ∃ x e, TransGen r.DependsOn id x ∧ r.element? x = some e ∧ e.variableTypes.get? k = some t

theorem IsContext.gathers (hc : r.IsContext id c) (hacyclic : ¬ TransGen r.DependsOn id id) :
    Gathers (r.Types id (EntersLast entries)) (mergeAll (named entries) c.allElements) := by
  have htypes : r.Types id (EntersLast entries) = fun k t => (named entries).get? k = some t ∨
      ∃ e ∈ c.allElements, e.variableTypes.get? k = some t := by
    funext k t
    simp only [Types, get?_named, hc.mem_allElements, sees_iff hacyclic, eq_iff_iff]
    refine or_congr_right ⟨?_, ?_⟩
    · rintro ⟨x, e, hx, he, ht⟩
      exact ⟨e, ⟨x, hx, he⟩, ht⟩
    · rintro ⟨e, ⟨x, hx, he⟩, ht⟩
      exact ⟨x, e, hx, he, ht⟩
  exact htypes ▸ gathers_mergeAll _ _

/-- An operation over evaluated elements fails exactly if a variable is given two types, by the entries of the
operation that count and by all that it depends on; if it goes through, it has the variables that are given. Of its
own entries the last one counts for each name, which are all of them where none is given two types. -/
theorem evaluateLevels_variables {d : Declaration} (scheduler : Scheduler)
    (hentry : r.entry? d.id = some (entryOf d.file d.definition)) (hkind : d.kind = .operation)
    (hname : d.builder.optionText? "name" = some name) (hwritten : Written d.builder entries)
    (hacyclic : ¬ TransGen r.DependsOn d.id d.id)
    (hevaluated : ∀ x, TransGen r.DependsOn d.id x → ∃ v, r.value? x = some v) :
    ((∃ b, (evaluateLevels scheduler r 0 [[d.id]]).1 = .error b) ↔ ∃ k t t', t ≠ t' ∧
      r.Types d.id (EntersLast entries) k t ∧ r.Types d.id (EntersLast entries) k t') ∧
    (∀ n r', evaluateLevels scheduler r 0 [[d.id]] = (.ok n, r') →
      ∃ e, r'.value? d.id = some (.element (.operation e)) ∧
        ∀ k t, e.variableTypes.get? k = some t ↔ r.Types d.id (EntersLast entries) k t) ∧
    ((∀ k t t', Enters entries k t → Enters entries k t' → t = t') →
      ∀ k t, r.Types d.id (Enters entries) k t ↔ r.Types d.id (EntersLast entries) k t) := by
  obtain ⟨c, hcontext, hc⟩ := exists_isContext r d.id fun x hx => Option.isSome_iff_exists.2 (hevaluated x hx)
  have hgathers : Gathers (r.Types d.id (EntersLast entries)) (mergeAll (named entries) c.allElements) :=
    hc.gathers hacyclic
  have hvalue := d.value_operation c hkind hname (own_of_written hwritten)
  have hrun := evaluateLevels_single (o := d.value c) scheduler hentry hcontext rfl
  have hall : (∀ k t t', Enters entries k t → Enters entries k t' → t = t') →
      ∀ k t, r.Types d.id (Enters entries) k t ↔ r.Types d.id (EntersLast entries) k t := by
    intro hagree k t
    simp only [Types, entersLast_iff hagree]
  have hfails := hgathers.fails_iff
  cases htypes : mergeAll (named entries) c.allElements with
  | error failure =>
      rw [htypes] at hvalue hgathers
      rw [hvalue] at hrun
      rw [hrun]
      exact ⟨iff_of_true ⟨_, rfl⟩ hgathers, nofun, hall⟩
  | ok types =>
      rw [htypes] at hvalue hgathers hfails
      obtain ⟨e, hvalue, rfl⟩ := hvalue
      rw [hvalue] at hrun
      rw [hrun]
      refine ⟨iff_of_false nofun fun hconflict => ?_, fun n r' hok => ?_, hall⟩
      · obtain ⟨failure, hfailure⟩ := hfails.2 hconflict
        cases hfailure
      · cases hok
        exact ⟨e, value?_store_self hentry, hgathers⟩

/-- An operation waits to be evaluated. -/
def awaiting (r : Registry) (d : Declaration) : Registry :=
  { r with entries := r.entries.insert d.id.text (entryOf d.file d.definition) }

theorem entry?_awaiting (r : Registry) (d : Declaration) :
    Registry.entry? (r.awaiting d) d.id = some (entryOf d.file d.definition) := by
  rw [Registry.entry?, awaiting, Dict.get?_insert, if_pos rfl]

theorem mem_of_transGen {ids : List CanonicalId} (hclosed : ∀ y ∈ id :: ids, ∀ x ∈ r.dependenciesOf y, x ∈ ids)
    (hx : TransGen r.DependsOn id x) : x ∈ ids := by
  induction hx with
  | single hx => exact hclosed id List.mem_cons_self _ hx
  | tail _ hx ih => exact hclosed _ (List.mem_cons_of_mem id ih) _ hx

/-- A query with a variable whose type is another one than in a fragment that it reaches through a second one. -/
def query : Declaration :=
  ⟨⟨"/a.ts::q"⟩, .operation, ⟨[], none, none, [("name", .str "Q"), ("variables", .obj [("$id", .str "String")])]⟩,
    [⟨"/a.ts::g"⟩], "/a.ts", ⟨4, 5, 1, 5⟩⟩

def overFragments : Registry :=
  (evaluated .sync
    [⟨⟨"/a.ts::f"⟩, .fragment, ⟨[], some "User", none, [("variables", .obj [("id", .str "ID!")])]⟩, [], "/a.ts",
        ⟨0, 1, 1, 1⟩⟩,
      ⟨⟨"/a.ts::g"⟩, .fragment, ⟨[], some "User", none, []⟩, [⟨"/a.ts::f"⟩], "/a.ts", ⟨2, 3, 1, 3⟩⟩]).awaiting query

theorem reached_overFragments (hx : TransGen overFragments.DependsOn query.id x) :
    x ∈ [(⟨"/a.ts::f"⟩ : CanonicalId), ⟨"/a.ts::g"⟩] :=
  mem_of_transGen (by decide +kernel) hx

theorem evaluateLevels_overFragments : ∃ b, (evaluateLevels .sync overFragments 0 [[query.id]]).1 = .error b := by
  have hfacts : (∀ x ∈ [(⟨"/a.ts::f"⟩ : CanonicalId), ⟨"/a.ts::g"⟩], (overFragments.value? x).isSome) ∧
      ((overFragments.element? ⟨"/a.ts::f"⟩).bind fun e => e.variableTypes.get? "id") = some "ID!" ∧
        ⟨"/a.ts::g"⟩ ∈ overFragments.dependenciesOf query.id ∧
          ⟨"/a.ts::f"⟩ ∈ overFragments.dependenciesOf ⟨"/a.ts::g"⟩ := by
    decide +kernel
  obtain ⟨hvalues, htype, houter, hinner⟩ := hfacts
  obtain ⟨e, he, htype⟩ := Option.bind_eq_some_iff.1 htype
  have hwritten : Written query.builder (.ofList [("$id", "String")]) := .object rfl rfl
  have hacyclic : ¬ TransGen overFragments.DependsOn query.id query.id :=
    fun hloop => absurd (reached_overFragments hloop) (by decide)
  have hevaluated : ∀ x, TransGen overFragments.DependsOn query.id x → ∃ v, overFragments.value? x = some v :=
    fun x hx => Option.isSome_iff_exists.1 (hvalues x (reached_overFragments hx))
  have hvariables :=
    evaluateLevels_variables .sync (entry?_awaiting _ query) rfl rfl hwritten hacyclic hevaluated
  refine hvariables.1.2 ⟨"id", "String", "ID!", by decide, .inl ⟨"$id", rfl, rfl, ?_⟩,
    .inr ⟨⟨"/a.ts::f"⟩, e, ?_, he, htype⟩⟩
  · intro key' type' hkey' _
    obtain ⟨rfl, -⟩ : key' = "$id" ∧ type' = "String" := by simpa using Dict.mem_of_get?_ofList hkey'
    exact String.le_refl _
  · exact .tail (.single houter) hinner

/-- A query that writes one variable down twice, with the dollar sign and without. -/
def ambiguous : Declaration :=
  ⟨⟨"/a.ts::q"⟩, .operation, ⟨[], none, none,
    [("name", .str "Q"), ("variables", .obj [("$id", .str "ID!"), ("id", .str "String")])]⟩, [], "/a.ts", ⟨0, 1, 1, 1⟩⟩

/-- It goes through: the first one is lost. -/
theorem evaluateLevels_ambiguous : ¬ ∀ (r : Registry) (d : Declaration) (name : String) (entries : Dict String),
    r.entry? d.id = some (entryOf d.file d.definition) → d.kind = .operation →
      d.builder.optionText? "name" = some name → Written d.builder entries → ¬ TransGen r.DependsOn d.id d.id →
        (∀ x, TransGen r.DependsOn d.id x → ∃ v, r.value? x = some v) →
          ((∃ b, (evaluateLevels .sync r 0 [[d.id]]).1 = .error b) ↔ ∃ k t t', t ≠ t' ∧
            r.Types d.id (Enters entries) k t ∧ r.Types d.id (Enters entries) k t') := by
  intro h
  have hreached : ∀ x, ¬ TransGen (empty.awaiting ambiguous).DependsOn ambiguous.id x := by
    intro x hx
    have hmem : x ∈ ([] : List CanonicalId) := mem_of_transGen (by decide +kernel) hx
    cases hmem
  have hiff := h (empty.awaiting ambiguous) ambiguous "Q" (.ofList [("$id", "ID!"), ("id", "String")])
    (entry?_awaiting _ _) rfl rfl (.object rfl rfl) (hreached _) fun x hx => absurd hx (hreached x)
  obtain ⟨b, hb⟩ := hiff.2 ⟨"id", "ID!", "String", by decide, .inl ⟨"$id", rfl, by decide +kernel⟩,
    .inl ⟨"id", rfl, by decide +kernel⟩⟩
  have hok : (evaluateLevels .sync (empty.awaiting ambiguous) 0 [[ambiguous.id]]).1 = .ok 1 := by decide +kernel
  rw [hok] at hb
  cases hb

end Registry
end StaticGql
