import StaticGql.Proofs.Element.Alike
import StaticGql.Proofs.Element.Documents
import StaticGql.Proofs.Registry.Elements

/-!
Slices in slices. Each slice takes up the fields and spreads of those that it refers to directly, which have
taken up theirs before; so it ends up with those of all slices that lead on from it through slices.
-/

namespace StaticGql

open Relation

variable {t : String} {d s : Declaration} {l : List Declaration}

/-- The fields that a declaration itself selects. -/
def Declaration.ownFields (d : Declaration) : List String := d.builder.optionTexts "fields"

/-- The name by which a fragment or model is spread. -/
def Declaration.spreadName? (d : Declaration) : Option String :=
  let typename := (d.builder.typename <|> d.builder.optionText? "typename").getD Element.rootTypename
  match d.kind with
  | .fragment => some ((d.builder.optionText? "name").getD (typename ++ "Fragment"))
  | .model => some ((d.builder.optionText? "name").getD (typename ++ "Model"))
  | .slice | .operation | .define => none

theorem Declaration.spreadName?_of_value {c : Context} {v : Value} (h : d.value c = .ok v) :
    d.spreadName? = v.fragment?.map (·.name) := by
  rw [value] at h
  rw [spreadName?]
  cases hkind : d.kind with
  | define =>
      simp only [hkind] at h
      cases h
      rfl
  | slice | operation =>
      simp only [hkind] at h
      obtain ⟨e, -, rfl⟩ := map_eq_ok_iff.1 h
      rfl
  | fragment | model =>
      simp only [hkind] at h
      obtain ⟨f, hf, rfl⟩ := map_eq_ok_iff.1 h
      obtain ⟨types, -, hf⟩ := bind_eq_ok_iff.1 hf
      cases hf
      simp [Value.fragment?, Value.element?, Element.fragment?, hkind]

/-! ### Taking up more fields -/

/-- Behind the fields that were there first stand others, each once. -/
def Prolonged (first fields : List String) : Prop :=
  ∃ more, fields = first ++ more ∧ more.Nodup ∧ ∀ t ∈ more, t ∉ first

namespace Prolonged

variable {first fields more : List String}

theorem refl (first : List String) : Prolonged first first := ⟨[], by simp⟩

theorem push (h : Prolonged first fields) (ht : t ∉ fields) : Prolonged first (fields ++ [t]) := by
  obtain ⟨more, rfl, hnodup, hnew⟩ := h
  rw [List.mem_append, not_or] at ht
  refine ⟨more ++ [t], by rw [List.append_assoc], ?_, ?_⟩
  · exact List.nodup_append.2 ⟨hnodup, by simp, by grind⟩
  · simpa [or_imp, forall_and, ht.1] using hnew

theorem union (h : Prolonged first fields) (more : List String) : Prolonged first (Element.union fields more) := by
  refine List.foldlRecOn more _ h fun fields hfields t _ => ?_
  split
  · exact hfields
  · exact hfields.push ‹_›

end Prolonged

theorem Element.prolonged_sliceFields (d : Declaration) (c : Context) : Prolonged d.ownFields (sliceFields d c) :=
  List.foldlRecOn _ _ (Prolonged.refl _) fun _ h s _ => h.union s.fields

/-! ### Slices that lead on to slices -/

/-- The second declaration is a slice that the first one refers to. -/
def Embeds (l : List Declaration) (d s : Declaration) : Prop := s ∈ l ∧ s.kind = .slice ∧ s.id ∈ d.references

/-- This holds of the declaration, or of a slice that it leads to through slices. -/
def Within (l : List Declaration) (P : Declaration → Prop) (d : Declaration) : Prop :=
  ∃ s, ReflTransGen (Embeds l) d s ∧ P s

theorem within_iff {P : Declaration → Prop} : Within l P d ↔ P d ∨ ∃ s, Embeds l d s ∧ Within l P s := by
  constructor
  · rintro ⟨s, hs, hP⟩
    rcases hs.cases_head with rfl | ⟨s', hs', hs⟩
    · exact .inl hP
    · exact .inr ⟨s', hs', s, hs, hP⟩
  · rintro (hP | ⟨s', hs', s, hs, hP⟩)
    · exact ⟨d, .refl, hP⟩
    · exact ⟨s, .head hs' hs, hP⟩

/-- Fields and spreads of a declaration with those of all slices that it leads to through slices. -/
structure Flattened (l : List Declaration) (d : Declaration) (fields spreads : List String) : Prop where
  own_first : Prolonged d.ownFields fields
  mem_fields : ∀ t, t ∈ fields ↔ Within l (fun s => t ∈ s.ownFields) d
  sorted : spreads.Pairwise (· < ·)
  mem_spreads : ∀ n, n ∈ spreads ↔
    Within l (fun s => ∃ f ∈ l, f.id ∈ s.references ∧ f.spreadName? = some n) d

namespace Registry

variable {r : Registry} {c : Context} {n : String} {v : Value}

/-! ### Slices that are evaluated -/

theorem DeclaredBy.kind_of_value (h : r.DeclaredBy l) (hr : r.Registers l) (hd : d ∈ l)
    (hv : r.value? d.id = some v) : v.kind = d.kind := by
  obtain ⟨c, -, hvalue⟩ := h.exists_context hr hd hv
  exact d.kind_of_value hvalue

/-- The slices that an evaluated declaration is given are those that it embeds. -/
theorem DeclaredBy.mem_direct_slices {e : SliceElement} (h : r.DeclaredBy l) (hr : r.Registers l) (hd : d ∈ l)
    (hc : r.IsContext d.id c) :
    e ∈ c.directElements.filterMap Element.slice? ↔ ∃ s, Embeds l d s ∧ r.slice? s.id = some e := by
  rw [hc.mem_direct]
  constructor
  · rintro ⟨x, hx, he⟩
    have hv := slice?_eq_some_iff.1 he
    obtain ⟨s, hs, c', rfl, -, hvalue⟩ := h.exists_declaration hv
    exact ⟨s, ⟨hs, (s.kind_of_value hvalue).symm, (hr.dependsOn_iff hd).1 hx⟩, he⟩
  · rintro ⟨s, ⟨-, -, hx⟩, he⟩
    exact ⟨s.id, (hr.dependsOn_iff hd).2 hx, he⟩

theorem DeclaredBy.exists_slice (h : r.DeclaredBy l) (hr : r.Registers l) (hd : d ∈ l) (hkind : d.kind = .slice)
    (hv : r.value? d.id = some v) : ∃ e, r.slice? d.id = some e := by
  have hkind' := h.kind_of_value hr hd hv
  rw [hkind] at hkind'
  cases v with
  | define metadata => cases hkind'
  | element e =>
      cases e with
      | slice e => exact ⟨e, slice?_eq_some_iff.2 hv⟩
      | model f | fragment f | operation o => cases hkind'

theorem fragment?_eq (r : Registry) (id : CanonicalId) : r.fragment? id = (r.value? id).bind Value.fragment? :=
  Option.bind_assoc ..

/-- The fragments and models that an evaluated declaration refers to are spread by the names that they declare. -/
theorem DeclaredBy.mem_spreads (h : r.DeclaredBy l) (hr : r.Registers l) (hd : d ∈ l) (hgrounded : r.Grounded d.id)
    (hc : r.IsContext d.id c) :
    n ∈ Element.spreads c ↔ ∃ f ∈ l, f.id ∈ d.references ∧ f.spreadName? = some n := by
  rw [hc.mem_spreads]
  simp only [hr.dependsOn_iff hd, fragment?_eq]
  constructor
  · rintro ⟨x, e, hx, hbind, rfl⟩
    obtain ⟨v, hv, he⟩ := Option.bind_eq_some_iff.1 hbind
    obtain ⟨f, hf, c', rfl, -, hvalue⟩ := h.exists_declaration hv
    exact ⟨f, hf, hx, by rw [f.spreadName?_of_value hvalue, he, Option.map_some]⟩
  · rintro ⟨f, hf, hx, hname⟩
    obtain ⟨v, hv⟩ := (hgrounded.of_dependsOn ((hr.dependsOn_iff hd).2 hx)).value
    obtain ⟨c', -, hvalue⟩ := h.exists_context hr hf hv
    rw [f.spreadName?_of_value hvalue, Option.map_eq_some_iff] at hname
    obtain ⟨e, he, rfl⟩ := hname
    exact ⟨f.id, e, hx, Option.bind_eq_some_iff.2 ⟨v, hv, he⟩, rfl⟩

/-- One step: where the slices that a declaration embeds are flattened, what it takes up of them makes it so. -/
theorem DeclaredBy.flattened_of_below (h : r.DeclaredBy l) (hr : r.Registers l) (hd : d ∈ l)
    (hgrounded : r.Grounded d.id) (hc : r.IsContext d.id c) (hbelow : ∀ s, Embeds l d s →
      ∃ e, r.slice? s.id = some e ∧ Flattened l s e.fields e.spreads) :
    Flattened l d (Element.sliceFields d c) (Element.sliceSpreads c) := by
  -- what holds of one of the slices that are given holds within one of those that are embedded
  have hslices : ∀ (p : SliceElement → Prop) (P : Declaration → Prop),
      (∀ s e, Flattened l s e.fields e.spreads → (p e ↔ Within l P s)) →
        ((∃ e ∈ c.directElements.filterMap Element.slice?, p e) ↔ ∃ s, Embeds l d s ∧ Within l P s) := by
    intro p P hp
    simp only [h.mem_direct_slices hr hd hc]
    constructor
    · rintro ⟨e, ⟨s, hs, he⟩, hpe⟩
      obtain ⟨e', he', hflat⟩ := hbelow s hs
      obtain rfl := Option.some.inj (he.symm.trans he')
      exact ⟨s, hs, (hp s e hflat).1 hpe⟩
    · rintro ⟨s, hs, hP⟩
      obtain ⟨e, he, hflat⟩ := hbelow s hs
      exact ⟨e, ⟨s, hs, he⟩, (hp s e hflat).2 hP⟩
  refine ⟨Element.prolonged_sliceFields d c, fun t => ?_, Dict.keys_pairwise _, fun n => ?_⟩
  · rw [Element.mem_sliceFields, within_iff]
    exact or_congr_right (hslices _ _ fun s e hflat => hflat.mem_fields t)
  · rw [Element.mem_sliceSpreads, within_iff, h.mem_spreads hr hd hgrounded hc]
    exact or_congr_right (hslices _ _ fun s e hflat => hflat.mem_spreads n)

theorem DeclaredBy.exists_embedded (h : r.DeclaredBy l) (hr : r.Registers l) (hd : d ∈ l)
    (hgrounded : r.Grounded d.id) (hs : Embeds l d s) : ∃ e, r.slice? s.id = some e := by
  obtain ⟨hmem, hkind, hx⟩ := hs
  obtain ⟨v, hv⟩ := (hgrounded.of_dependsOn ((hr.dependsOn_iff hd).2 hx)).value
  exact h.exists_slice hr hmem hkind hv

/-- The induction is on how the slice is grounded, which runs down all slices in it. -/
theorem DeclaredBy.flattened (h : r.DeclaredBy l) (hr : r.Registers l) {e : SliceElement} (hd : d ∈ l)
    (he : r.slice? d.id = some e) : Flattened l d e.fields e.spreads := by
  have hgrounded := h.coherent.grounded (slice?_eq_some_iff.1 he)
  generalize hid : d.id = id at hgrounded
  induction hgrounded generalizing d e with
  | @intro id _ value dependencies ih =>
      subst hid
      have hgrounded := Grounded.intro value dependencies
      obtain ⟨c, hc, hvalue⟩ := h.exists_context hr hd (slice?_eq_some_iff.1 he)
      obtain ⟨hfields, hspreads⟩ := Element.sliceOf_spec (Declaration.of_value hvalue)
      rw [hfields, hspreads]
      refine h.flattened_of_below hr hd hgrounded hc fun s hs => ?_
      obtain ⟨e', he'⟩ := h.exists_embedded hr hd hgrounded hs
      exact ⟨e', he', ih s.id ((hr.dependsOn_iff hd).2 hs.2.2) hs.1 he' rfl⟩

theorem DeclaredBy.operation_flattened (h : r.DeclaredBy l) (hr : r.Registers l) {e : OperationElement} (hd : d ∈ l)
    (he : r.value? d.id = some (.element (.operation e))) : ∃ fields spreads parts,
      e.document = Element.joinDocument ((e.head ++ Element.selection fields spreads) :: parts) ∧
        (∀ text ∈ parts, ∃ x f, TransGen r.DependsOn d.id x ∧ r.fragment? x = some f ∧ f.definition = text) ∧
          Flattened l d fields spreads := by
  have hgrounded := h.coherent.grounded he
  obtain ⟨c, hc, hvalue⟩ := h.exists_context hr hd he
  refine ⟨_, _, _, Element.operationOf_spec (Declaration.of_value hvalue), fun text htext => ?_, ?_⟩
  · obtain ⟨x, f, hx, hf⟩ := (hc.mem_definitions hgrounded).1 htext
    exact ⟨x, f, hx.reached, hx.fragment, hf⟩
  · refine h.flattened_of_below hr hd hgrounded hc fun s hs => ?_
    obtain ⟨e', he'⟩ := h.exists_embedded hr hd hgrounded hs
    exact ⟨e', he', h.flattened hr hs.1 he'⟩

/-- However far evaluating declarations gets, a slice has its own fields and then those of all slices that it leads
to through slices, and spreads the fragments and models that they refer to; and so does the selection of an operation.
Where evaluating goes through, every declaration has a value of its kind. -/
theorem evaluated_flattened (scheduler : Scheduler) (l : List Declaration) (hd : d ∈ l) :
    (∀ e, (evaluated scheduler l).slice? d.id = some e → Flattened l d e.fields e.spreads) ∧
    (∀ e, (evaluated scheduler l).value? d.id = some (.element (.operation e)) → ∃ fields spreads parts,
      e.document = Element.joinDocument ((e.head ++ Element.selection fields spreads) :: parts) ∧
        (∀ text ∈ parts, ∃ x f, TransGen (evaluated scheduler l).DependsOn d.id x ∧
          (evaluated scheduler l).fragment? x = some f ∧ f.definition = text) ∧
            Flattened l d fields spreads) ∧
    ∀ k, ((evaluateDeclarations scheduler l).run.run empty).1 = .ok (.ok k) →
      ∃ v, (evaluated scheduler l).value? d.id = some v ∧ v.kind = d.kind := by
  have h := evaluated_declaredBy scheduler l
  refine ⟨fun e he => ?_, fun e he => ?_, fun k hok => ?_⟩
  · exact h.flattened (registers_of_value scheduler l (slice?_eq_some_iff.1 he)) hd he
  · exact h.operation_flattened (registers_of_value scheduler l he) hd he
  · obtain ⟨v, hv⟩ := exists_value_of_evaluated scheduler hok hd
    exact ⟨v, hv, h.kind_of_value (registers_of_value scheduler l hv) hd hv⟩

/-- A slice that a query embeds twice, through two others, and a slice in a fragment, which it does not embed. -/
def embeddedTwice : List Declaration :=
  [⟨⟨"/a.ts::hidden"⟩, .slice, ⟨[], none, none, [("fields", .arr [.str "secret"])]⟩, [], "/a.ts", ⟨0, 1, 1, 1⟩⟩,
    ⟨⟨"/a.ts::f"⟩, .fragment, ⟨[], some "User", none, [("fields", .arr [.str "login"])]⟩, [⟨"/a.ts::hidden"⟩],
      "/a.ts", ⟨2, 3, 1, 3⟩⟩,
    ⟨⟨"/a.ts::base"⟩, .slice, ⟨[], none, none, [("fields", .arr [.str "id", .str "name"])]⟩, [⟨"/a.ts::f"⟩], "/a.ts",
      ⟨4, 5, 1, 5⟩⟩,
    ⟨⟨"/a.ts::left"⟩, .slice, ⟨[], none, none, [("fields", .arr [.str "name"])]⟩, [⟨"/a.ts::base"⟩], "/a.ts",
      ⟨6, 7, 1, 7⟩⟩,
    ⟨⟨"/a.ts::right"⟩, .slice, ⟨[], none, none, [("fields", .arr [.str "age", .str "id"])]⟩, [⟨"/a.ts::base"⟩], "/a.ts",
      ⟨8, 9, 1, 9⟩⟩,
    ⟨⟨"/a.ts::q"⟩, .operation, ⟨[], none, none, [("name", .str "Q"), ("fields", .arr [.str "me"])]⟩,
      [⟨"/a.ts::left"⟩, ⟨"/a.ts::right"⟩], "/a.ts", ⟨10, 11, 1, 11⟩⟩]

theorem evaluated_flattened_twice :
    Flattened embeddedTwice embeddedTwice[4] ["age", "id", "name"] ["UserFragment"] ∧
      ∃ e, (evaluated .sync embeddedTwice).value? ⟨"/a.ts::q"⟩ = some (.element (.operation e)) ∧
        e.document = "query Q { me name id age ...UserFragment }\n\nfragment UserFragment on User { login }" ∧
          ∃ fields spreads parts,
            e.document = Element.joinDocument ((e.head ++ Element.selection fields spreads) :: parts) ∧
              Flattened embeddedTwice embeddedTwice[5] fields spreads := by
  have hright : (evaluated .sync embeddedTwice).slice? ⟨"/a.ts::right"⟩ = some ⟨"query", ["age", "id", "name"],
      ["UserFragment"], ∅, "\x7b age id name ...UserFragment \x7d", [⟨"/a.ts::base"⟩]⟩ := by
    decide +kernel
  have hquery : (evaluated .sync embeddedTwice).value? ⟨"/a.ts::q"⟩ = some (.element (.operation ⟨"query", "Q", ∅,
      "query Q { me name id age ...UserFragment }\n\nfragment UserFragment on User { login }",
        [⟨"/a.ts::left"⟩, ⟨"/a.ts::right"⟩]⟩)) := element?_eq_some_iff.1 (by decide +kernel)
  refine ⟨(evaluated_flattened .sync embeddedTwice (d := embeddedTwice[4]) (List.getElem_mem _)).1 _ hright, ?_⟩
  obtain ⟨fields, spreads, parts, hdocument, -, hflat⟩ :=
    (evaluated_flattened .sync embeddedTwice (d := embeddedTwice[5]) (List.getElem_mem _)).2.1 _ hquery
  exact ⟨_, hquery, rfl, fields, spreads, parts, hdocument, hflat⟩

end Registry
end StaticGql
