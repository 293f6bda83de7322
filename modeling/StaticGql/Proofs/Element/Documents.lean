import StaticGql.Proofs.Element.Selections

/-!
What documents consist of. An operation, a fragment or a model comes with the definitions of all that it
reaches, one for each name: of several that share a name, the one under the last id.
-/

namespace StaticGql

open Relation

variable {c : Context} {n text : String}

/-! ### Parts of a document -/

namespace Element

theorem exists_of_mem_joinDocument {parts : List String} (h : text ∈ parts) :
    ∃ before after, joinDocument parts = before ++ text ++ after := by
  induction parts with
  | nil => cases h
  | cons part rest ih =>
      cases rest with
      | nil =>
          rw [List.mem_singleton] at h
          exact ⟨"", "", by simp [joinDocument, h]⟩
      | cons next rest =>
          have hjoin : joinDocument (part :: next :: rest) = part ++ "\n\n" ++ joinDocument (next :: rest) :=
            String.intercalate_cons_cons
          rcases List.mem_cons.1 h with rfl | h
          · exact ⟨"", "\n\n" ++ joinDocument (next :: rest), by simp [hjoin, String.append_assoc]⟩
          · obtain ⟨before, after, hrest⟩ := ih h
            exact ⟨part ++ "\n\n" ++ before, after, by simp [hjoin, hrest, String.append_assoc]⟩

/-- The fragments and models that a document includes, by their names. -/
def included (c : Context) : Dict FragmentElement :=
  .ofList ((c.allElements.filterMap fragment?).map fun f => (f.name, f))

theorem pairwise_included (c : Context) : (included c).values.Pairwise fun f g => f.name < g.name := by
  have hkeyed : ∀ e ∈ (included c).entries, e.2.name = e.1 := by
    rintro ⟨n, f⟩ he
    have hget := Dict.mem_toList_iff.1 he
    obtain ⟨g, -, hg⟩ := List.mem_map.1 (Dict.mem_of_get?_ofList hget)
    rw [Prod.mk.injEq] at hg
    rw [← hg.1, ← hg.2]
  refine List.pairwise_map.2 ((included c).sorted.imp_of_mem fun {a b} ha hb hab => ?_)
  rwa [hkeyed a ha, hkeyed b hb]

theorem definitions_eq (c : Context) : definitions c = (included c).values.map (·.definition) := by
  rw [definitions, included, ← Dict.values_map, Dict.map_ofList, List.map_map]
  rfl

end Element

def Value.fragment? (v : Value) : Option FragmentElement := v.element?.bind Element.fragment?

namespace Registry

variable {r : Registry} {id x y : CanonicalId} {l : List Declaration} {f g : FragmentElement}

theorem mem_keys_of_fragment? (h : r.fragment? id = some f) : id.text ∈ r.entries.keys := by
  obtain ⟨e, he, -⟩ := Option.bind_eq_some_iff.1 h
  obtain ⟨entry, hentry, -⟩ := value?_eq_some_iff.1 (element?_eq_some_iff.1 he)
  exact Dict.mem_keys_iff.2 (Option.isSome_of_eq_some hentry)

/-! ### Which definitions are included -/

/-- Of the fragments and models of one name among all that an element depends on, the last one. -/
structure Prevails (r : Registry) (id x : CanonicalId) (f : FragmentElement) : Prop where
  reached : TransGen r.DependsOn id x
  fragment : r.fragment? x = some f
  last : ∀ {y g}, TransGen r.DependsOn id y → r.fragment? y = some g → g.name = f.name → y.text ≤ x.text

theorem sees_iff (h : ¬ TransGen r.DependsOn id id) : r.Sees id x ↔ TransGen r.DependsOn id x := by
  refine ⟨And.left, fun hx => ⟨hx, ?_⟩⟩
  rintro rfl
  exact h hx

theorem IsContext.get?_fragment (hc : r.IsContext id c) (h : r.Grounded id) (k : String) :
    (c.transitive.get? k).bind Value.fragment? = some f ↔
      TransGen r.DependsOn id ⟨k⟩ ∧ r.fragment? ⟨k⟩ = some f := by
  simp only [Option.bind_eq_some_iff, hc.transitive, sees_iff h.not_loop, fragment?, element?, Value.fragment?]
  constructor
  · rintro ⟨v, ⟨hk, hv⟩, e, he, hf⟩
    exact ⟨hk, e, ⟨v, hv, he⟩, hf⟩
  · rintro ⟨hk, e, ⟨v, hv, he⟩, hf⟩
    exact ⟨v, ⟨hk, hv⟩, e, he, hf⟩

/-- The fragments and models that a context shows, in the order of their ids. -/
theorem IsContext.exists_fragments (hc : r.IsContext id c) (h : r.Grounded id) :
    ∃ shown : List (String × FragmentElement), shown.Pairwise (fun a b => a.1 < b.1) ∧
      (∀ k g, (k, g) ∈ shown ↔ TransGen r.DependsOn id ⟨k⟩ ∧ r.fragment? ⟨k⟩ = some g) ∧
        c.allElements.filterMap Element.fragment? = shown.map (·.2) := by
  refine ⟨_, Dict.pairwise_pick Value.fragment? c.transitive, fun k g => ?_, ?_⟩
  · rw [← hc.get?_fragment h]
    exact Dict.mem_pick_iff
  · simp [Context.allElements, Dict.values, Dict.toList, List.filterMap_map, List.filterMap_filterMap,
      List.map_filterMap, Function.comp_def, Value.fragment?]

theorem IsContext.get?_included (hc : r.IsContext id c) (h : r.Grounded id) :
    (Element.included c).get? n = some f ↔ ∃ x, r.Prevails id x f ∧ f.name = n := by
  obtain ⟨shown, hsorted, hmem, heq⟩ := hc.exists_fragments h
  rw [Element.included, heq, List.map_map]
  refine (Dict.get?_ofList_map_iff hsorted FragmentElement.name).trans ?_
  simp only [hmem]
  constructor
  · rintro ⟨k, ⟨hk, hf⟩, hn, hlast⟩
    exact ⟨⟨k⟩, ⟨hk, hf, fun hy hg hgn => hlast _ _ ⟨hy, hg⟩ (hgn.trans hn)⟩, hn⟩
  · rintro ⟨x, hx, hn⟩
    exact ⟨x.text, ⟨hx.reached, hx.fragment⟩, hn, fun k g hg hgn => hx.last hg.1 hg.2 (hgn.trans hn.symm)⟩

theorem IsContext.exists_included (hc : r.IsContext id c) (h : r.Grounded id) (hn : r.Names id n) :
    ∃ f ∈ (Element.included c).values, f.name = n := by
  obtain ⟨shown, -, hmem, heq⟩ := hc.exists_fragments h
  obtain ⟨x, f, hx, hf, rfl⟩ := hn
  have hsome : ((Element.included c).get? f.name).isSome = true := by
    rw [Element.included, heq, Dict.isSome_get?_ofList, List.map_map, List.map_map]
    exact List.mem_map.2 ⟨(x.text, f), (hmem x.text f).2 ⟨hx, hf⟩, rfl⟩
  obtain ⟨g, hg⟩ := Option.isSome_iff_exists.1 hsome
  obtain ⟨-, -, hname⟩ := (hc.get?_included h).1 hg
  exact ⟨g, Dict.mem_values_iff.2 ⟨_, hg⟩, hname⟩

theorem IsContext.mem_included (hc : r.IsContext id c) (h : r.Grounded id) :
    f ∈ (Element.included c).values ↔ ∃ x, r.Prevails id x f := by
  rw [Dict.mem_values_iff]
  constructor
  · rintro ⟨n, hf⟩
    obtain ⟨x, hx, -⟩ := (hc.get?_included h).1 hf
    exact ⟨x, hx⟩
  · rintro ⟨x, hx⟩
    exact ⟨f.name, (hc.get?_included h).2 ⟨x, hx, rfl⟩⟩

theorem IsContext.mem_definitions (hc : r.IsContext id c) (h : r.Grounded id) :
    text ∈ Element.definitions c ↔ ∃ x f, r.Prevails id x f ∧ f.definition = text := by
  rw [Element.definitions_eq, List.mem_map]
  simp only [hc.mem_included h]
  constructor
  · rintro ⟨f, ⟨x, hx⟩, ht⟩
    exact ⟨x, f, hx, ht⟩
  · rintro ⟨x, f, hx, ht⟩
    exact ⟨f, ⟨x, hx⟩, ht⟩

/-! ### Operations -/

theorem DeclaredBy.operation_spec (h : r.DeclaredBy l) {e : OperationElement}
    (he : r.value? id = some (.element (.operation e))) : ∃ d ∈ l, ∃ c, d.id = id ∧ r.IsContext id c ∧
      e.document = Element.joinDocument ((e.head ++
        Element.selection (Element.sliceFields d c) (Element.sliceSpreads c)) :: Element.definitions c) := by
  obtain ⟨d, hd, c, hid, hc, hvalue⟩ := h.exists_declaration he
  exact ⟨d, hd, c, hid, hc, Element.operationOf_spec (Declaration.of_value hvalue)⟩

/-- The document of an operation is its selection followed by the definitions that prevail, each among
those of its name. So a fragment or model that is reached is defined in it, if what prevails among its
namesakes has the same definition. -/
theorem evaluated_defines (scheduler : Scheduler) (l : List Declaration) {id : CanonicalId}
    {e : OperationElement} (he : (evaluated scheduler l).value? id = some (.element (.operation e))) :
    (∃ fields spreads parts,
      e.document = Element.joinDocument ((e.head ++ Element.selection fields spreads) :: parts) ∧
        ∀ text, text ∈ parts ↔ ∃ x f, (evaluated scheduler l).Prevails id x f ∧ f.definition = text) ∧
      ∀ x f, TransGen (evaluated scheduler l).DependsOn id x → (evaluated scheduler l).fragment? x = some f →
        (∀ y g, (evaluated scheduler l).Prevails id y g → g.name = f.name → g.definition = f.definition) →
          ∃ before after, e.document = before ++ f.definition ++ after := by
  have h := evaluated_declaredBy scheduler l
  have hgrounded := h.coherent.grounded he
  obtain ⟨d, -, c, rfl, hc, hdocument⟩ := h.operation_spec he
  refine ⟨⟨_, _, _, hdocument, fun _ => hc.mem_definitions hgrounded⟩, fun x f hx hf hsame => ?_⟩
  obtain ⟨g, hg, hname⟩ := hc.exists_included hgrounded ⟨x, f, hx, hf, rfl⟩
  obtain ⟨y, hy⟩ := (hc.mem_included hgrounded).1 hg
  rw [hdocument]
  apply Element.exists_of_mem_joinDocument
  apply List.mem_cons_of_mem
  exact (hc.mem_definitions hgrounded).2 ⟨y, g, hy, hsame y g hy hname⟩

/-- Two fragments on one type that have no names of their own, and a query that spreads both. -/
def namesakes : List Declaration :=
  [⟨⟨"/a.ts::a"⟩, .fragment, ⟨[], some "User", none, [("fields", .arr [.str "id"])]⟩, [], "/a.ts", ⟨0, 1, 1, 1⟩⟩,
    ⟨⟨"/a.ts::b"⟩, .fragment, ⟨[], some "User", none, [("fields", .arr [.str "name"])]⟩, [], "/a.ts",
      ⟨2, 3, 1, 3⟩⟩,
    ⟨⟨"/a.ts::q"⟩, .operation, ⟨[], none, none, [("name", .str "Q")]⟩, [⟨"/a.ts::a"⟩, ⟨"/a.ts::b"⟩], "/a.ts",
      ⟨4, 5, 1, 5⟩⟩]

theorem value?_namesakes : (evaluated .sync namesakes).value? ⟨"/a.ts::q"⟩ = some (.element (.operation
    ⟨"query", "Q", ∅, "query Q { ...UserFragment }\n\nfragment UserFragment on User { name }",
      [⟨"/a.ts::a"⟩, ⟨"/a.ts::b"⟩]⟩)) :=
  element?_eq_some_iff.1 (by decide +kernel)

theorem fragment?_namesakes :
    (evaluated .sync namesakes).fragment? ⟨"/a.ts::a"⟩ = some ⟨"UserFragment", "User", ["id"], ∅,
        "fragment UserFragment on User { id }", "fragment UserFragment on User { id }", []⟩ ∧
      (evaluated .sync namesakes).fragment? ⟨"/a.ts::b"⟩ = some ⟨"UserFragment", "User", ["name"], ∅,
        "fragment UserFragment on User { name }", "fragment UserFragment on User { name }", []⟩ := by
  decide +kernel

theorem dependsOn_namesakes : (evaluated .sync namesakes).DependsOn ⟨"/a.ts::q"⟩ ⟨"/a.ts::a"⟩ ∧
    (evaluated .sync namesakes).DependsOn ⟨"/a.ts::q"⟩ ⟨"/a.ts::b"⟩ := by
  simp only [DependsOn]
  decide +kernel

theorem evaluated_defines_namesakes : ∃ e,
    (evaluated .sync namesakes).value? ⟨"/a.ts::q"⟩ = some (.element (.operation e)) ∧
      ∃ before after, e.document = before ++ "fragment UserFragment on User { name }" ++ after := by
  have hb := fragment?_namesakes.2
  have hreached := TransGen.single dependsOn_namesakes.2
  refine ⟨_, value?_namesakes, ?_⟩
  refine (evaluated_defines .sync namesakes value?_namesakes).2 _ _ hreached hb fun y g hy hname => ?_
  have hlast := hy.last hreached hb hname.symm
  have hfragment := hy.fragment
  -- whatever prevails is one of the entries, and the one before the last does not
  have hkey := mem_keys_of_fragment? hfragment
  have hkeys : (evaluated .sync namesakes).entries.keys = ["/a.ts::a", "/a.ts::b", "/a.ts::q"] := by
    decide +kernel
  obtain ⟨k⟩ := y
  rw [hkeys] at hkey
  simp only [List.mem_cons, List.not_mem_nil, or_false] at hkey
  rcases hkey with rfl | rfl | rfl
  · exact absurd hlast (by decide)
  · rw [hb, Option.some.injEq] at hfragment
    rw [hfragment]
  · have hnone : (evaluated .sync namesakes).fragment? ⟨"/a.ts::q"⟩ = none := by decide +kernel
    simp [hnone] at hfragment

/-- The first one is lost, though all is evaluated. -/
theorem definition_lost : ¬ ∀ (scheduler : Scheduler) (l : List Declaration) (n : Nat) (id : CanonicalId)
    (e : OperationElement), ((evaluateDeclarations scheduler l).run.run empty).1 = .ok (.ok n) →
      (evaluated scheduler l).value? id = some (.element (.operation e)) →
        ∀ x f, TransGen (evaluated scheduler l).DependsOn id x → (evaluated scheduler l).fragment? x = some f →
          ∃ before after, e.document = before ++ f.definition ++ after := by
  intro h
  obtain ⟨before, after, hdocument⟩ := h .sync namesakes 3 _ _ (by decide +kernel) value?_namesakes _ _
    (.single dependsOn_namesakes.1) fragment?_namesakes.1
  have hnot : ¬ "fragment UserFragment on User { id }".toList <:+:
      "query Q { ...UserFragment }\n\nfragment UserFragment on User { name }".toList := by
    decide +kernel
  refine hnot ⟨before.toList, after.toList, ?_⟩
  rw [← String.toList_append, ← String.toList_append, ← hdocument]

/-! ### Spreads -/

/-- The text is a head and a selection, of fields that declarations write and of spreads of what is
named. -/
def Spreads (r : Registry) (l : List Declaration) (id : CanonicalId) (named : String → Prop) (head : String)
    (fields : List String) (text : String) : Prop :=
  ∃ spreads, text = head ++ Element.selection fields spreads ∧
    (∀ t ∈ fields, r.Writes l id t) ∧ ∀ n ∈ spreads, named n

theorem Spreads.mono {named named' : String → Prop} {head : String} {fields : List String}
    (h : r.Spreads l id named head fields text) (hnamed : ∀ n, named n → named' n) :
    r.Spreads l id named' head fields text := by
  obtain ⟨spreads, htext, hfields, hspreads⟩ := h
  exact ⟨spreads, htext, hfields, fun n hn => hnamed n (hspreads n hn)⟩

theorem DeclaredBy.spreads_definition (h : r.DeclaredBy l) (hx : ReflTransGen r.DependsOn id x)
    (hf : r.fragment? x = some f) : r.Spreads l id (r.Names id) f.head f.fields f.definition := by
  obtain ⟨d, hd, c, rfl, hc, hfragment⟩ := h.exists_fragmentOf hf
  obtain ⟨hfields, hdefinition, -⟩ := Element.fragmentOf_spec hfragment
  refine ⟨_, hdefinition, fun t ht => ⟨d, hd, hx, hfields ▸ ht⟩, fun n hn => ?_⟩
  obtain ⟨y, g, hy, hg, hname⟩ := hc.mem_spreads.1 hn
  exact ⟨y, g, TransGen.tail' hx hy, hg, hname⟩

/-- A fragment or model of this name is reached, and its definition is one of the parts. -/
def Defines (r : Registry) (id : CanonicalId) (parts : List String) (n : String) : Prop :=
  ∃ x f, TransGen r.DependsOn id x ∧ r.fragment? x = some f ∧ f.name = n ∧ f.definition ∈ parts

theorem DeclaredBy.operation_spreads (h : r.DeclaredBy l) {e : OperationElement}
    (he : r.value? id = some (.element (.operation e))) :
    ∃ first fields, ∃ included : List FragmentElement,
      e.document = Element.joinDocument (first :: included.map (·.definition)) ∧
        included.Pairwise (fun f g => f.name < g.name) ∧
          r.Spreads l id (fun n => ∃ f ∈ included, f.name = n) e.head fields first ∧
            ∀ f ∈ included, (∃ x, TransGen r.DependsOn id x ∧ r.fragment? x = some f) ∧
              r.Spreads l id (fun n => ∃ g ∈ included, g.name = n) f.head f.fields f.definition := by
  have hgrounded := h.coherent.grounded he
  obtain ⟨d, hd, c, rfl, hc, hdocument⟩ := h.operation_spec he
  have hnames := fun n => hc.exists_included hgrounded (n := n)
  have hselects := selects_of_below hd hc fun x s _ hs => h.selects hs
  rw [Element.definitions_eq] at hdocument
  refine ⟨_, Element.sliceFields d c, _, hdocument, Element.pairwise_included c, ?_, fun f hf => ?_⟩
  · exact ⟨_, rfl, hselects.2, fun n hn => hnames n (hselects.1 n hn)⟩
  · obtain ⟨x, hx⟩ := (hc.mem_included hgrounded).1 hf
    refine ⟨⟨x, hx.reached, hx.fragment⟩, ?_⟩
    exact (h.spreads_definition hx.reached.to_reflTransGen hx.fragment).mono hnames

theorem DeclaredBy.fragment_spreads (h : r.DeclaredBy l) (hf : r.fragment? id = some f) :
    ∃ included : List FragmentElement,
      f.document = Element.joinDocument (f.definition :: included.map (·.definition)) ∧
        ∀ g, g = f ∨ g ∈ included → (∃ x, ReflTransGen r.DependsOn id x ∧ r.fragment? x = some g) ∧
          r.Spreads l id (r.Defines id (f.definition :: included.map (·.definition))) g.head g.fields
            g.definition := by
  obtain ⟨d, hd, c, rfl, hc, hfragment⟩ := h.exists_fragmentOf hf
  obtain ⟨-, -, hdocument⟩ := Element.fragmentOf_spec hfragment
  have hgrounded : r.Grounded d.id := by
    obtain ⟨e, he, -⟩ := Option.bind_eq_some_iff.1 hf
    exact h.coherent.grounded (element?_eq_some_iff.1 he)
  have hparts : (Element.definitions c).filter (· ≠ f.definition) =
      ((Element.included c).values.filter (·.definition ≠ f.definition)).map (·.definition) := by
    rw [Element.definitions_eq, List.filter_map]
    rfl
  rw [hparts] at hdocument
  refine ⟨_, hdocument, ?_⟩
  -- a definition with the same text as the document's own is left out, but then it is there already
  have hdefines : ∀ n, r.Names d.id n → r.Defines d.id (f.definition ::
      ((Element.included c).values.filter (·.definition ≠ f.definition)).map (·.definition)) n := by
    intro n hn
    obtain ⟨g, hg, hname⟩ := hc.exists_included hgrounded hn
    obtain ⟨x, hx⟩ := (hc.mem_included hgrounded).1 hg
    refine ⟨x, g, hx.reached, hx.fragment, hname, ?_⟩
    by_cases hsame : g.definition = f.definition
    · exact hsame ▸ List.mem_cons_self
    · refine List.mem_cons_of_mem _ (List.mem_map.2 ⟨g, List.mem_filter.2 ⟨hg, ?_⟩, rfl⟩)
      simpa using hsame
  rintro g (rfl | hg)
  · exact ⟨⟨d.id, .refl, hf⟩, (h.spreads_definition .refl hf).mono hdefines⟩
  · obtain ⟨x, hx⟩ := (hc.mem_included hgrounded).1 (List.mem_of_mem_filter hg)
    refine ⟨⟨x, hx.reached.to_reflTransGen, hx.fragment⟩, ?_⟩
    exact (h.spreads_definition hx.reached.to_reflTransGen hx.fragment).mono hdefines

/-- Whatever an operation, a fragment or a model spreads, or a definition in its document, is defined in the
document, but for texts that are written as fields. An operation has one definition for each name, in the
order of the names. -/
theorem evaluated_spreads (scheduler : Scheduler) (l : List Declaration) (id : CanonicalId) :
    (∀ e, (evaluated scheduler l).value? id = some (.element (.operation e)) →
      ∃ first fields, ∃ included : List FragmentElement,
        e.document = Element.joinDocument (first :: included.map (·.definition)) ∧
          included.Pairwise (fun f g => f.name < g.name) ∧
            (evaluated scheduler l).Spreads l id (fun n => ∃ f ∈ included, f.name = n) e.head fields first ∧
              ∀ f ∈ included, (∃ x, TransGen (evaluated scheduler l).DependsOn id x ∧
                  (evaluated scheduler l).fragment? x = some f) ∧
                (evaluated scheduler l).Spreads l id (fun n => ∃ g ∈ included, g.name = n) f.head f.fields
                  f.definition) ∧
    ∀ f, (evaluated scheduler l).fragment? id = some f → ∃ included : List FragmentElement,
      f.document = Element.joinDocument (f.definition :: included.map (·.definition)) ∧
        ∀ g, g = f ∨ g ∈ included → (∃ x, ReflTransGen (evaluated scheduler l).DependsOn id x ∧
            (evaluated scheduler l).fragment? x = some g) ∧
          (evaluated scheduler l).Spreads l id
            ((evaluated scheduler l).Defines id (f.definition :: included.map (·.definition))) g.head g.fields
              g.definition :=
  ⟨fun _ => (evaluated_declaredBy scheduler l).operation_spreads,
    fun _ => (evaluated_declaredBy scheduler l).fragment_spreads⟩

/-- A query of a model that spreads one fragment, and of a slice that spreads its namesake. -/
def nested : List Declaration :=
  namesakes.take 2 ++
    [⟨⟨"/a.ts::m"⟩, .model, ⟨[], some "User", none, [("fields", .arr [.str "id"])]⟩, [⟨"/a.ts::b"⟩], "/a.ts",
      ⟨4, 5, 1, 5⟩⟩,
      ⟨⟨"/a.ts::s"⟩, .slice, ⟨[], none, none, [("fields", .arr [.str "user"])]⟩, [⟨"/a.ts::a"⟩], "/a.ts",
        ⟨6, 7, 1, 7⟩⟩,
      ⟨⟨"/a.ts::q"⟩, .operation, ⟨[], none, none, [("name", .str "Q")]⟩, [⟨"/a.ts::m"⟩, ⟨"/a.ts::s"⟩], "/a.ts",
        ⟨8, 9, 1, 9⟩⟩]

theorem evaluated_spreads_nested : ∃ e,
    (evaluated .sync nested).value? ⟨"/a.ts::q"⟩ = some (.element (.operation e)) ∧
      e.document = "query Q { user ...UserFragment ...UserModel }\n\n" ++
        "fragment UserFragment on User { name }\n\nfragment UserModel on User { id ...UserFragment }" ∧
        ∃ first fields, ∃ included : List FragmentElement,
          e.document = Element.joinDocument (first :: included.map (·.definition)) ∧
            included.Pairwise (fun f g => f.name < g.name) ∧
              (evaluated .sync nested).Spreads nested ⟨"/a.ts::q"⟩ (fun n => ∃ f ∈ included, f.name = n) e.head
                fields first := by
  have he : (evaluated .sync nested).value? ⟨"/a.ts::q"⟩ = some (.element (.operation ⟨"query", "Q", ∅,
      "query Q { user ...UserFragment ...UserModel }\n\n" ++
        "fragment UserFragment on User { name }\n\nfragment UserModel on User { id ...UserFragment }",
      [⟨"/a.ts::m"⟩, ⟨"/a.ts::s"⟩]⟩)) := element?_eq_some_iff.1 (by decide +kernel)
  obtain ⟨first, fields, included, hdocument, hsorted, hspreads, -⟩ :=
    (evaluated_spreads .sync nested _).1 _ he
  exact ⟨_, he, rfl, first, fields, included, hdocument, hsorted, hspreads⟩

/-- A query with a field that is written like a spread. -/
def ghostly : List Declaration :=
  [⟨⟨"/a.ts::q"⟩, .operation, ⟨[], none, none, [("name", .str "Q"), ("fields", .arr [.str "...Ghost"])]⟩, [],
    "/a.ts", ⟨0, 1, 1, 1⟩⟩]

/-- Fields are taken as they are written, so what they spread may be defined nowhere. -/
theorem spreads_undefined : ((evaluateDeclarations .sync ghostly).run.run empty).1 = .ok (.ok 1) ∧
    ∃ e, (evaluated .sync ghostly).value? ⟨"/a.ts::q"⟩ = some (.element (.operation e)) ∧
      e.document = "query Q { ...Ghost }" ∧
        ∀ x f, (evaluated .sync ghostly).fragment? x = some f → f.name ≠ "Ghost" := by
  refine ⟨by decide +kernel, ⟨"query", "Q", ∅, "query Q { ...Ghost }", []⟩,
    element?_eq_some_iff.1 (by decide +kernel), rfl, fun x f hf => ?_⟩
  have hkey := mem_keys_of_fragment? hf
  have hkeys : (evaluated .sync ghostly).entries.keys = ["/a.ts::q"] := by decide +kernel
  have hnone : (evaluated .sync ghostly).fragment? ⟨"/a.ts::q"⟩ = none := by decide +kernel
  obtain ⟨k⟩ := x
  rw [hkeys, List.mem_singleton] at hkey
  obtain rfl : k = "/a.ts::q" := hkey
  simp [hnone] at hf

end Registry
end StaticGql
