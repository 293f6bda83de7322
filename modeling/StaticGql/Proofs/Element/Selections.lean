import StaticGql.Proofs.Registry.Declared

/-!
Where the parts of a selection come from. A slice hands on the spreads and the fields of the slices in it,
so over a chain of slices every spread is of a fragment that is reached, and every field is written by a
declaration on the way.
-/

namespace StaticGql

open Relation

namespace Element

variable {l more : List String} {t : String} {d : Declaration} {c : Context}

theorem mem_union : t ∈ union l more ↔ t ∈ l ∨ t ∈ more := by
  induction more generalizing l with
  | nil => simp [union]
  | cons a rest ih =>
      have hcons : union l (a :: rest) = union (if a ∈ l then l else l ++ [a]) rest := rfl
      rw [hcons, ih]
      by_cases ha : a ∈ l
      · rw [if_pos ha, List.mem_cons]
        constructor
        · exact Or.imp_right .inr
        · rintro (h | rfl | h)
          · exact .inl h
          · exact .inl ha
          · exact .inr h
      · rw [if_neg ha, List.mem_append, List.mem_singleton, List.mem_cons, or_assoc]

theorem mem_sliceFields : t ∈ sliceFields d c ↔ t ∈ d.builder.optionTexts "fields" ∨
    ∃ s ∈ c.directElements.filterMap slice?, t ∈ s.fields := by
  rw [sliceFields]
  generalize d.builder.optionTexts "fields" = l
  induction c.directElements.filterMap slice? generalizing l with
  | nil => simp
  | cons s rest ih =>
      rw [List.foldl_cons, ih, mem_union]
      simp only [List.mem_cons, exists_eq_or_imp, or_assoc]

theorem mem_spreads : t ∈ spreads c ↔ ∃ f ∈ c.directElements.filterMap fragment?, f.name = t := by
  rw [spreads, Dict.mem_sortedTexts_iff, List.mem_map]

theorem mem_sliceSpreads : t ∈ sliceSpreads c ↔ t ∈ spreads c ∨
    ∃ s ∈ c.directElements.filterMap slice?, t ∈ s.spreads := by
  rw [sliceSpreads, Dict.mem_sortedTexts_iff, List.mem_append, List.mem_flatMap]

end Element

/-! ### What declarations evaluate to -/

variable {d : Declaration} {c : Context}

theorem Declaration.of_value {e : Element} (h : d.value c = .ok (.element e)) :
    match e with
    | .fragment f | .model f => Element.fragmentOf d c = .ok f
    | .slice s => Element.sliceOf d c = .ok s
    | .operation o => Element.operationOf d c = .ok o := by
  rw [value] at h
  cases hkind : d.kind with
  | define =>
      simp only [hkind] at h
      cases h
  | model | slice | operation | fragment =>
      simp only [hkind] at h
      obtain ⟨e', he', h⟩ := map_eq_ok_iff.1 h
      cases h
      exact he'

theorem Element.sliceOf_spec {s : SliceElement} (h : sliceOf d c = .ok s) :
    s.fields = sliceFields d c ∧ s.spreads = sliceSpreads c := by
  obtain ⟨own, -, h⟩ := bind_eq_ok_iff.1 h
  obtain ⟨types, -, h⟩ := bind_eq_ok_iff.1 h
  cases h
  exact ⟨rfl, rfl⟩

/-- What stands before the selection of a fragment. -/
def FragmentElement.head (f : FragmentElement) : String := s!"fragment {f.name} on {f.typename} "

theorem Element.fragmentOf_spec {f : FragmentElement} (h : fragmentOf d c = .ok f) :
    f.fields = d.builder.optionTexts "fields" ∧
      f.definition = f.head ++ selection f.fields (spreads c) ∧
        f.document = joinDocument (f.definition :: (definitions c).filter (· ≠ f.definition)) := by
  obtain ⟨types, -, h⟩ := bind_eq_ok_iff.1 h
  cases h
  exact ⟨rfl, rfl, rfl⟩

/-- What stands before the selection of an operation. -/
def OperationElement.head (e : OperationElement) : String :=
  s!"{e.operationType} {e.operationName}{Element.signature e.variableTypes} "

theorem Element.operationOf_spec {e : OperationElement} (h : operationOf d c = .ok e) :
    e.document =
      joinDocument ((e.head ++ selection (sliceFields d c) (sliceSpreads c)) :: definitions c) := by
  rw [operationOf] at h
  cases hname : d.builder.optionText? "name" with
  | none => simp [hname] at h
  | some name =>
      simp only [hname] at h
      obtain ⟨own, -, h⟩ := bind_eq_ok_iff.1 h
      obtain ⟨types, -, h⟩ := bind_eq_ok_iff.1 h
      cases h
      rfl

/-! ### What is reached -/

namespace Registry

variable {r : Registry} {id x : CanonicalId} {l : List Declaration} {n t : String}

/-- The fragment or model that an element has been evaluated to. -/
def fragment? (r : Registry) (id : CanonicalId) : Option FragmentElement :=
  (r.element? id).bind Element.fragment?

def slice? (r : Registry) (id : CanonicalId) : Option SliceElement := (r.element? id).bind Element.slice?

theorem element?_eq_some_iff {e : Element} :
    r.element? id = some e ↔ r.value? id = some (.element e) := by
  rw [element?, Option.bind_eq_some_iff]
  constructor
  · rintro ⟨v, hv, he⟩
    cases v with
    | element e' =>
        cases he
        exact hv
    | define metadata => cases he
  · exact fun hv => ⟨_, hv, rfl⟩

theorem slice?_eq_some_iff {s : SliceElement} :
    r.slice? id = some s ↔ r.value? id = some (.element (.slice s)) := by
  rw [slice?, Option.bind_eq_some_iff]
  constructor
  · rintro ⟨e, he, hs⟩
    cases e with
    | slice s' =>
        cases hs
        exact element?_eq_some_iff.1 he
    | model f | fragment f | operation o => cases hs
  · exact fun hv => ⟨_, element?_eq_some_iff.2 hv, rfl⟩

/-- A fragment or model of this name is among all that an element depends on. -/
def Names (r : Registry) (id : CanonicalId) (n : String) : Prop :=
  ∃ x f, TransGen r.DependsOn id x ∧ r.fragment? x = some f ∧ f.name = n

/-- The declaration of an element, or one that it depends on, has this text for a field. -/
def Writes (r : Registry) (l : List Declaration) (id : CanonicalId) (t : String) : Prop :=
  ∃ d ∈ l, ReflTransGen r.DependsOn id d.id ∧ t ∈ d.builder.optionTexts "fields"

theorem Names.of_dependsOn (hx : r.DependsOn id x) (h : r.Names x n) : r.Names id n := by
  obtain ⟨y, f, hy, hf, hn⟩ := h
  exact ⟨y, f, .head hx hy, hf, hn⟩

theorem Writes.of_dependsOn (hx : r.DependsOn id x) (h : r.Writes l x t) : r.Writes l id t := by
  obtain ⟨d, hd, hreach, ht⟩ := h
  exact ⟨d, hd, .head hx hreach, ht⟩

theorem IsContext.mem_direct {γ : Type} {f : Element → Option γ} {a : γ} (h : r.IsContext id c) :
    a ∈ c.directElements.filterMap f ↔ ∃ x, r.DependsOn id x ∧ (r.element? x).bind f = some a := by
  rw [h.directElements, List.filterMap_filterMap, List.mem_filterMap]
  rfl

theorem IsContext.mem_spreads (h : r.IsContext id c) :
    n ∈ Element.spreads c ↔ ∃ x f, r.DependsOn id x ∧ r.fragment? x = some f ∧ f.name = n := by
  rw [Element.mem_spreads]
  constructor
  · rintro ⟨f, hf, hn⟩
    obtain ⟨x, hx, hf⟩ := h.mem_direct.1 hf
    exact ⟨x, f, hx, hf, hn⟩
  · rintro ⟨x, f, hx, hf, hn⟩
    exact ⟨f, h.mem_direct.2 ⟨x, hx, hf⟩, hn⟩

/-- Slices spread fragments that they reach, and select fields that are written on the way. -/
def Selects (r : Registry) (l : List Declaration) (id : CanonicalId) (fields spreads : List String) : Prop :=
  (∀ n ∈ spreads, r.Names id n) ∧ ∀ t ∈ fields, r.Writes l id t

theorem selects_of_below {d : Declaration} (hd : d ∈ l) (hc : r.IsContext d.id c)
    (hbelow : ∀ x s, r.DependsOn d.id x → r.slice? x = some s → r.Selects l x s.fields s.spreads) :
    r.Selects l d.id (Element.sliceFields d c) (Element.sliceSpreads c) := by
  constructor
  · intro n hn
    rcases Element.mem_sliceSpreads.1 hn with hn | ⟨s, hs, hn⟩
    · obtain ⟨x, f, hx, hf, hfn⟩ := hc.mem_spreads.1 hn
      exact ⟨x, f, .single hx, hf, hfn⟩
    · obtain ⟨x, hx, hs⟩ := hc.mem_direct.1 hs
      exact ((hbelow x s hx hs).1 n hn).of_dependsOn hx
  · intro t ht
    rcases Element.mem_sliceFields.1 ht with ht | ⟨s, hs, ht⟩
    · exact ⟨d, hd, .refl, ht⟩
    · obtain ⟨x, hx, hs⟩ := hc.mem_direct.1 hs
      exact ((hbelow x s hx hs).2 t ht).of_dependsOn hx

/-- The induction is on how the slice is grounded, which runs down all slices in it. -/
theorem DeclaredBy.selects (h : r.DeclaredBy l) {s : SliceElement} (hs : r.slice? id = some s) :
    r.Selects l id s.fields s.spreads := by
  rw [slice?_eq_some_iff] at hs
  have hgrounded := h.coherent.grounded hs
  induction hgrounded generalizing s with
  | @intro id _ _ _ ih =>
      obtain ⟨d, hd, c, rfl, hc, hvalue⟩ := h.exists_declaration hs
      obtain ⟨hfields, hspreads⟩ := Element.sliceOf_spec (Declaration.of_value hvalue)
      rw [hfields, hspreads]
      exact selects_of_below hd hc fun x s hx hs => ih x hx (slice?_eq_some_iff.1 hs)

theorem DeclaredBy.exists_fragmentOf (h : r.DeclaredBy l) {f : FragmentElement}
    (hf : r.fragment? id = some f) :
    ∃ d ∈ l, ∃ c, d.id = id ∧ r.IsContext id c ∧ Element.fragmentOf d c = .ok f := by
  obtain ⟨e, he, hf⟩ := Option.bind_eq_some_iff.1 hf
  obtain ⟨d, hd, c, hid, hc, hvalue⟩ := h.exists_declaration (element?_eq_some_iff.1 he)
  refine ⟨d, hd, c, hid, hc, ?_⟩
  cases e with
  | fragment f' | model f' =>
      cases hf
      exact Declaration.of_value hvalue
  | slice s | operation o => cases hf

end Registry
end StaticGql
