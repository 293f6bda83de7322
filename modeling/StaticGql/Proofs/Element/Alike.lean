import StaticGql.Proofs.Json.Alike
import StaticGql.Proofs.Registry.Coherence
import StaticGql.Registry.Modules

/-!
The part of a declaration that is told by a signature is all that its value depends on, as far as the
value is shown.
-/

namespace StaticGql

variable {d d' : Declaration} {b b' : Builder} {c c' : Context}

/-! ### Alike builders -/

/-- Builders that differ at most in their callee, in numbers and in the order of options. -/
structure Builder.Alike (b b' : Builder) : Prop where
  typename : b.typename = b'.typename
  operationType : b.operationType = b'.operationType
  options : (Json.obj b.options).Alike (.obj b'.options)

namespace Builder.Alike

theorem optionText? (h : b.Alike b') (key : String) : b.optionText? key = b'.optionText? key := by
  have hrel := h.options.field? key
  rw [Builder.optionText?, Builder.optionText?, Builder.option?, Builder.option?]
  generalize Json.field? b.options key = o at hrel
  generalize Json.field? b'.options key = o' at hrel
  cases hrel with
  | none => rfl
  | some hj => exact hj.asStr?

theorem optionTexts (h : b.Alike b') (key : String) : b.optionTexts key = b'.optionTexts key := by
  have hrel := h.options.field? key
  rw [Builder.optionTexts, Builder.optionTexts, Builder.option?, Builder.option?]
  generalize Json.field? b.options key = o at hrel
  generalize Json.field? b'.options key = o' at hrel
  cases hrel with
  | none => rfl
  | some hj => exact hj.texts

end Builder.Alike

/-! ### Variables -/

/-- One declared variable, its type given if it is a text. -/
def Variables.declare (acc : Dict String) (e : String × Option String) : Outcome (Dict String) :=
  match e.2 with
  | some t => .ok (acc.insert (String.ofList (e.1.toList.dropWhile (· = '$'))) t)
  | none => .error (.failed s!"variable ${e.1} must have a type string")

theorem Variables.foldlM_declare {step : Dict String → String × Json → Outcome (Dict String)}
    (hstep : ∀ acc e, step acc e = declare acc (e.1, e.2.asStr?)) (l : List (String × Json))
    (acc : Dict String) : l.foldlM step acc = (l.map fun e => (e.1, e.2.asStr?)).foldlM declare acc := by
  rw [List.foldlM_map]
  congr 1
  funext acc e
  exact hstep acc e

theorem Variables.ofFields_eq (fields : List (String × Json)) :
    ofFields fields = ((Dict.ofList fields).map fun _ v => v.asStr?).toList.foldlM declare ∅ := by
  exact foldlM_declare (fun _ _ => rfl) _ ∅

theorem Variables.own_congr (h : b.Alike b') : own b = own b' := by
  have hrel := h.options.field? "variables"
  rw [own, own, Builder.option?, Builder.option?]
  generalize Json.field? b.options "variables" = o at hrel
  generalize Json.field? b'.options "variables" = o' at hrel
  cases hrel with
  | none => rfl
  | @some j j' hj =>
      have hasStr : ∀ fields : List (String × Json),
          ((Dict.ofList fields).map fun _ v => v.asStr?) =
            ((Dict.ofList fields).map fun _ v => v.sorted.blur).map fun _ v => v.asStr? := by
        intro fields
        refine Dict.ext_get? fun k => ?_
        simp only [Dict.get?_map, Option.map_map]
        refine congrArg (Option.map · _) (funext fun v => ?_)
        cases v <;> simp [Json.sorted, Json.blur, Json.asStr?]
      cases j with
      | obj l =>
          cases j' with
          | obj m =>
              simp only [ofFields_eq]
              rw [hasStr l, hasStr m, hj.fields]
          | _ => simp [Json.Alike, Json.sorted, Json.blur] at hj
      | _ =>
          cases j' with
          | obj m => simp [Json.Alike, Json.sorted, Json.blur] at hj
          | _ => rfl

/-! ### Alike declarations -/

/-- Declarations that differ at most in their places and in what nobody is shown. -/
structure Declaration.Alike (d d' : Declaration) : Prop where
  id : d.id = d'.id
  kind : d.kind = d'.kind
  references : d.references = d'.references
  builder : d.builder.Alike d'.builder

theorem Kind.name_inj {k k' : Kind} (h : k.name = k'.name) : k = k' := by
  cases k <;> cases k' <;> simp [Kind.name] at h ⊢

namespace Builder

/-- The fields of a builder as JSON. -/
def fields (b : Builder) : List (String × Json) :=
  [("callee", Json.strs b.callee)] ++ Json.optField "typename" (b.typename.map .str) ++
    Json.optField "operationType" (b.operationType.map .str) ++ [("options", .obj b.options)]

theorem field?_typename (b : Builder) : Json.field? b.fields "typename" = b.typename.map .str := by
  rw [fields]
  cases b.typename <;> cases b.operationType <;> simp [Json.field?, Json.optField]

theorem field?_operationType (b : Builder) :
    Json.field? b.fields "operationType" = b.operationType.map .str := by
  rw [fields]
  cases b.typename <;> cases b.operationType <;> simp [Json.field?, Json.optField]

theorem field?_options (b : Builder) : Json.field? b.fields "options" = some (.obj b.options) := by
  rw [fields]
  cases b.typename <;> cases b.operationType <;> simp [Json.field?, Json.optField]

theorem eq_of_rel_str {o o' : Option String}
    (h : Option.Rel Json.Alike (o.map .str) (o'.map .str)) : o = o' := by
  cases o <;> cases o' <;> cases h
  · rfl
  · rename_i h
    rw [h.str]

theorem alike_of_toJson (h : b.toJson.Alike b'.toJson) : b.Alike b' := by
  have hfields : (Json.obj b.fields).Alike (.obj b'.fields) := h
  constructor
  · have hrel := hfields.field? "typename"
    rw [field?_typename, field?_typename] at hrel
    exact eq_of_rel_str hrel
  · have hrel := hfields.field? "operationType"
    rw [field?_operationType, field?_operationType] at hrel
    exact eq_of_rel_str hrel
  · have hrel := hfields.field? "options"
    rw [field?_options, field?_options] at hrel
    cases hrel with
    | some hj => exact hj

end Builder

theorem Declaration.alike_of_essence (h : d.essence.Alike d'.essence) : d.Alike d' := by
  have hid : Option.Rel Json.Alike (some (.str d.id.text)) (some (.str d'.id.text)) := h.field? "id"
  have hkind : Option.Rel Json.Alike (some (.str d.kind.name)) (some (.str d'.kind.name)) :=
    h.field? "kind"
  have hbuilder : Option.Rel Json.Alike (some d.builder.toJson) (some d'.builder.toJson) :=
    h.field? "builder"
  have hreferences : Option.Rel Json.Alike (some (Json.strs (d.references.map (·.text))))
      (some (Json.strs (d'.references.map (·.text)))) := h.field? "references"
  cases hid with | some hid =>
  cases hkind with | some hkind =>
  cases hbuilder with | some hbuilder =>
  cases hreferences with | some hreferences =>
  refine ⟨?_, Kind.name_inj hkind.str, ?_, Builder.alike_of_toJson hbuilder⟩
  · exact CanonicalId.mk.injEq .. ▸ hid.str
  · have hinj : Function.Injective CanonicalId.text := fun a b h => CanonicalId.mk.injEq .. ▸ h
    exact (List.map_injective_iff.2 hinj) hreferences.strs

/-! ### Alike values -/

namespace Element

theorem spreads_congr (hc : c.Alike c') : spreads c = spreads c' := by
  rw [spreads, spreads, hc.direct]

theorem definitions_congr (hc : c.Alike c') : definitions c = definitions c' := by
  rw [definitions, definitions, hc.all]

theorem fragmentOf_congr (h : d.Alike d') (hc : c.Alike c') : fragmentOf d c = fragmentOf d' c' := by
  simp only [fragmentOf, h.builder.typename, h.builder.optionText?, h.builder.optionTexts, h.kind,
    h.references, Variables.own_congr h.builder, spreads_congr hc, definitions_congr hc]

theorem sliceFields_congr (h : d.Alike d') (hc : c.Alike c') :
    sliceFields d c = sliceFields d' c' := by
  rw [sliceFields, sliceFields, hc.direct, h.builder.optionTexts]

theorem sliceSpreads_congr (hc : c.Alike c') : sliceSpreads c = sliceSpreads c' := by
  rw [sliceSpreads, sliceSpreads, hc.direct, spreads_congr hc]

theorem operationType_congr (h : d.Alike d') : operationType d = operationType d' := by
  rw [operationType, operationType, h.builder.operationType]

theorem sliceOf_congr (h : d.Alike d') (hc : c.Alike c') : sliceOf d c = sliceOf d' c' := by
  simp only [sliceOf, sliceFields_congr h hc, sliceSpreads_congr hc, operationType_congr h, hc.direct,
    h.references, Variables.own_congr h.builder]

theorem operationOf_congr (h : d.Alike d') (hc : c.Alike c') :
    operationOf d c = operationOf d' c' := by
  simp only [operationOf, h.builder.optionText?, sliceFields_congr h hc, sliceSpreads_congr hc,
    operationType_congr h, hc.all, h.references, Variables.own_congr h.builder, definitions_congr hc]

end Element

namespace Declaration

/-- Alike declarations in contexts that look the same have alike values. Only the metadata of a
`define` may differ, which is not shown. -/
theorem value_alike (h : d.Alike d') (hc : c.Alike c') : Outcome.Alike (d.value c) (d'.value c') := by
  rw [Outcome.Alike, value, value, ← h.kind, Element.fragmentOf_congr h hc, Element.sliceOf_congr h hc,
    Element.operationOf_congr h hc]
  cases d.kind <;> rfl

theorem definition_alike (h : d.Alike d') : d.definition.Alike d'.definition where
  id := h.id
  kind := h.kind
  dependencies := h.references
  factory _ _ hc := ⟨_, _, rfl, rfl, value_alike h hc⟩

theorem Alike.refl (d : Declaration) : d.Alike d := ⟨rfl, rfl, rfl, rfl, rfl, rfl⟩

end Declaration

/-! ### Signatures -/

/-- Modules with one signature text have alike declarations, in the same order. -/
theorem ModuleDefinition.alike_of_signatureText {imports imports' : List String}
    {exports exports' : Dict CanonicalId} {l l' : List Declaration}
    (h : signatureText imports exports l = signatureText imports' exports' l') :
    List.Forall₂ Declaration.Alike l l' := by
  have hdeclarations : Option.Rel Json.Alike (some (.arr (l.map (·.essence))))
      (some (.arr (l'.map (·.essence)))) := (Json.Alike.of_compact h).field? "declarations"
  cases hdeclarations with
  | some hrel =>
      have hall := hrel.arr
      rw [List.forall₂_map_left_iff, List.forall₂_map_right_iff] at hall
      exact hall.imp fun _ _ h => Declaration.alike_of_essence h

end StaticGql
