import StaticGql.Proofs.Artifact.RoundTrip
import StaticGql.Proofs.Json.Alike
import StaticGql.Proofs.Literal
import StaticGql.Proofs.Transform.Rendered

/-!
An element is read back from the one line that stands for it where no runtime is wanted.

The code for an element says of it what it is meant to say: read as code and then as a value, the strings in it are
what was written.
-/

namespace StaticGql

open Json

/-! ### Values whose fields are in order -/

theorem sorted_strs (l : List String) : (strs l).sorted = strs l := by
  rw [strs, Json.sorted, sortedItems_eq, List.map_map]
  simp [Function.comp_def, Json.sorted]

theorem sorted_ids (ids : List CanonicalId) : (idsToJson ids).sorted = idsToJson ids := sorted_strs _

theorem sorted_variables (v : Dict String) : (variablesToJson v).sorted = variablesToJson v := by
  have hfields : Dict.ofList (v.toList.map fun e => (e.1, str e.2)) = v.map fun _ t => str t := by
    rw [← Dict.toList_map, Dict.ofList_toList]
  rw [variablesToJson, sorted_obj, hfields]
  simp [Dict.map, Dict.toList, Function.comp_def, Json.sorted]

theorem sorted_descriptor (e : Element) : e.descriptor.sorted = e.descriptor := by
  cases e <;> simp only [Element.descriptor, Json.sorted, sortedFields, sorted_strs] <;> rfl

theorem nests_descriptor (depth : Nat) (e : Element) : nests (depth + 2) e.descriptor = true := by
  cases e <;> simp [Element.descriptor, nests, nestsFields, Artifact.nests_strs]

/-! ### Elements -/

theorem FragmentElement.sorted_fields (e : FragmentElement) (kind : String) :
    (obj (("type", str kind) :: e.fieldsToJson)).sorted =
      obj [("definition", str e.definition), ("dependencies", idsToJson e.dependencies),
        ("document", str e.document), ("fields", strs e.fields), ("name", str e.name), ("type", str kind),
        ("typename", str e.typename), ("variables", variablesToJson e.variableTypes)] := by
  simp only [fieldsToJson, Json.sorted, sortedFields, sorted_strs, sorted_ids, sorted_variables]
  rfl

theorem SliceElement.sorted_fields (e : SliceElement) (kind : String) :
    (obj (("type", str kind) :: e.fieldsToJson)).sorted =
      obj [("dependencies", idsToJson e.dependencies), ("document", str e.document), ("fields", strs e.fields),
        ("operationType", str e.operationType), ("spreads", strs e.spreads), ("type", str kind),
        ("variables", variablesToJson e.variableTypes)] := by
  simp only [fieldsToJson, Json.sorted, sortedFields, sorted_strs, sorted_ids, sorted_variables]
  rfl

theorem OperationElement.sorted_fields (e : OperationElement) (kind : String) :
    (obj (("type", str kind) :: e.fieldsToJson)).sorted =
      obj [("dependencies", idsToJson e.dependencies), ("document", str e.document),
        ("operationName", str e.operationName), ("operationType", str e.operationType), ("type", str kind),
        ("variables", variablesToJson e.variableTypes)] := by
  simp only [fieldsToJson, Json.sorted, sortedFields, sorted_ids, sorted_variables]
  rfl

namespace Element

theorem exists_tagged (e : Element) : ∃ body, tagged "type" e.toJson.sorted = some (e.kind.name, body) ∧
    ofBody? body e.kind = some e := by
  cases e with
  | model e | fragment e =>
      rw [toJson, FragmentElement.sorted_fields]
      exact ⟨_, rfl, congrArg (Option.map _) (FragmentElement.ofJson?_of_record rfl)⟩
  | slice e =>
      rw [toJson, SliceElement.sorted_fields]
      exact ⟨_, rfl, congrArg (Option.map _) (SliceElement.ofJson?_of_record rfl)⟩
  | operation e =>
      rw [toJson, OperationElement.sorted_fields]
      exact ⟨_, rfl, congrArg (Option.map _) (OperationElement.ofJson?_of_record rfl)⟩

theorem ofJson?_sorted (e : Element) : ofJson? e.toJson.sorted = some e := by
  obtain ⟨body, htag, hbody⟩ := exists_tagged e
  rw [ofJson?_of_tagged htag, hbody]

theorem nests_sorted (depth : Nat) (e : Element) : nests (depth + 2) e.toJson.sorted = true := by
  cases e <;>
    simp [toJson, FragmentElement.sorted_fields, SliceElement.sorted_fields, OperationElement.sorted_fields, nests,
      nestsFields, Artifact.nests_strs, Artifact.nests_variables, idsToJson]

theorem parse?_precomputed (e : Element) : Json.parse? e.precomputed = some e.toJson.sorted :=
  (parse?_compact e.toJson.sorted).sure (nests_sorted 125 e)

end Element
end StaticGql

namespace StaticGql.Transform

open Scan

variable {before after s : String} {callee : List String} {descriptor : Json}

/-- In this code one string is passed to the callee, no other string is in it, and it denotes this text. -/
def Passes (callee : List String) (code s : String) : Prop :=
  ∃ ls raw ms, (tokens code).map (·.lexeme) = ls ++ ⟨.str, raw⟩ :: ⟨.closeParen, ")"⟩ :: ms ∧
    callee <:+ ls.map (·.text) ∧ Literal.string? raw = some s ∧ ∀ l ∈ ls ++ ms, l.kind ≠ .str

namespace Passes

/-- The check of what stands before and behind the string. -/
def check (callee : List String) (before after : String) : Bool :=
  match plain [] before.toList, plain [] after.toList with
  | some ls, some (m :: ms) =>
    callee <:+ ls.map (·.text) && m = ⟨.closeParen, ")"⟩ && (ls ++ ms).all (·.kind ≠ .str)
  | _, _ => false

theorem quoting (h : check callee before after = true) (s : String) :
    Passes callee (before ++ quoted s ++ after) s := by
  rw [check] at h
  split at h
  · rename_i ls m ms hbefore hafter
    simp only [Bool.and_eq_true, decide_eq_true_eq, List.all_eq_true] at h
    obtain ⟨⟨hcallee, rfl⟩, hother⟩ := h
    exact ⟨ls, quoted s, ms, (cuts_quoting hbefore hafter s).lexemes, hcallee, Literal.string?_quote s, hother⟩
  · cases h

theorem prebuild (h : check callee (before ++ "\x7b prebuild: JSON.parse(") ("), runtime: \x7b\x7d \x7d" ++ after) = true)
    (descriptor : Json) :
    Passes callee (before ++ prebuild descriptor ++ after) descriptor.sorted.compact := by
  rw [prebuild_between]
  exact quoting h _

end Passes

/-- The text of a description is read back as the description. -/
theorem parse?_descriptor (e : Element) : Json.parse? e.descriptor.sorted.compact = some e.descriptor := by
  rw [sorted_descriptor]
  exact (Json.parse?_compact e.descriptor).sure (nests_descriptor 125 e)

/-- The code that describes the element to the running program. -/
def Replacement.description (r : Replacement) : String := r.hoisted.getD r.expression

theorem passes_descriptor {o : Options} (hmode : o.mode = .runtime) (e : Element) :
    Passes ["JSON", ".", "parse", "("] (render o e).description e.descriptor.sorted.compact := by
  rw [render, hmode]
  cases e with
  | operation => cases o.moduleFormat <;> exact .prebuild (by decide +kernel) _
  | model | slice | fragment => cases o.moduleFormat <;> exact .prebuild (by rw [Element.kind]; decide +kernel) _

theorem passes_operationName {o : Options} (hmode : o.mode = .runtime) (op : OperationElement) :
    Passes [".", "getOperation", "("] (render o (.operation op)).expression op.operationName := by
  rw [render, hmode]
  cases o.moduleFormat <;> exact .quoting (by decide +kernel) _

/-- Where there is a runtime, the description of the element is passed to `JSON.parse` and the name of an operation
to the lookup of operations, each as one string. Where there is none, the whole element stands in parentheses. -/
theorem render_faithful (o : Options) (e : Element) :
    match o.mode with
    | .runtime =>
      (∃ s, Passes ["JSON", ".", "parse", "("] (render o e).description s ∧ Json.parse? s = some e.descriptor) ∧
        ∀ op, e = .operation op → Passes [".", "getOperation", "("] (render o e).expression op.operationName
    | .zeroRuntime =>
      (render o e).hoisted = none ∧ ∃ inner, (render o e).expression = "(" ++ inner ++ ")" ∧
        Json.parse? inner = some e.toJson.sorted ∧ Element.ofJson? e.toJson.sorted = some e := by
  cases hmode : o.mode with
  | runtime =>
      refine ⟨⟨_, passes_descriptor hmode e, parse?_descriptor e⟩, ?_⟩
      rintro op rfl
      exact passes_operationName hmode op
  | zeroRuntime =>
      rw [render, hmode]
      exact ⟨rfl, _, rfl, e.parse?_precomputed, e.ofJson?_sorted⟩

end StaticGql.Transform
