import StaticGql.Artifact.Codec
import StaticGql.Proofs.Dict
import StaticGql.Proofs.Json.RoundTrip

/-!
An artifact is read back from its stable text, but for times and counts. So two artifacts have one
stable text only if they have the same elements and the same warnings. From its full text it is read back whole,
provided its numbers are of sixty-four bits.
-/

namespace StaticGql

open Json

/-! ### Reading what was written -/

namespace Json

variable {α : Type}

theorem listOf_map {write : α → Json} {read : Json → Option α} (h : ∀ a, read (write a) = some a)
    (l : List α) : listOf read (arr (l.map write)) = some l := by
  rw [listOf]
  induction l with
  | nil => rfl
  | cons a rest ih =>
      rw [List.map_cons, List.mapM_cons, h, ih]
      rfl

theorem listOf_strs (l : List String) : listOf asStr? (strs l) = some l :=
  @listOf_map String str asStr? (fun _ => rfl) l

/-- The values of a dictionary as the fields of an object. -/
theorem mapM_fields {write : α → Json} {read : Json → Option α} (h : ∀ a, read (write a) = some a)
    (d : Dict α) : ((d.toList.map fun e => (e.1, write e.2)).mapM fun f : String × Json =>
      (read f.2).map (f.1, ·)).map Dict.ofList = some d := by
  have hlist : ∀ l : List (String × α), ((l.map fun e => (e.1, write e.2)).mapM
      fun f : String × Json => (read f.2).map (f.1, ·)) = some l := by
    intro l
    induction l with
    | nil => rfl
    | cons e rest ih =>
        rw [List.map_cons, List.mapM_cons, ih, h]
        rfl
  rw [hlist, Option.map_some, Dict.ofList_toList]

end Json

theorem variablesOfJson?_toJson (v : Dict String) : variablesOfJson? (variablesToJson v) = some v :=
  @mapM_fields String str asStr? (fun _ => rfl) v

theorem idsOfJson?_toJson (ids : List CanonicalId) : idsOfJson? (idsToJson ids) = some ids := by
  have hids : idsToJson ids = arr (ids.map fun id => str id.text) := by
    rw [idsToJson, strs, List.map_map]
    rfl
  rw [idsOfJson?, hids]
  exact @listOf_map CanonicalId _ (fun j => j.asStr?.map CanonicalId.mk) (fun _ => rfl) ids

theorem FragmentElement.ofJson?_of_record {e : FragmentElement} {j : Json}
    (h : record shape j = some [some (str e.name), some (str e.typename), some (strs e.fields),
      some (variablesToJson e.variableTypes), some (str e.definition), some (str e.document),
      some (idsToJson e.dependencies)]) : ofJson? j = some e := by
  rw [ofJson?, h]
  simp [needed, withDefault, asStr?, listOf_strs, variablesOfJson?_toJson, idsOfJson?_toJson]

theorem SliceElement.ofJson?_of_record {e : SliceElement} {j : Json}
    (h : record shape j = some [some (str e.operationType), some (strs e.fields), some (strs e.spreads),
      some (variablesToJson e.variableTypes), some (str e.document), some (idsToJson e.dependencies)]) :
    ofJson? j = some e := by
  rw [ofJson?, h]
  simp [needed, withDefault, asStr?, listOf_strs, variablesOfJson?_toJson, idsOfJson?_toJson]

theorem OperationElement.ofJson?_of_record {e : OperationElement} {j : Json}
    (h : record shape j = some [some (str e.operationType), some (str e.operationName),
      some (variablesToJson e.variableTypes), some (str e.document), some (idsToJson e.dependencies)]) :
    ofJson? j = some e := by
  rw [ofJson?, h]
  simp [needed, withDefault, asStr?, variablesOfJson?_toJson, idsOfJson?_toJson]

/-- The element of a kind in what is left of it without its tag. -/
def Element.ofBody? (body : Json) : Kind → Option Element
  | .model => (FragmentElement.ofJson? body).map model
  | .fragment => (FragmentElement.ofJson? body).map fragment
  | .slice => (SliceElement.ofJson? body).map slice
  | .operation => (OperationElement.ofJson? body).map operation
  | .define => none

theorem Element.ofJson?_of_tagged {kind : Kind} {j body : Json} (h : tagged "type" j = some (kind.name, body)) :
    ofJson? j = ofBody? body kind := by
  rw [ofJson?, h]
  cases kind <;> rfl

theorem Element.ofJson?_toJson (e : Element) : ofJson? e.toJson = some e := by
  cases e with
  | model e =>
      have htag : tagged "type" (model e).toJson = some (Kind.model.name, obj e.fieldsToJson) := rfl
      rw [ofJson?_of_tagged htag]
      exact congrArg (Option.map model) (FragmentElement.ofJson?_of_record rfl)
  | slice e =>
      have htag : tagged "type" (slice e).toJson = some (Kind.slice.name, obj e.fieldsToJson) := rfl
      rw [ofJson?_of_tagged htag]
      exact congrArg (Option.map slice) (SliceElement.ofJson?_of_record rfl)
  | operation e =>
      have htag : tagged "type" (operation e).toJson = some (Kind.operation.name, obj e.fieldsToJson) := rfl
      rw [ofJson?_of_tagged htag]
      exact congrArg (Option.map operation) (OperationElement.ofJson?_of_record rfl)
  | fragment e =>
      have htag : tagged "type" (fragment e).toJson = some (Kind.fragment.name, obj e.fieldsToJson) := rfl
      rw [ofJson?_of_tagged htag]
      exact congrArg (Option.map fragment) (FragmentElement.ofJson?_of_record rfl)

theorem Warning.ofJson?_toJson (w : Warning) : ofJson? w.toJson = some w := by
  obtain ⟨code, message, file, id⟩ := w
  have hrecord : record shape (toJson ⟨code, message, file, id⟩) = some [some (str code),
      some (str message), file.map str, id.map fun id => str id.text] := by
    cases file <;> cases id <;> rfl
  rw [ofJson?, hrecord]
  cases file <;> cases id <;> rfl

namespace Artifact

theorem ofJson?_stableToJson (a : Artifact) : ofJson? a.stableToJson = some a.stable := by
  have hrecord : record [("elements", .required), ("report", .required)] a.stableToJson =
      some [some (elementsToJson a.elements),
        some (obj [("warnings", arr (a.report.warnings.map Warning.toJson))])] := rfl
  have helements : elementsOfJson? (elementsToJson a.elements) = some a.elements :=
    mapM_fields Element.ofJson?_toJson a.elements
  have hreport : Report.ofJson? (obj [("warnings", arr (a.report.warnings.map Warning.toJson))]) =
      some ⟨0, a.report.warnings, .zero⟩ := by
    have hwarnings : record Report.shape (obj [("warnings", arr (a.report.warnings.map Warning.toJson))]) =
        some [none, some (arr (a.report.warnings.map Warning.toJson)), none] := rfl
    rw [Report.ofJson?, hwarnings]
    simp [withDefault, listOf_map Warning.ofJson?_toJson]
  rw [ofJson?, hrecord]
  simp [needed, helements, hreport, stable]

/-! ### Depth -/

theorem nests_str (depth : Nat) (s : String) : nests depth (str s) = true := by
  unfold nests
  rfl

theorem nests_strs (depth : Nat) (l : List String) : nests (depth + 1) (strs l) = true := by
  rw [strs, nests, nestsItems_eq, List.all_map, List.all_eq_true]
  exact fun s _ => nests_str depth s

theorem nests_variables (depth : Nat) (v : Dict String) :
    nests (depth + 1) (variablesToJson v) = true := by
  rw [variablesToJson, nests, nestsFields_eq, List.all_map, List.all_eq_true]
  exact fun e _ => nests_str depth e.2

theorem nests_element (depth : Nat) (e : Element) : nests (depth + 2) e.toJson = true := by
  cases e <;>
    simp [Element.toJson, FragmentElement.fieldsToJson, SliceElement.fieldsToJson,
      OperationElement.fieldsToJson, nests, nestsFields, nests_strs, nests_variables, idsToJson]

theorem nests_warning (depth : Nat) (w : Warning) : nests (depth + 1) w.toJson = true := by
  obtain ⟨code, message, file, id⟩ := w
  cases file <;> cases id <;> simp [Warning.toJson, optField, nests, nestsFields]

theorem nests_stableToJson (a : Artifact) : nests maxDepth a.stableToJson = true := by
  have helements : nests 126 (elementsToJson a.elements) = true := by
    show nestsFields 125 (a.elements.toList.map fun e => (e.1, e.2.toJson)) = true
    rw [nestsFields_eq, List.all_map, List.all_eq_true]
    exact fun e _ => nests_element 123 e.2
  have hwarnings : nests 125 (arr (a.report.warnings.map Warning.toJson)) = true := by
    show nestsItems 124 (a.report.warnings.map Warning.toJson) = true
    rw [nestsItems_eq, List.all_map, List.all_eq_true]
    exact fun w _ => nests_warning 123 w
  have hreport : nests 126 (obj [("warnings", arr (a.report.warnings.map Warning.toJson))]) = true := by
    show nestsFields 125 _ = true
    simp [nestsFields, hwarnings]
  show nestsFields 126 _ = true
  simp [nestsFields, helements, hreport]

/-- One stable text, one stable artifact. -/
theorem stableText_inj {a b : Artifact} : a.stableText = b.stableText ↔ a.stable = b.stable := by
  constructor
  · intro h
    have hjson := eq_of_pretty_eq (nests_stableToJson a) (nests_stableToJson b) h
    have hread := ofJson?_stableToJson a
    rw [hjson, ofJson?_stableToJson, Option.some.injEq] at hread
    exact hread.symm
  · intro h
    have htext : ∀ a : Artifact, a.stableText = a.stable.stableText := fun _ => rfl
    rw [htext a, h, ← htext]

end Artifact
end StaticGql

/-! ### The full text -/

namespace StaticGql

open Json

namespace Json

/-- A natural number that has sixty-four bits. -/
def IsWord (n : Nat) : Prop := n < twoTo 64

theorem word_nat_self {n : Nat} (h : IsWord n) : word (nat n) = some n := by
  have hlt : n < twoTo 64 := h
  show (some n).filter (· < twoTo 64) = some n
  rw [Option.filter_some, if_pos (decide_eq_true hlt)]

theorem isWord_of_word {j : Json} {n : Nat} (h : word j = some n) : IsWord n := by
  have hlt := (Option.filter_eq_some_iff.1 h).2
  rw [decide_eq_true_eq] at hlt
  exact hlt

theorem nests_nat (depth : Nat) {n : Nat} (h : IsWord n) : nests depth (nat n) = true := by
  have hmax : maxWord = twoTo 64 - 1 := rfl
  have hn : n ≤ maxWord := hmax ▸ Nat.le_sub_one_of_lt h
  rw [nat, nests, fitsWord_iff]
  exact ⟨by omega, Int.ofNat_le.2 hn⟩

end Json

/-- All counts have sixty-four bits. -/
structure CacheStats.IsSized (s : CacheStats) : Prop where
  hits : IsWord s.hits
  misses : IsWord s.misses
  skips : IsWord s.skips

structure Report.IsSized (r : Report) : Prop where
  duration : IsWord r.durationMs
  stats : r.stats.IsSized

/-! ### Counts and reports -/

theorem CacheStats.ofJson?_toJson {s : CacheStats} (h : s.IsSized) : ofJson? s.toJson = some s := by
  have hrecord : record [("hits", .required), ("misses", .required), ("skips", .required)] s.toJson =
      some [some (nat s.hits), some (nat s.misses), some (nat s.skips)] := rfl
  rw [ofJson?, hrecord]
  simp [needed, word_nat_self h.hits, word_nat_self h.misses, word_nat_self h.skips]

theorem CacheStats.isSized_of_ofJson? {j : Json} {s : CacheStats} (h : ofJson? j = some s) :
    s.IsSized := by
  obtain ⟨os, -, h⟩ := Option.bind_eq_some_iff.1 h
  split at h
  · simp only [Option.bind_eq_bind, Option.bind_eq_some_iff] at h
    obtain ⟨hits, hhits, misses, hmisses, skips, hskips, h⟩ := h
    cases h
    have hword : ∀ {o : Option Json} {n : Nat}, needed word o = some n → IsWord n := by
      intro o n ho
      cases o with
      | none => cases ho
      | some j => exact isWord_of_word ho
    exact ⟨hword hhits, hword hmisses, hword hskips⟩
  · cases h

theorem Report.ofJson?_toJson {r : Report} (h : r.IsSized) : ofJson? r.toJson = some r := by
  have hrecord : record shape r.toJson = some [some (nat r.durationMs),
      some (arr (r.warnings.map Warning.toJson)), some r.stats.toJson] := rfl
  rw [ofJson?, hrecord]
  simp [withDefault, word_nat_self h.duration, listOf_map Warning.ofJson?_toJson,
    CacheStats.ofJson?_toJson h.stats]

theorem Report.isSized_of_ofJson? {j : Json} {r : Report} (h : ofJson? j = some r) : r.IsSized := by
  obtain ⟨os, -, h⟩ := Option.bind_eq_some_iff.1 h
  split at h
  · rename_i duration warnings stats
    simp only [Option.bind_eq_bind, Option.bind_eq_some_iff] at h
    obtain ⟨ms, hms, ws, -, s, hs, h⟩ := h
    cases h
    constructor
    · cases duration with
      | none =>
          cases hms
          exact Nat.two_pow_pos 64
      | some j => exact isWord_of_word hms
    · cases stats with
      | none =>
          cases hs
          exact ⟨Nat.two_pow_pos 64, Nat.two_pow_pos 64, Nat.two_pow_pos 64⟩
      | some j => exact CacheStats.isSized_of_ofJson? hs
  · cases h

/-! ### Artifacts -/

namespace Artifact

variable {a b : Artifact}

theorem ofJson?_toJson (h : a.report.IsSized) : ofJson? a.toJson = some a := by
  have hrecord : record [("elements", .required), ("report", .required)] a.toJson =
      some [some (elementsToJson a.elements), some a.report.toJson] := rfl
  have helements : elementsOfJson? (elementsToJson a.elements) = some a.elements :=
    mapM_fields Element.ofJson?_toJson a.elements
  rw [ofJson?, hrecord]
  simp [needed, helements, Report.ofJson?_toJson h]

theorem isSized_of_ofJson? {j : Json} (h : ofJson? j = some a) : a.report.IsSized := by
  obtain ⟨os, -, h⟩ := Option.bind_eq_some_iff.1 h
  split at h
  · rename_i elements report
    simp only [Option.bind_eq_bind, Option.bind_eq_some_iff] at h
    obtain ⟨es, -, r, hr, h⟩ := h
    cases h
    cases report with
    | none => cases hr
    | some j => exact Report.isSized_of_ofJson? hr
  · cases h

theorem nests_toJson (h : a.report.IsSized) : nests maxDepth a.toJson = true := by
  have helements : nests 126 (elementsToJson a.elements) = true := by
    show nestsFields 125 (a.elements.toList.map fun e => (e.1, e.2.toJson)) = true
    rw [nestsFields_eq, List.all_map, List.all_eq_true]
    exact fun e _ => nests_element 123 e.2
  have hwarnings : nests 125 (arr (a.report.warnings.map Warning.toJson)) = true := by
    show nestsItems 124 (a.report.warnings.map Warning.toJson) = true
    rw [nestsItems_eq, List.all_map, List.all_eq_true]
    exact fun w _ => nests_warning 123 w
  have hstats : nests 125 a.report.stats.toJson = true := by
    show nestsFields 124 _ = true
    simp [nestsFields, nests_nat 124 h.stats.hits, nests_nat 124 h.stats.misses,
      nests_nat 124 h.stats.skips]
  have hreport : nests 126 a.report.toJson = true := by
    show nestsFields 125 _ = true
    simp [nestsFields, nests_nat 125 h.duration, hwarnings, hstats]
  show nestsFields 126 _ = true
  simp [nestsFields, helements, hreport]

theorem parse?_text_iff : parse? a.text = some a ↔ a.report.IsSized := by
  constructor
  · intro h
    obtain ⟨j, -, hj⟩ := Option.bind_eq_some_iff.1 h
    exact isSized_of_ofJson? hj
  · intro h
    rw [parse?, text, (parse?_pretty a.toJson).sure (nests_toJson h), Option.bind_some,
      ofJson?_toJson h]

theorem parse?_stableText (a : Artifact) : parse? a.stableText = some a.stable := by
  rw [parse?, stableText, (parse?_pretty a.stableToJson).sure (nests_stableToJson a),
    Option.bind_some, ofJson?_stableToJson]

theorem stable_eq_iff :
    a.stable = b.stable ↔ a.elements = b.elements ∧ a.report.warnings = b.report.warnings := by
  simp [stable]

/-- What artifacts come back as from their two texts, and when they share a stable one. -/
theorem round_trip (a : Artifact) :
    (parse? a.text = some a ↔ a.report.IsSized) ∧
      parse? a.stableText = some ⟨a.elements, ⟨0, a.report.warnings, .zero⟩⟩ ∧
        ∀ b : Artifact, a.stableText = b.stableText ↔
          a.elements = b.elements ∧ a.report.warnings = b.report.warnings :=
  ⟨parse?_text_iff, parse?_stableText a, fun _ => stableText_inj.trans stable_eq_iff⟩

end Artifact
end StaticGql
