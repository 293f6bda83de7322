import StaticGql.Proofs.Dict
import StaticGql.Proofs.Json.Unambiguous

/-!
Values that are the same but for their numbers and the order of their fields.
-/

namespace StaticGql.Json

theorem insertField_eq_put (k : String) (v : Json) (l : List (String × Json)) :
    insertField k v l = Dict.put k v l := by
  induction l with
  | nil => rfl
  | cons q rest ih =>
      obtain ⟨a, w⟩ := q
      simp only [insertField, Dict.put, ih]
      split
      · rfl
      · split
        · rfl
        · rename_i h h'
          rw [String.le_antisymm h' h]

theorem sortedItems_eq (l : List Json) : sortedItems l = l.map sorted := by
  induction l with
  | nil => rfl
  | cons j rest ih => simp [sortedItems, ih]

theorem blurItems_eq (l : List Json) : blurItems l = l.map blur := by
  induction l with
  | nil => rfl
  | cons j rest ih => simp [blurItems, ih]

theorem blurFields_eq (l : List (String × Json)) :
    blurFields l = l.map fun e => (e.1, blur e.2) := by
  induction l with
  | nil => rfl
  | cons e rest ih =>
      obtain ⟨k, v⟩ := e
      simp [blurFields, ih]

theorem sortedFields_eq (l : List (String × Json)) (d : Dict Json) :
    sortedFields l d.entries = (l.foldl (fun d e => d.insert e.1 (sorted e.2)) d).entries := by
  induction l generalizing d with
  | nil => rfl
  | cons e rest ih =>
      obtain ⟨k, v⟩ := e
      rw [sortedFields, insertField_eq_put]
      exact ih (d.insert k (sorted v))

/-- The last field under a name is the one that a dictionary keeps. -/
theorem field?_eq_get? (fields : List (String × Json)) (name : String) :
    field? fields name = (Dict.ofList fields).get? name :=
  (Dict.get?_ofList fields name).symm

/-- Sorting keeps of the fields what a dictionary keeps. -/
theorem sorted_obj (fields : List (String × Json)) :
    (obj fields).sorted = obj ((Dict.ofList fields).map fun _ v => v.sorted).entries := by
  have hfold : sortedFields fields [] = _ := sortedFields_eq fields ∅
  have : (fields.foldl (fun d e => d.insert e.1 (sorted e.2)) ∅ : Dict Json) =
      Dict.ofList (fields.map fun e => (e.1, sorted e.2)) := by
    rw [Dict.ofList, List.foldl_map]
    rfl
  rw [sorted, hfold, this, obj.injEq]
  congr 1
  refine Dict.ext_get? fun k => ?_
  rw [Dict.get?_map, ← field?_eq_get?, ← field?_eq_get?, field?, field?, ← List.map_reverse,
    List.find?_map, Option.map_map, Option.map_map]
  rfl

/-! ### Alike values -/

/-- The same apart from numbers and the order of fields. -/
def Alike (a b : Json) : Prop := a.sorted.blur = b.sorted.blur

theorem Alike.of_compact {a b : Json} (h : a.sorted.compact = b.sorted.compact) : a.Alike b :=
  blur_eq_of_compact_eq h

theorem Alike.asStr? {a b : Json} (h : a.Alike b) : a.asStr? = b.asStr? := by
  have hstr : ∀ j : Json, j.sorted.blur.asStr? = j.asStr? := by
    intro j
    cases j <;> simp [sorted, blur, Json.asStr?]
  rw [← hstr a, h, hstr]

theorem Alike.str {s t : String} (h : (Json.str s).Alike (.str t)) : s = t := by
  simpa [Json.asStr?] using h.asStr?

theorem Alike.arr {l m : List Json} (h : (Json.arr l).Alike (.arr m)) : List.Forall₂ Alike l m := by
  have hitems : ∀ l : List Json, (Json.arr l).sorted.blur = .arr (l.map fun j => j.sorted.blur) := by
    intro l
    simp [sorted, blur, sortedItems_eq, blurItems_eq]
  rw [Alike, hitems, hitems, Json.arr.injEq] at h
  rw [← List.forall₂_eq_eq_eq, List.forall₂_map_left_iff, List.forall₂_map_right_iff] at h
  exact h

theorem Alike.strs {l m : List String} (h : (Json.strs l).Alike (.strs m)) : l = m := by
  have hall := h.arr
  rw [List.forall₂_map_left_iff, List.forall₂_map_right_iff] at hall
  rw [← List.forall₂_eq_eq_eq]
  exact hall.imp fun _ _ h => h.str

/-- What a list holds of texts. -/
theorem Alike.texts {a b : Json} (h : a.Alike b) :
    (a.asArr?.getD []).filterMap Json.asStr? = (b.asArr?.getD []).filterMap Json.asStr? := by
  have harr : ∀ j : Json, (j.sorted.blur.asArr?.getD []).filterMap Json.asStr? =
      (j.asArr?.getD []).filterMap Json.asStr? := by
    intro j
    cases j with
    | arr items =>
        simp only [sorted, blur, sortedItems_eq, blurItems_eq, asArr?, Option.getD_some,
          List.map_map, List.filterMap_map]
        refine List.filterMap_congr fun j _ => ?_
        cases j <;> simp [sorted, blur, Json.asStr?]
    | _ => simp [sorted, blur, asArr?]
  rw [← harr a, h, harr]

theorem blur_sorted_obj (fields : List (String × Json)) :
    (obj fields).sorted.blur = obj ((Dict.ofList fields).map fun _ v => v.sorted.blur).entries := by
  rw [sorted_obj, blur, blurFields_eq]
  simp [Dict.map, Function.comp_def]

/-- Alike objects have alike fields. -/
theorem Alike.fields {l m : List (String × Json)} (h : (Json.obj l).Alike (.obj m)) :
    (Dict.ofList l).map (fun _ v => v.sorted.blur) = (Dict.ofList m).map fun _ v => v.sorted.blur := by
  rw [Alike, blur_sorted_obj, blur_sorted_obj, obj.injEq] at h
  exact Dict.ext h

theorem Alike.field? {l m : List (String × Json)} (h : (Json.obj l).Alike (.obj m)) (name : String) :
    Option.Rel Alike (field? l name) (field? m name) := by
  have := congrArg (fun d => d.get? name) h.fields
  simp only [Dict.get?_map, ← field?_eq_get?] at this
  cases hl : Json.field? l name with
  | none =>
      cases hm : Json.field? m name with
      | none => exact .none
      | some b => simp [hl, hm] at this
  | some a =>
      cases hm : Json.field? m name with
      | none => simp [hl, hm] at this
      | some b =>
          have hab : a.sorted.blur = b.sorted.blur := by simpa [hl, hm] using this
          exact .some hab

end StaticGql.Json
