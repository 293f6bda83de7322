import StaticGql.Json.Basic
import StaticGql.Proofs.Json.Alike
import StaticGql.Proofs.Json.RoundTrip

/-!
What the readers make of a value depends on no more of it than its text keeps.
-/

namespace StaticGql.Json

variable {j k : Json} {α β : Type}

/-! ### Blurred values -/

mutual

theorem blur_plain (j : Json) : j.plain.blur = j.blur := by
  match j with
  | null | bool _ | str _ => rfl
  | num n => rfl
  | arr items => rw [plain, blur, blur, blurItems_plain items]
  | obj fields => rw [plain, blur, blur, blurFields_plain fields]

theorem blurItems_plain (l : List Json) : blurItems (plainItems l) = blurItems l := by
  match l with
  | [] => rfl
  | j :: rest => rw [plainItems, blurItems, blurItems, blur_plain j, blurItems_plain rest]

theorem blurFields_plain (l : List (String × Json)) : blurFields (plainFields l) = blurFields l := by
  match l with
  | [] => rfl
  | (k, v) :: rest => rw [plainFields, blurFields, blurFields, blur_plain v, blurFields_plain rest]

end

mutual

theorem blur_blur (j : Json) : j.blur.blur = j.blur := by
  match j with
  | null | bool _ | str _ | num _ => rfl
  | arr items => rw [blur, blur, blurItems_blur items]
  | obj fields => rw [blur, blur, blurFields_blur fields]

theorem blurItems_blur (l : List Json) : blurItems (blurItems l) = blurItems l := by
  match l with
  | [] => rfl
  | j :: rest => rw [blurItems, blurItems, blur_blur j, blurItems_blur rest]

theorem blurFields_blur (l : List (String × Json)) : blurFields (blurFields l) = blurFields l := by
  match l with
  | [] => rfl
  | (k, v) :: rest => rw [blurFields, blurFields, blur_blur v, blurFields_blur rest]

end

theorem field?_map (f : Json → Json) (fields : List (String × Json)) (name : String) :
    field? (fields.map fun e => (e.1, f e.2)) name = (field? fields name).map f := by
  rw [field?, field?, ← List.map_reverse, List.find?_map, Option.map_map, Option.map_map]
  rfl

theorem mem_of_field? {fields : List (String × Json)} {name : String} {v : Json}
    (h : field? fields name = some v) : ∃ e ∈ fields, e.2 = v := by
  obtain ⟨e, he, rfl⟩ := Option.map_eq_some_iff.1 h
  exact ⟨e, List.mem_reverse.1 (List.mem_of_find?_eq_some he), rfl⟩

mutual

theorem sorted_sorted (j : Json) : j.sorted.sorted = j.sorted := by
  match j with
  | null | bool _ | num _ | str _ => rfl
  | arr items =>
    rw [sorted, sorted, sortedItems_eq, sortedItems_eq, List.map_map, arr.injEq]
    exact List.map_congr_left (sorted_sortedItems items)
  | obj fields =>
    rw [sorted_obj, sorted_obj, obj.injEq]
    apply congrArg Dict.entries
    refine (congrArg (Dict.map fun _ (v : Json) => v.sorted) (Dict.ofList_toList _)).trans ?_
    refine Dict.ext_get? fun name => ?_
    rw [Dict.get?_map, Dict.get?_map, ← field?_eq_get?, Option.map_map]
    cases hv : field? fields name with
    | none => rfl
    | some v =>
        obtain ⟨e, he, rfl⟩ := mem_of_field? hv
        exact congrArg some (sorted_sortedFields fields e he)

theorem sorted_sortedItems (l : List Json) : ∀ j ∈ l, j.sorted.sorted = j.sorted := by
  match l with
  | [] => simp
  | j :: rest => exact List.forall_mem_cons.2 ⟨sorted_sorted j, sorted_sortedItems rest⟩

theorem sorted_sortedFields (l : List (String × Json)) : ∀ e ∈ l, e.2.sorted.sorted = e.2.sorted := by
  match l with
  | [] => simp
  | (k, v) :: rest => exact List.forall_mem_cons.2 ⟨sorted_sorted v, sorted_sortedFields rest⟩

end

mutual

theorem blur_sorted (j : Json) : j.sorted.blur = j.blur.sorted := by
  match j with
  | null | bool _ | num _ | str _ => rfl
  | arr items =>
    simp only [sorted, blur, sortedItems_eq, blurItems_eq, List.map_map, arr.injEq]
    exact List.map_congr_left (blur_sortedItems items)
  | obj fields =>
    rw [blur_sorted_obj, blur, sorted_obj, obj.injEq, blurFields_eq]
    apply congrArg Dict.entries
    refine Dict.ext_get? fun name => ?_
    rw [Dict.get?_map, Dict.get?_map, ← field?_eq_get?, ← field?_eq_get?, field?_map, Option.map_map]
    cases hv : field? fields name with
    | none => rfl
    | some v =>
        obtain ⟨e, he, rfl⟩ := mem_of_field? hv
        exact congrArg some (blur_sortedFields fields e he)

theorem blur_sortedItems (l : List Json) : ∀ j ∈ l, j.sorted.blur = j.blur.sorted := by
  match l with
  | [] => simp
  | j :: rest => exact List.forall_mem_cons.2 ⟨blur_sorted j, blur_sortedItems rest⟩

theorem blur_sortedFields (l : List (String × Json)) : ∀ e ∈ l, e.2.sorted.blur = e.2.blur.sorted := by
  match l with
  | [] => simp
  | (k, v) :: rest => exact List.forall_mem_cons.2 ⟨blur_sorted v, blur_sortedFields rest⟩

end

theorem alike_of_plain (h : j.plain = k.plain) : j.Alike k := by
  rw [Alike, blur_sorted, blur_sorted, ← blur_plain j, h, blur_plain]

theorem alike_blur_sorted (j : Json) : j.sorted.blur.Alike j := by
  rw [Alike, ← blur_sorted, blur_blur, sorted_sorted]

theorem alike_sorted (j : Json) : j.sorted.Alike j := by
  rw [Alike, sorted_sorted]

theorem Alike.trans {i : Json} (h : i.Alike j) (h' : j.Alike k) : i.Alike k := Eq.trans h h'

/-! ### Scalars -/

theorem asStr?_congr (h : j.plain = k.plain) : j.asStr? = k.asStr? := by
  have hstr : ∀ j : Json, j.plain.asStr? = j.asStr? := by
    intro j
    cases j <;> simp [plain, asStr?]
  rw [← hstr j, h, hstr]

theorem asBool?_congr (h : j.plain = k.plain) : j.asBool? = k.asBool? := by
  have hbool : ∀ j : Json, j.plain.asBool? = j.asBool? := by
    intro j
    cases j <;> simp [plain, asBool?]
  rw [← hbool j, h, hbool]

theorem word_congr (h : j.plain = k.plain) : word j = word k := by
  have hword : ∀ j : Json, word j.plain = word j := by
    intro j
    cases j with
    | num n =>
        cases n with
        | real x => rfl
        | int i =>
            rw [plain, Number.plain]
            by_cases hi : fitsWord i = true
            · rw [if_pos hi]
            · rw [if_neg hi]
              rw [fitsWord_iff] at hi
              cases i with
              | negSucc n => rfl
              | ofNat n =>
                  have hmax : maxWord = twoTo 64 - 1 := rfl
                  have hn : ¬n < twoTo 64 := by
                    rw [hmax] at hi
                    intro hlt
                    apply hi
                    constructor
                    · exact Int.le_trans (Int.neg_nonpos_of_nonneg (Int.natCast_nonneg _))
                        (Int.natCast_nonneg _)
                    · exact Int.ofNat_le.2 (Nat.le_sub_one_of_lt hlt)
                  show none = (some n).filter (· < twoTo 64)
                  rw [Option.filter_some, if_neg (by simpa using hn)]
    | _ => simp [plain, word, asNat?]
  rw [← hword j, h, hword]

theorem word_nat {n m : Nat} (h : j.plain = (nat n).plain) (hj : word j = some m) : m = n := by
  rw [word_congr h, word, nat] at hj
  exact (Option.some.inj (Option.filter_eq_some_iff.1 hj).1).symm

/-! ### Containers -/

theorem exists_fields {fields : List (String × Json)} (h : j.plain = (obj fields).plain) :
    ∃ fields', j = obj fields' ∧
      List.Forall₂ (fun e' e => e'.1 = e.1 ∧ e'.2.plain = e.2.plain) fields' fields := by
  cases j with
  | obj fields' =>
      rw [plain, plain, plainFields_eq, plainFields_eq, obj.injEq] at h
      rw [← List.forall₂_eq_eq_eq, List.forall₂_map_left_iff, List.forall₂_map_right_iff] at h
      exact ⟨fields', rfl, h.imp fun _ _ h => Prod.mk.injEq .. ▸ h⟩
  | _ => simp [plain] at h

theorem exists_items {items : List Json} (h : j.plain = (arr items).plain) :
    ∃ items', j = arr items' ∧ List.Forall₂ (fun i' i => i'.plain = i.plain) items' items := by
  cases j with
  | arr items' =>
      rw [plain, plain, plainItems_eq, plainItems_eq, arr.injEq] at h
      rw [← List.forall₂_eq_eq_eq, List.forall₂_map_left_iff, List.forall₂_map_right_iff] at h
      exact ⟨items', rfl, h⟩
  | _ => simp [plain] at h

/-- A reader that brings back, up to `same`, what a writer has written. -/
def Reverts (write : α → Json) (read : Json → Option α) (same : α → α → Prop) : Prop :=
  ∀ a a' j, j.plain = (write a).plain → read j = some a' → same a' a

theorem Reverts.listOf {write : α → Json} {read : Json → Option α} {same : α → α → Prop}
    (h : Reverts write read same) :
    Reverts (fun l => arr (l.map write)) (listOf read) (List.Forall₂ same) := by
  intro l l' j hj hread
  obtain ⟨items, rfl, hitems⟩ := exists_items hj
  rw [Json.listOf] at hread
  rw [List.forall₂_map_right_iff] at hitems
  clear hj
  induction hitems generalizing l' with
  | nil =>
      cases hread
      exact .nil
  | @cons i a items l hi _ ih =>
      rw [List.mapM_cons] at hread
      obtain ⟨a', ha', hread⟩ := Option.bind_eq_some_iff.1 hread
      obtain ⟨rest, hrest, hread⟩ := Option.bind_eq_some_iff.1 hread
      cases hread
      exact .cons (h a a' i hi ha') (ih rest hrest)

theorem reverts_word : Reverts nat word Eq := fun _ _ _ hj hread => word_nat hj hread

theorem reverts_str : Reverts str asStr? Eq := by
  intro s s' j hj hread
  rw [asStr?_congr hj, asStr?, Option.some.injEq] at hread
  exact hread.symm

theorem reverts_bool : Reverts bool asBool? Eq := by
  intro b b' j hj hread
  rw [asBool?_congr hj, asBool?, Option.some.injEq] at hread
  exact hread.symm

theorem reverts_strs : Reverts strs (listOf asStr?) Eq := by
  intro l l' j hj hread
  rw [← List.forall₂_eq_eq_eq]
  exact reverts_str.listOf l l' j hj hread

/-! ### Records -/

/-- Values of one text, or two absent ones. -/
abbrev Matches : Option Json → Option Json → Prop := Option.Rel fun j k => j.plain = k.plain

theorem Reverts.needed {write : α → Json} {read : Json → Option α} {same : α → α → Prop}
    (h : Reverts write read same) {o : Option Json} {a a' : α} (ho : Matches o (some (write a)))
    (hread : needed read o = some a') : same a' a := by
  cases ho with
  | some hj => exact h a a' _ hj hread

theorem optional_str {o : Option Json} {t t' : Option String} (ho : Matches o (t.map str))
    (hread : optional asStr? o = some t') : t' = t := by
  cases t with
  | none =>
      cases ho
      cases hread
      rfl
  | some s =>
      cases ho with
      | @some j _ hj =>
          have hnull : j ≠ null := by
            rintro rfl
            simp [plain] at hj
          have hsome : optional asStr? (some j) = (asStr? j).map some := by
            cases j <;> first | rfl | exact absurd rfl hnull
          rw [hsome, asStr?_congr hj] at hread
          exact (Option.some.inj hread).symm

theorem matches_named {fields fields' : List (String × Json)}
    (h : List.Forall₂ (fun e' e => e'.1 = e.1 ∧ e'.2.plain = e.2.plain) fields' fields)
    (name : String) (p : Presence) :
    Option.Rel Matches (named fields' name p) (named fields name p) := by
  have hfilter : List.Forall₂ (fun e' e : String × Json => e'.1 = e.1 ∧ e'.2.plain = e.2.plain)
      (fields'.filter (·.1 = name)) (fields.filter (·.1 = name)) := by
    induction h with
    | nil => exact .nil
    | @cons e' e _ _ he _ ih =>
        rw [List.filter_cons, List.filter_cons, he.1]
        split
        · exact .cons he ih
        · exact ih
  rw [named, named]
  generalize fields'.filter (·.1 = name) = found', fields.filter (·.1 = name) = found at hfilter
  cases hfilter with
  | nil =>
      by_cases hp : p = .required
      · simp only [if_pos hp]
        exact .none
      · simp only [if_neg hp]
        exact .some .none
  | cons he hrest =>
      cases hrest with
      | nil => exact .some (.some he.2)
      | cons _ _ => exact .none

theorem matches_mapM {f g : β → Option (Option Json)} {l : List β}
    (h : ∀ b, Option.Rel Matches (f b) (g b)) :
    Option.Rel (List.Forall₂ Matches) (l.mapM f) (l.mapM g) := by
  induction l with
  | nil => exact .some .nil
  | cons b rest ih =>
      rw [List.mapM_cons, List.mapM_cons]
      have hb := h b
      generalize f b = o, g b = o' at hb
      cases hb with
      | none => exact .none
      | some hb =>
          generalize rest.mapM f = os, rest.mapM g = os' at ih
          cases ih with
          | none => exact .none
          | some hrest => exact .some (.cons hb hrest)

/-- The fields of an object that was read, next to those of the one that was written. -/
theorem exists_record {shape : List (String × Presence)} {fields : List (String × Json)}
    {os : List (Option Json)} (hj : j.plain = (obj fields).plain)
    (h : record shape (obj fields) = some os) :
    ∃ os', record shape j = some os' ∧ List.Forall₂ Matches os' os := by
  obtain ⟨fields', rfl, hfields⟩ := exists_fields hj
  have hrel : Option.Rel (List.Forall₂ Matches) (record shape (obj fields'))
      (record shape (obj fields)) := by
    rw [record, record]
    exact matches_mapM fun b => matches_named hfields b.1 b.2
  rw [h] at hrel
  generalize record shape (obj fields') = o at hrel
  cases hrel with
  | some hall => exact ⟨_, rfl, hall⟩

theorem eq_str_of_plain {s : String} (h : j.plain = (str s).plain) : j = str s := by
  cases j with
  | str t => exact h
  | _ => simp [plain] at h

theorem reverts_constant {name : α → String} {ofName? : String → Option α}
    (h : ∀ a, ofName? (name a) = some a) :
    Reverts (fun a => str (name a)) (fun j => (constant j).bind ofName?) Eq := by
  intro a a' j hj hread
  rw [eq_str_of_plain hj] at hread
  have hname : ofName? (name a) = some a' := hread
  rw [h, Option.some.injEq] at hname
  exact hname.symm

/-- The tag of a tagged object that was read, and what is left of the object. -/
theorem tagged_spec {tag s s' : String} {fields : List (String × Json)} {body : Json}
    (htag : ∀ e ∈ fields, e.1 ≠ tag) (hj : j.plain = (obj ((tag, str s) :: fields)).plain)
    (hread : tagged tag j = some (s', body)) : s' = s ∧ body.plain = (obj fields).plain := by
  obtain ⟨fields', rfl, hfields⟩ := exists_fields hj
  cases hfields with
  | @cons e _ rest _ he hrest =>
      obtain ⟨k, v⟩ := e
      obtain ⟨rfl, hv⟩ : k = tag ∧ v.plain = (str s).plain := he
      obtain rfl := eq_str_of_plain hv
      have hother : ∀ e ∈ rest, e.1 ≠ k := by
        intro e he
        obtain ⟨e', he', hname, -⟩ := exists_of_forall₂ hrest he
        exact hname ▸ htag e' he'
      have hnone : rest.filter (fun e => e.1 = k) = [] := by
        simpa [List.filter_eq_nil_iff] using hother
      have hall : rest.filter (fun e => e.1 ≠ k) = rest := by
        simpa [List.filter_eq_self] using hother
      have hkeep : ((k, str s) :: rest).filter (fun e => e.1 ≠ k) = rest := by
        rw [List.filter_cons_of_neg (by simp), hall]
      rw [tagged, List.filter_cons_of_pos (by simp), hnone, hkeep] at hread
      cases hread
      refine ⟨rfl, ?_⟩
      rw [plain, plain, plainFields_eq, plainFields_eq, obj.injEq]
      rw [← List.forall₂_eq_eq_eq, List.forall₂_map_left_iff, List.forall₂_map_right_iff]
      exact hrest.imp fun _ _ h => by rw [h.1, h.2]

end StaticGql.Json
