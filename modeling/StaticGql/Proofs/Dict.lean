import Mathlib.Data.List.Basic
import Mathlib.Data.List.Sort
import StaticGql.Dict

/-!
A dictionary is what its look-ups say: every operation by `get?`, and dictionaries with the same
look-ups are the same.
-/

namespace StaticGql.Dict

variable {β γ : Type} {d : Dict β} {k : String} {v : β}

theorem find_eq_some_iff {l : List (String × β)} (h : l.Pairwise (fun a b => a.1 < b.1)) :
    find k l = some v ↔ (k, v) ∈ l := by
  induction l with
  | nil => simp [find]
  | cons q rest ih =>
      obtain ⟨a, w⟩ := q
      obtain ⟨hlt, hrest⟩ := List.pairwise_cons.1 h
      simp only [find, List.mem_cons, Prod.mk.injEq]
      by_cases ha : a = k
      · subst a
        have hnot : (k, v) ∉ rest := fun hm => String.lt_irrefl k (hlt (k, v) hm)
        simp [hnot, eq_comm]
      · simp [ha, Ne.symm ha, ih hrest]

theorem mem_toList_iff : (k, v) ∈ d.toList ↔ d.get? k = some v :=
  (find_eq_some_iff d.sorted).symm

theorem find_eq_none_iff {l : List (String × β)} : find k l = none ↔ k ∉ l.map (·.1) := by
  induction l with
  | nil => simp [find]
  | cons q rest ih =>
      obtain ⟨a, w⟩ := q
      by_cases ha : a = k
      · simp [find, ha]
      · simp [find, ha, ih, Ne.symm ha]

theorem mem_keys_iff : k ∈ d.keys ↔ (d.get? k).isSome := by
  have h : d.get? k = none ↔ k ∉ d.keys := find_eq_none_iff
  cases hg : d.get? k <;> simp_all

theorem mem_values_iff : v ∈ d.values ↔ ∃ k, d.get? k = some v := by
  simp only [← mem_toList_iff, values, toList, List.mem_map, Prod.exists]
  constructor
  · rintro ⟨a, _, h, rfl⟩
    exact ⟨a, h⟩
  · rintro ⟨a, h⟩
    exact ⟨a, v, h, rfl⟩

theorem contains_iff : d.contains k = true ↔ ∃ v, d.get? k = some v := by
  simp [contains, Option.isSome_iff_exists]

theorem keys_pairwise (d : Dict β) : d.keys.Pairwise (· < ·) := List.pairwise_map.2 d.sorted

theorem nodup_keys (d : Dict β) : d.keys.Nodup := by
  rw [List.nodup_iff_pairwise_ne]
  refine (keys_pairwise d).imp fun {a b} h => ?_
  rintro rfl
  exact String.lt_irrefl a h

theorem keys_eq_iff {d : Dict β} {e : Dict γ} :
    d.keys = e.keys ↔ ∀ k, (d.get? k).isSome = true ↔ (e.get? k).isSome = true := by
  simp only [← mem_keys_iff]
  constructor
  · intro h k
    rw [h]
  · exact List.Pairwise.eq_of_mem_iff (keys_pairwise d) (keys_pairwise e)

/-- Lists in the order of their keys are the same once they have the same members. -/
theorem eq_of_mem_iff {l m : List (String × β)} (hl : l.Pairwise (fun a b => a.1 < b.1))
    (hm : m.Pairwise (fun a b => a.1 < b.1)) (h : ∀ p, p ∈ l ↔ p ∈ m) : l = m := by
  have : Std.Irrefl (fun a b : String × β => a.1 < b.1) := ⟨fun a => String.lt_irrefl a.1⟩
  have : Std.Antisymm (fun a b : String × β => a.1 < b.1) :=
    ⟨fun _ _ h h' => absurd h' (String.lt_asymm h)⟩
  exact List.Pairwise.eq_of_mem_iff hl hm h

theorem ext_get? {a b : Dict β} (h : ∀ k, a.get? k = b.get? k) : a = b := by
  apply ext
  refine eq_of_mem_iff a.sorted b.sorted fun ⟨k, v⟩ => ?_
  rw [← find_eq_some_iff a.sorted, ← find_eq_some_iff b.sorted]
  exact Eq.congr_left (h k)

/-! ### Operations -/

@[simp]
theorem get?_empty (k : String) : (∅ : Dict β).get? k = none := rfl

theorem find_put (k k' : String) (v : β) {l : List (String × β)}
    (h : l.Pairwise (fun a b => a.1 < b.1)) :
    find k' (put k v l) = if k = k' then some v else find k' l := by
  induction l with
  | nil => rfl
  | cons q rest ih =>
      obtain ⟨a, w⟩ := q
      have hrest := (List.pairwise_cons.1 h).2
      simp only [put]
      split
      · rfl
      · rename_i hka
        split
        · rename_i hak
          by_cases hk : k = k'
          · subst k'
            have hne : a ≠ k := fun e => String.lt_irrefl _ (e ▸ hak)
            simp [find, hne, ih hrest]
          · simp [find, hk, ih hrest]
        · rename_i hak
          have hkeq : a = k := String.le_antisymm hka hak
          subst hkeq
          by_cases hk : a = k' <;> simp [find, hk]

theorem get?_insert (d : Dict β) (k k' : String) (v : β) :
    (d.insert k v).get? k' = if k = k' then some v else d.get? k' :=
  find_put k k' v d.sorted

theorem get?_filter (d : Dict β) (p : String → β → Bool) (k : String) :
    (d.filter p).get? k = (d.get? k).filter (p k) := by
  ext v
  rw [← mem_toList_iff, Option.filter_eq_some_iff, ← mem_toList_iff]
  simp [filter, toList]

theorem get?_erase (d : Dict β) (k k' : String) :
    (d.erase k).get? k' = if k = k' then none else d.get? k' := by
  ext v
  rw [← mem_toList_iff]
  by_cases hk : k = k'
  · simp [erase, toList, hk]
  · rw [if_neg hk, ← mem_toList_iff]
    simp [erase, toList, Ne.symm hk]

theorem find_map (f : String → β → γ) (l : List (String × β)) :
    find k (l.map fun e => (e.1, f e.1 e.2)) = (find k l).map (f k) := by
  induction l with
  | nil => rfl
  | cons q rest ih =>
      by_cases hq : q.1 = k
      · subst hq
        simp [find]
      · simp [find, hq, ih]

theorem get?_map (d : Dict β) (f : String → β → γ) (k : String) :
    (d.map f).get? k = (d.get? k).map (f k) :=
  find_map f d.entries

theorem get?_modify (d : Dict β) (k k' : String) (f : β → β) :
    (d.modify k f).get? k' = if k' = k then (d.get? k').map f else d.get? k' := by
  rw [modify, get?_map]
  split <;> simp_all

theorem get?_foldl_insert (l : List (String × β)) (d : Dict β) (k : String) :
    (l.foldl (fun d e => d.insert e.1 e.2) d).get? k =
      ((l.reverse.find? (·.1 = k)).map (·.2)).or (d.get? k) := by
  induction l generalizing d with
  | nil => simp
  | cons e rest ih =>
      rw [List.foldl_cons, ih, get?_insert, List.reverse_cons, List.find?_append]
      cases hr : rest.reverse.find? (·.1 = k) with
      | some _ => simp
      | none => by_cases he : e.1 = k <;> simp [he]

/-- Of several values under one key the last one counts. -/
theorem get?_ofList (l : List (String × β)) (k : String) :
    (ofList l).get? k = (l.reverse.find? (·.1 = k)).map (·.2) := by
  rw [ofList, get?_foldl_insert]
  exact Option.or_none

theorem get?_ofList_of_mem {l : List (String × β)} (h : (k, v) ∈ l)
    (hn : (l.map (·.1)).Nodup) : (ofList l).get? k = some v := by
  rw [get?_ofList]
  cases hf : l.reverse.find? (·.1 = k) with
  | none =>
      rw [List.find?_eq_none] at hf
      simpa using hf (k, v) (by simpa using h)
  | some e =>
      have he : e ∈ l := by simpa using List.mem_of_find?_eq_some hf
      have hk : e.1 = k := by simpa using List.find?_some hf
      have := List.inj_on_of_nodup_map hn he h hk
      simp [this]

theorem mem_of_get?_ofList {l : List (String × β)} (h : (ofList l).get? k = some v) :
    (k, v) ∈ l := by
  rw [get?_ofList, Option.map_eq_some_iff] at h
  obtain ⟨⟨a, w⟩, hf, rfl⟩ := h
  have hk : a = k := by simpa using List.find?_some hf
  simpa [hk] using List.mem_of_find?_eq_some hf

theorem isSome_get?_ofList {l : List (String × β)} :
    ((ofList l).get? k).isSome ↔ k ∈ l.map (·.1) := by
  rw [get?_ofList, Option.isSome_map, List.find?_isSome]
  simp

theorem mem_sortedTexts_iff {l : List String} : k ∈ sortedTexts l ↔ k ∈ l := by
  rw [sortedTexts, mem_keys_iff, isSome_get?_ofList, List.map_map]
  simp [Function.comp_def]

theorem sortedTexts_congr {l l' : List String} (h : ∀ k, k ∈ l ↔ k ∈ l') : sortedTexts l = sortedTexts l' := by
  refine List.Pairwise.eq_of_mem_iff (keys_pairwise _) (keys_pairwise _) fun k => ?_
  exact mem_sortedTexts_iff.trans ((h k).trans mem_sortedTexts_iff.symm)

@[simp]
theorem ofList_toList (d : Dict β) : ofList d.toList = d := by
  refine ext_get? fun k => ?_
  cases h : d.get? k with
  | some v => exact get?_ofList_of_mem (mem_toList_iff.2 h) (nodup_keys d)
  | none =>
      rw [← Option.not_isSome_iff_eq_none, isSome_get?_ofList]
      intro hk
      have := mem_keys_iff.1 (show k ∈ d.keys from hk)
      simp [h] at this

/-! ### Values picked out -/

theorem pairwise_pick {δ : Type} (f : β → Option δ) (d : Dict β) :
    (d.toList.filterMap fun e => (f e.2).map fun u => (e.1, u)).Pairwise (fun a b => a.1 < b.1) := by
  refine List.Pairwise.filterMap _ (fun a b hab => ?_) d.sorted
  intro c hc e he
  obtain ⟨_, -, rfl⟩ := Option.map_eq_some_iff.1 hc
  obtain ⟨_, -, rfl⟩ := Option.map_eq_some_iff.1 he
  exact hab

theorem mem_pick_iff {δ : Type} {f : β → Option δ} {u : δ} :
    (k, u) ∈ (d.toList.filterMap fun e => (f e.2).map fun u => (e.1, u)) ↔
      (d.get? k).bind f = some u := by
  simp only [List.mem_filterMap, Option.map_eq_some_iff, Prod.exists, Prod.mk.injEq,
    Option.bind_eq_some_iff, mem_toList_iff]
  constructor
  · rintro ⟨a, b, hab, w, hw, rfl, rfl⟩
    exact ⟨b, hab, hw⟩
  · rintro ⟨b, hb, hu⟩
    exact ⟨k, b, hb, u, hu, rfl, rfl⟩

/-- What is picked out of the values depends on what the look-ups give of it. -/
theorem pick_congr {δ : Type} {f : β → Option δ} {g : γ → Option δ} {a : Dict β} {b : Dict γ}
    (h : ∀ k, (a.get? k).bind f = (b.get? k).bind g) :
    (a.toList.filterMap fun e => (f e.2).map fun u => (e.1, u)) =
      b.toList.filterMap fun e => (g e.2).map fun u => (e.1, u) := by
  refine eq_of_mem_iff (pairwise_pick f a) (pairwise_pick g b) fun ⟨k, u⟩ => ?_
  rw [mem_pick_iff, mem_pick_iff, h]

theorem get?_ofList_pick {δ : Type} (f : β → Option δ) (d : Dict β) (k : String) :
    (ofList (d.toList.filterMap fun e => (f e.2).map fun u => (e.1, u))).get? k =
      (d.get? k).bind f := by
  have hsorted := pairwise_pick f d
  ext u
  rw [← mem_pick_iff]
  constructor
  · exact mem_of_get?_ofList
  · intro h
    refine get?_ofList_of_mem h ?_
    rw [List.nodup_iff_pairwise_ne, List.pairwise_map]
    refine hsorted.imp fun {a b} hab hne => ?_
    exact String.lt_irrefl a.1 (hne ▸ hab)

/-- Of several values that come under one key the last one in the order of their old keys counts. -/
theorem get?_ofList_map_iff {l : List (String × β)} (h : l.Pairwise (fun a b => a.1 < b.1)) (key : β → String) :
    (ofList (l.map fun e => (key e.2, e.2))).get? k = some v ↔
      ∃ a, (a, v) ∈ l ∧ key v = k ∧ ∀ b w, (b, w) ∈ l → key w = k → b ≤ a := by
  have hlast : ∀ {e}, l.reverse.find? (fun e => key e.2 = k) = some e →
      e ∈ l ∧ key e.2 = k ∧ ∀ b w, (b, w) ∈ l → key w = k → b ≤ e.1 := by
    intro e he
    obtain ⟨hk, after, before, hl, hafter⟩ := List.find?_eq_some_iff_append.1 he
    have hsorted := List.pairwise_reverse.2 h
    rw [hl, List.pairwise_append, List.pairwise_cons] at hsorted
    have hmem : ∀ p, p ∈ l ↔ p ∈ after ∨ p = e ∨ p ∈ before := by
      intro p
      rw [← List.mem_reverse, hl, List.mem_append, List.mem_cons]
    refine ⟨(hmem e).2 (.inr (.inl rfl)), by simpa using hk, fun b w hb hw => ?_⟩
    rcases (hmem _).1 hb with hb | rfl | hb
    · have := hafter _ hb
      simp [hw] at this
    · exact String.le_refl b
    · exact String.lt_asymm (hsorted.2.1.1 _ hb)
  rw [get?_ofList, ← List.map_reverse, List.find?_map, Option.map_map, Option.map_eq_some_iff]
  constructor
  · rintro ⟨⟨a, w⟩, hf, rfl⟩
    exact ⟨a, hlast hf⟩
  · rintro ⟨a, ha, hk, hmax⟩
    cases hf : l.reverse.find? (fun e => key e.2 = k) with
    | none =>
        rw [List.find?_eq_none] at hf
        simpa [hk] using hf (a, v) (List.mem_reverse.2 ha)
    | some e =>
        obtain ⟨he, hke, hemax⟩ := hlast hf
        refine ⟨e, hf, ?_⟩
        have heq : e.1 = a := String.le_antisymm (hmax _ _ he hke) (hemax _ _ ha hk)
        obtain ⟨b, w⟩ := e
        obtain rfl : b = a := heq
        have := ((find_eq_some_iff h).2 he).symm.trans ((find_eq_some_iff h).2 ha)
        exact Option.some.inj this

theorem filterMap_values_congr {δ : Type} {f : β → Option δ} {g : γ → Option δ} {a : Dict β}
    {b : Dict γ} (h : ∀ k, (a.get? k).bind f = (b.get? k).bind g) :
    a.values.filterMap f = b.values.filterMap g := by
  have := congrArg (List.map (·.2)) (pick_congr h)
  simpa [List.map_filterMap, values, List.filterMap_map, Function.comp_def, toList] using this

/-! ### Changing the values -/

theorem contains_map (d : Dict β) (f : String → β → γ) (k : String) :
    (d.map f).contains k = d.contains k := by
  rw [contains, contains, get?_map, Option.isSome_map]

theorem size_map (d : Dict β) (f : String → β → γ) : (d.map f).size = d.size := List.length_map ..

theorem values_map (d : Dict β) (f : β → γ) : (d.map fun _ v => f v).values = d.values.map f := by
  rw [values, values, List.map_map]
  exact List.map_map ..

theorem toList_map (f : β → γ) (d : Dict β) :
    (d.map fun _ v => f v).toList = d.toList.map fun e => (e.1, f e.2) := rfl

theorem map_ofList (f : β → γ) (l : List (String × β)) :
    (ofList l).map (fun _ v => f v) = ofList (l.map fun e => (e.1, f e.2)) := by
  apply ext_get?
  intro k
  rw [get?_map, get?_ofList, get?_ofList, ← List.map_reverse, List.find?_map, Option.map_map,
    Option.map_map]
  rfl

/-- Dictionaries of lists that agree key by key. -/
theorem rel_ofList {R : β → γ → Prop} {l : List (String × β)} {m : List (String × γ)}
    (h : List.Forall₂ (fun e f => e.1 = f.1 ∧ R e.2 f.2) l m) (k : String) :
    Option.Rel R ((ofList l).get? k) ((ofList m).get? k) := by
  have hreverse := List.rel_reverse h
  rw [get?_ofList, get?_ofList]
  generalize l.reverse = l', m.reverse = m' at hreverse
  induction hreverse with
  | nil => exact .none
  | @cons e f _ _ he _ ih =>
      rw [List.find?_cons, List.find?_cons, he.1]
      by_cases hk : f.1 = k
      · simp only [hk, decide_true]
        exact .some he.2
      · simp only [hk, decide_false]
        exact ih

end StaticGql.Dict
