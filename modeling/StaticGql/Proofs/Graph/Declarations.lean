import Mathlib.Data.List.Nodup
import Mathlib.Data.List.Pairwise
import StaticGql.Graph.Link
import StaticGql.Proofs.Dict
import StaticGql.Proofs.Except

/-!
What a graph is built of. It holds each declaration under its own id, so an id stands for one declaration at most. And
if no two declarations share an id, each of them is in the graph under the id that is made of its path and its place.
-/

namespace StaticGql

/-! ### Declarations under their ids -/

/-- Changing the analyses but not the places of their declarations leaves the ids as they are. -/
theorem Linker.create_map {mode : IdMode} {f : String → Analysis → Analysis}
    (hids : ∀ file a, idsOf mode file (f file a) = idsOf mode file a) (analyses : Dict Analysis)
    (onDisk : String → Bool) : create mode (analyses.map f) onDisk =
      (create mode analyses onDisk).map fun l => { l with analyses := l.analyses.map f } := by
  have hlist : (analyses.map f).toList = analyses.toList.map fun e => (e.1, f e.1 e.2) := rfl
  have hfiles : ((analyses.map f).toList.mapM fun e : String × Analysis =>
      (idsOf mode e.1 e.2).map fun ids => (e.1, ids)) =
      analyses.toList.mapM fun e : String × Analysis => (idsOf mode e.1 e.2).map fun ids => (e.1, ids) := by
    rw [hlist, mapM_map]
    congr 1
    funext e
    exact congrArg (Except.map _) (hids e.1 e.2)
  show Except.map _ ((analyses.map f).toList.mapM fun e : String × Analysis =>
    (idsOf mode e.1 e.2).map fun ids => (e.1, ids)) = _
  rw [hfiles]
  show _ = Except.map _ (Except.map _ (analyses.toList.mapM fun e : String × Analysis =>
    (idsOf mode e.1 e.2).map fun ids => (e.1, ids)))
  cases analyses.toList.mapM fun e : String × Analysis => (idsOf mode e.1 e.2).map fun ids => (e.1, ids) <;> rfl

theorem Linker.mem_sortedIds_iff {ids : List CanonicalId} {id : CanonicalId} : id ∈ sortedIds ids ↔ id ∈ ids := by
  rw [sortedIds, List.mem_map]
  constructor
  · rintro ⟨text, htext, rfl⟩
    obtain ⟨id, hid, rfl⟩ := List.mem_map.1 (Dict.mem_sortedTexts_iff.1 htext)
    exact hid
  · exact fun hid => ⟨id.text, Dict.mem_sortedTexts_iff.2 (List.mem_map_of_mem hid), rfl⟩

namespace Graph

variable {g : Graph} {mode : IdMode} {analyses : Dict Analysis} {onDisk : String → Bool} {d d' : Declaration}
  {id : CanonicalId}

theorem build_eq_ok_iff : build mode analyses onDisk = .ok g ↔ ∃ l ds, Linker.create mode analyses onDisk = .ok l ∧
    analyses.toList.mapM (fun e => l.linkFile e.1 e.2) = .ok ds ∧ ofList ds.flatten = g := by
  constructor
  · intro h
    obtain ⟨l, hl, h⟩ := bind_eq_ok_iff.1 h
    obtain ⟨ds, hds, h⟩ := bind_eq_ok_iff.1 h
    cases h
    exact ⟨l, ds, mapError_eq_ok_iff.1 hl, hds, rfl⟩
  · rintro ⟨l, ds, hl, hds, rfl⟩
    exact bind_eq_ok_iff.2 ⟨l, mapError_eq_ok_iff.2 hl, bind_eq_ok_iff.2 ⟨ds, hds, rfl⟩⟩

/-- The declarations are under the texts of their ids. -/
def Keyed (g : Graph) : Prop := ∀ k d, g.declarations.get? k = some d → d.id.text = k

theorem keyed_ofList (l : List Declaration) : (Graph.ofList l).Keyed := by
  intro k d h
  obtain ⟨d', -, he⟩ := List.mem_map.1 (Dict.mem_of_get?_ofList h)
  cases he
  rfl

theorem keyed_of_build (h : Graph.build mode analyses onDisk = .ok g) : g.Keyed := by
  obtain ⟨l, declarations, -, -, rfl⟩ := build_eq_ok_iff.1 h
  exact keyed_ofList _

theorem Keyed.mem_toList_iff (h : g.Keyed) : d ∈ g.toList ↔ g.get? d.id = some d := by
  rw [toList, Dict.mem_values_iff]
  constructor
  · rintro ⟨k, hk⟩
    rw [get?, h k d hk, hk]
  · exact fun hd => ⟨d.id.text, hd⟩

theorem Keyed.id_of_get? (h : g.Keyed) (hd : g.get? id = some d) : d.id = id :=
  CanonicalId.mk.injEq .. ▸ h _ _ hd

theorem nodup_ids (h : g.Keyed) : (g.toList.map (·.id)).Nodup := by
  have hkeys : g.toList.map (·.id.text) = g.declarations.keys := by
    rw [toList, Dict.values, Dict.keys, List.map_map]
    refine List.map_congr_left fun q hq => ?_
    exact h _ _ (Dict.mem_toList_iff.1 hq)
  have hall : (g.toList.map (·.id.text)).Nodup := hkeys ▸ Dict.nodup_keys _
  refine List.Nodup.of_map CanonicalId.text ?_
  simpa [Function.comp_def] using hall

theorem mem_declarationsIn {file : String} :
    d ∈ g.declarationsIn file ↔ (∃ k, g.declarations.get? k = some d) ∧ d.file = file := by
  rw [declarationsIn, List.mem_filter, toList, Dict.mem_values_iff]
  simp

theorem nodup_declarationsIn (h : g.Keyed) (file : String) :
    ((g.declarationsIn file).map (·.id)).Nodup :=
  (nodup_ids h).sublist (List.filter_sublist.map _)

end Graph

/-! ### Declarations of files -/

variable {mode : IdMode} {analyses : Dict Analysis} {onDisk : String → Bool} {g : Graph} {l : Linker}
  {file path : String} {a : Analysis} {s : Site} {id : CanonicalId}

/-- The ids of the declarations of a file, one for each of them. -/
def Analysis.idsAt (mode : IdMode) (file : String) (a : Analysis) : List CanonicalId :=
  a.declarations.filterMap fun s => (CanonicalId.create mode file s.structuralPath).toOption

/-- The ids of the declarations of all files. -/
def declaredIds (mode : IdMode) (analyses : Dict Analysis) : List CanonicalId :=
  analyses.toList.flatMap fun e => e.2.idsAt mode e.1

theorem Analysis.mem_idsAt (hs : s ∈ a.declarations)
    (hid : CanonicalId.create mode file s.structuralPath = .ok id) : id ∈ a.idsAt mode file := by
  refine List.mem_filterMap.2 ⟨s, hs, ?_⟩
  rw [hid]
  rfl

/-- Ids that are distinct tell the file. -/
theorem file_of_declaredIds (hnodup : (declaredIds mode analyses).Nodup) {file' : String} {a' : Analysis}
    (ha : analyses.get? file = some a) (ha' : analyses.get? file' = some a')
    (hid : id ∈ a.idsAt mode file) (hid' : id ∈ a'.idsAt mode file') : file' = file := by
  by_contra hne
  rw [declaredIds, List.nodup_flatMap] at hnodup
  have hsymm : Std.Symm (Function.onFun List.Disjoint fun e : String × Analysis => e.2.idsAt mode e.1) :=
    ⟨fun _ _ h _ hx hx' => h hx' hx⟩
  have hdisjoint := hnodup.2.forall (Dict.mem_toList_iff.2 ha) (Dict.mem_toList_iff.2 ha')
    fun heq => hne (congrArg Prod.fst heq).symm
  exact hdisjoint hid hid'

/-- The declaration is what stands at a place of a file. -/
structure Declaration.StandsFor (mode : IdMode) (file : String) (s : Site) (d : Declaration) : Prop where
  id : CanonicalId.create mode file s.structuralPath = .ok d.id
  kind : d.kind = s.kind
  file : d.file = file

namespace Linker

theorem get?_idsOf {ids : Dict CanonicalId} (h : idsOf mode file a = .ok ids) (path : String) :
    (∀ id, ids.get? path = some id → CanonicalId.create mode file path = .ok id) ∧
      (ids.get? path = none → path ∉ a.declarations.map (·.structuralPath)) := by
  obtain ⟨l, hl, rfl⟩ := map_eq_ok_iff.1 h
  have hall := mapM_eq_ok_iff.1 hl
  constructor
  · intro id hid
    obtain ⟨s, -, hs⟩ := exists_of_forall₂ hall.flip (Dict.mem_of_get?_ofList hid)
    obtain ⟨id', hcreate, hpair⟩ := map_eq_ok_iff.1 hs
    rw [Prod.mk.injEq] at hpair
    rw [← hpair.1, hcreate, hpair.2]
  · intro hnone hmem
    obtain ⟨s, hs, rfl⟩ := List.mem_map.1 hmem
    obtain ⟨q, hq, hsq⟩ := exists_of_forall₂ hall hs
    obtain ⟨id, -, rfl⟩ := map_eq_ok_iff.1 hsq
    have hsome := Dict.isSome_get?_ofList.2 (List.mem_map_of_mem (f := Prod.fst) hq)
    simp [hnone] at hsome

/-- A linker has the ids of all its files. -/
theorem create_spec (h : create mode analyses onDisk = .ok l) (ha : analyses.get? file = some a) :
    ∃ ids, l.ids.get? file = some ids ∧ idsOf mode file a = .ok ids := by
  obtain ⟨m, hm, rfl⟩ := map_eq_ok_iff.1 h
  have hall := mapM_eq_ok_iff.1 hm
  obtain ⟨q, hq, hfile⟩ := exists_of_forall₂ hall (Dict.mem_toList_iff.2 ha)
  obtain ⟨ids, hids, rfl⟩ := map_eq_ok_iff.1 hfile
  refine ⟨ids, ?_, hids⟩
  apply Dict.get?_ofList_of_mem hq
  have hkeys : m.map (·.1) = analyses.keys := by
    have hfiles : List.Forall₂ (fun e q => q.1 = e.1) analyses.toList m := by
      apply hall.imp
      intro e q hq
      obtain ⟨ids, -, rfl⟩ := map_eq_ok_iff.1 hq
      rfl
    have hmap := List.forall₂_map_right_iff.2 (List.forall₂_map_left_iff.2 (hfiles.imp fun _ _ h => h.symm))
    exact (List.forall₂_eq_eq_eq ▸ hmap : analyses.toList.map (·.1) = m.map (·.1)).symm
  rw [hkeys]
  exact Dict.nodup_keys analyses

theorem linkSite_spec (h : create mode analyses onDisk = .ok l) (ha : analyses.get? file = some a)
    (hs : s ∈ a.declarations) {ds : List Declaration} (hds : l.linkSite file a s = .ok ds) :
    ∃ d, ds = [d] ∧ d.StandsFor mode file s := by
  obtain ⟨ids, hget, hids⟩ := create_spec h ha
  obtain ⟨hsome, hnone⟩ := get?_idsOf hids s.structuralPath
  rw [linkSite, declaration?, hget, Option.bind_some] at hds
  cases hid : ids.get? s.structuralPath with
  | none => exact absurd (List.mem_map_of_mem hs) (hnone hid)
  | some id =>
      rw [hid] at hds
      obtain ⟨references, -, hds⟩ := bind_eq_ok_iff.1 hds
      cases hds
      exact ⟨_, rfl, hsome id hid, rfl, rfl⟩

theorem linkFile_spec (h : create mode analyses onDisk = .ok l) (ha : analyses.get? file = some a)
    {ds : List Declaration} (hds : l.linkFile file a = .ok ds) :
    List.Forall₂ (fun s d => d.StandsFor mode file s) a.declarations ds := by
  obtain ⟨parts, hparts, rfl⟩ := map_eq_ok_iff.1 hds
  exact forall₂_flatten hparts fun s hs ds hds => linkSite_spec h ha hs hds

end Linker

namespace Graph

theorem ids_of_standsFor {ds : List Declaration}
    (h : List.Forall₂ (fun s d => d.StandsFor mode file s) a.declarations ds) :
    a.idsAt mode file = ds.map (·.id) := by
  rw [Analysis.idsAt]
  generalize a.declarations = sites at h
  induction h with
  | nil => rfl
  | @cons s d _ _ hd _ ih =>
      rw [List.filterMap_cons, hd.id, ih]
      rfl

theorem ids_of_linked {files : List (String × Analysis)} {parts : List (List Declaration)}
    (h : List.Forall₂ (fun e ds => List.Forall₂ (fun s d => d.StandsFor mode e.1 s) e.2.declarations ds)
      files parts) : (files.flatMap fun e => e.2.idsAt mode e.1) = parts.flatten.map (·.id) := by
  induction h with
  | nil => rfl
  | @cons e ds _ _ hds _ ih =>
      rw [List.flatMap_cons, ih, List.flatten_cons, List.map_append, ids_of_standsFor hds]

/-- Where no two declarations share an id the graph has one for each place of each file. -/
theorem declarationsIn_spec (h : build mode analyses onDisk = .ok g)
    (hnodup : (declaredIds mode analyses).Nodup) (ha : analyses.get? file = some a)
    (hs : s ∈ a.declarations) : ∃ d ∈ g.declarationsIn file, d.StandsFor mode file s := by
  obtain ⟨l, hl, h⟩ := bind_eq_ok_iff.1 h
  obtain ⟨parts, hparts, h⟩ := bind_eq_ok_iff.1 h
  cases h
  have hl := mapError_eq_ok_iff.1 hl
  have hfiles : List.Forall₂ (fun e ds => e ∈ analyses.toList ∧ l.linkFile e.1 e.2 = .ok ds)
      analyses.toList parts := (List.forall₂_and_left _ _).2 ⟨fun _ he => he, mapM_eq_ok_iff.1 hparts⟩
  have hall : List.Forall₂ (fun e ds => List.Forall₂ (fun s d => d.StandsFor mode e.1 s) e.2.declarations ds)
      analyses.toList parts :=
    hfiles.imp fun e ds h => Linker.linkFile_spec hl (Dict.mem_toList_iff.1 h.1) h.2
  have hids : declaredIds mode analyses = parts.flatten.map (·.id) := ids_of_linked hall
  obtain ⟨ds, hds, hsites⟩ := exists_of_forall₂ hall (Dict.mem_toList_iff.2 ha)
  obtain ⟨d, hd, hstands⟩ := exists_of_forall₂ hsites hs
  refine ⟨d, ?_, hstands⟩
  have hmem : d ∈ parts.flatten := List.mem_flatten_of_mem hds hd
  have hget : (ofList parts.flatten).declarations.get? d.id.text = some d := by
    apply Dict.get?_ofList_of_mem
    · exact List.mem_map.2 ⟨d, hmem, rfl⟩
    · rw [hids] at hnodup
      have hinj : Function.Injective CanonicalId.text := fun x y h => by
        cases x
        cases y
        cases h
        rfl
      have htexts := hnodup.map hinj
      simpa [Function.comp_def] using htexts
  apply List.mem_filter.2
  exact ⟨Dict.mem_values_iff.2 ⟨_, hget⟩, by simp [hstands.file]⟩

end Graph
end StaticGql
