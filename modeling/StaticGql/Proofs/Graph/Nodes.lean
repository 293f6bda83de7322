import StaticGql.Proofs.Graph.References
import StaticGql.Proofs.Graph.SameFile

/-!
The nodes of a built graph. They are the declarations of the analysed files, of several with one id the last,
and whatever one of them refers to is one of them as well. None refers to itself, unless its call mentions the
name that is its own path.
-/

namespace StaticGql

open CanonicalId (create)

variable {mode : IdMode} {analyses : Dict Analysis} {onDisk : String → Bool} {g : Graph} {l : Linker}
  {file : String} {a : Analysis} {s : Site} {id : CanonicalId} {d : Declaration} {ds : List Declaration}

/-! ### One declaration -/

namespace Linker

theorem exists_of_linkSite (h : l.linkSite file a s = .ok ds) (hd : d ∈ ds) :
    l.declaration? file s.structuralPath = some d.id ∧ ∃ lists,
      s.references.mapM (l.referenced a file s d.id) = .ok lists ∧ d.references = sortedIds lists.flatten := by
  rw [linkSite] at h
  split at h
  · cases h
    cases hd
  · rename_i id hid
    obtain ⟨lists, hlists, h⟩ := bind_eq_ok_iff.1 h
    cases h
    obtain rfl := List.mem_singleton.1 hd
    exact ⟨hid, lists, hlists, rfl⟩

theorem pairwise_sortedIds (ids : List CanonicalId) : (sortedIds ids).Pairwise (·.text < ·.text) :=
  List.pairwise_map.2 (Dict.keys_pairwise _)

/-- A name that is not the path of the declaration never leads back to it. -/
theorem eq_of_mem_referenced {localName : String} {ids : List CanonicalId}
    (h : l.referenced a file s id localName = .ok ids) (hid : id ∈ ids) : s.structuralPath = localName := by
  rw [referenced] at h
  split at h
  · cases h
    simpa using List.of_mem_filter hid
  · cases h
    cases hid
  · cases h
    cases hid
  · cases h

theorem referenced_self (h : l.declaration? file s.structuralPath = some id) :
    l.referenced a file s id s.structuralPath = .ok [id] := by
  have hunder : l.declarationsUnder file s.structuralPath = [id] := by rw [declarationsUnder, h]
  have htarget : l.target file s.structuralPath = .declarations [id] := by
    rw [target_of_under (by simp [hunder]), hunder]
  simp [referenced, htarget]

theorem mem_self_iff (h : l.linkSite file a s = .ok ds) (hd : d ∈ ds) :
    d.id ∈ d.references ↔ s.structuralPath ∈ s.references := by
  obtain ⟨hself, lists, hlists, hreferences⟩ := exists_of_linkSite h hd
  have hall := mapM_eq_ok_iff.1 hlists
  rw [hreferences, mem_sortedIds_iff, List.mem_flatten]
  constructor
  · rintro ⟨ids, hids, hmem⟩
    obtain ⟨localName, hname, hreferenced⟩ := exists_of_forall₂ hall.flip hids
    rwa [eq_of_mem_referenced hreferenced hmem]
  · intro hname
    obtain ⟨ids, hids, hreferenced⟩ := exists_of_forall₂ hall hname
    rw [referenced_self hself] at hreferenced
    cases hreferenced
    exact ⟨[d.id], hids, List.mem_singleton_self _⟩

end Linker

/-! ### All declarations -/

/-- The places of the declarations of all files, in the order in which they are linked. -/
def places (analyses : Dict Analysis) : List (String × Site) :=
  analyses.toList.flatMap fun e => e.2.declarations.map fun s => (e.1, s)

theorem mem_places (ha : analyses.get? file = some a) (hs : s ∈ a.declarations) : (file, s) ∈ places analyses :=
  List.mem_flatMap.2 ⟨(file, a), Dict.mem_toList_iff.2 ha, List.mem_map_of_mem hs⟩

/-- The declaration is what linking makes of what stands at a place of a file. -/
structure Declaration.Linked (mode : IdMode) (file : String) (s : Site) (d : Declaration) : Prop
    extends d.StandsFor mode file s where
  builder : d.builder = s.builder
  span : d.span = s.span
  ascending : d.references.Pairwise (·.text < ·.text)
  self : d.id ∈ d.references ↔ s.structuralPath ∈ s.references

theorem Linker.linked_linkFile (hl : Linker.create mode analyses onDisk = .ok l)
    (ha : analyses.get? file = some a) (h : l.linkFile file a = .ok ds) :
    List.Forall₂ (fun p d => d.Linked mode p.1 p.2) (a.declarations.map fun s => (file, s)) ds := by
  obtain ⟨parts, hparts, rfl⟩ := map_eq_ok_iff.1 h
  refine List.forall₂_map_left_iff.2 (forall₂_flatten hparts fun s hs ds hds => ?_)
  obtain ⟨d, rfl, hstands⟩ := linkSite_spec hl ha hs hds
  have hd : d ∈ [d] := List.mem_singleton_self d
  obtain ⟨-, -, hbuilder, hspan⟩ := file_of_linkSite hds hd
  obtain ⟨-, lists, -, hreferences⟩ := exists_of_linkSite hds hd
  exact ⟨d, rfl, hstands, hbuilder, hspan, hreferences ▸ pairwise_sortedIds _, mem_self_iff hds hd⟩

namespace Graph

theorem exists_linked (hg : build mode analyses onDisk = .ok g) : ∃ ds,
    List.Forall₂ (fun p d => d.Linked mode p.1 p.2) (places analyses) ds ∧ ofList ds = g := by
  obtain ⟨l, parts, hl, hparts, rfl⟩ := build_eq_ok_iff.1 hg
  refine ⟨parts.flatten, ?_, rfl⟩
  have hfiles : List.Forall₂ (fun e ds => e ∈ analyses.toList ∧ l.linkFile e.1 e.2 = .ok ds)
      analyses.toList parts := (List.forall₂_and_left _ _).2 ⟨fun _ he => he, mapM_eq_ok_iff.1 hparts⟩
  rw [places, List.flatMap_def]
  refine List.rel_flatten (List.forall₂_map_left_iff.2 (hfiles.imp fun e ds he => ?_))
  exact Linker.linked_linkFile hl (Dict.mem_toList_iff.1 he.1) he.2

/-- Of several declarations with one id the last one is in the graph. -/
theorem exists_last_of_get? (h : (ofList ds).get? id = some d) :
    ∃ before after, ds = before ++ d :: after ∧ d.id = id ∧ ∀ d' ∈ after, d'.id ≠ id := by
  have hid := (keyed_ofList ds).id_of_get? h
  rw [get?, ofList, Dict.get?_ofList, ← List.map_reverse, List.find?_map, Option.map_map,
    Option.map_eq_some_iff] at h
  obtain ⟨d', hfind, rfl⟩ := h
  obtain ⟨-, after, before, hds, hafter⟩ := List.find?_eq_some_iff_append.1 hfind
  refine ⟨before.reverse, after.reverse, ?_, hid, fun x hx hxid => ?_⟩
  · rw [← List.reverse_reverse ds, hds]
    simp
  · have hnot := hafter x (List.mem_reverse.1 hx)
    simp [hxid] at hnot

theorem isSome_get?_ofList : ((ofList ds).get? id).isSome ↔ id ∈ ds.map (·.id) := by
  rw [get?, ofList, Dict.isSome_get?_ofList, List.map_map, List.mem_map, List.mem_map]
  simp only [Function.comp_apply, ← CanonicalId.mk.injEq]

/-- The nodes of a graph are the declarations of the files that it is built of: each place has a node under its
id, and each node is what stands at the last place with its id. What a node refers to are nodes, in the order of
their ids, and it is among them exactly if its own path is a name that stands at its place. -/
theorem nodes_of_build (hg : build mode analyses onDisk = .ok g) :
    (∀ file a s, analyses.get? file = some a → s ∈ a.declarations →
      ∃ id d, create mode file s.structuralPath = .ok id ∧ g.get? id = some d) ∧
    ∀ id d, g.get? id = some d → d.id = id ∧ (∀ x ∈ d.references, ∃ d', g.get? x = some d') ∧
      d.references.Pairwise (·.text < ·.text) ∧ ∃ before file s after,
        places analyses = before ++ (file, s) :: after ∧
          (∀ p ∈ after, create mode p.1 p.2.structuralPath ≠ .ok id) ∧
            d.StandsFor mode file s ∧ d.builder = s.builder ∧ d.span = s.span ∧
              (id ∈ d.references ↔ s.structuralPath ∈ s.references) := by
  obtain ⟨ds, hall, rfl⟩ := exists_linked hg
  refine ⟨fun file a s ha hs => ?_, fun id d hd => ?_⟩
  · obtain ⟨d, hd, hlinked⟩ := exists_of_forall₂ hall (mem_places ha hs)
    obtain ⟨d', hd'⟩ := Option.isSome_iff_exists.1 (isSome_get?_ofList.2 (List.mem_map_of_mem hd))
    exact ⟨d.id, d', hlinked.id, hd'⟩
  · obtain ⟨before, after, hds, rfl, hafter⟩ := exists_last_of_get? hd
    obtain ⟨before', p, after', hplaces, hlinked, hrest⟩ := exists_split_of_forall₂ (hds ▸ hall)
    refine ⟨rfl, fun x hx => ?_, hlinked.ascending, before', p.1, p.2, after', hplaces, ?_, hlinked.toStandsFor,
      hlinked.builder, hlinked.span, hlinked.self⟩
    · have hrefers : (ofList ds).Refers d.id x := by
        rw [Refers, dependencies, hd]
        exact hx
      exact hrefers.exists_right hg
    · intro q hq hcreate
      obtain ⟨d', hd', hlinked'⟩ := exists_of_forall₂ hrest hq
      rw [hlinked'.id, Except.ok.injEq] at hcreate
      exact hafter d' hd' hcreate

/-- A file that takes its own declaration `b` back from another one, under the name `me`. It has two declarations at
the path `a`, which mention `a`. -/
def roundabout : Dict Analysis :=
  .ofList
    [("/a.ts", ⟨"/a.ts", [⟨"./index", [⟨"me", "again"⟩], ⟨0, 1, 1, 1⟩⟩], [.named "b" "b"],
      [⟨"a", .fragment, ⟨["fragment"], none, none, []⟩, ["a"], true, none, ⟨2, 3, 1, 3⟩⟩,
        ⟨"b", .slice, ⟨["query", "slice"], none, none, []⟩, ["a", "me"], true, some "b", ⟨4, 5, 1, 5⟩⟩,
        ⟨"a", .slice, ⟨["query", "slice"], none, none, []⟩, ["a", "b"], true, none, ⟨6, 7, 1, 7⟩⟩], []⟩),
      ("/index.ts", ⟨"/index.ts", [], [.reExport "again" "b" "./a"], [], []⟩)]

theorem places_roundabout : (∀ p ∈ places roundabout, create .absolute p.1 p.2.structuralPath = .ok ⟨"/a.ts::a"⟩ →
      p.2.structuralPath ∈ p.2.references) ∧
    ∀ p ∈ places roundabout, create .absolute p.1 p.2.structuralPath = .ok ⟨"/a.ts::b"⟩ →
      p.2.structuralPath ∉ p.2.references := by
  decide +kernel

/-- The slice `b` mentions itself by another name, and does not refer to itself. -/
theorem nodes_roundabout : ∃ g a b, build .absolute roundabout (fun _ => false) = .ok g ∧
    g.get? ⟨"/a.ts::a"⟩ = some a ∧ ⟨"/a.ts::a"⟩ ∈ a.references ∧
      g.get? ⟨"/a.ts::b"⟩ = some b ∧ ⟨"/a.ts::b"⟩ ∉ b.references ∧ ⟨"/a.ts::a"⟩ ∈ b.references := by
  have hfacts : ((build .absolute roundabout fun _ => false).toOption.any fun g =>
      (g.get? ⟨"/a.ts::a"⟩).isSome && (g.get? ⟨"/a.ts::b"⟩).any fun b => ⟨"/a.ts::a"⟩ ∈ b.references) = true := by
    decide +kernel
  simp only [Option.any_eq_true, Bool.and_eq_true, decide_eq_true_eq] at hfacts
  obtain ⟨g, hg, ha, b, hb, hmem⟩ := hfacts
  obtain ⟨a, ha⟩ := Option.isSome_iff_exists.1 ha
  have hbuild := eq_ok_of_toOption hg
  obtain ⟨-, hnodes⟩ := nodes_of_build hbuild
  obtain ⟨hmentioned, hunmentioned⟩ := places_roundabout
  refine ⟨g, a, b, hbuild, ha, ?_, hb, ?_, hmem⟩
  · obtain ⟨hid, -, -, before, file, s, after, hplaces, -, hstands, -, -, hself⟩ := hnodes _ _ ha
    exact hself.2 (hmentioned (file, s) (by simp [hplaces]) (hid ▸ hstands.id))
  · obtain ⟨hid, -, -, before, file, s, after, hplaces, -, hstands, -, -, hself⟩ := hnodes _ _ hb
    exact fun hmem => hunmentioned (file, s) (by simp [hplaces]) (hid ▸ hstands.id) (hself.1 hmem)

end Graph
end StaticGql
