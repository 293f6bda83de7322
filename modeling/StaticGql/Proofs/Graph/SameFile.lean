import StaticGql.Proofs.Analysis.Sites
import StaticGql.Proofs.Graph.Declarations
import StaticGql.Scan.Walk

/-!
References within a file. A name leads to the declaration whose path it is; where no declaration has it for its
path, it leads to all that were recorded under it.
-/

namespace StaticGql

open CanonicalId (create)

variable {mode : IdMode} {analyses : Dict Analysis} {onDisk : String → Bool} {g : Graph} {l : Linker}
  {marker : Marker} {file text localName name : String} {names : List String} {a : Analysis} {s : Site}
  {id : CanonicalId} {d : Declaration}

/-! ### The declarations under a name -/

namespace Linker

section

variable (hl : Linker.create mode analyses onDisk = .ok l) (ha : analyses.get? file = some a)
include hl ha

theorem declaration?_of_site (hs : s ∈ a.declarations) (hid : CanonicalId.create mode file s.structuralPath = .ok id) :
    l.declaration? file s.structuralPath = some id := by
  obtain ⟨ids, hget, hids⟩ := create_spec hl ha
  obtain ⟨hsome, hnone⟩ := get?_idsOf hids s.structuralPath
  rw [declaration?, hget, Option.bind_some]
  cases hpath : ids.get? s.structuralPath with
  | none => exact absurd (List.mem_map_of_mem hs) (hnone hpath)
  | some id' =>
      cases hid.symm.trans (hsome id' hpath)
      rfl

theorem declaration?_eq_none (hnot : ∀ s ∈ a.declarations, s.structuralPath ≠ localName) :
    l.declaration? file localName = none := by
  obtain ⟨ids, hget, hids⟩ := create_spec hl ha
  obtain ⟨q, hq, rfl⟩ := map_eq_ok_iff.1 hids
  rw [declaration?, hget, Option.bind_some]
  by_contra hsome
  obtain ⟨id, hid⟩ := Option.ne_none_iff_exists'.1 hsome
  obtain ⟨s, hs, hsite⟩ := exists_of_forall₂ (mapM_eq_ok_iff.1 hq).flip (Dict.mem_of_get?_ofList hid)
  obtain ⟨_, -, hpair⟩ := map_eq_ok_iff.1 hsite
  exact hnot s hs (Prod.mk.inj hpair).1

theorem mem_declarationsUnder (hs : s ∈ a.declarations) (hid : CanonicalId.create mode file s.structuralPath = .ok id)
    (hunder : s.structuralPath = localName ∨ (∀ s' ∈ a.declarations, s'.structuralPath ≠ localName) ∧
      s.structuralPath.startsWith (localName ++ ".") = true) : id ∈ l.declarationsUnder file localName := by
  have hdeclared := declaration?_of_site hl ha hs hid
  rw [declarationsUnder]
  rcases hunder with rfl | ⟨hnot, hinside⟩
  · rw [hdeclared]
    exact List.mem_singleton_self id
  · rw [declaration?_eq_none hl ha hnot]
    obtain ⟨ids, hget, hpath⟩ := Option.bind_eq_some_iff.1 hdeclared
    rw [hget]
    refine List.mem_map.2 ⟨(s.structuralPath, id), List.mem_filter.2 ⟨?_, hinside⟩, rfl⟩
    exact Dict.mem_toList_iff.2 hpath

end

theorem target_of_under (h : l.declarationsUnder file localName ≠ []) :
    l.target file localName = .declarations (l.declarationsUnder file localName) := by
  rw [target, localTarget, if_pos (by simpa using h)]

/-- A declaration refers to all other declarations under a name that its call mentions. -/
theorem mem_references_of_linkSite {ds : List Declaration} (h : l.linkSite file a s = .ok ds) (hd : d ∈ ds)
    (hname : localName ∈ s.references) (hid : id ∈ l.declarationsUnder file localName) (hother : id ≠ d.id) :
    id ∈ d.references := by
  rw [linkSite] at h
  split at h
  · cases h
    cases hd
  · rename_i self hself
    obtain ⟨lists, hlists, h⟩ := bind_eq_ok_iff.1 h
    cases h
    obtain rfl := List.mem_singleton.1 hd
    obtain ⟨ids, hids, hreferenced⟩ := exists_of_forall₂ (mapM_eq_ok_iff.1 hlists) hname
    rw [referenced, target_of_under (List.ne_nil_of_mem hid)] at hreferenced
    cases hreferenced
    refine mem_sortedIds_iff.2 (List.mem_flatten_of_mem hids (List.mem_filter.2 ⟨hid, ?_⟩))
    simpa using .inl hother

end Linker

/-! ### What is recorded in a text -/

/-- The declarations that the scanner finds in a text, each with the names under which it was recorded. -/
def Scan.recorded (marker : Marker) (text : String) : Except Nat (List (List String × Site)) :=
  (forest text).map fun f => Analysis.recorded marker text (Clause.imports (f.length + 1) f) (Walk.events f)

theorem Scan.exists_recorded (h : analyze marker file text = .ok a) :
    ∃ found, recorded marker text = .ok found ∧ a.declarations = found.map (·.2) := by
  obtain ⟨f, hf, rfl⟩ := map_eq_ok_iff.1 h
  exact ⟨_, map_eq_ok_iff.2 ⟨f, hf, rfl⟩, Analysis.declarations_ofEvents ..⟩

theorem Trail.startsWith_numbered (name inner : String) (names : List String) (n : Nat) :
    (numbered (".".intercalate (name :: inner :: names)) n).startsWith (name ++ ".") = true := by
  rw [String.startsWith_string_iff]
  refine List.IsPrefix.trans ?_ (prefix_numbered _ n)
  rw [String.toList_append, String.toList_intercalate, List.map_cons, List.map_cons, List.intercalate_cons_cons]
  exact List.prefix_append _ _

/-- The path of what is recorded under a name begins with it, unless a declaration has the name for its path. -/
theorem Scan.startsWith_of_recorded {found : List (List String × Site)} (hfound : recorded marker text = .ok found)
    (hmem : (name :: names, s) ∈ found) (hnot : ∀ p ∈ found, p.2.structuralPath ≠ name) :
    s.structuralPath.startsWith (name ++ ".") = true := by
  obtain ⟨f, -, rfl⟩ := map_eq_ok_iff.1 hfound
  obtain ⟨⟨n, hpath⟩, p, hp, hfirst⟩ := Analysis.recorded_spec hmem
  cases names with
  | nil => exact absurd hfirst (by simpa using hnot p hp)
  | cons inner rest =>
      rw [hpath]
      exact Trail.startsWith_numbered name inner rest n

/-! ### References -/

theorem Linker.exists_site_of_linkFile {ds : List Declaration} (h : l.linkFile file a = .ok ds) (hd : d ∈ ds) :
    ∃ s ∈ a.declarations, ∃ ds', l.linkSite file a s = .ok ds' ∧ d ∈ ds' := by
  obtain ⟨parts, hparts, rfl⟩ := map_eq_ok_iff.1 h
  obtain ⟨part, hpart, hd⟩ := List.mem_flatten.1 hd
  obtain ⟨s, hs, hsite⟩ := exists_of_forall₂ (mapM_eq_ok_iff.1 hparts).flip hpart
  exact ⟨s, hs, part, hsite, hd⟩

theorem Linker.file_of_linkSite {ds : List Declaration} (h : l.linkSite file a s = .ok ds) (hd : d ∈ ds) :
    d.file = file ∧ d.kind = s.kind ∧ d.builder = s.builder ∧ d.span = s.span := by
  rw [linkSite] at h
  split at h
  · cases h
    cases hd
  · obtain ⟨lists, -, h⟩ := bind_eq_ok_iff.1 h
    cases h
    obtain rfl := List.mem_singleton.1 hd
    exact ⟨rfl, rfl, rfl, rfl⟩

/-- A declaration of a file is linked from a site of its analysis. -/
theorem Graph.exists_site (hg : Graph.build mode analyses onDisk = .ok g) (ha : analyses.get? file = some a)
    (hd : d ∈ g.declarationsIn file) : ∃ l s ds, Linker.create mode analyses onDisk = .ok l ∧
      s ∈ a.declarations ∧ l.linkSite file a s = .ok ds ∧ d ∈ ds := by
  obtain ⟨l, parts, hl, hparts, rfl⟩ := build_eq_ok_iff.1 hg
  obtain ⟨⟨k, hk⟩, hfile⟩ := mem_declarationsIn.1 hd
  obtain ⟨d', hmem, hpair⟩ := List.mem_map.1 (Dict.mem_of_get?_ofList hk)
  obtain rfl : d' = d := (Prod.mk.inj hpair).2
  obtain ⟨part, hpart, hlinked⟩ := List.mem_flatten.1 hmem
  obtain ⟨e, he, hpart⟩ := exists_of_forall₂ (mapM_eq_ok_iff.1 hparts).flip hpart
  obtain ⟨s, hs, ds, hsite, hds⟩ := Linker.exists_site_of_linkFile hpart hlinked
  obtain rfl : e.1 = file := (Linker.file_of_linkSite hsite hds).1.symm.trans hfile
  have hsame : e.2 = a := Option.some.inj ((Dict.mem_toList_iff.1 he).symm.trans ha)
  exact ⟨l, s, ds, hl, hsame ▸ hs, hsame ▸ hsite, hds⟩

/-- A declaration of a scanned file that mentions a name refers to every other declaration that was recorded under
this name, as long as no declaration has the name for its path; and it refers to the one that has. -/
theorem Graph.references_recorded (h : Scan.analyze marker file text = .ok a) (ha : analyses.get? file = some a)
    (hg : Graph.build mode analyses onDisk = .ok g) : ∃ found, Scan.recorded marker text = .ok found ∧
      a.declarations = found.map (·.2) ∧ ∀ d ∈ g.declarationsIn file, ∃ site ∈ a.declarations,
        d.StandsFor mode file site ∧ d.span = site.span ∧ ∀ localName ∈ site.references, ∀ s ∈ a.declarations, ∀ id,
          create mode file s.structuralPath = .ok id → id ≠ d.id →
            s.structuralPath = localName ∨ (∀ s' ∈ a.declarations, s'.structuralPath ≠ localName) ∧
              (∃ names, (localName :: names, s) ∈ found) → id ∈ d.references := by
  obtain ⟨found, hfound, hdeclarations⟩ := Scan.exists_recorded h
  refine ⟨found, hfound, hdeclarations, fun d hd => ?_⟩
  obtain ⟨l, site, ds, hl, hsite, hlinked, hd⟩ := exists_site hg ha hd
  obtain ⟨d', hds, hstands⟩ := Linker.linkSite_spec hl ha hsite hlinked
  obtain rfl : d = d' := List.mem_singleton.1 (hds ▸ hd)
  refine ⟨site, hsite, hstands, (Linker.file_of_linkSite hlinked hd).2.2.2, ?_⟩
  intro localName hname s hs id hid hother hunder
  refine Linker.mem_references_of_linkSite hlinked hd hname (Linker.mem_declarationsUnder hl ha hs hid ?_) hother
  rcases hunder with hpath | ⟨hnot, names, hmem⟩
  · exact .inl hpath
  · refine .inr ⟨hnot, Scan.startsWith_of_recorded hfound hmem fun p hp => hnot p.2 ?_⟩
    rw [hdeclarations]
    exact List.mem_map_of_mem hp

/-- Declarations in fields of an object, two of them in one field. -/
def nested : String := "const a = \x7b b: gql.x(() => query.slice(\x7b\x7d)), c: [gql.x(() => query.slice(\x7b\x7d)), " ++
  "gql.x(() => query.slice(\x7b\x7d))] \x7d; const q = gql.x(() => query.operation(\x7b\x7d, a));"

theorem Graph.references_nested : ∃ a g, Scan.analyze .standard "/a.ts" nested = .ok a ∧
    Graph.build .absolute (.ofList [("/a.ts", a)]) (fun _ => false) = .ok g ∧
      ∃ d ∈ g.declarationsIn "/a.ts", d.id = ⟨"/a.ts::q"⟩ ∧ ⟨"/a.ts::a.c$1"⟩ ∈ d.references := by
  have hfacts : ((Scan.analyze .standard "/a.ts" nested).toOption.any fun a =>
      (Scan.recorded .standard nested).toOption.any fun found =>
        (Graph.build .absolute (.ofList [("/a.ts", a)]) fun _ => false).toOption.any fun g =>
          (g.declarationsIn "/a.ts").any fun d => found.any fun p =>
            d.id = ⟨"/a.ts::q"⟩ ∧ p.1 = ["a", "c"] ∧
              create .absolute "/a.ts" p.2.structuralPath = .ok ⟨"/a.ts::a.c$1"⟩ ∧
              (∀ site ∈ a.declarations, create .absolute "/a.ts" site.structuralPath = .ok ⟨"/a.ts::q"⟩ →
                "a" ∈ site.references) ∧ ∀ site ∈ a.declarations, site.structuralPath ≠ "a") = true := by
    decide +kernel
  simp only [Option.any_eq_true, List.any_eq_true, decide_eq_true_eq] at hfacts
  obtain ⟨a, ha, found, hfound, g, hg, d, hd, ⟨names, s⟩, hs, hq, rfl, hid, hmentions, hnot⟩ := hfacts
  have hanalyze := eq_ok_of_toOption ha
  have hbuild := eq_ok_of_toOption hg
  have hget : (Dict.ofList [("/a.ts", a)]).get? "/a.ts" = some a := rfl
  obtain ⟨found', hfound', hdeclarations, hall⟩ := Graph.references_recorded hanalyze hget hbuild
  cases (eq_ok_of_toOption hfound).symm.trans hfound'
  obtain ⟨site, hsite, hstands, -, hreferences⟩ := hall d hd
  refine ⟨a, g, hanalyze, hbuild, d, hd, hq, hreferences "a" (hmentions site hsite (hq ▸ hstands.id)) s ?_ _ hid ?_ ?_⟩
  · rw [hdeclarations]
    exact List.mem_map_of_mem hs
  · rw [hq]
    decide
  · exact .inr ⟨hnot, ["c"], hs⟩

/-- Two declarations in one value. -/
def repeated : String := "const a = [gql.x(() => query.slice(\x7b\x7d)), gql.x(() => query.slice(\x7b\x7d))]; " ++
  "const q = gql.x(() => query.operation(\x7b\x7d, a));"

/-- The first one has the name for its path, and so the second one is not referred to. -/
theorem Graph.not_references_repeated : ∃ a found g, Scan.analyze .standard "/a.ts" repeated = .ok a ∧
    Scan.recorded .standard repeated = .ok found ∧
      Graph.build .absolute (.ofList [("/a.ts", a)]) (fun _ => false) = .ok g ∧
      ∃ d ∈ g.declarationsIn "/a.ts", ∃ site ∈ a.declarations, d.StandsFor .absolute "/a.ts" site ∧
        "a" ∈ site.references ∧ ∃ s id, (["a"], s) ∈ found ∧ s ∈ a.declarations ∧
          create .absolute "/a.ts" s.structuralPath = .ok id ∧ id ≠ d.id ∧ id ∉ d.references := by
  have hfacts : ((Scan.analyze .standard "/a.ts" repeated).toOption.any fun a =>
      (Scan.recorded .standard repeated).toOption.any fun found =>
        (Graph.build .absolute (.ofList [("/a.ts", a)]) fun _ => false).toOption.any fun g =>
          (g.declarationsIn "/a.ts").any fun d => a.declarations.any fun site => found.any fun p =>
            create .absolute "/a.ts" site.structuralPath = .ok d.id ∧ d.kind = site.kind ∧ d.file = "/a.ts" ∧
              "a" ∈ site.references ∧ p.1 = ["a"] ∧
              create .absolute "/a.ts" p.2.structuralPath = .ok ⟨"/a.ts::a$1"⟩ ∧ ⟨"/a.ts::a$1"⟩ ≠ d.id ∧
              ⟨"/a.ts::a$1"⟩ ∉ d.references) = true := by
    decide +kernel
  simp only [Option.any_eq_true, List.any_eq_true, decide_eq_true_eq] at hfacts
  obtain ⟨a, ha, found, hfound, g, hg, d, hd, site, hsite, ⟨names, s⟩, hs, hcreate, hkind, hfile, hmentions, rfl, hid,
    hother, hnot⟩ := hfacts
  have hanalyze := eq_ok_of_toOption ha
  obtain ⟨found', hfound', hdeclarations⟩ := Scan.exists_recorded hanalyze
  cases (eq_ok_of_toOption hfound).symm.trans hfound'
  refine ⟨a, found, g, hanalyze, hfound', eq_ok_of_toOption hg, d, hd, site, hsite, ⟨hcreate, hkind, hfile⟩, hmentions,
    s, _, hs, ?_, hid, hother, hnot⟩
  rw [hdeclarations]
  exact List.mem_map_of_mem hs

end StaticGql
