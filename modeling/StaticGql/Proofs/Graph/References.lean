import StaticGql.Proofs.Graph.Declarations
import StaticGql.Proofs.Graph.Exact

/-!
References of a linked graph: every id that a declaration refers to is that of a declaration. Whatever
rules a name is followed by, it ends at ids that the linker has of its files, and each of these ids stands
for a place that is linked as well.
-/

namespace StaticGql

variable {mode : IdMode} {analyses : Dict Analysis} {onDisk : String → Bool} {g : Graph} {l : Linker}
  {file path : String} {a : Analysis} {s : Site} {id x : CanonicalId} {d : Declaration}

namespace Linker

/-! ### Following names -/

/-- The linker has this id of some place. -/
def Knows (l : Linker) (id : CanonicalId) : Prop := ∃ file path, l.declaration? file path = some id

/-- A name that leads to declarations leads to such as the linker knows. -/
def IsKnown (l : Linker) (t : Target) : Prop := ∀ ids, t = .declarations ids → ∀ id ∈ ids, l.Knows id

theorem knows_of_declarationsUnder {localName : String} (h : id ∈ l.declarationsUnder file localName) :
    l.Knows id := by
  rw [declarationsUnder] at h
  split at h
  · rename_i id' hid
    rw [List.mem_singleton.1 h]
    exact ⟨file, localName, hid⟩
  · obtain ⟨⟨path, id'⟩, hmem, rfl⟩ := List.mem_map.1 h
    have hmem := (List.mem_filter.1 hmem).1
    cases hids : l.ids.get? file with
    | none => simp [hids] at hmem
    | some ids =>
        simp only [hids, Option.map_some, Option.getD_some] at hmem
        exact ⟨file, path, by rw [declaration?, hids, Option.bind_some, Dict.mem_toList_iff.1 hmem]⟩

variable {localName source name : String} {t : Target}

theorem Asks.known (h : l.Asks file source name (.ends t)) : l.IsKnown t := by
  cases h with
  | beside => nofun

theorem Denotes.known (h : l.Denotes file localName (.ends t)) : l.IsKnown t := by
  cases h with
  | declarations =>
      intro ids hids id hid
      cases hids
      exact knows_of_declarationsUnder hid
  | outside | bound | foreign => nofun
  | imported _ _ _ _ _ hn => exact hn.known

theorem Resolves.known (h : l.Resolves file name t) : l.IsKnown t := by
  induction h with
  | ends h =>
      cases h with
      | outside | foreign => nofun
      | own _ _ hn => exact hn.known
      | reExported _ _ _ _ _ hn => exact hn.known
      | passedOn _ hn => exact hn.known
  | goes _ _ ih => exact ih

theorem target_known (l : Linker) (file localName : String) : l.IsKnown (l.target file localName) := by
  intro ids htarget
  have hfound : ¬ (l.target file localName).IsMissing := by
    rw [htarget]
    exact not_false
  obtain ⟨n, hn, ht⟩ := (target_exact l file localName).1 hfound
  cases n with
  | ends t =>
      obtain rfl : t = l.target file localName := ht
      exact hn.known ids htarget
  | goes target imported => exact Resolves.known ht ids htarget

/-! ### Linking -/

theorem knows_of_linkSite {ds : List Declaration} (h : l.linkSite file a s = .ok ds) (hd : d ∈ ds)
    (hx : x ∈ d.references) : l.Knows x := by
  rw [linkSite] at h
  split at h
  · cases h
    cases hd
  · obtain ⟨lists, hlists, h⟩ := bind_eq_ok_iff.1 h
    cases h
    rw [List.mem_singleton.1 hd] at hx
    obtain ⟨ids, hids, hmem⟩ := List.mem_flatten.1 (mem_sortedIds_iff.1 hx)
    obtain ⟨name, -, hname⟩ := exists_of_forall₂ (mapM_eq_ok_iff.1 hlists).flip hids
    rw [referenced] at hname
    split at hname
    · rename_i ids' htarget
      cases hname
      exact target_known l file name ids' htarget x (List.mem_of_mem_filter hmem)
    · cases hname
      cases hmem
    · cases hname
      cases hmem
    · cases hname

/-- Every id that a linker knows is that of a site of one of its files. -/
theorem exists_site_of_knows (h : create mode analyses onDisk = .ok l) (hid : l.Knows id) :
    ∃ file a s, analyses.get? file = some a ∧ s ∈ a.declarations ∧
      l.declaration? file s.structuralPath = some id := by
  obtain ⟨file, path, hid⟩ := hid
  obtain ⟨m, hm, rfl⟩ := map_eq_ok_iff.1 h
  obtain ⟨ids, hids, hpath⟩ := Option.bind_eq_some_iff.1 hid
  obtain ⟨⟨file', a⟩, ha, hfile⟩ :=
    exists_of_forall₂ (mapM_eq_ok_iff.1 hm).flip (Dict.mem_of_get?_ofList hids)
  obtain ⟨ids', hids', hpair⟩ := map_eq_ok_iff.1 hfile
  cases hpair
  obtain ⟨q, hq, rfl⟩ := map_eq_ok_iff.1 hids'
  obtain ⟨s, hs, hsite⟩ := exists_of_forall₂ (mapM_eq_ok_iff.1 hq).flip (Dict.mem_of_get?_ofList hpath)
  obtain ⟨id', -, hpair⟩ := map_eq_ok_iff.1 hsite
  cases hpair
  exact ⟨file, a, s, Dict.mem_toList_iff.1 ha, hs, hid⟩

theorem exists_linked (h : l.declaration? file s.structuralPath = some id) (hs : s ∈ a.declarations)
    {ds : List Declaration} (hds : l.linkFile file a = .ok ds) : ∃ d ∈ ds, d.id = id := by
  obtain ⟨parts, hparts, rfl⟩ := map_eq_ok_iff.1 hds
  obtain ⟨part, hpart, hsite⟩ := exists_of_forall₂ (mapM_eq_ok_iff.1 hparts) hs
  rw [linkSite, h] at hsite
  obtain ⟨lists, -, hsite⟩ := bind_eq_ok_iff.1 hsite
  cases hsite
  exact ⟨_, List.mem_flatten_of_mem hpart (List.mem_singleton_self _), rfl⟩

end Linker

namespace Graph

/-- The first id is that of a declaration that refers to the second. -/
def Refers (g : Graph) (a b : CanonicalId) : Prop := b ∈ g.dependencies a

theorem Refers.exists_left (h : g.Refers id x) : ∃ d, g.get? id = some d ∧ x ∈ d.references := by
  rw [Refers, dependencies] at h
  cases hd : g.get? id with
  | none => simp [hd] at h
  | some d => exact ⟨d, rfl, by simpa [hd] using h⟩

/-- Whatever a declaration of a built graph refers to is declared. -/
theorem Refers.exists_right (hg : build mode analyses onDisk = .ok g) (h : g.Refers id x) :
    ∃ d, g.get? x = some d := by
  obtain ⟨d, hd, hx⟩ := h.exists_left
  obtain ⟨l, hl, hg⟩ := bind_eq_ok_iff.1 hg
  obtain ⟨files, hfiles, hg⟩ := bind_eq_ok_iff.1 hg
  cases hg
  have hl := mapError_eq_ok_iff.1 hl
  have hfiles := mapM_eq_ok_iff.1 hfiles
  have hmem : d ∈ files.flatten := by
    obtain ⟨d', hd', he⟩ := List.mem_map.1 (Dict.mem_of_get?_ofList hd)
    exact (Prod.mk.inj he).2 ▸ hd'
  obtain ⟨ds, hds, hmem⟩ := List.mem_flatten.1 hmem
  obtain ⟨q, -, hlinked⟩ := exists_of_forall₂ hfiles.flip hds
  obtain ⟨parts, hparts, rfl⟩ := map_eq_ok_iff.1 hlinked
  obtain ⟨part, hpart, hmem⟩ := List.mem_flatten.1 hmem
  obtain ⟨s, -, hsite⟩ := exists_of_forall₂ (mapM_eq_ok_iff.1 hparts).flip hpart
  obtain ⟨file, a, s', ha, hs', hdeclaration⟩ :=
    Linker.exists_site_of_knows hl (Linker.knows_of_linkSite hsite hmem hx)
  obtain ⟨ds', hds', hfile⟩ := exists_of_forall₂ hfiles (Dict.mem_toList_iff.2 ha)
  obtain ⟨d', hd', rfl⟩ := Linker.exists_linked hdeclaration hs' hfile
  refine Option.isSome_iff_exists.1 (Dict.isSome_get?_ofList.2 ?_)
  rw [List.map_map]
  exact List.mem_map.2 ⟨d', List.mem_flatten_of_mem hds' hd', rfl⟩

end Graph
end StaticGql
