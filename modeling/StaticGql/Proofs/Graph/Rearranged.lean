import StaticGql.Proofs.Dict
import StaticGql.Proofs.Graph.Declarations
import StaticGql.Proofs.Graph.Reordered

/-!
Rearranging what a file passes all on. Whether the analyses link does not depend on the order. Nor do the references
of any declaration, as long as no two of the analysed files that are passed on offer a name that is looked up, and
none offers declarations under such a name beside a file that is not analysed.
-/

namespace StaticGql

variable {mode : IdMode} {analyses : Dict Analysis} {onDisk : String → Bool} {file other localName name : String}
  {a b : Analysis} {exports exports' : List Export} {l l' : Linker} {s : Site} {id : CanonicalId}

def Export.passesAll : Export → Bool
  | .reExportAll _ => true
  | .named .. | .reExport .. => false

/-- The same exports, of which only those that pass all on have moved. -/
structure Rearranges (exports exports' : List Export) : Prop where
  perm : exports.Perm exports'
  others : exports.filter (!·.passesAll) = exports'.filter (!·.passesAll)

theorem filterMap_filter_passesAll {β : Type} {f : Export → Option β} (hf : ∀ source, f (.reExportAll source) = none)
    (exports : List Export) : (exports.filter (!·.passesAll)).filterMap f = exports.filterMap f := by
  rw [List.filterMap_filter]
  congr 1
  funext e
  cases e with
  | reExportAll source => exact (hf source).symm
  | named | reExport => rfl

theorem Rearranges.filterMap_eq {β : Type} {f : Export → Option β} (h : Rearranges exports exports')
    (hf : ∀ source, f (.reExportAll source) = none) : exports.filterMap f = exports'.filterMap f := by
  rw [← filterMap_filter_passesAll hf exports, h.others, filterMap_filter_passesAll hf]

theorem Rearranges.findSome?_eq {β : Type} {f : Export → Option β} (h : Rearranges exports exports')
    (hf : ∀ source, f (.reExportAll source) = none) : exports.findSome? f = exports'.findSome? f := by
  rw [← List.head?_filterMap, h.filterMap_eq hf, List.head?_filterMap]

namespace Linker

/-- The linker with other exports of a file. -/
def withExports (l : Linker) (file : String) (exports : List Export) : Linker :=
  { l with analyses := l.analyses.modify file fun a => { a with exports := exports } }

section

variable (ha : l.analyses.get? file = some a) (h : Rearranges a.exports exports)
include ha h

theorem reordered_withExports : Reordered l (l.withExports file exports) file := by
  have hget : ∀ other, (l.withExports file exports).analyses.get? other =
      if other = file then (l.analyses.get? other).map fun a => { a with exports := exports }
      else l.analyses.get? other := fun other => Dict.get?_modify ..
  have hcontains : (l.withExports file exports).analyses.contains = l.analyses.contains := by
    funext path
    exact Dict.contains_map ..
  have htargets : ∀ other source, l.targetFile other source = (l.withExports file exports).targetFile other source := by
    intro other source
    rw [targetFile, targetFile, hcontains]
    rfl
  refine ⟨fun other => ⟨fun _ => rfl, fun _ source _ _ => htargets other source, ?_⟩, htargets,
    fun other b b' hb hb' source => ?_, fun other b b' hother hb hb' => ?_⟩
  · rw [hget]
    by_cases hother : other = file
    · subst hother
      rw [if_pos rfl, ha]
      exact .some ⟨fun _ => rfl, fun _ => h.findSome?_eq fun _ => rfl, fun _ => h.findSome?_eq fun _ => rfl⟩
    · rw [if_neg hother]
      exact (SameBut.refl l other).analysis
  · rw [hget] at hb'
    by_cases hother : other = file
    · subst hother
      rw [if_pos rfl, ha] at hb'
      obtain rfl : a = b := by simpa [ha] using hb
      cases hb'
      exact ((h.perm.filterMap _).filter _).symm.mem_iff
    · rw [if_neg hother, hb] at hb'
      cases hb'
      exact Iff.rfl
  · rw [hget, if_neg hother, hb] at hb'
    cases hb'
    rfl

theorem exportBound_withExports : (l.withExports file exports).exportBound = l.exportBound := by
  have hasked : (l.withExports file exports).askedNames = l.askedNames := by
    rw [askedNames, askedNames, withExports, Dict.values, Dict.values, Dict.modify, Dict.map, List.map_map,
      List.flatMap_map, List.flatMap_map]
    refine List.flatMap_congr fun e he => ?_
    by_cases hfile : e.1 = file
    · have hget : l.analyses.get? file = some e.2 := Dict.mem_toList_iff.1 (hfile ▸ he)
      obtain rfl : a = e.2 := by simpa [ha] using hget
      simp only [Function.comp_apply, if_pos hfile]
      exact congrArg _ (h.filterMap_eq fun _ => rfl).symm
    · simp only [Function.comp_apply, if_neg hfile]
  rw [exportBound, exportBound, hasked, withExports, Dict.modify, Dict.size_map]

end

theorem analyses_of_create (h : create mode analyses onDisk = .ok l) : l.analyses = analyses := by
  obtain ⟨ids, -, rfl⟩ := map_eq_ok_iff.1 h
  rfl

theorem create_modify (mode : IdMode) (analyses : Dict Analysis) (onDisk : String → Bool) (file : String)
    (exports : List Export) : create mode (analyses.modify file fun a => { a with exports := exports }) onDisk =
      (create mode analyses onDisk).map fun l => l.withExports file exports := by
  refine create_map (fun other a => ?_) analyses onDisk
  by_cases hother : other = file
  · rw [if_pos hother]
    rfl
  · rw [if_neg hother]

/-! ### Linking for both -/

theorem referenced_eq_ok_iff {ids : List CanonicalId} : l.referenced b other s id localName = .ok ids ↔
    ¬ (l.target other localName).IsMissing ∧
      (l.target other localName).ids.filter (fun t => t ≠ id || s.structuralPath = localName) = ids := by
  rw [referenced]
  cases l.target other localName with
  | declarations | value | outside => simp [Target.IsMissing, Target.ids]
  | missing reason =>
      constructor
      · intro h
        cases h
      · intro h
        exact absurd trivial h.1

/-- Lists that are worked through with the same success, and with the same results under a condition. -/
theorem exists_mapM_strict {ε α α' β : Type} {R : α → α' → Prop} {strict : Prop} {f : α → Except ε β}
    (f' : α' → Except ε β) {xs : List α} {xs' : List α'} {m : List β} (hlists : List.Forall₂ R xs xs')
    (hm : xs.mapM f = .ok m) (h : ∀ x x' y, R x x' → f x = .ok y → ∃ y', f' x' = .ok y' ∧ (strict → y' = y)) :
    ∃ m', xs'.mapM f' = .ok m' ∧ (strict → m' = m) := by
  obtain ⟨m', hm', hall⟩ := exists_mapM_of_forall₂ hlists hm h
  refine ⟨m', hm', fun hstrict => ?_⟩
  have heq : List.Forall₂ (· = ·) m m' := hall.imp fun _ _ hy => (hy hstrict).symm
  rw [List.forall₂_eq_eq_eq] at heq
  exact heq.symm

section

variable (h : Reordered l l' file) (hids : l'.ids = l.ids) (strict : Prop)
include h hids

theorem Reordered.linkSite {b' : Analysis} {ds : List Declaration}
    (hsame : strict → ∀ localName ∈ s.references, (l'.target other localName).ids = (l.target other localName).ids)
    (hd : l.linkSite other b s = .ok ds) : ∃ ds', l'.linkSite other b' s = .ok ds' ∧ (strict → ds' = ds) := by
  have hdeclaration : l'.declaration? other s.structuralPath = l.declaration? other s.structuralPath := by
    rw [declaration?, declaration?, hids]
  rw [Linker.linkSite] at hd ⊢
  rw [hdeclaration]
  cases hid : l.declaration? other s.structuralPath with
  | none =>
      rw [hid] at hd
      exact ⟨ds, hd, fun _ => rfl⟩
  | some id =>
      rw [hid] at hd
      obtain ⟨lists, hlists, hd⟩ := bind_eq_ok_iff.1 hd
      have hmembers : List.Forall₂ (fun x x' => x ∈ s.references ∧ x' = x) s.references s.references :=
        List.forall₂_same.2 fun _ hx => ⟨hx, rfl⟩
      obtain ⟨lists', hlists', heq⟩ := exists_mapM_strict (l'.referenced b' other s id) hmembers hlists <| by
        rintro localName _ ids ⟨hmem, rfl⟩ hreferenced
        obtain ⟨hfound, hfilter⟩ := referenced_eq_ok_iff.1 hreferenced
        refine ⟨_, referenced_eq_ok_iff.2 ⟨fun hmissing => hfound (h.symm.isMissing_target hmissing), rfl⟩, ?_⟩
        intro hstrict
        rw [hsame hstrict _ hmem]
        exact hfilter
      refine ⟨_, bind_eq_ok_iff.2 ⟨lists', hlists', rfl⟩, fun hstrict => ?_⟩
      cases hd
      rw [heq hstrict]

theorem Reordered.linkFiles {files files' : List (String × Analysis)} {ds : List (List Declaration)}
    (hfiles : List.Forall₂ (fun e e' => e ∈ files ∧ e'.1 = e.1 ∧ e'.2.declarations = e.2.declarations) files files')
    (hsame : strict → ∀ e ∈ files, ∀ s ∈ e.2.declarations, ∀ localName ∈ s.references,
      (l'.target e.1 localName).ids = (l.target e.1 localName).ids)
    (hd : files.mapM (fun e => l.linkFile e.1 e.2) = .ok ds) :
    ∃ ds', files'.mapM (fun e => l'.linkFile e.1 e.2) = .ok ds' ∧ (strict → ds' = ds) := by
  refine exists_mapM_strict (fun e => l'.linkFile e.1 e.2) hfiles hd ?_
  rintro e ⟨_, b'⟩ linked ⟨hmem, rfl, hdeclarations⟩ hlinked
  obtain ⟨parts, hparts, rfl⟩ := map_eq_ok_iff.1 hlinked
  have hmembers : List.Forall₂ (fun x x' => x ∈ e.2.declarations ∧ x' = x) e.2.declarations b'.declarations := by
    rw [hdeclarations]
    exact List.forall₂_same.2 fun _ hx => ⟨hx, rfl⟩
  obtain ⟨parts', hparts', heq⟩ := exists_mapM_strict (l'.linkSite e.1 b') hmembers hparts <| by
    rintro s _ linked ⟨hs, rfl⟩ hlinked
    exact h.linkSite hids strict (fun hstrict => hsame hstrict e hmem _ hs) hlinked
  exact ⟨parts'.flatten, map_eq_ok_iff.2 ⟨parts', hparts', rfl⟩, fun hstrict => by rw [heq hstrict]⟩

end

/-- A name that the references of the declarations make the linker look up in a file. -/
def LooksUp (l : Linker) (file name : String) : Prop :=
  ∃ other b s localName, l.analyses.get? other = some b ∧ s ∈ b.declarations ∧ localName ∈ s.references ∧
    (file, name) ∈ l.lookups other localName

end Linker

theorem declarations_ite (c : Prop) [Decidable c] (b : Analysis) :
    (if c then { b with exports := exports } else b).declarations = b.declarations := by
  by_cases hc : c
  · rw [if_pos hc]
  · rw [if_neg hc]

namespace Graph

variable {g : Graph}

section

variable (ha : analyses.get? file = some a) (h : Rearranges a.exports exports)
include ha h

theorem exists_build_modify (strict : Prop) (hall : strict → ∀ l, Linker.create mode analyses onDisk = .ok l →
      ∀ name, l.LooksUp file name → l.Unambiguous file name ∧ l.NotBeside file name)
    (hg : build mode analyses onDisk = .ok g) :
    ∃ g', build mode (analyses.modify file fun a => { a with exports := exports }) onDisk = .ok g' ∧
      (strict → g' = g) := by
  obtain ⟨l, ds, hl, hds, rfl⟩ := build_eq_ok_iff.1 hg
  have hanalyses : l.analyses = analyses := Linker.analyses_of_create hl
  have hget : l.analyses.get? file = some a := hanalyses ▸ ha
  have hfiles : List.Forall₂ (fun e e' => e ∈ analyses.toList ∧ e'.1 = e.1 ∧ e'.2.declarations = e.2.declarations)
      analyses.toList (analyses.modify file fun a => { a with exports := exports }).toList := by
    exact List.forall₂_map_right_iff.2 (List.forall₂_same.2 fun e he => ⟨he, rfl, declarations_ite _ e.2⟩)
  obtain ⟨ds', hds', heq⟩ := (Linker.reordered_withExports hget h).linkFiles rfl strict hfiles
    (fun hstrict e he s hs localName hname => (Linker.reordered_withExports hget h).ids_target
      (Linker.exportBound_withExports hget h) fun n hn => hall hstrict l hl n
        ⟨e.1, e.2, s, localName, hanalyses ▸ Dict.mem_toList_iff.1 he, hs, hname, hn⟩) hds
  refine ⟨ofList ds'.flatten, build_eq_ok_iff.2 ⟨l.withExports file exports, ds', ?_, hds', rfl⟩, fun hstrict => ?_⟩
  · rw [Linker.create_modify, hl]
    rfl
  · rw [heq hstrict]

theorem exists_build_of_modify
    (hg : build mode (analyses.modify file fun a => { a with exports := exports }) onDisk = .ok g) :
    ∃ g', build mode analyses onDisk = .ok g' := by
  obtain ⟨l', ds, hl', hds, -⟩ := build_eq_ok_iff.1 hg
  rw [Linker.create_modify] at hl'
  obtain ⟨l, hl, rfl⟩ := map_eq_ok_iff.1 hl'
  have hget : l.analyses.get? file = some a := Linker.analyses_of_create hl ▸ ha
  have hfiles : List.Forall₂ (fun e e' => e ∈ (analyses.modify file fun a => { a with exports := exports }).toList ∧
      e'.1 = e.1 ∧ e'.2.declarations = e.2.declarations)
      (analyses.modify file fun a => { a with exports := exports }).toList analyses.toList := by
    exact List.forall₂_map_left_iff.2 (List.forall₂_same.2 fun e he =>
      ⟨List.mem_map_of_mem he, rfl, (declarations_ite _ e.2).symm⟩)
  obtain ⟨ds', hds', -⟩ := (Linker.reordered_withExports hget h).symm.linkFiles rfl False hfiles
    False.elim hds
  exact ⟨_, build_eq_ok_iff.2 ⟨l, ds', hl, hds', rfl⟩⟩

/-- However the entries of a file that pass all on are rearranged, the analyses link or do not link as before. They
give the same graph if, for each name that is looked up in the file, one analysed source at most offers it, and none
offers declarations under it while another source is a file that is not analysed. -/
theorem build_rearranged (mode : IdMode) (onDisk : String → Bool) :
    ((∃ g, build mode (analyses.modify file fun a => { a with exports := exports }) onDisk = .ok g) ↔
        ∃ g, build mode analyses onDisk = .ok g) ∧
      ((∀ l, Linker.create mode analyses onDisk = .ok l → ∀ name, l.LooksUp file name →
          l.Unambiguous file name ∧ l.NotBeside file name) →
        ∀ g, build mode (analyses.modify file fun a => { a with exports := exports }) onDisk = .ok g ↔
          build mode analyses onDisk = .ok g) := by
  constructor
  · constructor
    · rintro ⟨g, hg⟩
      exact exists_build_of_modify ha h hg
    · rintro ⟨g, hg⟩
      obtain ⟨g', hg', -⟩ := exists_build_modify ha h False False.elim hg
      exact ⟨g', hg'⟩
  · intro hall g
    have hsame : ∀ g, build mode analyses onDisk = .ok g →
        build mode (analyses.modify file fun a => { a with exports := exports }) onDisk = .ok g := by
      intro g hg
      obtain ⟨g', hg', heq⟩ := exists_build_modify ha h True (fun _ => hall) hg
      rw [hg', heq trivial]
    constructor
    · intro hg
      obtain ⟨g', hg'⟩ := exists_build_of_modify ha h hg
      rw [hg', ← hg, hsame g' hg']
    · exact hsame g

end

variable {generated : Bool} {source : String}

/-- A page that refers to a slice through an index, which passes all on of three sources. -/
def barrel : Dict Analysis := .ofList
  [("/index.ts", { Analysis.empty "/index.ts" with
      exports := [.reExportAll "./other", .reExportAll "./generated", .reExportAll "./user"] }),
   ("/other.ts", { Analysis.empty "/other.ts" with exports := [.named "otherSlice" "otherSlice"] }),
   ("/page.ts", { Analysis.empty "/page.ts" with
      imports := [⟨"./index", [⟨"userSlice", "userSlice"⟩], default⟩]
      declarations := [⟨"q", .operation, ⟨[], none, none, []⟩, ["userSlice"], true, none, default⟩] }),
   ("/user.ts", { Analysis.empty "/user.ts" with
      exports := [.named "userSlice" "userSlice"]
      declarations := [⟨"userSlice", .slice, ⟨[], none, none, []⟩, [], true, none, default⟩] })]

/-- The files beside them: a generated one, or none. -/
def besideBarrel (generated : Bool) (path : String) : Bool := generated && path = "/generated.ts"

def barrelLinker (generated : Bool) : Linker where
  analyses := barrel
  ids := .ofList [("/index.ts", ∅), ("/other.ts", ∅), ("/page.ts", .ofList [("q", ⟨"/page.ts::q"⟩)]),
    ("/user.ts", .ofList [("userSlice", ⟨"/user.ts::userSlice"⟩)])]
  onDisk := besideBarrel generated

theorem eq_barrelLinker {l : Linker} (h : Linker.create .absolute barrel (besideBarrel generated) = .ok l) :
    l = barrelLinker generated := by
  have hcreate : Linker.create .absolute barrel (besideBarrel generated) = .ok (barrelLinker generated) := rfl
  cases hcreate.symm.trans h
  rfl

/-- Under the one name that is looked up in the index, one source is unknown or not analysed, one offers nothing. -/
theorem barrelLinker_spec (generated : Bool) :
    (barrelLinker generated).targetFile "/index.ts" "./other" = .ok (some "/other.ts") ∧
    (barrelLinker generated).targetFile "/index.ts" "./user" = .ok (some "/user.ts") ∧
    ((barrelLinker generated).targetFile "/index.ts" "./generated").toOption = (if generated then some none else none) ∧
    ¬ (barrelLinker generated).Exported "/other.ts" "userSlice" ∧
    ∀ p ∈ (barrelLinker generated).lookups "/page.ts" "userSlice", p.2 = "userSlice" := by
  revert generated
  decide +kernel

theorem eq_of_looksUp_barrel (h : (barrelLinker generated).LooksUp "/index.ts" name) : name = "userSlice" := by
  obtain ⟨other, b, s, localName, hb, hs, hlocal, hmem⟩ := h
  have hb : (other, b) ∈ barrel.toList := Dict.mem_toList_iff.2 hb
  have hfiles : barrel.toList = [_, _, _, _] := rfl
  simp only [hfiles, List.mem_cons, List.not_mem_nil, or_false] at hb
  rcases hb with hb | hb | hb | hb <;> obtain ⟨rfl, rfl⟩ := Prod.mk.inj hb
  · cases hs
  · cases hs
  · obtain rfl := List.mem_singleton.1 hs
    obtain rfl := List.mem_singleton.1 hlocal
    exact (barrelLinker_spec generated).2.2.2.2 _ hmem
  · obtain rfl := List.mem_singleton.1 hs
    cases hlocal

theorem mem_of_passesOn_barrel (h : (barrelLinker generated).PassesOn "/index.ts" name source) :
    source = "./other" ∨ source = "./generated" ∨ source = "./user" := by
  obtain ⟨a, ha, -, -, hsource⟩ := h.of_analysis
  obtain ⟨hsource, -⟩ := List.mem_filter.1 hsource
  cases ha
  simpa using hsource

theorem unambiguous_barrel (generated : Bool) : (barrelLinker generated).Unambiguous "/index.ts" "userSlice" := by
  obtain ⟨hother, huser, hgenerated, hnot, -⟩ := barrelLinker_spec generated
  have honly : ∀ source target, (barrelLinker generated).PassesOn "/index.ts" "userSlice" source →
      (barrelLinker generated).targetFile "/index.ts" source = .ok (some target) →
        (barrelLinker generated).Exported target "userSlice" → target = "/user.ts" := by
    intro source target hpasses htarget hexported
    rcases mem_of_passesOn_barrel hpasses with rfl | rfl | rfl
    · cases hother.symm.trans htarget
      exact absurd hexported hnot
    · rw [htarget] at hgenerated
      cases generated <;> cases hgenerated
    · cases huser.symm.trans htarget
      rfl
  intro source source' target target' hpasses hpasses' htarget htarget' hexported hexported'
  rw [honly source target hpasses htarget hexported, honly source' target' hpasses' htarget' hexported']

theorem notBeside_barrel : (barrelLinker false).NotBeside "/index.ts" "userSlice" := by
  obtain ⟨hother, huser, hgenerated, -⟩ := barrelLinker_spec false
  intro source source' target ids hpasses _ hsource
  rcases mem_of_passesOn_barrel hpasses with rfl | rfl | rfl
  · cases hother.symm.trans hsource
  · rw [hsource] at hgenerated
    cases hgenerated
  · cases huser.symm.trans hsource

/-- The sources of the index the other way round. -/
def turnedBarrel : Dict Analysis :=
  barrel.modify "/index.ts" fun a =>
    { a with exports := [.reExportAll "./user", .reExportAll "./generated", .reExportAll "./other"] }

theorem build_turnedBarrel : ∃ g, build .absolute barrel (besideBarrel false) = .ok g ∧
    build .absolute turnedBarrel (besideBarrel false) = .ok g ∧
      g.dependencies ⟨"/page.ts::q"⟩ = [⟨"/user.ts::userSlice"⟩] := by
  have hindex : barrel.get? "/index.ts" = some { Analysis.empty "/index.ts" with
    exports := [.reExportAll "./other", .reExportAll "./generated", .reExportAll "./user"] } := rfl
  have hmoved : Rearranges [.reExportAll "./other", .reExportAll "./generated", .reExportAll "./user"]
    [.reExportAll "./user", .reExportAll "./generated", .reExportAll "./other"] := ⟨(List.reverse_perm _).symm, rfl⟩
  have hbuilt : (build .absolute barrel (besideBarrel false)).toOption.map (·.dependencies ⟨"/page.ts::q"⟩) =
    some [⟨"/user.ts::userSlice"⟩] := by decide +kernel
  obtain ⟨g, hg, hdependencies⟩ := Option.map_eq_some_iff.1 hbuilt
  have hg := eq_ok_of_toOption hg
  refine ⟨g, hg, ((build_rearranged hindex hmoved .absolute (besideBarrel false)).2 ?_ g).2 hg, hdependencies⟩
  intro l hl name hname
  cases eq_barrelLinker hl
  cases eq_of_looksUp_barrel hname
  exact ⟨unambiguous_barrel false, notBeside_barrel⟩

/-- Of the sources only one offers the name, and yet the reference is lost where the generated file comes first. -/
theorem not_build_turnedBarrel_beside :
    (∀ l, Linker.create .absolute barrel (besideBarrel true) = .ok l →
        ∀ name, l.LooksUp "/index.ts" name → l.Unambiguous "/index.ts" name) ∧
      (build .absolute barrel (besideBarrel true)).toOption.map (·.dependencies ⟨"/page.ts::q"⟩) = some [] ∧
      (build .absolute turnedBarrel (besideBarrel true)).toOption.map (·.dependencies ⟨"/page.ts::q"⟩) =
        some [⟨"/user.ts::userSlice"⟩] := by
  refine ⟨fun l hl name hname => ?_, by decide +kernel, by decide +kernel⟩
  cases eq_barrelLinker hl
  cases eq_of_looksUp_barrel hname
  exact unambiguous_barrel true

end Graph
end StaticGql
