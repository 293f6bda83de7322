import StaticGql.Graph.Check
import StaticGql.Graph.Link
import StaticGql.Proofs.Analysis.Reread
import StaticGql.Proofs.Except
import StaticGql.Proofs.Graph.Declarations
import StaticGql.Proofs.Graph.Exact
import StaticGql.Proofs.Registry.Incremental

/-!
Linking and checking look at no number in an option: blurring the analyses first gives the blurred graph.
-/

namespace StaticGql

def Declaration.blur (d : Declaration) : Declaration := { d with builder := d.builder.blur }

def Graph.blur (g : Graph) : Graph := ⟨g.declarations.map fun _ => Declaration.blur⟩

def Linker.blur (l : Linker) : Linker := { l with analyses := l.analyses.map fun _ => Analysis.blur }

/-! ### Following names -/

namespace Linker

variable (l : Linker)

theorem sameBut_blur (file : String) : SameBut l l.blur file where
  under _ := rfl
  targetFile _ source _ _ := by
    have hcontains : l.blur.analyses.contains = l.analyses.contains := by
      funext path
      exact Dict.contains_map ..
    rw [targetFile, targetFile, hcontains]
    rfl
  analysis := by
    have hget : l.blur.analyses.get? file = (l.analyses.get? file).map Analysis.blur := Dict.get?_map ..
    rw [hget]
    cases l.analyses.get? file with
    | none => exact .none
    | some a => exact .some ⟨fun _ => rfl, fun _ => rfl, fun _ => rfl⟩

theorem target_blur (file localName : String) : l.blur.target file localName = l.target file localName := by
  have hasked : l.blur.askedNames = l.askedNames := by
    rw [askedNames, askedNames, blur, Dict.values_map, List.flatMap_map]
    rfl
  have hbound : l.blur.exportBound = l.exportBound := by
    rw [exportBound, exportBound, hasked, blur, Dict.size_map]
  refine (target_congr l.sameBut_blur (fun other a a' ha ha' => ?_) hbound.symm file localName).symm
  have hget : l.blur.analyses.get? other = (l.analyses.get? other).map Analysis.blur := Dict.get?_map ..
  rw [hget, ha] at ha'
  cases ha'
  rfl

/-! ### Linking -/

theorem linkSite_blur (file : String) (a : Analysis) (s : Site) :
    l.blur.linkSite file a.blur s.blur = (l.linkSite file a s).map (List.map Declaration.blur) := by
  have hid : l.blur.declaration? file s.structuralPath = l.declaration? file s.structuralPath := rfl
  have hpath : s.blur.structuralPath = s.structuralPath := rfl
  rw [linkSite, linkSite, hpath, hid]
  cases l.declaration? file s.structuralPath with
  | none => rfl
  | some id =>
      have hreferenced : ∀ localName, l.blur.referenced a.blur file s.blur id localName =
          l.referenced a file s id localName := by
        intro localName
        rw [referenced, referenced, target_blur]
        rfl
      show (s.references.mapM fun localName => l.blur.referenced a.blur file s.blur id localName) >>= _ = _
      simp only [hreferenced]
      cases s.references.mapM (l.referenced a file s id) <;> rfl

theorem linkFile_blur (file : String) (a : Analysis) :
    l.blur.linkFile file a.blur = (l.linkFile file a).map (List.map Declaration.blur) := by
  have hsite : (l.blur.linkSite file a.blur) ∘ Site.blur =
      fun s => (l.linkSite file a s).map (List.map Declaration.blur) := by
    funext s
    exact l.linkSite_blur file a s
  rw [linkFile, linkFile]
  show ((a.declarations.map Site.blur).mapM (l.blur.linkSite file a.blur)).map List.flatten = _
  rw [mapM_map, hsite, mapM_comp_map]
  cases a.declarations.mapM (l.linkSite file a) with
  | error e => rfl
  | ok declarations => simp [Except.map, List.map_flatten]

theorem create_blur (mode : IdMode) (analyses : Dict Analysis) (onDisk : String → Bool) :
    create mode (analyses.map fun _ => Analysis.blur) onDisk = (create mode analyses onDisk).map blur := by
  refine create_map (fun file a => ?_) analyses onDisk
  have hmap : (a.declarations.map Site.blur).mapM (fun s : Site =>
      (CanonicalId.create mode file s.structuralPath).map fun id => (s.structuralPath, id)) =
      a.declarations.mapM fun s : Site =>
        (CanonicalId.create mode file s.structuralPath).map fun id => (s.structuralPath, id) :=
    mapM_map ..
  exact congrArg (Except.map Dict.ofList) hmap

end Linker

theorem Graph.ofList_blur (l : List Declaration) :
    (ofList l).blur = ofList (l.map Declaration.blur) := by
  rw [ofList, blur, Dict.map_ofList, ofList, List.map_map, List.map_map]
  rfl

theorem Graph.build_blur (mode : IdMode) (analyses : Dict Analysis) (onDisk : String → Bool) :
    build mode (analyses.map fun _ => Analysis.blur) onDisk =
      (build mode analyses onDisk).map blur := by
  rw [build, build, Linker.create_blur]
  cases Linker.create mode analyses onDisk with
  | error e => rfl
  | ok l =>
      have hfile : (fun q : String × Analysis => l.blur.linkFile q.1 q.2) ∘
          (fun q : String × Analysis => (q.1, q.2.blur)) =
          fun q => (l.linkFile q.1 q.2).map (List.map Declaration.blur) := by
        funext q
        exact l.linkFile_blur q.1 q.2
      show ((analyses.map fun _ => Analysis.blur).toList.mapM fun q => l.blur.linkFile q.1 q.2) >>= _ = _
      rw [Dict.toList_map, mapM_map, hfile, mapM_comp_map]
      show _ = ((analyses.toList.mapM fun q => l.linkFile q.1 q.2) >>= _).map blur
      cases analyses.toList.mapM fun q => l.linkFile q.1 q.2 with
      | error e => rfl
      | ok declarations =>
          show Except.ok (ofList (declarations.map (List.map Declaration.blur)).flatten) =
            Except.ok (ofList declarations.flatten).blur
          rw [ofList_blur, List.map_flatten]

/-! ### Checking -/

namespace Graph

variable (g : Graph)

theorem get?_blur (id : CanonicalId) : g.blur.get? id = (g.get? id).map Declaration.blur :=
  Dict.get?_map ..

theorem toList_blur : g.blur.toList = g.toList.map Declaration.blur := Dict.values_map ..

theorem dependencies_blur (id : CanonicalId) : g.blur.dependencies id = g.dependencies id := by
  rw [dependencies, dependencies, get?_blur, Option.map_map]
  rfl

theorem isComposable_blur (id : CanonicalId) : g.blur.isComposable id = g.isComposable id := by
  rw [isComposable, isComposable, kind?, kind?, get?_blur, Option.map_map]
  rfl

theorem alongReference_blur : g.blur.alongReference = g.alongReference := by
  funext next path s id
  rw [alongReference, alongReference, isComposable_blur]

theorem visit_blur (fuel : Nat) : g.blur.visit fuel = g.visit fuel := by
  induction fuel with
  | zero => rfl
  | succ fuel ih =>
      funext path id s
      rw [visit, visit, ih, alongReference_blur, dependencies_blur]

theorem cycles_blur : g.blur.cycles = g.cycles := by
  have hsearch : g.blur.searchFrom = g.searchFrom := by
    funext s id
    rw [searchFrom, searchFrom, isComposable_blur, visit_blur, size, size, blur, Dict.size_map]
  rw [cycles, cycles, hsearch, toList_blur, List.map_map]
  rfl

theorem operationsByName_blur : g.blur.operationsByName = g.operationsByName := by
  rw [operationsByName, operationsByName, toList_blur, List.foldl_map]
  congr 1
  funext acc d
  have hname : d.blur.operationName? = d.operationName? := by
    have := (Builder.alike_blur d.builder).optionText? "name"
    simp only [Declaration.operationName?, Declaration.blur, this]
  rw [hname]
  rfl

theorem check_blur : g.blur.check = g.check := by
  rw [check, check, faults, faults, cycles_blur, duplicates, duplicates, operationsByName_blur]

end Graph

/-! ### Modules -/

theorem Declaration.alike_of_blur {d d' : Declaration} (h : d.blur = d'.blur) : d.Alike d' := by
  rw [blur, blur, Declaration.mk.injEq] at h
  obtain ⟨hid, hkind, hbuilder, hreferences, -⟩ := h
  exact ⟨hid, hkind, hreferences, Builder.alike_of_blur hbuilder⟩

theorem Graph.alike_declarationsIn {g g' : Graph} (h : g.blur = g'.blur) (file : String) :
    List.Forall₂ (fun d d' => d.blur = d'.blur) (g.declarationsIn file) (g'.declarationsIn file) := by
  have hfilter : ∀ g : Graph, (g.declarationsIn file).map Declaration.blur =
      g.blur.toList.filter (·.file = file) := by
    intro g
    rw [declarationsIn, toList_blur, List.filter_map]
    rfl
  have hmap : (g.declarationsIn file).map Declaration.blur =
      (g'.declarationsIn file).map Declaration.blur := by
    rw [hfilter, hfilter, h]
  rw [← List.forall₂_eq_eq_eq, List.forall₂_map_left_iff, List.forall₂_map_right_iff] at hmap
  exact hmap

namespace ModuleDefinition

variable {mode : IdMode} {analyses analyses' : Dict Analysis} {g g' : Graph}

theorem importsOf_congr (h : (analyses.map fun _ => Analysis.blur) = analyses'.map fun _ => Analysis.blur)
    (file : String) {a a' : Analysis} (ha : a.blur = a'.blur) :
    importsOf mode analyses file a = importsOf mode analyses' file a' := by
  have hcontains : analyses.contains = analyses'.contains := by
    funext path
    have := congrArg (fun d => d.contains path) h
    simpa only [Dict.contains_map] using this
  have hsources : a.relativeSources = a'.relativeSources := by
    show a.blur.relativeSources = a'.blur.relativeSources
    rw [ha]
  rw [importsOf, importsOf, hcontains, hsources]

theorem exists_ofAnalysis (h : (analyses.map fun _ => Analysis.blur) = analyses'.map fun _ => Analysis.blur)
    (hg : g.blur = g'.blur) (file : String) {a a' : Analysis} (ha : a.blur = a'.blur)
    {m : ModuleDefinition} (hm : ofAnalysis mode analyses g file a = .ok m) :
    ∃ m', ofAnalysis mode analyses' g' file a' = .ok m' ∧ m.file = m'.file ∧
      List.Forall₂ Definition.Alike m.elements m'.elements := by
  obtain ⟨key, hkey, hm⟩ := bind_eq_ok_iff.1 hm
  obtain ⟨imports, himports, hm⟩ := bind_eq_ok_iff.1 hm
  cases hm
  rw [importsOf_congr h file ha] at himports
  have hdeclarations := g.alike_declarationsIn hg file
  refine ⟨_, bind_eq_ok_iff.2 ⟨key, hkey, bind_eq_ok_iff.2 ⟨imports, himports, rfl⟩⟩, rfl, ?_⟩
  show List.Forall₂ _ ((g.declarationsIn file).map _) ((g'.declarationsIn file).map _)
  rw [List.forall₂_map_left_iff, List.forall₂_map_right_iff]
  exact hdeclarations.imp fun _ _ h => Declaration.definition_alike (Declaration.alike_of_blur h)

theorem exists_ofAnalyses
    (h : (analyses.map fun _ => Analysis.blur) = analyses'.map fun _ => Analysis.blur)
    (hg : g.blur = g'.blur) {modules : Dict ModuleDefinition}
    (hm : ofAnalyses mode analyses g = .ok modules) :
    ∃ modules', ofAnalyses mode analyses' g' = .ok modules' ∧ Registry.SameModules modules modules' := by
  obtain ⟨l, hl, hm⟩ := bind_eq_ok_iff.1 hm
  cases hm
  have hlist : List.Forall₂ (fun e e' : String × Analysis => e.1 = e'.1 ∧ e.2.blur = e'.2.blur)
      analyses.toList analyses'.toList := by
    have := congrArg Dict.toList h
    rw [Dict.toList_map, Dict.toList_map, ← List.forall₂_eq_eq_eq, List.forall₂_map_left_iff,
      List.forall₂_map_right_iff] at this
    exact this.imp fun _ _ h => Prod.mk.injEq .. ▸ h
  obtain ⟨l', hl', hall⟩ := exists_mapM_of_forall₂ hlist hl fun e e' m he hm => by
    have := exists_ofAnalysis h hg e.1 he.2 hm
    rw [he.1] at this
    exact this
  refine ⟨_, bind_eq_ok_iff.2 ⟨l', hl', rfl⟩, fun k => ?_⟩
  apply Dict.rel_ofList
  rw [List.forall₂_map_left_iff, List.forall₂_map_right_iff]
  exact hall

end ModuleDefinition
end StaticGql
