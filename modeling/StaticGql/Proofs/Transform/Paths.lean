import Mathlib
import StaticGql.Proofs.Frontend
import StaticGql.Proofs.Transform.Accounts

/-!
One text under two paths. The path of a file goes into the ids of its declarations and is told with the calls
that stay; so under two paths a text is transformed alike over every artifact exactly where the paths make the
same ids, or where there is nothing to make an id for.
-/

namespace StaticGql

variable {f : Frontend} {file file' text : String}

/-! ### Ids under two paths -/

namespace CanonicalId

/-- File parts that make the same ids from the same structural paths are the same. -/
theorem eq_of_ofParts {x y : String} {l : List String} (hne : l ≠ [])
    (h : ∀ s ∈ l, ∃ s' ∈ l, ofParts x s = ofParts y s') : x = y := by
  have hnonempty : l.toFinset.Nonempty := List.toFinset_nonempty_iff l |>.2 hne
  have hlength : ∀ s s', ofParts x s = ofParts y s' →
      x.length + s.length = y.length + s'.length := by
    intro s s' heq
    have := congrArg (fun id : CanonicalId => id.text.length) heq
    simp only [ofParts, String.length_append] at this
    omega
  -- the longest structural path bounds one file part, and the shortest one the other
  obtain ⟨s, hs, hmax⟩ := Finset.exists_max_image l.toFinset String.length hnonempty
  obtain ⟨t, ht, hmin⟩ := Finset.exists_min_image l.toFinset String.length hnonempty
  obtain ⟨s', hs', heq⟩ := h s (List.mem_toFinset.1 hs)
  obtain ⟨t', ht', heq'⟩ := h t (List.mem_toFinset.1 ht)
  have hle := hmax s' (List.mem_toFinset.2 hs')
  have hge := hmin t' (List.mem_toFinset.2 ht')
  have hsame : x.length = y.length := by
    have h₁ := hlength s s' heq
    have h₂ := hlength t t' heq'
    omega
  have htext := congrArg (fun id : CanonicalId => id.text.toList) heq
  simp only [ofParts, String.toList_append, List.append_assoc] at htext
  exact String.toList_inj.1 (List.append_inj_left htext (by simpa only [String.length_toList] using hsame))

end CanonicalId

/-! ### A module without content -/

/-- A program that is one empty export list. -/
def Script.Tree.isBareExport : Script.Tree → Bool
  | .mk .module _ _ _ [.mk .exportNames _ _ _ []] => true
  | _ => false

namespace Frontend

/-- The text of a module without content declares nothing. -/
theorem analyze_stub (f : Frontend) (marker : Marker) (file : String) :
    ∃ a, f.analyze marker file Transform.stub.code = .ok a ∧ a.declarations = [] ∧ a.diagnostics = [] := by
  by_cases hf : f = scanner
  · have hscan : ((Scan.analyze marker file Transform.stub.code).toOption.map fun a =>
        (a.declarations, a.diagnostics)) = some ([], []) := by cbv
    obtain ⟨a, ha, hnil⟩ := Option.map_eq_some_iff.1 hscan
    have hanalyze : scanner.analyze marker file Transform.stub.code = .ok a :=
      congrArg (Except.mapError SourceError.unbalanced) (eq_ok_of_toOption ha)
    exact ⟨a, hf ▸ hanalyze, congrArg Prod.fst hnil, congrArg Prod.snd hnil⟩
  · have hshape : ∀ elements, (Script.parse? elements Transform.stub.code).any Script.Tree.isBareExport = true := by
      decide +kernel
    obtain ⟨form, hform⟩ := exists_form hf
    obtain ⟨program, hprogram, hbare⟩ := (Option.any_eq_true _ _).1 (hshape (holdsElements file))
    rw [hform, Script.analyze?, hprogram, Option.map_some]
    refine ⟨_, rfl, ?_⟩
    rw [Script.Tree.isBareExport.eq_def] at hbare
    split at hbare
    · cases form <;> exact ⟨rfl, rfl⟩
    · cases hbare

end Frontend

namespace Transform

open Plan (Fate)

variable {ε ε' : Type} {a : Analysis} {b : Artifact} {o : Options} {s : Site}

/-! ### What is told of the path -/

/-- The error as told under another path. -/
def SiteError.under (file : String) (e : SiteError) : SiteError := { e with file := file }

def Plan.Fate.under (file : String) : Fate → Fate
  | .fault e => .fault (e.under file)
  | fate => fate

def Plan.under (file : String) (p : Plan) : Plan := { p with errors := p.errors.map (·.under file) }

def Output.under (file : String) (out : Output) : Output := { out with errors := out.errors.map (·.under file) }

theorem ofPlan_under (file : String) (p : Plan) (text : String) :
    ofPlan (p.under file) text = (ofPlan p text).under file := by
  rw [ofPlan, ofPlan, apply_ite (Output.under file)]
  rfl

theorem errors_ofPlan (p : Plan) (text : String) : (ofPlan p text).errors = p.errors := by
  rw [ofPlan]
  split <;> rfl

theorem mergeSort_under (file : String) (l : List SiteError) :
    (l.map (·.under file)).mergeSort SiteError.le = (l.mergeSort SiteError.le).map (·.under file) :=
  (List.map_mergeSort (f := SiteError.under file) fun _ _ _ _ => rfl).symm

/-- The paths make the same id for the declaration, if it has one. -/
def MeansAlike (mode : IdMode) (file file' : String) (s : Site) : Prop :=
  s.kind = .define ∨ CanonicalId.filePart mode file' = CanonicalId.filePart mode file

theorem fate_under (h : MeansAlike o.idMode file file' s) :
    Plan.fate b o file' s = (Plan.fate b o file s).map (Fate.under file') := by
  rw [Plan.fate, Plan.fate]
  split
  · rfl
  · rename_i hkind
    rw [CanonicalId.create, CanonicalId.create, h.resolve_left hkind]
    cases CanonicalId.filePart o.idMode file with
    | error e => rfl
    | ok part =>
        simp only [Except.map, Except.ok.injEq]
        split
        · rfl
        · split <;> rfl

theorem build_under (h : ∀ s ∈ a.declarations, MeansAlike o.idMode a.file file' s) :
    Plan.build { a with file := file' } b o = (Plan.build a b o).map (Plan.under file') := by
  have hfates : a.declarations.mapM (Plan.fate b o file') =
      (a.declarations.mapM (Plan.fate b o a.file)).map (List.map (Fate.under file')) := by
    rw [← mapM_comp_map]
    exact mapM_congr fun s hs => fate_under (h s hs)
  have herrors : ∀ fates : List Fate, (fates.map (Fate.under file')).filterMap (·.error?) =
      (fates.filterMap (·.error?)).map (·.under file') := by
    intro fates
    rw [List.filterMap_map, List.map_filterMap]
    refine List.filterMap_congr fun fate _ => ?_
    cases fate <;> rfl
  have hsame : ∀ (fates : List Fate) {γ : Type} (g : Fate → Option γ), (∀ fate, g (fate.under file') = g fate) →
      (fates.map (Fate.under file')).filterMap g = fates.filterMap g := by
    intro fates γ g hg
    rw [List.filterMap_map]
    exact List.filterMap_congr fun fate _ => hg fate
  rw [Plan.build, Plan.build]
  simp only [hfates]
  cases a.declarations.mapM (Plan.fate b o a.file) with
  | error e => rfl
  | ok fates =>
      have hany : (fates.map (Fate.under file')).any (·.isDefine) = fates.any (·.isDefine) := by
        rw [List.any_map]
        refine congrArg fates.any (funext fun fate => ?_)
        cases fate <;> rfl
      have hrejected : ((a.diagnostics.filter (·.isRejection)).map fun d => Plan.errorAt file' d.span .noMetadata) =
          ((a.diagnostics.filter (·.isRejection)).map fun d => Plan.errorAt a.file d.span .noMetadata).map
            (·.under file') := by
        rw [List.map_map]
        rfl
      have hsubstitutions := hsame fates (·.substitution?) fun fate => by cases fate <;> rfl
      have hhoisted := hsame fates (·.hoisted?) fun fate => by cases fate <;> rfl
      simp only [bind, Except.bind, Except.map, hany, hrejected, herrors, hsubstitutions, hhoisted, ← List.map_append,
        mergeSort_under, List.isEmpty_map]
      by_cases hidle : (fates.filterMap (·.substitution?)).isEmpty = true
      · rw [if_pos hidle, if_pos hidle]
        rfl
      · rw [if_neg hidle, if_neg hidle]
        rfl

/-! ### The runs -/

/-- Where the paths make the same ids, the runs differ only in the path that they tell. -/
theorem file_under (hsystem : o.systemPath ≠ some file) (hsystem' : o.systemPath ≠ some file')
    (hholds : Frontend.holdsElements file' = Frontend.holdsElements file)
    (h : ∀ a, f.analyze o.marker file text = .ok a → ∀ s ∈ a.declarations, MeansAlike o.idMode file file' s) :
    Transform.file f b o file' text = (Transform.file f b o file text).map (Output.under file') := by
  rw [Transform.file, Transform.file, if_neg hsystem, if_neg hsystem', Frontend.analyze_under hholds]
  cases hanalyze : f.analyze o.marker file text with
  | error e => rfl
  | ok a =>
      have hfile := Frontend.file_of_analyze hanalyze
      have halike : ∀ s ∈ a.declarations, MeansAlike o.idMode a.file file' s := by
        rw [hfile]
        exact h a hanalyze
      have hbuild : Plan.build { a with file := file' } b o = (Plan.build a b o).map (Plan.under file') :=
        build_under halike
      simp only [Except.map, Except.mapError, bind, Except.bind, hbuild]
      cases Plan.build a b o with
      | error e => rfl
      | ok p => exact congrArg Except.ok (ofPlan_under file' p text)

/-- Runs that come to the same under two paths: both fail, or the code is the same and the calls that stay are
the same for the same reasons, told under the other path. -/
def AgreesUnder (file : String) : Except ε Output → Except ε' Output → Prop
  | .ok out, .ok out' => out'.code = out.code ∧ out'.errors = out.errors.map (·.under file)
  | .error _, .error _ => True
  | _, _ => False

theorem agreesUnder_map (file : String) (r : Except ε Output) : AgreesUnder file r (r.map (Output.under file)) := by
  cases r with
  | error e => trivial
  | ok out => exact ⟨rfl, rfl⟩

/-! ### Ids that differ -/

theorem Plan.mem_errors_iff {p : Plan} (h : Plan.build a b o = .ok p) {e : SiteError} (he : e.fault ≠ .noMetadata) :
    e ∈ p.errors ↔ ∃ s ∈ a.declarations, isReplaced s = true ∧ Yields b o a.file s (.inr e) := by
  obtain ⟨accounts, hacc, -⟩ := Plan.accounted_of_build h
  rw [hacc.errors.mem_iff, List.mem_append]
  constructor
  · rintro (hmem | hmem)
    · obtain ⟨d, -, rfl⟩ := List.mem_map.1 hmem
      exact absurd rfl he
    · obtain ⟨y, hy, hright⟩ := List.mem_filterMap.1 hmem
      obtain ⟨s, hs, hyields⟩ := exists_of_forall₂ hacc.each.flip hy
      rw [Sum.getRight?_eq_some_iff.1 hright] at hyields
      exact ⟨s, List.mem_of_mem_filter hs, List.of_mem_filter hs, hyields⟩
  · rintro ⟨s, hs, hreplaced, hyields⟩
    obtain ⟨y, hy, hyields'⟩ := exists_of_forall₂ hacc.each (List.mem_filter.2 ⟨hs, hreplaced⟩)
    obtain rfl := hyields.unique hyields'
    exact .inr (List.mem_filterMap.2 ⟨_, hy, rfl⟩)

theorem Plan.exists_build {part : String} (h : CanonicalId.filePart o.idMode a.file = .ok part) :
    ∃ p, Plan.build a b o = .ok p := by
  have hfates : ∀ s ∈ a.declarations, ∃ fate, Plan.fate b o a.file s = .ok fate := by
    intro s _
    rw [Plan.fate, CanonicalId.create, h]
    split
    · exact ⟨_, rfl⟩
    · exact ⟨_, rfl⟩
  obtain ⟨fates, hfates⟩ := exists_forall₂ hfates
  obtain ⟨p, hp, -⟩ := Plan.exists_from hfates
  exact ⟨p, hp⟩

theorem Plan.exists_filePart {p : Plan} (h : Plan.build a b o = .ok p) (hs : s ∈ a.declarations)
    (hkind : s.kind ≠ .define) : ∃ part, CanonicalId.filePart o.idMode a.file = .ok part := by
  obtain ⟨fates, hfrom⟩ := Plan.from_of_build h
  obtain ⟨fate, -, hfate⟩ := exists_of_forall₂ hfrom.own hs
  rw [Plan.fate, if_neg hkind] at hfate
  obtain ⟨id, hid, -⟩ := map_eq_ok_iff.1 hfate
  obtain ⟨part, hpart, -⟩ := map_eq_ok_iff.1 hid
  exact ⟨part, hpart⟩

/-- What an artifact does not know under one path is told under the other by the same id only if the paths make
the same ids. -/
theorem filePart_of_errors {part part' : String} {p p' : Plan} (hpart : CanonicalId.filePart o.idMode a.file = .ok part)
    (hpart' : CanonicalId.filePart o.idMode file' = .ok part') (hp : Plan.build a b o = .ok p)
    (hp' : Plan.build { a with file := file' } b o = .ok p') (herrors : p'.errors = p.errors.map (·.under file'))
    (hunknown : ∀ s ∈ a.declarations, ∀ id,
      CanonicalId.create o.idMode a.file s.structuralPath = .ok id → b.get? id = none)
    (hs : s ∈ a.declarations) (hkind : s.kind ≠ .define) : part = part' := by
  have hreplaced : ∀ {s : Site}, isReplaced s = true ↔ s.kind ≠ .define := by simp [isReplaced]
  refine CanonicalId.eq_of_ofParts (l := (a.declarations.filter isReplaced).map (·.structuralPath)) ?_ ?_
  · exact List.ne_nil_of_mem (List.mem_map_of_mem (List.mem_filter.2 ⟨hs, hreplaced.2 hkind⟩))
  · intro place hplace
    obtain ⟨t, ht, rfl⟩ := List.mem_map.1 hplace
    obtain ⟨ht, htkind⟩ := List.mem_filter.1 ht
    have hid : CanonicalId.create o.idMode a.file t.structuralPath = .ok (.ofParts part t.structuralPath) := by
      rw [CanonicalId.create, hpart]
      rfl
    have hmissing : Plan.errorAt a.file t.span (.noElement (.ofParts part t.structuralPath) t.kind) ∈ p.errors :=
      (Plan.mem_errors_iff hp (by simp [Plan.errorAt])).2 ⟨t, ht, htkind, .missing hid (hunknown t ht _ hid)⟩
    have htold : Plan.errorAt file' t.span (.noElement (.ofParts part t.structuralPath) t.kind) ∈ p'.errors := by
      rw [herrors]
      exact List.mem_map.2 ⟨_, hmissing, rfl⟩
    obtain ⟨t', ht', htkind', hyields⟩ := (Plan.mem_errors_iff hp' (by simp [Plan.errorAt])).1 htold
    obtain ⟨id', hid', haccount⟩ := hyields.exists_id
    have hid' : CanonicalId.ofParts part' t'.structuralPath = id' := by
      obtain ⟨part'', hpart'', rfl⟩ := map_eq_ok_iff.1 hid'
      rw [Except.ok.inj (hpart'.symm.trans hpart'')]
    refine ⟨t'.structuralPath, List.mem_map_of_mem (List.mem_filter.2 ⟨ht', htkind'⟩), ?_⟩
    rw [accountOf] at haccount
    rw [hid']
    split at haccount
    · simp only [Plan.errorAt, Sum.inr.injEq, SiteError.mk.injEq, Fault.noElement.injEq] at haccount
      exact haccount.1.1
    · split at haccount
      · cases haccount
      · simp [Plan.errorAt] at haccount

/-- The artifact has nothing under the ids that a path makes for the declarations of a text. -/
def Unknown (f : Frontend) (b : Artifact) (o : Options) (file text : String) : Prop :=
  ∀ a, f.analyze o.marker file text = .ok a → ∀ s ∈ a.declarations, ∀ id,
    CanonicalId.create o.idMode file s.structuralPath = .ok id → b.get? id = none

/-- Where the runs agree though the artifact knows nothing under the first path, the paths make the same ids. -/
theorem meansAlike_of_agreesUnder {part : String} (hsystem : o.systemPath ≠ some file)
    (hsystem' : o.systemPath ≠ some file') (hholds : Frontend.holdsElements file' = Frontend.holdsElements file)
    (hpart : CanonicalId.filePart o.idMode file' = .ok part) (hanalyze : f.analyze o.marker file text = .ok a)
    (hunknown : Unknown f b o file text)
    (h : AgreesUnder file' (Transform.file f b o file text) (Transform.file f b o file' text)) :
    ∀ s ∈ a.declarations, MeansAlike o.idMode file file' s := by
  intro s hs
  obtain rfl := Frontend.file_of_analyze hanalyze
  have hanalyze' : f.analyze o.marker file' text = .ok { a with file := file' } := by
    rw [Frontend.analyze_under hholds, hanalyze]
    rfl
  obtain ⟨p', hp'⟩ := Plan.exists_build (a := { a with file := file' }) (b := b) hpart
  rw [(file_eq_ok_iff hsystem').2 ⟨_, p', hanalyze', hp', rfl⟩] at h
  cases hrun : Transform.file f b o a.file text with
  | error e =>
      rw [hrun] at h
      exact h.elim
  | ok out =>
      obtain ⟨a₀, p, hanalyze₀, hp, rfl⟩ := (file_eq_ok_iff hsystem).1 hrun
      cases hanalyze.symm.trans hanalyze₀
      by_cases hkind : s.kind = .define
      · exact .inl hkind
      · obtain ⟨part₀, hpart₀⟩ := Plan.exists_filePart hp hs hkind
        rw [hrun] at h
        have herrors : p'.errors = p.errors.map (·.under file') := by
          have := h.2
          rwa [errors_ofPlan, errors_ofPlan] at this
        rw [MeansAlike, hpart, hpart₀, filePart_of_errors hpart₀ hpart hp hp' herrors (hunknown _ hanalyze) hs hkind]
        exact .inr rfl

/-! ### The generated file -/

/-- Nothing in the transform of a text hangs on which of two paths it has, of which only the second can be that of
the generated file. -/
def Indifferent (f : Frontend) (o : Options) (file file' text : String) : Prop :=
  if o.systemPath = some file' then text = stub.code
  else ∀ a, f.analyze o.marker file text = .ok a → ∀ s ∈ a.declarations, MeansAlike o.idMode file file' s

theorem agreesUnder_of_indifferent (hsystem : o.systemPath ≠ some file)
    (hholds : Frontend.holdsElements file' = Frontend.holdsElements file) (h : Indifferent f o file file' text) :
    AgreesUnder file' (Transform.file f b o file text) (Transform.file f b o file' text) := by
  rw [Indifferent] at h
  split at h
  · rename_i hgenerated
    obtain ⟨a, hanalyze, hdeclarations, hdiagnostics⟩ := Frontend.analyze_stub f o.marker file
    have hplan : Plan.build a b o = .ok ⟨[], [], [], [], none⟩ := by
      simp [Plan.build, hdeclarations, hdiagnostics, bind, Except.bind, pure, Except.pure]
    rw [h, (file_eq_ok_iff hsystem).2 ⟨a, _, hanalyze, hplan, rfl⟩, Transform.file, if_pos hgenerated]
    exact ⟨rfl, rfl⟩
  · rename_i hsystem'
    rw [file_under hsystem hsystem' hholds h]
    exact agreesUnder_map file' _

theorem eq_stub_of_agreesUnder (hsystem : o.systemPath ≠ some file) (hgenerated : o.systemPath = some file')
    (hunknown : Unknown f b o file text)
    (h : AgreesUnder file' (Transform.file f b o file text) (Transform.file f b o file' text)) :
    text = stub.code := by
  have hstub : Transform.file f b o file' text = .ok stub := if_pos hgenerated
  rw [hstub] at h
  cases hrun : Transform.file f b o file text with
  | error e =>
      rw [hrun] at h
      exact h.elim
  | ok out =>
      obtain ⟨a, p, hanalyze, hp, rfl⟩ := (file_eq_ok_iff hsystem).1 hrun
      obtain rfl := Frontend.file_of_analyze hanalyze
      have hstays : ∀ s ∈ a.declarations, Plan.Stays b o a.file s := by
        intro s hs hreplaced
        obtain ⟨part, hpart⟩ := Plan.exists_filePart hp hs (by simpa [isReplaced] using hreplaced)
        have hid : CanonicalId.create o.idMode a.file s.structuralPath = .ok (.ofParts part s.structuralPath) := by
          rw [CanonicalId.create, hpart]
          rfl
        refine ⟨_, hid, fun e he => ?_⟩
        rw [hunknown a hanalyze s hs _ hid] at he
        cases he
      obtain ⟨p', hp', hidle⟩ := Plan.exists_idle_iff.2 hstays
      cases hp.symm.trans hp'
      rw [hrun, ofPlan, hidle, List.isEmpty_nil, if_pos rfl] at h
      exact h.1.symm

/-- Over an artifact that knows nothing under the first path, the runs agree exactly where nothing hangs on it. -/
theorem agreesUnder_iff {part : String} (hsystem : o.systemPath ≠ some file)
    (hholds : Frontend.holdsElements file' = Frontend.holdsElements file)
    (hpart : CanonicalId.filePart o.idMode file' = .ok part) (hunknown : Unknown f b o file text) :
    AgreesUnder file' (Transform.file f b o file text) (Transform.file f b o file' text) ↔
      Indifferent f o file file' text := by
  refine ⟨fun h => ?_, agreesUnder_of_indifferent hsystem hholds⟩
  rw [Indifferent]
  split
  · exact eq_stub_of_agreesUnder hsystem ‹_› hunknown h
  · exact fun a hanalyze => meansAlike_of_agreesUnder hsystem ‹_› hholds hpart hanalyze hunknown h

end Transform
end StaticGql
