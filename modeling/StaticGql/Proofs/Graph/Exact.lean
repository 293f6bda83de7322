import StaticGql.Graph.Link
import StaticGql.Proofs.Except
import StaticGql.Proofs.Graph.Exports

/-!
The search for an export ends, and what it answers is exact: it finds a target that the rules give, and finds
none only where they give none. Two searches are compared step by step, for this and for linkers that differ.

Linking asks for files beside the analysed ones only where an analysed file names one that is not
analysed.
-/

namespace StaticGql

theorem Analysis.exists_import_of_importOf {a : Analysis} {localName source : String} {s : Specifier}
    (h : a.importOf? localName = some (source, s)) : ∃ i ∈ a.imports, s ∈ i.specifiers ∧ i.source = source := by
  obtain ⟨i, hi, h⟩ := List.exists_of_findSome?_eq_some h
  obtain ⟨s', hfind, h⟩ := Option.map_eq_some_iff.1 h
  cases h
  exact ⟨i, hi, List.mem_of_find?_eq_some hfind, rfl⟩

theorem Analysis.mem_sources_of_importOf {a : Analysis} {localName source : String} {s : Specifier}
    (h : a.importOf? localName = some (source, s)) : source ∈ a.sources := by
  obtain ⟨i, hi, -, rfl⟩ := exists_import_of_importOf h
  exact List.mem_append_left _ (List.mem_map_of_mem hi)

namespace Linker

variable {l l' : Linker} {a a' : Analysis} {t : Target} {seen seen' : Seen} {r r' : Target × Seen}
  {follow follow' : Follow} {file name localName source target imported : String} {fuel : Nat}
  {U : Finset (String × String)}

/-! ### Sources -/

theorem mem_exports_of_reExport (h : reExport? a name = some (imported, source)) :
    .reExport name imported source ∈ a.exports := by
  obtain ⟨e, he, h⟩ := List.exists_of_findSome?_eq_some h
  cases e with
  | reExport exported imported' source' =>
      simp only at h
      split at h
      · rename_i hname
        cases h
        exact hname ▸ he
      · cases h
  | named | reExportAll => cases h

theorem mem_sources_of_reExport (h : reExport? a name = some (imported, source)) : source ∈ a.sources := by
  apply List.mem_append_right
  exact List.mem_filterMap.2 ⟨_, mem_exports_of_reExport h, rfl⟩

theorem mem_sources_of_passedOn (h : source ∈ passedOn a) : source ∈ a.sources := by
  obtain ⟨h, -⟩ := List.mem_filter.1 h
  obtain ⟨e, he, h⟩ := List.mem_filterMap.1 h
  apply List.mem_append_right
  apply List.mem_filterMap.2
  cases e with
  | reExportAll source' => exact ⟨_, he, h⟩
  | named exported localName => cases h
  | reExport exported imported source' => cases h

/-! ### Two searches side by side -/

/-- Answers of two searches that go on in the same way, `S` being kept by what they have seen. -/
structure Parallel (S : Seen → Seen → Prop) (R : Target × Seen → Target × Seen → Prop) : Prop where
  same : ∀ {seen seen'}, S seen seen' → ∀ t, R (t, seen) (t, seen')
  missing : ∀ {r r'}, R r r' → (r.1.IsMissing ↔ r'.1.IsMissing) ∧ (r.1.IsMissing → S r.2 r'.2)

/-- Two linkers have alike analyses of a file, up to the sources of which it passes all on. -/
structure SameBut (l l' : Linker) (file : String) : Prop where
  under : ∀ localName, l.declarationsUnder file localName = l'.declarationsUnder file localName
  targetFile : ∀ a source, l.analyses.get? file = some a → source ∈ a.sources →
    l.targetFile file source = l'.targetFile file source
  analysis : Option.Rel (fun a a' => (∀ localName, a.importOf? localName = a'.importOf? localName) ∧
    (∀ name, a.localExport? name = a'.localExport? name) ∧ ∀ name, reExport? a name = reExport? a' name)
      (l.analyses.get? file) (l'.analyses.get? file)

theorem SameBut.refl (l : Linker) (file : String) : SameBut l l file where
  under _ := rfl
  targetFile _ _ _ _ := rfl
  analysis := by
    cases l.analyses.get? file with
    | none => exact .none
    | some a => exact .some ⟨fun _ => rfl, fun _ => rfl, fun _ => rfl⟩

variable {S : Seen → Seen → Prop} {R : Target × Seen → Target × Seen → Prop}

theorem throughFile_parallel (hR : Parallel S R) (htarget : l.targetFile file source = l'.targetFile file source)
    (hS : S seen seen') (hfollow : ∀ target, l.Asks file source name (.goes target name) →
      follow seen target name = l.throughFile follow seen file source name →
        R (follow seen target name) (follow' seen' target name)) :
    R (l.throughFile follow seen file source name) (l'.throughFile follow' seen' file source name) := by
  rw [throughFile] at hfollow ⊢
  rw [throughFile, ← htarget]
  cases h : l.targetFile file source with
  | error reason => exact hR.same hS _
  | ok target? =>
      cases target? with
      | none => exact hR.same hS _
      | some target => exact hfollow target (.analysed h) (by rw [h])

theorem localTarget_parallel (hR : Parallel S R) (hl : SameBut l l' file) (hS : S seen seen')
    (hfollow : ∀ target imported, l.Denotes file localName (.goes target imported) →
      follow seen target imported = l.localTarget follow seen file localName →
        R (follow seen target imported) (follow' seen' target imported)) :
    R (l.localTarget follow seen file localName) (l'.localTarget follow' seen' file localName) := by
  rw [localTarget] at hfollow ⊢
  rw [localTarget, ← hl.under]
  by_cases hunder : l.declarationsUnder file localName = []
  · simp only [hunder, List.isEmpty_nil, Bool.not_true, Bool.false_eq_true, if_false] at hfollow ⊢
    have hanalysis := hl.analysis
    revert hanalysis
    cases ha : l.analyses.get? file <;> cases l'.analyses.get? file <;> intro hanalysis
    · exact hR.same hS _
    · cases hanalysis
    · cases hanalysis
    · rename_i a a'
      obtain ⟨himport, -, -⟩ : _ ∧ _ ∧ _ := by cases hanalysis; assumption
      simp only [ha, ← himport] at hfollow ⊢
      cases hi : a.importOf? localName with
      | none => exact hR.same hS _
      | some i =>
          obtain ⟨source, s⟩ := i
          simp only [hi] at hfollow ⊢
          split
          · exact hR.same hS _
          · rename_i hnotValue
            obtain ⟨hs, hname⟩ : ModuleRef.isRelative source = true ∧ s.imported ≠ "*" := by
              simpa using hnotValue
            rw [if_neg hnotValue] at hfollow
            have hsource := Analysis.mem_sources_of_importOf hi
            exact throughFile_parallel hR (hl.targetFile a source ha hsource) hS fun target hn =>
              hfollow target s.imported (.imported hunder ha hi hs hname hn)
  · have hempty : (!(l.declarationsUnder file localName).isEmpty) = true := by simpa using hunder
    rw [if_pos hempty, if_pos hempty]
    exact hR.same hS _

theorem firstFound_grows (hgrows : Confined (fun _ => True) follow) (reason : String) (sources : List String) :
    seen ⊆ (l.firstFound follow file name reason sources seen).2 :=
  ((firstFound_search l follow file name reason sources seen).confined hgrows fun _ _ _ => trivial).keeps

theorem firstFound_parallel (hR : Parallel S R) (hgrows : Confined (fun _ => True) follow)
    (reason : String) (sources : List String)
    (htarget : ∀ source ∈ sources, l.targetFile file source = l'.targetFile file source) (hS : S seen seen')
    (hfollow : ∀ s s', S s s' → ∀ source ∈ sources, ∀ target, l.Asks file source name (.goes target name) →
      (follow s target name).2 ⊆ (l.firstFound follow file name reason sources seen).2 →
        R (follow s target name) (follow' s' target name)) :
    R (l.firstFound follow file name reason sources seen) (l'.firstFound follow' file name reason sources seen') := by
  induction sources generalizing seen seen' with
  | nil => exact hR.same hS _
  | cons source rest ih =>
      by_cases hmissing : (l.throughFile follow seen file source name).1.IsMissing
      · rw [firstFound_of_missing hmissing] at hfollow ⊢
        have hafter : (l.throughFile follow seen file source name).2 ⊆
            (l.firstFound follow file name reason rest (l.throughFile follow seen file source name).2).2 :=
          firstFound_grows hgrows reason rest
        have hsource : R (l.throughFile follow seen file source name) (l'.throughFile follow' seen' file source name) :=
          throughFile_parallel hR (htarget source List.mem_cons_self) hS fun target hn heq =>
            hfollow seen seen' hS source List.mem_cons_self target hn (heq ▸ hafter)
        obtain ⟨hiff, hseen⟩ := hR.missing hsource
        rw [firstFound_of_missing (hiff.1 hmissing)]
        exact ih (fun source hmem => htarget source (List.mem_cons_of_mem _ hmem)) (hseen hmissing)
          fun s s' hs source hmem => hfollow s s' hs source (List.mem_cons_of_mem _ hmem)
      · rw [firstFound_of_found hmissing] at hfollow ⊢
        have hsource : R (l.throughFile follow seen file source name) (l'.throughFile follow' seen' file source name) :=
          throughFile_parallel hR (htarget source List.mem_cons_self) hS fun target hn heq =>
            hfollow seen seen' hS source List.mem_cons_self target hn (heq ▸ List.Subset.refl _)
        obtain ⟨hiff, -⟩ := hR.missing hsource
        rw [firstFound_of_found (hmissing ∘ hiff.2)]
        exact hsource

theorem exportStep_parallel (hR : Parallel S R) (hl : SameBut l l' file)
    (hseen : (file, name) ∈ seen ↔ (file, name) ∈ seen') (hold : (file, name) ∈ seen → S seen seen')
    (hcons : (file, name) ∉ seen → S ((file, name) :: seen) ((file, name) :: seen'))
    (hfollow : (file, name) ∉ seen → ∀ target imported, l.Offers file name (.goes target imported) →
      follow ((file, name) :: seen) target imported = l.exportStep follow seen file name →
        R (follow ((file, name) :: seen) target imported) (follow' ((file, name) :: seen') target imported))
    (hfirst : (file, name) ∉ seen → ∀ a a' reason, l.analyses.get? file = some a → l'.analyses.get? file = some a' →
      a.localExport? name = none → reExport? a name = none → name ≠ "default" →
      l.firstFound follow file name reason (passedOn a) ((file, name) :: seen) = l.exportStep follow seen file name →
        R (l.firstFound follow file name reason (passedOn a) ((file, name) :: seen))
          (l'.firstFound follow' file name reason (passedOn a') ((file, name) :: seen'))) :
    R (l.exportStep follow seen file name) (l'.exportStep follow' seen' file name) := by
  by_cases hnew : (file, name) ∈ seen
  · rw [exportStep_of_mem l follow hnew, exportStep_of_mem l' follow' (hseen.1 hnew)]
    exact hR.same (hold hnew) _
  · rw [exportStep, if_neg (mt List.contains_iff_mem.1 hnew)] at hfollow hfirst ⊢
    rw [exportStep, if_neg (mt List.contains_iff_mem.1 (hnew ∘ hseen.2))]
    have hS := hcons hnew
    have hanalysis := hl.analysis
    revert hanalysis
    cases ha : l.analyses.get? file <;> cases ha' : l'.analyses.get? file <;> intro hanalysis
    · exact hR.same hS _
    · cases hanalysis
    · cases hanalysis
    · rename_i a a'
      obtain ⟨-, hlocal, hre⟩ : _ ∧ _ ∧ _ := by cases hanalysis; assumption
      simp only [ha, ← hlocal, ← hre] at hfollow hfirst ⊢
      cases hown : a.localExport? name with
      | some localName =>
          simp only [hown] at hfollow
          exact localTarget_parallel hR hl hS fun target imported hn =>
            hfollow hnew target imported (.own ha hown hn)
      | none =>
          cases hreExport : reExport? a name with
          | some i =>
              obtain ⟨imported, source⟩ := i
              simp only [hown, hreExport] at hfollow ⊢
              split
              · exact hR.same hS _
              · rename_i hnotValue
                obtain ⟨hname, hs⟩ : imported ≠ "*" ∧ ModuleRef.isRelative source = true := by
                  simpa using hnotValue
                rw [if_neg hnotValue] at hfollow
                have hsource := mem_sources_of_reExport hreExport
                exact throughFile_parallel hR (hl.targetFile a source ha hsource) hS fun target hn =>
                  hfollow hnew target imported (.reExported ha hown hreExport hs hname hn)
          | none =>
              simp only [hown, hreExport] at hfirst ⊢
              by_cases hname : name = "default"
              · rw [if_pos hname, if_pos hname]
                exact hR.same hS _
              · rw [if_neg hname] at hfirst ⊢
                rw [if_neg hname]
                exact hfirst hnew a a' _ rfl ha' hown hreExport hname rfl

theorem parallel_eq : Parallel (Eq : Seen → Seen → Prop) Eq where
  same h t := by rw [h]
  missing h := by
    rw [h]
    exact ⟨Iff.rfl, fun _ => rfl⟩

section

variable (h : ∀ other, SameBut l l' other) (hpassed : ∀ other a a', l.analyses.get? other = some a →
  l'.analyses.get? other = some a' → passedOn a = passedOn a')
include h hpassed

theorem exportTarget_congr (fuel : Nat) : l.exportTarget fuel = l'.exportTarget fuel := by
  induction fuel with
  | zero => rfl
  | succ fuel ih =>
      funext seen file name
      rw [exportTarget_succ, exportTarget_succ]
      refine exportStep_parallel parallel_eq (h file) Iff.rfl (fun _ => rfl) (fun _ => rfl) (fun _ _ _ _ _ => by rw [ih]) ?_
      intro _ a a' reason ha ha' _ _ _ _
      rw [← hpassed file a a' ha ha']
      exact firstFound_parallel parallel_eq (confined_exportTarget (fun _ _ _ _ _ _ => trivial) fuel)
        reason _ (fun source hmem => (h file).targetFile a source ha (mem_sources_of_passedOn hmem)) rfl
        fun s s' hs _ _ _ _ _ => by rw [ih, hs]

theorem target_congr (hbound : l.exportBound = l'.exportBound) (file localName : String) :
    l.target file localName = l'.target file localName := by
  rw [target, target, exportTarget_congr h hpassed, hbound]
  exact congrArg Prod.fst (localTarget_parallel parallel_eq (h file) rfl fun _ _ _ _ => rfl)

end

/-! ### The search ends -/

/-- With more rounds than there are exports to be seen it makes no difference what would be done after them. -/
theorem iterate_exportStep (hU : l.Inherited (· ∈ U)) (last : Follow) (fuel : Nat) (seen : Seen)
    (file name : String) (hstart : (file, name) ∈ U) (hfuel : unseen U seen < fuel) :
    l.exportTarget fuel seen file name = (l.exportStep^[fuel] last) seen file name := by
  induction fuel generalizing seen file name with
  | zero => exact absurd hfuel (Nat.not_lt_zero _)
  | succ fuel ih =>
      rw [Function.iterate_succ_apply', exportTarget_succ]
      -- As long as nothing is found all that was seen stays seen, so that each follow-up has less to see.
      have hparallel : Parallel (fun s s' => s = s' ∧ (file, name) :: seen ⊆ s)
          (fun r r' => r = r' ∧ (r.1.IsMissing → (file, name) :: seen ⊆ r.2)) :=
        ⟨fun hS t => ⟨by rw [hS.1], fun _ => hS.2⟩, fun hR => ⟨by rw [hR.1], fun hm => ⟨by rw [hR.1], hR.2 hm⟩⟩⟩
      have hfollow : (file, name) ∉ seen → ∀ s target imported, (file, name) :: seen ⊆ s →
          l.Offers file name (.goes target imported) →
            l.exportTarget fuel s target imported = (l.exportStep^[fuel] last) s target imported ∧
              ((l.exportTarget fuel s target imported).1.IsMissing →
                (file, name) :: seen ⊆ (l.exportTarget fuel s target imported).2) := by
        intro hnew s target imported hs hn
        have hless : unseen U ((file, name) :: seen) < unseen U seen := unseen_cons_lt hstart hnew
        have hrest : unseen U s ≤ unseen U ((file, name) :: seen) := unseen_mono hs
        have heq := ih s target imported (hU file name target imported hstart hn) (by omega)
        exact ⟨heq, fun _ p hp => exportTarget_grows l fuel s target imported (hs hp)⟩
      refine (exportStep_parallel hparallel (.refl l file) Iff.rfl
        (fun hmem => ⟨rfl, List.cons_subset.2 ⟨hmem, List.Subset.refl _⟩⟩)
        (fun _ => ⟨rfl, List.Subset.refl _⟩) (fun hnew target imported hn _ =>
          hfollow hnew _ target imported (List.Subset.refl _) hn) ?_).1
      intro hnew a a' reason ha ha' hown hre hname _
      obtain rfl : a = a' := by simpa [ha] using ha'
      refine firstFound_parallel hparallel (confined_exportTarget (fun _ _ _ _ _ _ => trivial) fuel)
        reason _ (fun _ _ => rfl) ⟨rfl, List.Subset.refl _⟩ ?_
      rintro s _ ⟨rfl, hs⟩ source hsource target hn _
      exact hfollow hnew s target name hs (.passedOn ⟨⟨a, ha, hown, hre, hsource⟩, hname⟩ hn)

/-! ### The exports that there are -/

theorem contains_of_targetFile (h : l.targetFile file source = .ok (some target)) :
    l.analyses.contains target = true := by
  rw [targetFile] at h
  cases hresolve : ModuleRef.resolve? file source l.analyses.contains with
  | none =>
      rw [hresolve] at h
      simp only at h
      split at h <;> simp at h
  | some path =>
      rw [hresolve] at h
      obtain rfl : path = target := by simpa using h
      rw [ModuleRef.resolve?] at hresolve
      split at hresolve
      · exact List.find?_some hresolve
      · cases hresolve

theorem mem_keys_of_targetFile (h : l.targetFile file source = .ok (some target)) : target ∈ l.analyses.keys := by
  obtain ⟨a, ha⟩ := Dict.contains_iff.1 (contains_of_targetFile h)
  exact Dict.mem_keys_iff.2 (by simp [ha])

theorem mem_askedNames_of_import (ha : l.analyses.get? file = some a)
    (hi : a.importOf? localName = some (source, s)) : s.imported ∈ l.askedNames := by
  obtain ⟨i, himport, hspecifier, -⟩ := Analysis.exists_import_of_importOf hi
  refine List.mem_flatMap.2 ⟨a, Dict.mem_values_iff.2 ⟨file, ha⟩, List.mem_append_left _ ?_⟩
  exact List.mem_flatMap.2 ⟨i, himport, List.mem_map_of_mem hspecifier⟩

theorem mem_askedNames_of_reExport (ha : l.analyses.get? file = some a)
    (hre : reExport? a name = some (imported, source)) : imported ∈ l.askedNames := by
  refine List.mem_flatMap.2 ⟨a, Dict.mem_values_iff.2 ⟨file, ha⟩, List.mem_append_right _ ?_⟩
  exact List.mem_filterMap.2 ⟨_, mem_exports_of_reExport hre, rfl⟩

theorem Asks.of_goes (h : l.Asks file source name (.goes target imported)) :
    target ∈ l.analyses.keys ∧ imported = name := by
  cases h with
  | analysed h => exact ⟨mem_keys_of_targetFile h, rfl⟩

theorem Denotes.of_goes (h : l.Denotes file localName (.goes target imported)) :
    target ∈ l.analyses.keys ∧ imported ∈ l.askedNames := by
  cases h with
  | imported _ ha hi _ _ hn =>
      obtain ⟨htarget, rfl⟩ := hn.of_goes
      exact ⟨htarget, mem_askedNames_of_import ha hi⟩

theorem Offers.of_goes (h : l.Offers file name (.goes target imported)) :
    target ∈ l.analyses.keys ∧ (imported = name ∨ imported ∈ l.askedNames) := by
  cases h with
  | own _ _ hn => exact ⟨hn.of_goes.1, .inr hn.of_goes.2⟩
  | reExported ha _ hre _ _ hn =>
      obtain ⟨htarget, rfl⟩ := hn.of_goes
      exact ⟨htarget, .inr (mem_askedNames_of_reExport ha hre)⟩
  | passedOn _ hn => exact ⟨hn.of_goes.1, .inl hn.of_goes.2⟩

/-- Some names in the analysed files. -/
def exportsOf (l : Linker) (names : List String) : Finset (String × String) :=
  l.analyses.keys.toFinset ×ˢ names.toFinset

theorem mem_exportsOf {names : List String} :
    (file, name) ∈ l.exportsOf names ↔ file ∈ l.analyses.keys ∧ name ∈ names := by
  simp [exportsOf]

theorem card_exportsOf_le (l : Linker) (names : List String) :
    (l.exportsOf names).card ≤ l.analyses.size * names.length := by
  have hsize : l.analyses.size = l.analyses.keys.length := (List.length_map ..).symm
  rw [exportsOf, Finset.card_product, hsize]
  exact Nat.mul_le_mul (List.toFinset_card_le _) (List.toFinset_card_le _)

theorem inherited_exportsOf {names : List String} (h : l.askedNames ⊆ names) :
    l.Inherited (· ∈ l.exportsOf names) := by
  intro file name target imported hstart hn
  obtain ⟨htarget, hname⟩ := hn.of_goes
  refine mem_exportsOf.2 ⟨htarget, ?_⟩
  rcases hname with rfl | hasked
  · exact (mem_exportsOf.1 hstart).2
  · exact h hasked

theorem inherited_insert_exportsOf (l : Linker) (file name : String) :
    l.Inherited (· ∈ insert (file, name) (l.exportsOf (name :: l.askedNames))) := by
  intro file' name' target imported hstart hn
  apply Finset.mem_insert_of_mem
  rcases Finset.mem_insert.1 hstart with heq | hmem
  · obtain ⟨rfl, rfl⟩ := Prod.mk.inj heq
    obtain ⟨htarget, hname⟩ := hn.of_goes
    exact mem_exportsOf.2 ⟨htarget, List.mem_cons.2 hname⟩
  · exact inherited_exportsOf (List.subset_cons_self _ _) file' name' target imported hmem hn

theorem unseen_le_card (U : Finset (String × String)) (seen : Seen) : unseen U seen ≤ U.card :=
  Finset.card_le_card Finset.sdiff_subset

/-! ### The search is exact -/

theorem not_resolves_of_closed (hclosed : ∀ p ∈ seen, ∀ n, l.Offers p.1 p.2 n → n.IsSeen seen)
    (hmem : (file, name) ∈ seen) (t : Target) : ¬ l.Resolves file name t := by
  intro h
  induction h with
  | ends h => exact hclosed _ hmem _ h
  | goes h _ ih => exact ih (hclosed _ hmem _ h)

theorem not_resolves_of_missing (hU : l.Inherited (· ∈ U)) (hstart : (file, name) ∈ U) (hfuel : U.card ≤ fuel)
    (h : (l.exportTarget fuel [] file name).1.IsMissing) (t : Target) : ¬ l.Resolves file name t := by
  have hunseen : unseen U [] ≤ fuel := (unseen_le_card U []).trans hfuel
  obtain ⟨hself, hall⟩ := exportTarget_exhausts hU fuel [] file name hstart hunseen h
  exact not_resolves_of_closed (fun p hp => hall p hp (List.not_mem_nil)) (hself _ rfl) t

/-- More rounds than there are exports of the name asked for and of the names that the files ask for. -/
def exportDepth (l : Linker) : Nat := l.analyses.size * (l.askedNames.length + 1) + 2

theorem card_lt_exportDepth (l : Linker) (file name : String) :
    (insert (file, name) (l.exportsOf (name :: l.askedNames))).card < l.exportDepth := by
  have hinsert := Finset.card_insert_le (file, name) (l.exportsOf (name :: l.askedNames))
  have hcard := card_exportsOf_le l (name :: l.askedNames)
  rw [List.length_cons] at hcard
  rw [exportDepth]
  omega

theorem exportTarget_eq_iterate (l : Linker) (fuel : Nat) :
    l.exportTarget fuel = l.exportStep^[fuel] (l.exportTarget 0) := by
  induction fuel with
  | zero => rfl
  | succ fuel ih => rw [exportTarget_succ, ih, Function.iterate_succ_apply']

/-- More rounds than are needed find the same. -/
theorem exportTarget_eq_of_lt {fuel' : Nat} (hU : l.Inherited (· ∈ U)) (hstart : (file, name) ∈ U)
    (hfuel : U.card < fuel) (hle : fuel ≤ fuel') :
    l.exportTarget fuel' [] file name = l.exportTarget fuel [] file name := by
  obtain ⟨more, rfl⟩ := Nat.exists_eq_add_of_le hle
  rw [exportTarget_eq_iterate, Function.iterate_add_apply]
  exact (iterate_exportStep hU _ fuel [] file name hstart ((unseen_le_card U []).trans_lt hfuel)).symm

/-- Following an export comes to an end: from a depth on, which the files give, what it finds does not depend on
how much deeper it may go, nor on what it would do there. It finds what the rules give, and nothing only where
they give nothing. For a name that a file asks for, the program goes as deep as that. -/
theorem export_exact (l : Linker) (file name : String) :
    ∃ t seen, (∀ fuel, l.exportDepth ≤ fuel → l.exportTarget fuel [] file name = (t, seen) ∧
        ∀ last : Follow, (l.exportStep^[fuel] last) [] file name = (t, seen)) ∧
      (l.analyses.contains file = true → name ∈ l.askedNames →
        l.exportTarget l.exportBound [] file name = (t, seen)) ∧
      (¬ t.IsMissing → l.Resolves file name t) ∧ (t.IsMissing → ∀ t', ¬ l.Resolves file name t') := by
  have hU := inherited_insert_exportsOf l file name
  have hstart := Finset.mem_insert_self (file, name) (l.exportsOf (name :: l.askedNames))
  have hcard := card_lt_exportDepth l file name
  refine ⟨(l.exportTarget l.exportDepth [] file name).1, (l.exportTarget l.exportDepth [] file name).2, ?_, ?_, ?_, ?_⟩
  · intro fuel hfuel
    have heq := exportTarget_eq_of_lt hU hstart hcard hfuel
    refine ⟨heq, fun last => ?_⟩
    rw [← heq]
    exact (iterate_exportStep hU last fuel [] file name hstart
      ((unseen_le_card _ []).trans_lt (hcard.trans_le hfuel))).symm
  · intro hfile hname
    obtain ⟨a, ha⟩ := Dict.contains_iff.1 hfile
    have hkey : file ∈ l.analyses.keys := Dict.mem_keys_iff.2 (by simp [ha])
    have hbound : (l.exportsOf l.askedNames).card < l.exportBound :=
      Nat.lt_succ_of_le (card_exportsOf_le l l.askedNames)
    refine (exportTarget_eq_of_lt (inherited_exportsOf (List.Subset.refl _)) (mem_exportsOf.2 ⟨hkey, hname⟩) hbound ?_).symm
    rw [exportBound, exportDepth, Nat.mul_succ]
    omega
  · exact sound_exportTarget l l.exportDepth [] file name
  · exact not_resolves_of_missing hU hstart hcard.le

/-- The same of a name in its file: what is found for it comes by the rules, and nothing is found only where they
give nothing. -/
theorem target_exact (l : Linker) (file localName : String) :
    (¬ (l.target file localName).IsMissing →
        ∃ n, l.Denotes file localName n ∧ n.Reaches l (l.target file localName)) ∧
      ((l.target file localName).IsMissing → ∀ n t, l.Denotes file localName n → ¬ n.Reaches l t) := by
  have hsearch := localTarget_search l (l.exportTarget l.exportBound) [] file localName
  refine ⟨hsearch.sound (sound_exportTarget l l.exportBound), ?_⟩
  have hexhausts := hsearch.exhausts (l := l) (confined_exportTarget (fun _ _ _ _ _ _ => trivial) l.exportBound)
    fun seen target imported _ hn => ?_
  · intro hmissing n t hn ht
    obtain ⟨hnext, hall⟩ := hexhausts hmissing
    have hseen := hnext n hn
    cases n with
    | ends t' => exact hseen
    | goes target imported =>
        exact not_resolves_of_closed (fun p hp => hall p hp List.not_mem_nil) hseen t ht
  · have hbound := card_exportsOf_le l l.askedNames
    refine exportTarget_exhausts (inherited_exportsOf (List.Subset.refl _)) l.exportBound seen target imported
      (mem_exportsOf.2 hn.of_goes) ((unseen_le_card _ seen).trans (hbound.trans (Nat.le_succ _)))

end Linker
end StaticGql

namespace StaticGql

variable {analyses : Dict Analysis} {a : Analysis} {file source : String}

/-- Wherever an analysed file asks for a file that is not analysed, one is there for both, or for
neither. -/
def SameBeside (analyses : Dict Analysis) (onDisk onDisk' : String → Bool) : Prop :=
  ∀ file a, analyses.get? file = some a → ∀ source ∈ a.sources,
    ModuleRef.resolve? file source analyses.contains = none →
      (ModuleRef.resolve? file source onDisk).isSome = (ModuleRef.resolve? file source onDisk').isSome

namespace Linker

/-! ### Following names -/

/-- The linker with other files beside the analysed ones. -/
def beside (l : Linker) (onDisk : String → Bool) : Linker := { l with onDisk := onDisk }

variable {l : Linker} {onDisk : String → Bool}

theorem sameBut_beside (h : SameBeside l.analyses l.onDisk onDisk) (file : String) : SameBut l (l.beside onDisk) file where
  under _ := rfl
  targetFile a source ha hsource := by
    have hanalysed : (l.beside onDisk).analyses = l.analyses := rfl
    rw [targetFile, targetFile, hanalysed]
    cases hresolve : ModuleRef.resolve? file source l.analyses.contains with
    | some path => rfl
    | none =>
        have hsame := h file a ha source hsource hresolve
        simp only [beside, hsame]
        rfl
  analysis := (SameBut.refl l file).analysis

theorem target_beside (h : SameBeside l.analyses l.onDisk onDisk) (file localName : String) :
    (l.beside onDisk).target file localName = l.target file localName := by
  refine (target_congr (sameBut_beside h) (fun other a a' ha ha' => ?_) rfl file localName).symm
  cases ha.symm.trans ha'
  rfl

/-! ### Linking -/

theorem linkFile_beside (h : SameBeside l.analyses l.onDisk onDisk) (file : String) (a : Analysis) :
    (l.beside onDisk).linkFile file a = l.linkFile file a := by
  have hreferenced : (l.beside onDisk).referenced a file = l.referenced a file := by
    funext s id localName
    rw [referenced, referenced, target_beside h]
  have hsite : (l.beside onDisk).linkSite file a = l.linkSite file a := by
    funext s
    have hid : (l.beside onDisk).declaration? file s.structuralPath =
      l.declaration? file s.structuralPath := rfl
    rw [linkSite, linkSite, hid, hreferenced]
  rw [linkFile, linkFile, hsite]

end Linker

/-- Graphs do not change with files that nobody asks for. -/
theorem Graph.build_beside (mode : IdMode) {onDisk onDisk' : String → Bool}
    (h : SameBeside analyses onDisk onDisk') :
    Graph.build mode analyses onDisk = Graph.build mode analyses onDisk' := by
  rw [build, build]
  have hcreate : Linker.create mode analyses onDisk' =
      (Linker.create mode analyses onDisk).map fun l => l.beside onDisk' := by
    rw [Linker.create, Linker.create]
    generalize (analyses.toList.mapM _ : Except IdError (List (String × Dict CanonicalId))) = files
    cases files <;> rfl
  cases hl : Linker.create mode analyses onDisk with
  | error e =>
      rw [hl] at hcreate
      rw [hcreate]
      rfl
  | ok l =>
      have hsame : SameBeside l.analyses l.onDisk onDisk' := by
        obtain ⟨ids, -, hids⟩ := map_eq_ok_iff.1 hl
        rw [← hids]
        exact h
      have hlink : (fun e : String × Analysis => l.linkFile e.1 e.2) =
          fun e => (l.beside onDisk').linkFile e.1 e.2 := by
        funext e
        exact (Linker.linkFile_beside hsame e.1 e.2).symm
      rw [hl] at hcreate
      rw [hcreate]
      show (analyses.toList.mapM fun e => l.linkFile e.1 e.2) >>= _ = _
      rw [hlink]
      rfl

end StaticGql
