import StaticGql.Proofs.Graph.Exact

/-!
Two linkers that differ in the order of the sources of which one file passes all on. What a name leads to is the
same for both, as long as no two of these sources offer the name.
-/

namespace StaticGql

/-- The declarations that a target adds to the references of a declaration. -/
def Target.ids : Target → List CanonicalId
  | .declarations ids => ids
  | .value | .outside | .missing _ => []

namespace Linker

variable {l l' : Linker} {a a' : Analysis} {t : Target} {seen seen' : Seen} {r r' : Target × Seen}
  {follow : Follow} {file other name localName source target : String} {sources : List String} {fuel : Nat}
  {P : String × String → Prop}

def Exported (l : Linker) (file name : String) : Prop := ∃ t, l.Resolves file name t

theorem exported_iff (l : Linker) (file name : String) :
    l.Exported file name ↔ ¬ (l.exportTarget l.exportDepth [] file name).1.IsMissing := by
  constructor
  · rintro ⟨t, ht⟩ hmissing
    exact not_resolves_of_missing (inherited_insert_exportsOf l file name) (Finset.mem_insert_self _ _)
      (card_lt_exportDepth l file name).le hmissing t ht
  · exact fun hfound => ⟨_, sound_exportTarget l l.exportDepth [] file name hfound⟩

instance (l : Linker) (file name : String) : Decidable (l.Exported file name) :=
  decidable_of_iff _ (l.exported_iff file name).symm

/-- Of the sources of which a file passes all on, one analysed file at most offers a name. -/
def Unambiguous (l : Linker) (file name : String) : Prop :=
  ∀ source source' target target', l.PassesOn file name source → l.PassesOn file name source' →
    l.targetFile file source = .ok (some target) → l.targetFile file source' = .ok (some target') →
      l.Exported target name → l.Exported target' name → target = target'

/-- No declarations come under a name from an analysed file where a file that is not analysed is passed on too. -/
def NotBeside (l : Linker) (file name : String) : Prop :=
  ∀ source source' target ids, l.PassesOn file name source → l.PassesOn file name source' →
    l.targetFile file source = .ok none → l.targetFile file source' = .ok (some target) →
      ¬ l.Resolves target name (.declarations ids)

structure Reordered (l l' : Linker) (file : String) : Prop where
  same : ∀ other, SameBut l l' other
  targets : ∀ other source, l.targetFile other source = l'.targetFile other source
  passed : ∀ other a a', l.analyses.get? other = some a → l'.analyses.get? other = some a' →
    ∀ source, source ∈ passedOn a' ↔ source ∈ passedOn a
  order : ∀ other a a', other ≠ file → l.analyses.get? other = some a → l'.analyses.get? other = some a' →
    passedOn a' = passedOn a

/-! ### The rules for both -/

theorem SameBut.exists_of_some (h : SameBut l l' file) (ha : l'.analyses.get? file = some a') :
    ∃ a, l.analyses.get? file = some a ∧ (∀ localName, a.importOf? localName = a'.importOf? localName) ∧
      (∀ name, a.localExport? name = a'.localExport? name) ∧ ∀ name, reExport? a name = reExport? a' name := by
  have hanalysis := h.analysis
  rw [ha] at hanalysis
  cases hget : l.analyses.get? file with
  | none =>
      rw [hget] at hanalysis
      cases hanalysis
  | some a =>
      rw [hget] at hanalysis
      cases hanalysis with
      | some halike => exact ⟨a, rfl, halike⟩

theorem SameBut.get?_eq_none (h : SameBut l l' file) (ha : l'.analyses.get? file = none) :
    l.analyses.get? file = none := by
  have hanalysis := h.analysis
  rw [ha] at hanalysis
  cases hget : l.analyses.get? file with
  | none => rfl
  | some a =>
      rw [hget] at hanalysis
      cases hanalysis

theorem Reordered.asks {n : Next} (h : Reordered l l' file) (hn : l'.Asks other source name n) :
    l.Asks other source name n := by
  cases hn with
  | analysed htarget => exact .analysed ((h.targets other source).trans htarget)
  | beside htarget => exact .beside ((h.targets other source).trans htarget)

theorem Reordered.denotes {n : Next} (h : Reordered l l' file) (hn : l'.Denotes other localName n) :
    l.Denotes other localName n := by
  have hsame := h.same other
  have hunder := hsame.under localName
  cases hn with
  | declarations hne =>
      rw [← hunder] at hne ⊢
      exact .declarations hne
  | outside hnil ha => exact .outside (hunder.trans hnil) (hsame.get?_eq_none ha)
  | bound hnil ha hi =>
      obtain ⟨a, ha, himport, -⟩ := hsame.exists_of_some ha
      exact .bound (hunder.trans hnil) ha ((himport localName).trans hi)
  | foreign hnil ha hi hs =>
      obtain ⟨a, ha, himport, -⟩ := hsame.exists_of_some ha
      exact .foreign (hunder.trans hnil) ha ((himport localName).trans hi) hs
  | imported hnil ha hi hs hname hn =>
      obtain ⟨a, ha, himport, -⟩ := hsame.exists_of_some ha
      exact .imported (hunder.trans hnil) ha ((himport localName).trans hi) hs hname (h.asks hn)

theorem Reordered.passesOn (h : Reordered l l' file) (hn : l'.PassesOn other name source) :
    l.PassesOn other name source := by
  obtain ⟨⟨a', ha', hown, hre, hsource⟩, hname⟩ := hn
  obtain ⟨a, ha, -, hlocal, hreExport⟩ := (h.same other).exists_of_some ha'
  exact ⟨⟨a, ha, (hlocal name).trans hown, (hreExport name).trans hre, (h.passed other a a' ha ha' source).1 hsource⟩,
    hname⟩

theorem Reordered.offers {n : Next} (h : Reordered l l' file) (hn : l'.Offers other name n) :
    l.Offers other name n := by
  cases hn with
  | outside ha => exact .outside ((h.same other).get?_eq_none ha)
  | own ha hown hn =>
      obtain ⟨a, ha, -, hlocal, -⟩ := (h.same other).exists_of_some ha
      exact .own ha ((hlocal name).trans hown) (h.denotes hn)
  | foreign ha hown hre hs =>
      obtain ⟨a, ha, -, hlocal, hreExport⟩ := (h.same other).exists_of_some ha
      exact .foreign ha ((hlocal name).trans hown) ((hreExport name).trans hre) hs
  | reExported ha hown hre hs hname hn =>
      obtain ⟨a, ha, -, hlocal, hreExport⟩ := (h.same other).exists_of_some ha
      exact .reExported ha ((hlocal name).trans hown) ((hreExport name).trans hre) hs hname (h.asks hn)
  | passedOn hpasses hn => exact .passedOn (h.passesOn hpasses) (h.asks hn)

theorem Reordered.resolves (h : Reordered l l' file) (ht : l'.Resolves other name t) : l.Resolves other name t := by
  induction ht with
  | ends hn => exact .ends (h.offers hn)
  | goes hn _ ih => exact .goes (h.offers hn) ih

theorem Reordered.symm (h : Reordered l l' file) : Reordered l' l file where
  same other := by
    refine ⟨fun localName => ((h.same other).under localName).symm, fun _ source _ _ => (h.targets other source).symm, ?_⟩
    have hanalysis := (h.same other).analysis
    revert hanalysis
    cases l.analyses.get? other <;> cases l'.analyses.get? other <;> intro hanalysis <;> cases hanalysis
    · exact .none
    · rename_i halike
      obtain ⟨himport, hlocal, hre⟩ := halike
      exact .some ⟨fun localName => (himport localName).symm, fun name => (hlocal name).symm, fun name => (hre name).symm⟩
  targets other source := (h.targets other source).symm
  passed other a a' ha ha' source := (h.passed other a' a ha' ha source).symm
  order other a a' hother ha ha' := (h.order other a' a hother ha' ha).symm

theorem Reordered.refl (l : Linker) (file : String) : Reordered l l file where
  same := .refl l
  targets _ _ := rfl
  passed other a a' ha ha' source := by
    obtain rfl : a = a' := by simpa [ha] using ha'
    exact Iff.rfl
  order other a a' _ ha ha' := by
    obtain rfl : a = a' := by simpa [ha] using ha'
    rfl

/-! ### Names that are not exported -/

/-- An export that no rule resolves is not found, and following it adds only such exports to what was seen. -/
theorem Reordered.not_exported (h : Reordered l l' file) (hnot : ¬ l.Exported other name) (fuel : Nat) (seen : Seen) :
    (l'.exportTarget fuel seen other name).1.IsMissing ∧
      Adds (fun p => ¬ l.Exported p.1 p.2) seen (l'.exportTarget fuel seen other name).2 := by
  constructor
  · by_contra hfound
    exact hnot ⟨_, h.resolves (sound_exportTarget l' fuel seen other name hfound)⟩
  · refine confined_exportTarget (P := fun p => ¬ l.Exported p.1 p.2) ?_ fuel seen other name hnot
    intro other name target imported hnot hn
    exact fun ⟨t, ht⟩ => hnot ⟨t, .goes (h.offers hn) ht⟩

/-- What two searches have seen, of the exports that some rule resolves. -/
def Agree (l : Linker) (seen seen' : Seen) : Prop := ∀ p, l.Exported p.1 p.2 → (p ∈ seen ↔ p ∈ seen')

theorem Agree.of_adds {s s' : Seen} (h : l.Agree seen seen') (hs : Adds (fun p => ¬ l.Exported p.1 p.2) seen s)
    (hs' : Adds (fun p => ¬ l.Exported p.1 p.2) seen' s') : l.Agree s s' := by
  intro p hp
  constructor
  · intro hmem
    have hold : p ∈ seen := (hs.only p hmem).resolve_right (not_not_intro hp)
    exact hs'.keeps ((h p hp).1 hold)
  · intro hmem
    have hold : p ∈ seen' := (hs'.only p hmem).resolve_right (not_not_intro hp)
    exact hs.keeps ((h p hp).2 hold)

theorem Agree.cons (h : l.Agree seen seen') (p : String × String) : l.Agree (p :: seen) (p :: seen') := by
  intro q hq
  rw [List.mem_cons, List.mem_cons, h q hq]

/-- Answers that lead to the same declarations. -/
structure Related (l : Linker) (r r' : Target × Seen) : Prop where
  missing : r.1.IsMissing ↔ r'.1.IsMissing
  ids : r.1.ids = r'.1.ids
  seen : r.1.IsMissing → l.Agree r.2 r'.2

theorem Target.IsMissing.ids_eq_nil (h : t.IsMissing) : t.ids = [] := by
  cases t with
  | missing reason => rfl
  | declarations | value | outside => cases h

theorem Related.of_missing (hr : r.1.IsMissing) (hr' : r'.1.IsMissing) (hseen : l.Agree r.2 r'.2) : l.Related r r' where
  missing := iff_of_true hr hr'
  ids := by rw [Target.IsMissing.ids_eq_nil hr, Target.IsMissing.ids_eq_nil hr']
  seen _ := hseen

theorem parallel_related (l : Linker) : Parallel l.Agree l.Related where
  same h _ := ⟨Iff.rfl, rfl, fun _ => h⟩
  missing h := ⟨h.missing, h.seen⟩

/-! ### One source after another -/

theorem throughFile_of_analysed (h : l.targetFile file source = .ok (some target)) :
    l.throughFile follow seen file source name = follow seen target name := by
  rw [throughFile, h]

theorem firstFound_of_outside (hmem : source ∈ sources) (h : l.targetFile file source = .ok none) (reason : String)
    (seen : Seen) : ¬ (l.firstFound follow file name reason sources seen).1.IsMissing := by
  induction sources generalizing seen with
  | nil => cases hmem
  | cons first rest ih =>
      by_cases hmissing : (l.throughFile follow seen file first name).1.IsMissing
      · rw [firstFound_of_missing hmissing]
        rcases List.mem_cons.1 hmem with rfl | hmem
        · rw [throughFile, h] at hmissing
          exact hmissing.elim
        · exact ih hmem _
      · rw [firstFound_of_found hmissing]
        exact hmissing

/-- Nothing is found where no source gives anything from some sight on. -/
theorem firstFound_nothing (start : Seen) (hnothing : ∀ source ∈ sources, ∀ s, start ⊆ s →
      (l.throughFile follow s file source name).1.IsMissing ∧ Adds P s (l.throughFile follow s file source name).2)
    (reason : String) (hseen : start ⊆ seen) : (l.firstFound follow file name reason sources seen).1.IsMissing ∧
      Adds P seen (l.firstFound follow file name reason sources seen).2 := by
  induction sources generalizing seen with
  | nil => exact ⟨trivial, .refl P seen⟩
  | cons source rest ih =>
      obtain ⟨hmissing, hadds⟩ := hnothing source List.mem_cons_self seen hseen
      obtain ⟨hrest, hadds'⟩ := ih (fun source' hmem => hnothing source' (List.mem_cons_of_mem source hmem))
        fun p hp => hadds.keeps (hseen hp)
      rw [firstFound_of_missing hmissing]
      exact ⟨hrest, hadds.trans hadds'⟩

/-- Where every source that gives anything means one file, what is found is what that file gives. -/
theorem firstFound_only (hothers : ∀ source ∈ sources, l.targetFile file source = .ok (some target) ∨ ∀ s,
      (l.throughFile follow s file source name).1.IsMissing ∧ Adds P s (l.throughFile follow s file source name).2)
    (hagain : ∀ s s', (follow s target name).1.IsMissing → (follow s target name).2 ⊆ s' →
      (follow s' target name).1.IsMissing ∧ (follow s' target name).2 = s')
    (hmem : ∃ source ∈ sources, l.targetFile file source = .ok (some target)) (reason : String) (seen : Seen) :
    ∃ s, Adds P seen s ∧
      (¬ (follow s target name).1.IsMissing →
        l.firstFound follow file name reason sources seen = follow s target name) ∧
      ((follow s target name).1.IsMissing → (l.firstFound follow file name reason sources seen).1.IsMissing ∧
        Adds P (follow s target name).2 (l.firstFound follow file name reason sources seen).2) := by
  induction sources generalizing seen with
  | nil => simp at hmem
  | cons source rest ih =>
      have hrest : ∀ source' ∈ rest, source' ∈ source :: rest := fun _ => List.mem_cons_of_mem source
      by_cases hsource : l.targetFile file source = .ok (some target)
      · -- A second source that means the same file finds it seen, and so adds nothing.
        have hfirst : l.throughFile follow seen file source name = follow seen target name :=
          throughFile_of_analysed hsource
        refine ⟨seen, .refl P seen, fun hfound => ?_, fun hmissing => ?_⟩
        · rw [← hfirst] at hfound ⊢
          exact firstFound_of_found hfound
        · rw [firstFound_of_missing (by rwa [hfirst]), hfirst]
          refine firstFound_nothing (follow seen target name).2 ?_ reason (List.Subset.refl _)
          intro source' hmem' s hs
          rcases hothers source' (hrest source' hmem') with htarget | hnothing
          · obtain ⟨hmissing', hseen⟩ := hagain seen s hmissing hs
            rw [throughFile_of_analysed htarget, hseen]
            exact ⟨hmissing', .refl P s⟩
          · exact hnothing s
      · obtain ⟨hmissing, hadds⟩ := (hothers source List.mem_cons_self).resolve_left hsource seen
        have hmem' : ∃ source ∈ rest, l.targetFile file source = .ok (some target) := by
          obtain ⟨source', hmem', htarget⟩ := hmem
          rcases List.mem_cons.1 hmem' with rfl | hmem'
          · exact absurd htarget hsource
          · exact ⟨source', hmem', htarget⟩
        obtain ⟨s, hs, hfound, hnotFound⟩ := ih (fun source' h => hothers source' (hrest source' h)) hmem'
          (l.throughFile follow seen file source name).2
        rw [firstFound_of_missing hmissing]
        exact ⟨s, hadds.trans hs, hfound, hnotFound⟩

theorem exportTarget_again (l : Linker) (fuel : Nat) (s s' : Seen)
    (hmissing : (l.exportTarget fuel s target name).1.IsMissing) (hsub : (l.exportTarget fuel s target name).2 ⊆ s') :
    (l.exportTarget fuel s' target name).1.IsMissing ∧ (l.exportTarget fuel s' target name).2 = s' := by
  cases fuel with
  | zero => exact ⟨trivial, rfl⟩
  | succ fuel =>
      have hseen := hsub (mem_exportTarget_succ l fuel s target name)
      rw [exportTarget_succ, exportStep_of_mem l _ hseen]
      exact ⟨trivial, rfl⟩

/-! ### What one file passes on -/

theorem NotBeside.ids_eq_nil (hnot : l.NotBeside file name) (hpasses : l.PassesOn file name source)
    (hsource : l.targetFile file source = .ok none) {source' : String} {n : Next} (hpasses' : l.PassesOn file name source')
    (hn : l.Asks file source' name n) (ht : n.Reaches l t) : t.ids = [] := by
  cases hn with
  | beside h =>
      obtain rfl : Target.outside = t := ht
      rfl
  | analysed h =>
      cases t with
      | declarations ids => exact absurd ht (hnot source source' _ ids hpasses hpasses' hsource h)
      | value | outside | missing => rfl

theorem Reordered.firstFound_ids (h : Reordered l l' file) (hnot : l.NotBeside file name)
    (hpasses : l.PassesOn file name source) (hsource : l.targetFile file source = .ok none)
    (hsources : ∀ source ∈ sources, l.PassesOn file name source) (reason : String) (fuel : Nat) (seen : Seen) :
    (l'.firstFound (l'.exportTarget fuel) file name reason sources seen).1.ids = [] := by
  by_cases hmissing : (l'.firstFound (l'.exportTarget fuel) file name reason sources seen).1.IsMissing
  · exact Target.IsMissing.ids_eq_nil hmissing
  · have hsearch := firstFound_search l' (l'.exportTarget fuel) file name reason sources seen
    obtain ⟨n, ⟨source', hmem, hn⟩, ht⟩ := hsearch.sound (sound_exportTarget l' fuel) hmissing
    refine hnot.ids_eq_nil hpasses hsource (hsources source' hmem) (h.asks hn) ?_
    cases n with
    | ends t => exact ht
    | goes target imported => exact h.resolves ht

/-- A source that is not the one file that offers a name gives nothing. -/
theorem Reordered.throughFile_nothing (h : Reordered l l' file) (hone : l.Unambiguous file name)
    (hpasses : l.PassesOn file name source) (htarget : l.targetFile file source = .ok (some target))
    (hexported : l.Exported target name) {source' : String} (hpasses' : l.PassesOn file name source')
    (hanalysed : l.targetFile file source' ≠ .ok none) (fuel : Nat) :
    l'.targetFile file source' = .ok (some target) ∨ ∀ s,
      (l'.throughFile (l'.exportTarget fuel) s file source' name).1.IsMissing ∧
        Adds (fun p => ¬ l.Exported p.1 p.2) s (l'.throughFile (l'.exportTarget fuel) s file source' name).2 := by
  rw [← h.targets file]
  cases htarget' : l.targetFile file source' with
  | error reason =>
      right
      intro s
      rw [throughFile, ← h.targets file, htarget']
      exact ⟨trivial, .refl _ s⟩
  | ok target? =>
      cases target? with
      | none => exact absurd htarget' hanalysed
      | some target' =>
          by_cases heq : target' = target
          · exact .inl (by rw [heq])
          · right
            intro s
            rw [throughFile_of_analysed ((h.targets file source').symm.trans htarget')]
            have hnot : ¬ l.Exported target' name := fun hexported' =>
              heq (hone source' source target' target hpasses' hpasses htarget' htarget hexported' hexported)
            exact h.not_exported hnot fuel s

/-- What is found is what the one file that offers a name gives, after some search that comes upon nothing. -/
theorem Reordered.firstFound_spec (h : Reordered l l' file) (hone : l.Unambiguous file name)
    (hpasses : l.PassesOn file name source) (htarget : l.targetFile file source = .ok (some target))
    (hexported : l.Exported target name) (hsources : ∀ source' ∈ sources,
      l.PassesOn file name source' ∧ l.targetFile file source' ≠ .ok none) (hmem : source ∈ sources) (reason : String)
    (fuel : Nat) (seen : Seen) : ∃ s, Adds (fun p => ¬ l.Exported p.1 p.2) seen s ∧
      (¬ (l'.exportTarget fuel s target name).1.IsMissing →
        l'.firstFound (l'.exportTarget fuel) file name reason sources seen = l'.exportTarget fuel s target name) ∧
      ((l'.exportTarget fuel s target name).1.IsMissing →
        (l'.firstFound (l'.exportTarget fuel) file name reason sources seen).1.IsMissing ∧
          Adds (fun p => ¬ l.Exported p.1 p.2) (l'.exportTarget fuel s target name).2
            (l'.firstFound (l'.exportTarget fuel) file name reason sources seen).2) := by
  refine firstFound_only (fun source' hsource' => ?_) (exportTarget_again l' fuel) ⟨source, hmem, ?_⟩ reason seen
  · obtain ⟨hpasses', hanalysed⟩ := hsources source' hsource'
    exact h.throughFile_nothing hone hpasses htarget hexported hpasses' hanalysed fuel
  · exact (h.targets file source).symm.trans htarget

/-- Where no source is a file that is not analysed, a name comes from one that is. -/
theorem exists_source_of_exported (ha : l.analyses.get? file = some a) (hown : a.localExport? name = none)
    (hre : reExport? a name = none) (hexported : l.Exported file name)
    (hbeside : ¬ ∃ source ∈ passedOn a, l.targetFile file source = .ok none) :
    ∃ source ∈ passedOn a, ∃ target, l.targetFile file source = .ok (some target) ∧ l.Exported target name := by
  obtain ⟨t, ht⟩ := hexported
  cases ht with
  | ends hn =>
      obtain ⟨-, source, hsource, hn⟩ := (offers_iff_passedOn ha hown hre).1 hn
      cases hn with
      | beside hnone => exact absurd ⟨source, hsource, hnone⟩ hbeside
  | goes hn ht =>
      obtain ⟨-, source, hsource, hn⟩ := (offers_iff_passedOn ha hown hre).1 hn
      cases hn with
      | analysed htarget => exact ⟨source, hsource, _, htarget, _, ht⟩

theorem Reordered.firstFound_related (h : Reordered l l' file) (hone : l.Unambiguous file name)
    (hnot : l.NotBeside file name) (ha : l.analyses.get? file = some a) (ha' : l'.analyses.get? file = some a')
    (hown : a.localExport? name = none) (hre : reExport? a name = none) (hname : name ≠ "default")
    (hexported : l.Exported file name) (reason : String) (hseen : l.Agree seen seen')
    (hfollow : ∀ s s' target, l.Agree s s' → (l.exportTarget fuel s target name).2 ⊆
        (l.firstFound (l.exportTarget fuel) file name reason (passedOn a) seen).2 →
      l.Related (l.exportTarget fuel s target name) (l'.exportTarget fuel s' target name)) :
    l.Related (l.firstFound (l.exportTarget fuel) file name reason (passedOn a) seen)
      (l'.firstFound (l'.exportTarget fuel) file name reason (passedOn a') seen') := by
  have hpasses : ∀ source ∈ passedOn a, l.PassesOn file name source := fun source hmem =>
    ⟨⟨a, ha, hown, hre, hmem⟩, hname⟩
  have hmoved : ∀ source, source ∈ passedOn a' ↔ source ∈ passedOn a := h.passed file a a' ha ha'
  by_cases hbeside : ∃ source ∈ passedOn a, l.targetFile file source = .ok none
  · -- Both find something, though not always the same, and it is no declaration for either.
    obtain ⟨source, hsource, hnone⟩ := hbeside
    have hfound : ¬ (l.firstFound (l.exportTarget fuel) file name reason (passedOn a) seen).1.IsMissing :=
      firstFound_of_outside hsource hnone reason seen
    have hfound' : ¬ (l'.firstFound (l'.exportTarget fuel) file name reason (passedOn a') seen').1.IsMissing :=
      firstFound_of_outside ((hmoved source).2 hsource) ((h.targets file source).symm.trans hnone) reason seen'
    have hids := (Reordered.refl l file).firstFound_ids hnot (hpasses source hsource) hnone hpasses reason fuel seen
    have hids' := h.firstFound_ids hnot (hpasses source hsource) hnone
      (fun source' hmem => hpasses source' ((hmoved source').1 hmem)) reason fuel seen'
    exact ⟨iff_of_false hfound hfound', hids.trans hids'.symm, fun hmissing => absurd hmissing hfound⟩
  · obtain ⟨source, hsource, target, htarget, hoffered⟩ := exists_source_of_exported ha hown hre hexported hbeside
    have hanalysed : ∀ source ∈ passedOn a, l.PassesOn file name source ∧ l.targetFile file source ≠ .ok none :=
      fun source' hmem => ⟨hpasses source' hmem, fun hnone => hbeside ⟨source', hmem, hnone⟩⟩
    obtain ⟨s, hs, hfound, hmissing⟩ := (Reordered.refl l file).firstFound_spec hone (hpasses source hsource) htarget
      hoffered hanalysed hsource reason fuel seen
    obtain ⟨s', hs', hfound', hmissing'⟩ := h.firstFound_spec hone (hpasses source hsource) htarget hoffered
      (fun source' hmem => hanalysed source' ((hmoved source').1 hmem)) ((hmoved source).2 hsource) reason fuel seen'
    have hagree : l.Agree s s' := hseen.of_adds hs hs'
    by_cases hm : (l.exportTarget fuel s target name).1.IsMissing
    · obtain ⟨hnothing, hadds⟩ := hmissing hm
      have hrelated := hfollow s s' target hagree hadds.keeps
      obtain ⟨hnothing', hadds'⟩ := hmissing' (hrelated.missing.1 hm)
      exact .of_missing hnothing hnothing' ((hrelated.seen hm).of_adds hadds hadds')
    · have heq := hfound hm
      have hrelated := hfollow s s' target hagree (heq ▸ List.Subset.refl _)
      rw [heq, hfound' (hm ∘ hrelated.missing.2)]
      exact hrelated

/-! ### The whole search -/

theorem Reordered.exportTarget_related (h : Reordered l l' file) (fuel : Nat) (seen seen' : Seen) (other name : String)
    (hseen : l.Agree seen seen') (hall : ∀ n, (file, n) ∈ (l.exportTarget fuel seen other name).2 →
      l.Unambiguous file n ∧ l.NotBeside file n) :
    l.Related (l.exportTarget fuel seen other name) (l'.exportTarget fuel seen' other name) := by
  induction fuel generalizing seen seen' other name with
  | zero => exact .of_missing trivial trivial hseen
  | succ fuel ih =>
      -- Only an export that some rule resolves has to be followed side by side: any other is missing for both,
      -- whatever the order in which they try.
      by_cases hexported : l.Exported other name
      · have hmem := mem_exportTarget_succ l fuel seen other name
        rw [exportTarget_succ] at hall hmem
        rw [exportTarget_succ, exportTarget_succ]
        refine exportStep_parallel (parallel_related l) (h.same other) (hseen _ hexported) (fun _ => hseen)
          (fun _ => hseen.cons _) (fun _ target imported _ heq => ?_) ?_
        · exact ih _ _ target imported (hseen.cons _) (heq ▸ hall)
        · intro _ a a' reason ha ha' hown hre hname heq
          rw [← heq] at hall hmem
          by_cases hother : other = file
          · subst hother
            obtain ⟨hone, hnot⟩ := hall name hmem
            exact h.firstFound_related hone hnot ha ha' hown hre hname hexported reason (hseen.cons _)
              fun s s' target hs hsub => ih s s' target name hs fun n hn => hall n (hsub hn)
          · rw [h.order other a a' hother ha ha']
            refine firstFound_parallel (parallel_related l) (confined_exportTarget (fun _ _ _ _ _ _ => trivial) fuel)
              reason _ (fun source _ => h.targets other source) (hseen.cons _) ?_
            intro s s' hs source _ target _ hsub
            exact ih s s' target name hs fun n hn => hall n (hsub hn)
      · obtain ⟨hmissing, hadds⟩ := (Reordered.refl l file).not_exported hexported (fuel + 1) seen
        obtain ⟨hmissing', hadds'⟩ := h.not_exported hexported (fuel + 1) seen'
        exact .of_missing hmissing hmissing' (hseen.of_adds hadds hadds')

/-- What was looked up for a name that a declaration of a file refers to. -/
def lookups (l : Linker) (file localName : String) : Seen :=
  (l.localTarget (l.exportTarget l.exportBound) [] file localName).2

theorem Reordered.ids_target (h : Reordered l l' file) (hbound : l'.exportBound = l.exportBound)
    (hall : ∀ n, (file, n) ∈ l.lookups other localName → l.Unambiguous file n ∧ l.NotBeside file n) :
    (l'.target other localName).ids = (l.target other localName).ids := by
  have hrelated : l.Related (l.localTarget (l.exportTarget l.exportBound) [] other localName)
      (l'.localTarget (l'.exportTarget l.exportBound) [] other localName) := by
    refine localTarget_parallel (parallel_related l) (h.same other) (fun _ _ => Iff.rfl) fun target imported _ heq => ?_
    exact h.exportTarget_related l.exportBound [] [] target imported (fun _ _ => Iff.rfl) fun n hn =>
        hall n (by rwa [lookups, ← heq])
  rw [target, target, hbound]
  exact hrelated.ids.symm

/-- Whether a name leads anywhere does not depend on the order. -/
theorem Reordered.isMissing_target (h : Reordered l l' file) (hmissing : (l.target other localName).IsMissing) :
    (l'.target other localName).IsMissing := by
  by_contra hfound
  obtain ⟨n, hn, ht⟩ := (target_exact l' other localName).1 hfound
  refine (target_exact l other localName).2 hmissing n (l'.target other localName) (h.denotes hn) ?_
  cases n with
  | ends t => exact ht
  | goes target imported => exact h.resolves ht

end Linker
end StaticGql
