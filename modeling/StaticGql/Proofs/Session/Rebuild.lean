import StaticGql.Proofs.Analysis.Reread
import StaticGql.Proofs.Artifact.RoundTrip
import StaticGql.Proofs.Graph.Blur
import StaticGql.Proofs.Registry.Project
import StaticGql.Proofs.Session.Collect
import StaticGql.Proofs.Tracker

/-!
Building again. Whatever a session has been through, and whatever it found in a stored cache, a build
comes to what a fresh session without a cache comes to, unless it takes the last artifact because no
collected file has changed while the files beside them have.
-/

namespace StaticGql

/-- The configuration without a place to store a cache. -/
def Config.withoutCache (c : Config) : Config := { c with build := { c.build with cacheDir := none } }

/-- What an analysis gives to a report. -/
def Analysis.warnings (a : Analysis) : List Warning := a.diagnostics.map (Warning.ofDiagnostic a.file)

namespace Session

/-! ### Outcomes -/

/-- Both builds fail, or both succeed with one stable text. -/
def SameOutcome (r r' : Except Failure Built) : Prop :=
  (∃ e e', r = .error e ∧ r' = .error e') ∨
    ∃ b b', r = .ok b ∧ r' = .ok b' ∧ b.artifact.stableText = b'.artifact.stableText

/-- The warnings of a build that has collected these analyses. -/
def warningsOf (analyses : Dict Analysis) : List Warning :=
  (analyses.values.flatMap Analysis.warnings).mergeSort Warning.le

variable {s t : Session} {d d₀ : Disk} {c c' : Collection} {analyses analyses' : Dict Analysis}
  {modules modules' : Dict ModuleDefinition} {scheduler scheduler' : Scheduler} {texts : String → Set String}
  {seen done done₀ : Set String}

theorem warnings_addDiagnostics (l : List Analysis) (a : Assembly) :
    (l.foldl Assembly.addDiagnostics a).warnings = a.warnings ++ l.flatMap Analysis.warnings := by
  induction l generalizing a with
  | nil => simp
  | cons b rest ih =>
      rw [List.foldl_cons, ih, List.flatMap_cons, ← List.append_assoc]
      rfl

theorem warningsOf_congr
    (h : (analyses.map fun _ => Analysis.blur) = analyses'.map fun _ => Analysis.blur) :
    warningsOf analyses = warningsOf analyses' := by
  have hblur : ∀ analyses : Dict Analysis, analyses.values.flatMap Analysis.warnings =
      (analyses.map fun _ => Analysis.blur).values.flatMap Analysis.warnings := by
    intro analyses
    rw [Dict.values_map, List.flatMap_map]
    rfl
  rw [warningsOf, warningsOf, hblur, h, ← hblur]

/-! ### Collecting twice -/

theorem collect_eq_ok_iff (hinj : ∀ path, Set.InjOn Blake3.ofText (texts path)) (hd : d.Within texts)
    (hc : s.cache.Honest s.config texts) (entries : List String) :
    (s.collect d entries).1 = .ok () ↔
      ∀ p ∈ s.reached d entries (d.files.size + 1), ¬s.Fails d p := by
  obtain ⟨-, hok, herror⟩ := collect_spec hinj hd hc entries
  constructor
  · exact fun h => (hok h).fine
  · intro h
    cases hresult : (s.collect d entries).1 with
    | ok _ => rfl
    | error e =>
        obtain ⟨p, hp, hfails⟩ := herror e hresult
        exact absurd hfails (h p hp)

/-- Files of which the same fingerprints were taken have the same analyses. -/
theorem analyses_eq_of_same (hinj : ∀ path, Set.InjOn Blake3.ofText (texts path)) (hd : d.Within texts)
    (hd₀ : d₀.Within texts) {f f₀ : Dict Fingerprint} (hf : FingerprintsOf d done f)
    (hf₀ : FingerprintsOf d₀ done₀ f₀) (ha : s.AnalysesOf d done analyses)
    (ha₀ : s.AnalysesOf d₀ done₀ analyses') (hsame : ∀ p, Fingerprint.Same (f₀.get? p) (f.get? p)) :
    (analyses.map fun _ => Analysis.blur) = analyses'.map fun _ => Analysis.blur := by
  have hread : ∀ p text, (p ∈ done ∧ d.read p = .ok text) ↔ (p ∈ done₀ ∧ d₀.read p = .ok text) := by
    intro p text
    have hp := hsame p
    constructor
    · rintro ⟨hdone, htext⟩
      rw [(hf p _).2 ⟨hdone, text, htext, rfl⟩] at hp
      cases hg : f₀.get? p with
      | none =>
          rw [hg] at hp
          cases hp
      | some g =>
          obtain ⟨hdone₀, text₀, htext₀, rfl⟩ := (hf₀ p g).1 hg
          rw [hg] at hp
          cases hp with
          | some hdiffers =>
              rw [Collect.eq_of_not_differs (hinj p) (hd₀ htext₀) (hd htext) hdiffers] at htext₀
              exact ⟨hdone₀, htext₀⟩
    · rintro ⟨hdone₀, htext₀⟩
      rw [(hf₀ p _).2 ⟨hdone₀, text, htext₀, rfl⟩] at hp
      cases hg : f.get? p with
      | none =>
          rw [hg] at hp
          cases hp
      | some g =>
          obtain ⟨hdone, text', htext', rfl⟩ := (hf p g).1 hg
          rw [hg] at hp
          cases hp with
          | some hdiffers =>
              rw [← Collect.eq_of_not_differs (hinj p) (hd₀ htext₀) (hd htext') hdiffers] at htext'
              exact ⟨hdone, htext'⟩
  apply Dict.ext_get?
  intro p
  rw [Dict.get?_map, Dict.get?_map]
  ext b
  rw [ha, ha₀]
  constructor
  · rintro ⟨hdone, text, a, htext, ha⟩
    obtain ⟨hdone₀, htext₀⟩ := (hread p text).1 ⟨hdone, htext⟩
    exact ⟨hdone₀, text, a, htext₀, ha⟩
  · rintro ⟨hdone₀, text, a, htext₀, ha⟩
    obtain ⟨hdone, htext⟩ := (hread p text).2 ⟨hdone₀, htext₀⟩
    exact ⟨hdone, text, a, htext, ha⟩

/-! ### Linking and evaluating twice -/

theorem link_eq_ok_iff : s.link d analyses = .ok modules ↔ ∃ p : Project s.config.idMode,
    p.analyses = analyses ∧ p.onDisk = d.isFile ∧ p.modules = .ok modules := by
  constructor
  · intro h
    obtain ⟨g, hg, h⟩ := bind_eq_ok_iff.1 h
    obtain ⟨⟨⟩, hcheck, h⟩ := bind_eq_ok_iff.1 h
    exact ⟨⟨analyses, d.isFile, g, hg, hcheck⟩, rfl, rfl, mapError_eq_ok_iff.1 h⟩
  · rintro ⟨⟨_, _, g, hg, hcheck⟩, rfl, rfl, h⟩
    refine bind_eq_ok_iff.2 ⟨g, hg, bind_eq_ok_iff.2 ⟨⟨⟩, hcheck, ?_⟩⟩
    exact mapError_eq_ok_iff.2 h

/-- The projects whose modules are signed with hashes of these texts. -/
def projects (mode : IdMode) (seen : Set String) : Set (Project mode) :=
  { p | p.signatureTexts ⊆ seen }

/-- Modules of such projects. -/
def IsKnown (mode : IdMode) (seen : Set String) (m : ModuleDefinition) : Prop :=
  ∃ p ∈ projects mode seen, p.HasModule m

theorem told_known (mode : IdMode) (hinj : Set.InjOn Blake3.ofText seen) :
    Registry.Told (IsKnown mode seen) :=
  Project.told (hinj.mono fun _ ⟨_, hp, htext⟩ => hp htext)

/-- A build collects all its files. -/
def Collects (s : Session) (d : Disk) (c : Collection) : Prop :=
  ∃ entries, s.entryFiles d = .ok entries ∧ s.collect d entries = (.ok (), c)

/-- The modules of analyses, when all their texts are known. -/
structure Links (s : Session) (d : Disk) (seen : Set String) (analyses : Dict Analysis)
    (modules : Dict ModuleDefinition) : Prop where
  link : s.link d analyses = .ok modules
  known : Registry.IsProject (IsKnown s.config.idMode seen) modules

theorem links_of_link (hsignatures : ∀ p : Project s.config.idMode, p.analyses = analyses →
    p.onDisk = d.isFile → p.signatureTexts ⊆ seen) (h : s.link d analyses = .ok modules) :
    s.Links d seen analyses modules := by
  obtain ⟨p, hanalyses, hdisk, hmodules⟩ := link_eq_ok_iff.1 h
  refine ⟨h, p.isProject (fun m hm => ?_) hmodules⟩
  exact ⟨p, hsignatures p hanalyses hdisk, hm⟩

theorem exists_link (hblur : (analyses.map fun _ => Analysis.blur) = analyses'.map fun _ => Analysis.blur)
    (h : s.link d analyses = .ok modules) :
    ∃ modules', s.link d analyses' = .ok modules' ∧ Registry.SameModules modules modules' := by
  obtain ⟨g, hg, h⟩ := bind_eq_ok_iff.1 h
  obtain ⟨⟨⟩, hcheck, h⟩ := bind_eq_ok_iff.1 h
  have hbuild := Graph.build_blur s.config.idMode analyses d.isFile
  rw [hblur, Graph.build_blur, hg] at hbuild
  obtain ⟨g', hg', hgg'⟩ := map_eq_ok_iff.1 hbuild
  rw [← g.check_blur, ← hgg', g'.check_blur] at hcheck
  obtain ⟨modules', hmodules', hsame⟩ :=
    ModuleDefinition.exists_ofAnalyses hblur hgg'.symm (mapError_eq_ok_iff.1 h)
  refine ⟨modules', ?_, hsame⟩
  refine bind_eq_ok_iff.2 ⟨g', hg', bind_eq_ok_iff.2 ⟨⟨⟩, hcheck, ?_⟩⟩
  exact mapError_eq_ok_iff.2 hmodules'

/-- The registry is fit for the modules of a build. -/
abbrev IsSettled (s : Session) (seen : Set String) : Prop :=
  Registry.Settled (IsKnown s.config.idMode seen) s.registry

theorem evaluate_agree (s t : Session) (scheduler scheduler' : Scheduler)
    (hinj : Set.InjOn Blake3.ofText seen)
    (hm : Registry.IsProject (IsKnown s.config.idMode seen) modules)
    (hm' : Registry.IsProject (IsKnown t.config.idMode seen) modules')
    (hsame : Registry.SameModules modules modules') (hs : s.IsSettled seen) (ht : t.IsSettled seen)
    (h : (s.evaluate scheduler modules).1 = .ok ()) :
    (t.evaluate scheduler' modules').1 = .ok () ∧
      (s.evaluate scheduler modules).2.elements = (t.evaluate scheduler' modules').2.elements := by
  obtain ⟨n, hn⟩ := evaluate_ok_iff.1 h
  have hagree := Registry.bring_agree scheduler scheduler' (told_known _ hinj) hm (told_known _ hinj) hm'
    hsame hs ht hn
  rw [evaluate_ok_iff, evaluate_snd, evaluate_snd]
  exact hagree

/-- The session with an empty registry. -/
def cleared (s : Session) : Session := { s with registry := .empty }

theorem settled_cleared (s : Session) (seen : Set String) : s.cleared.IsSettled seen := .empty _

/-- The elements that come of linking analyses on a disk and evaluating them on an empty registry. -/
def relinked (s : Session) (scheduler : Scheduler) (d : Disk) (analyses : Dict Analysis) :
    Option (Dict Element) :=
  match s.link d analyses with
  | .error _ => none
  | .ok modules =>
    match s.cleared.evaluate scheduler modules with
    | (.ok (), r) => some r.elements
    | (.error _, _) => none

theorem relinked_eq_some_iff {elements : Dict Element} :
    s.relinked scheduler d analyses = some elements ↔ ∃ modules, s.link d analyses = .ok modules ∧
      (s.cleared.evaluate scheduler modules).1 = .ok () ∧
        (s.cleared.evaluate scheduler modules).2.elements = elements := by
  rw [relinked]
  cases hlink : s.link d analyses with
  | error e => simp
  | ok modules =>
      simp only [Except.ok.injEq, exists_eq_left']
      rcases s.cleared.evaluate scheduler modules with ⟨_ | ⟨⟨⟩⟩, r⟩
      · simp
      · simp

theorem relinked_of_config (h : t.config = s.config) : t.relinked = s.relinked := by
  obtain ⟨config, discovery, registry, tracker, cache, artifact, dirty⟩ := t
  subst h
  rfl

/-- What a build signs modules with. -/
def SignedWith (s : Session) (d : Disk) (analyses : Dict Analysis) (seen : Set String) : Prop :=
  ∀ p : Project s.config.idMode, p.analyses = analyses → p.onDisk = d.isFile → p.signatureTexts ⊆ seen

variable {elements : Dict Element}

theorem relinked_of_evaluate (scheduler scheduler' : Scheduler) (hinj : Set.InjOn Blake3.ofText seen)
    (hs : s.IsSettled seen) (hsigned : s.SignedWith d analyses seen)
    (hlink : s.link d analyses = .ok modules) (h : (s.evaluate scheduler modules).1 = .ok ()) :
    s.relinked scheduler' d analyses = some (s.evaluate scheduler modules).2.elements := by
  have hknown := (links_of_link hsigned hlink).known
  have hsame := (told_known s.config.idMode hinj).sameModules hknown
  obtain ⟨hok, helements⟩ := evaluate_agree s s.cleared scheduler scheduler' hinj hknown hknown hsame hs
    (s.settled_cleared seen) h
  exact relinked_eq_some_iff.2 ⟨modules, hlink, hok, helements.symm⟩

theorem evaluate_of_relinked (scheduler scheduler' : Scheduler) (hinj : Set.InjOn Blake3.ofText seen)
    (hs : s.IsSettled seen) (hsigned : s.SignedWith d analyses seen)
    (h : s.relinked scheduler' d analyses = some elements) : ∃ modules,
      s.link d analyses = .ok modules ∧ (s.evaluate scheduler modules).1 = .ok () ∧
        (s.evaluate scheduler modules).2.elements = elements := by
  obtain ⟨modules, hlink, hok, helements⟩ := relinked_eq_some_iff.1 h
  have hknown := (links_of_link hsigned hlink).known
  have hsame := (told_known s.config.idMode hinj).sameModules hknown
  obtain ⟨hok', helements'⟩ := evaluate_agree s.cleared s scheduler' scheduler hinj hknown hknown hsame
    (s.settled_cleared seen) hs hok
  exact ⟨modules, hlink, hok', helements'.symm.trans helements⟩

theorem relinked_of_blur (scheduler scheduler' : Scheduler) (hinj : Set.InjOn Blake3.ofText seen)
    (hblur : (analyses.map fun _ => Analysis.blur) = analyses'.map fun _ => Analysis.blur)
    (hsigned : s.SignedWith d analyses seen) (hsigned' : s.SignedWith d analyses' seen)
    (h : s.relinked scheduler d analyses = some elements) :
    s.relinked scheduler' d analyses' = some elements := by
  obtain ⟨modules, hlink, hok, helements⟩ := relinked_eq_some_iff.1 h
  obtain ⟨modules', hlink', hsame⟩ := exists_link hblur hlink
  have hknown := (links_of_link hsigned hlink).known
  have hknown' := (links_of_link hsigned' hlink').known
  obtain ⟨hok', helements'⟩ := evaluate_agree s.cleared s.cleared scheduler scheduler' hinj hknown hknown'
    hsame (s.settled_cleared seen) (s.settled_cleared seen) hok
  exact relinked_eq_some_iff.2 ⟨modules', hlink', hok', helements'.symm.trans helements⟩

/-- Neither the scheduler nor numbers in options make a difference. -/
theorem relinked_congr (scheduler scheduler' : Scheduler) (hinj : Set.InjOn Blake3.ofText seen)
    (hblur : (analyses.map fun _ => Analysis.blur) = analyses'.map fun _ => Analysis.blur)
    (hsigned : s.SignedWith d analyses seen) (hsigned' : s.SignedWith d analyses' seen) :
    s.relinked scheduler d analyses = s.relinked scheduler' d analyses' := by
  ext elements
  constructor
  · exact relinked_of_blur scheduler scheduler' hinj hblur hsigned hsigned'
  · exact relinked_of_blur scheduler' scheduler hinj hblur.symm hsigned' hsigned

/-! ### Building without the shortcut -/

theorem stable_finish (hwarnings : c.assembly.warnings = []) (diff : Diff) (r : Registry) :
    (s.finish d c diff r).1.artifact.stable =
      ⟨r.elements, ⟨0, warningsOf c.analyses, .zero⟩⟩ := by
  have hall := warnings_addDiagnostics c.analyses.values c.assembly
  rw [hwarnings, List.nil_append] at hall
  show (⟨r.elements, ⟨0, List.mergeSort _ Warning.le, .zero⟩⟩ : Artifact) = _
  rw [hall]
  rfl

/-- The build has an artifact of these elements, or none. -/
def Gives (r : Except Failure Built) (warnings : List Warning) : Option (Dict Element) → Prop
  | some elements => ∃ b, r = .ok b ∧ b.artifact.stable = ⟨elements, ⟨0, warnings, .zero⟩⟩
  | none => ∃ e, r = .error e

theorem Gives.same_iff {r r' : Except Failure Built} {warnings : List Warning}
    {elements elements' : Option (Dict Element)} (h : Gives r warnings elements)
    (h' : Gives r' warnings elements') : SameOutcome r r' ↔ elements = elements' := by
  cases elements with
  | none =>
      obtain ⟨e, rfl⟩ := h
      cases elements' with
      | none =>
          obtain ⟨e', rfl⟩ := h'
          exact iff_of_true (.inl ⟨e, e', rfl, rfl⟩) rfl
      | some elements' =>
          obtain ⟨b', rfl, -⟩ := h'
          simp [SameOutcome]
  | some elements =>
      obtain ⟨b, rfl, hb⟩ := h
      cases elements' with
      | none =>
          obtain ⟨e', rfl⟩ := h'
          simp [SameOutcome]
      | some elements' =>
          obtain ⟨b', rfl, hb'⟩ := h'
          have hstable : b.artifact.stableText = b'.artifact.stableText ↔ elements = elements' := by
            rw [Artifact.stableText_inj, hb, hb', Artifact.mk.injEq]
            exact and_iff_left rfl
          simp [SameOutcome, hstable]

theorem gives_buildFrom (scheduler scheduler' : Scheduler) (hinj : Set.InjOn Blake3.ofText seen)
    (hs : s.IsSettled seen) (hsigned : s.SignedWith d c.analyses seen)
    (hwarnings : c.assembly.warnings = [])
    (hnone : s.unchanged? (s.tracker.diff c.fingerprints) = none) :
    Gives (s.buildFrom scheduler d c).1 (warningsOf c.analyses)
      (s.relinked scheduler' d c.analyses) := by
  rw [buildFrom]
  simp only [hnone]
  cases hrelinked : s.relinked scheduler' d c.analyses with
  | some elements =>
      obtain ⟨modules, hlink, hok, rfl⟩ := evaluate_of_relinked scheduler scheduler' hinj hs hsigned hrelinked
      simp only [hlink]
      rcases hrun : s.evaluate scheduler modules with ⟨_ | ⟨⟨⟩⟩, r⟩
      · rw [hrun] at hok
        cases hok
      · exact ⟨_, rfl, stable_finish hwarnings _ _⟩
  | none =>
      cases hlink : s.link d c.analyses with
      | error e => exact ⟨_, rfl⟩
      | ok modules =>
          simp only
          rcases hrun : s.evaluate scheduler modules with ⟨e | ⟨⟨⟩⟩, r⟩
          · exact ⟨_, rfl⟩
          · have hok : (s.evaluate scheduler modules).1 = .ok () := by rw [hrun]
            rw [relinked_of_evaluate scheduler scheduler' hinj hs hsigned hlink hok] at hrelinked
            cases hrelinked

end Session
end StaticGql
