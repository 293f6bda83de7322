import StaticGql.Proofs.Registry.Elements
import StaticGql.Proofs.Session.Agreement
import StaticGql.Proofs.Session.Paths
import StaticGql.Proofs.Transform.Plan

/-!
What a build that goes through has put into its artifact: an element for every declaration of every file
that it has collected, be the artifact a new one or the last one taken again. So under one configuration a transform
finds in the artifact of a build what it asks for: the ids that it makes are those of the linker, under which the
registry keeps elements of the kinds that the files declare.
-/

namespace StaticGql

open Path (Rooted)

variable {mode : IdMode} {analyses analyses' : Dict Analysis} {elements : Dict Element}

theorem Analysis.idsAt_blur (mode : IdMode) (file : String) (a : Analysis) :
    a.blur.idsAt mode file = a.idsAt mode file := by
  simp [idsAt, blur, Site.blur, List.filterMap_map, Function.comp_def]

theorem Analysis.idsAt_congr {a a' : Analysis} {file file' : String} (h : a.declarations = a'.declarations)
    (hfile : CanonicalId.fileKey mode file = CanonicalId.fileKey mode file') :
    a.idsAt mode file = a'.idsAt mode file' := by
  rw [CanonicalId.fileKey_eq, CanonicalId.fileKey_eq] at hfile
  simp only [idsAt, CanonicalId.create, h, hfile]

theorem Site.eq_of_blur {site site' : Site} (h : site.blur = site'.blur) :
    site.structuralPath = site'.structuralPath ∧ site.kind = site'.kind := by
  have hpath := congrArg Site.structuralPath h
  have hkind := congrArg Site.kind h
  exact ⟨hpath, hkind⟩

theorem declaredIds_blur (mode : IdMode) (analyses : Dict Analysis) :
    declaredIds mode (analyses.map fun _ => Analysis.blur) = declaredIds mode analyses := by
  simp [declaredIds, Dict.toList_map, List.flatMap_map, Analysis.idsAt_blur]

/-! ### The scanner and paths -/

namespace Config

variable {config : Config} {path path' text : String} {a a' : Analysis}

theorem analyze_of_analysisOf (hmay : config.marker.mayContribute text = true)
    (h : config.analysisOf path text = .ok a) :
    config.build.frontend.analyze config.marker path text = .ok a := by
  rw [config.analysisOf_of_mayContribute hmay] at h
  cases hanalyze : config.build.frontend.analyze config.marker path text with
  | error e => simp [hanalyze] at h
  | ok b =>
      cases hids : b.canonicalIds config.idMode with
      | error e => simp [hanalyze, hids] at h
      | ok ids =>
          simp only [hanalyze, hids, Except.ok.injEq] at h
          rw [h]

theorem declarations_of_analysisOf (hscanner : config.build.frontend = .scanner)
    (h : config.analysisOf path text = .ok a) (h' : config.analysisOf path' text = .ok a') :
    a.declarations = a'.declarations := by
  by_cases hmay : config.marker.mayContribute text = true
  · have hanalyze := analyze_of_analysisOf hmay h
    have hanalyze' := analyze_of_analysisOf hmay h'
    rw [hscanner] at hanalyze hanalyze'
    rw [Frontend.analyze_scanner config.marker path, hanalyze] at hanalyze'
    cases hanalyze'
    rfl
  · have hempty : ∀ path, config.analysisOf path text = .ok (.empty path) :=
      fun path => if_pos (by simpa using hmay)
    rw [hempty] at h h'
    cases h
    cases h'
    rfl

end Config

namespace Session

variable {s : Session} {d d₀ : Disk} {c : Collection} {scheduler : Scheduler} {b : Built} {path : String}
  {a : Analysis}

/-! ### Going back to what was collected -/

/-- A session to trust: it has just started without a stored cache, or no two of the texts that were hashed
in all its history share a hash. -/
def Trusted (s : Session) (d : Disk) : Prop :=
  (∃ config d₀, start config d₀ = .ok s ∧ s.cache = .empty config.cacheKey) ∨
    ∃ seen last, Arises seen s last ∧ Set.InjOn Blake3.ofText seen ∧ ∀ text ∈ s.hashed d, text ∈ seen

/-- The files that have been collected are on this disk, and the elements come of linking analyses that are
theirs, but for numbers in options. -/
structure Explains (s : Session) (d : Disk) (analyses : Dict Analysis) (elements : Dict Element) :
    Prop where
  rooted : ∀ {path a}, analyses.get? path = some a → Rooted path
  yields : ∀ {path a}, analyses.get? path = some a → s.Yields d path a.blur
  relinked : ∃ scheduler d₀ analyses',
    (analyses.map fun _ => Analysis.blur) = (analyses'.map fun _ => Analysis.blur) ∧
      s.relinked scheduler d₀ analyses' = some elements

theorem explains_of_collected {done : Set String} (hdone : s.Collected d done c)
    (hrooted : ∀ p ∈ done, Rooted p) (hrelinked : ∃ scheduler d₀ analyses',
      (c.analyses.map fun _ => Analysis.blur) = (analyses'.map fun _ => Analysis.blur) ∧
        s.relinked scheduler d₀ analyses' = some elements) : s.Explains d c.analyses elements := by
  have hget : ∀ {path a}, c.analyses.get? path = some a → path ∈ done ∧ s.Yields d path a.blur := by
    intro path a ha
    apply (hdone.analyses path a.blur).1
    rw [ha]
    rfl
  exact ⟨fun ha => hrooted _ (hget ha).1, fun ha => (hget ha).2, hrelinked⟩

/-- What has been collected has been read at paths from the root. -/
theorem Collects.rooted {texts : String → Set String} (hinj : ∀ path, Set.InjOn Blake3.ofText (texts path))
    (hd : d.Within texts) (hhonest : s.cache.Honest s.config texts)
    (hroot : Path.startsAtRoot s.discovery.root = true) (hc : s.Collects d c) :
    ∃ done, s.Collected d done c ∧ ∀ p ∈ done, Rooted p := by
  obtain ⟨entries, hentries, hcollect⟩ := hc
  obtain ⟨-, hok, -⟩ := collect_spec hinj hd hhonest entries
  rw [hcollect] at hok
  exact ⟨_, hok rfl, rooted_reached (rooted_entryFiles hroot hentries) _⟩

theorem exists_collects (h : (s.build scheduler d).1 = .ok b) : ∃ c, s.Collects d c := by
  by_contra hnone
  obtain ⟨e, he⟩ := build_of_not_collects hnone scheduler
  rw [he] at h
  cases h

theorem startsAtRoot_of_sound {seen : Set String} {last : Option Disk} (h : Sound seen s last) :
    Path.startsAtRoot s.discovery.root = true := by
  rw [root_of_ofProject h.discovered]
  exact startsAtRoot_of_check h.checked

/-- After any history, also where the last artifact is taken again. -/
theorem explains_of_arises {seen : Set String} {last : Option Disk} (hs : Arises seen s last)
    (hinj : Set.InjOn Blake3.ofText seen) (hhashed : ∀ text ∈ s.hashed d, text ∈ seen)
    (hbuild : (s.build scheduler d).1 = .ok b) (hc : s.Collects d c) :
    s.Explains d c.analyses b.artifact.elements := by
  have h := hs.sound hinj
  have hd : d.Within fun _ => seen := fun hread => hhashed _ (mem_hashed_of_read hread)
  obtain ⟨done, hdone, hrooted⟩ := hc.rooted (fun _ => hinj) hd h.honest (startsAtRoot_of_sound h)
  apply explains_of_collected hdone hrooted
  have hgives := gives_build hinj h hhashed hc scheduler scheduler
  rw [hbuild] at hgives
  cases hunchanged : s.unchanged? (s.tracker.diff c.fingerprints) with
  | none =>
      simp only [hunchanged] at hgives
      refine ⟨scheduler, d, c.analyses, rfl, ?_⟩
      cases hrelinked : s.relinked scheduler d c.analyses with
      | none =>
          rw [hrelinked] at hgives
          obtain ⟨e, he⟩ := hgives
          cases he
      | some elements =>
          rw [hrelinked] at hgives
          obtain ⟨b', hb', hstable⟩ := hgives
          cases hb'
          exact congrArg some (Artifact.mk.inj hstable).1.symm
  | some a =>
      simp only [hunchanged] at hgives
      obtain ⟨b', hb', hstable⟩ := hgives
      cases hb'
      have helements : b.artifact.elements = a.elements := (Artifact.mk.inj hstable).1
      rw [unchanged?] at hunchanged
      split at hunchanged
      · rename_i hsame
        rw [Bool.and_eq_true, Bool.not_eq_true', Tracker.isEmpty_diff_iff] at hsame
        obtain ⟨d₀, done₀, analyses₀, fingerprints, -, hmade⟩ := h.made hsame.2 a hunchanged
        have hblur := analyses_eq_of_same (fun _ => hinj) hd hmade.within hdone.fingerprints
          hmade.fingerprinted hdone.analyses hmade.analysed
          fun path => (hmade.tracked path).symm.trans (hsame.1 path)
        exact ⟨scheduler, d₀, analyses₀, hblur, helements ▸ hmade.elements scheduler⟩
      · cases hunchanged

theorem relinked_of_buildFrom (hbuild : (s.buildFrom scheduler d c).1 = .ok b)
    (hempty : s.registry = .empty) (hnone : s.unchanged? (s.tracker.diff c.fingerprints) = none) :
    s.relinked scheduler d c.analyses = some b.artifact.elements := by
  have hcleared : s.cleared = s := by
    rw [cleared, ← hempty]
  rw [buildFrom] at hbuild
  simp only [hnone] at hbuild
  cases hlink : s.link d c.analyses with
  | error e =>
      simp only [hlink] at hbuild
      cases hbuild
  | ok modules =>
      simp only [hlink] at hbuild
      rw [relinked_eq_some_iff]
      refine ⟨modules, hlink, ?_⟩
      rw [hcleared]
      rcases hrun : s.evaluate scheduler modules with ⟨e | ⟨⟨⟩⟩, r⟩
      · rw [hrun] at hbuild
        cases hbuild
      · rw [hrun] at hbuild
        cases hbuild
        exact ⟨rfl, rfl⟩

/-- At the first build of a session, whatever the texts hash to. -/
theorem explains_of_start {config : Config} (hs : start config d₀ = .ok s)
    (hcache : s.cache = .empty config.cacheKey) (hbuild : (s.build scheduler d).1 = .ok b)
    (hc : s.Collects d c) : s.Explains d c.analyses b.artifact.elements := by
  obtain ⟨hcheck, discovery, hdiscovery, rfl⟩ := start_eq_ok_iff.1 hs
  have hroot : Path.startsAtRoot discovery.root = true := by
    rw [root_of_ofProject hdiscovery]
    exact startsAtRoot_of_check hcheck
  -- each path has one text, so nothing is asked of the hash
  have hinj : ∀ path, Set.InjOn Blake3.ofText { text | d.read path = .ok text } :=
    fun path text h text' h' _ => Except.ok.inj (h.symm.trans h')
  obtain ⟨done, hdone, hrooted⟩ := hc.rooted hinj (fun hread => hread) (hcache ▸ Cache.honest_empty config _) hroot
  refine explains_of_collected hdone hrooted ⟨scheduler, d, c.analyses, rfl, ?_⟩
  rw [build_of_collects hc] at hbuild
  have hrelinked := relinked_of_buildFrom hbuild rfl (ite_self none)
  exact hrelinked

theorem Trusted.explains (hs : s.Trusted d) (hbuild : (s.build scheduler d).1 = .ok b)
    (hc : s.Collects d c) : s.Explains d c.analyses b.artifact.elements := by
  rcases hs with ⟨config, d₀, hstart, hcache⟩ | ⟨seen, last, harises, hinj, hhashed⟩
  · exact explains_of_start hstart hcache hbuild hc
  · exact explains_of_arises harises hinj hhashed hbuild hc

/-! ### Elements of what was collected -/

/-- Under all its spellings a file has the same declarations. -/
theorem declarations_unique (hscanner : s.config.build.frontend = .scanner) {path' : String} {a' : Analysis}
    (hrooted : Rooted path) (hrooted' : Rooted path') (hsame : Path.normalize path = Path.normalize path')
    (ha : s.Yields d path a) (ha' : s.Yields d path' a') : a.declarations = a'.declarations := by
  obtain ⟨text, b, hread, hb, rfl⟩ := ha
  obtain ⟨text', b', hread', hb', rfl⟩ := ha'
  obtain rfl := Disk.read_unique hrooted hrooted' hsame hread hread'
  have hdeclarations : b.declarations = b'.declarations :=
    Config.declarations_of_analysisOf hscanner hb hb'
  show b.declarations.map Site.blur = b'.declarations.map Site.blur
  rw [hdeclarations]

/-- Every declaration but a `define` has its element. -/
theorem Explains.exists_element {analyses : Dict Analysis} {elements : Dict Element}
    (h : s.Explains d analyses elements) (hscanner : s.config.build.frontend = .scanner)
    (hnodup : (declaredIds s.config.idMode analyses).Nodup) (ha : analyses.get? path = some a) {site : Site}
    (hsite : site ∈ a.declarations) (hdefine : site.kind ≠ .define) : ∃ id e,
      CanonicalId.create s.config.idMode path site.structuralPath = .ok id ∧
        elements.get? id.text = some e ∧ e.kind = site.kind := by
  obtain ⟨scheduler, d₀, analyses', hblur, hrelinked⟩ := h.relinked
  obtain ⟨modules, hlink, hok, rfl⟩ := relinked_eq_some_iff.1 hrelinked
  obtain ⟨p, rfl, -, hmodules⟩ := link_eq_ok_iff.1 hlink
  obtain ⟨n, hn⟩ := evaluate_ok_iff.1 hok
  rw [evaluate_snd]
  have hget : ∀ path, (analyses.get? path).map Analysis.blur = (p.analyses.get? path).map Analysis.blur := by
    intro path
    have hpath := congrArg (fun d => d.get? path) hblur
    simpa only [Dict.get?_map] using hpath
  have hback : ∀ {path a'}, p.analyses.get? path = some a' →
      ∃ a, analyses.get? path = some a ∧ a.blur = a'.blur := by
    intro path a' ha'
    have hpath := hget path
    rw [ha', Option.map_some, Option.map_eq_some_iff] at hpath
    exact hpath
  have hnodup' : (declaredIds s.config.idMode p.analyses).Nodup := by
    rw [← declaredIds_blur, ← hblur, declaredIds_blur]
    exact hnodup
  have hpath := hget path
  rw [ha, Option.map_some] at hpath
  obtain ⟨a', ha', hblur'⟩ := Option.map_eq_some_iff.1 hpath.symm
  have hsites : a'.declarations.map Site.blur = a.declarations.map Site.blur :=
    congrArg Analysis.declarations hblur'
  obtain ⟨site', hsite', hsame⟩ := List.mem_map.1 (hsites ▸ List.mem_map_of_mem hsite)
  obtain ⟨hplace, hkind⟩ := Site.eq_of_blur hsame
  obtain ⟨declaration, -, hstands⟩ := Graph.declarationsIn_spec p.built hnodup' ha' hsite'
  have halone : p.Alone path := by
    intro file b' hb' hkey
    obtain ⟨b, hb, -⟩ := hback hb'
    have hnormal : Path.normalize path = Path.normalize file := by
      apply CanonicalId.filePart_inj (h.rooted ha) (h.rooted hb)
      rw [← CanonicalId.fileKey_eq, ← CanonicalId.fileKey_eq, hkey]
    have hdeclarations := declarations_unique hscanner (h.rooted ha) (h.rooted hb) hnormal (h.yields ha)
      (h.yields hb)
    have hids := Analysis.idsAt_congr hdeclarations hkey.symm
    rw [Analysis.idsAt_blur, Analysis.idsAt_blur] at hids
    have hid : declaration.id ∈ a.idsAt s.config.idMode path :=
      Analysis.mem_idsAt hsite (hplace ▸ hstands.id)
    exact file_of_declaredIds hnodup ha hb hid (hids ▸ hid)
  have helement := p.exists_element_of_site scheduler hmodules hn hnodup' ha' halone hsite' (hkind ▸ hdefine)
  rw [hplace, hkind] at helement
  exact helement

end Session

/-! ### The transforms after a build -/

open Transform

namespace Session

variable {s : Session} {d : Disk} {c : Collection} {b : Built} {scheduler : Scheduler}
  {path text : String} {a : Analysis}

/-- Read again at its normal path, a file has the declarations that were collected. -/
theorem exists_analysis (hscanner : s.config.build.frontend = .scanner)
    (hmay : s.config.marker.mayContribute text = true) (hread : d.read path = .ok text)
    (ha : s.Yields d path a) : ∃ a',
      s.config.build.frontend.analyze s.config.marker (Path.normalize path) text = .ok a' ∧
        a'.file = Path.normalize path ∧ a'.declarations.map Site.blur = a.declarations := by
  obtain ⟨text', b, hread', hb, rfl⟩ := ha
  rw [hread, Except.ok.injEq] at hread'
  subst hread'
  have hanalyze := Config.analyze_of_analysisOf hmay hb
  rw [hscanner] at hanalyze ⊢
  refine ⟨{ b with file := Path.normalize path }, ?_, rfl, rfl⟩
  rw [Frontend.analyze_scanner s.config.marker path, hanalyze]
  rfl

/-- After a build, a transform under the same configuration goes through for every collected file that can
contribute. It replaces each declaration but the `define`s once, by what stands for its own element, and leaves
no call alone but those that are no declarations. -/
theorem transform_agree (hs : s.Trusted d) (hscanner : s.config.build.frontend = .scanner)
    (hbuild : (s.build scheduler d).1 = .ok b) (hc : s.Collects d c)
    (hnodup : (declaredIds s.config.idMode c.analyses).Nodup) (ha : c.analyses.get? path = some a)
    (hread : d.read path = .ok text) (hmay : s.config.marker.mayContribute text = true)
    (hsystem : (Options.ofConfig s.config).systemPath ≠ some (Path.normalize path)) :
    ∃ analysis plan,
      s.config.build.frontend.analyze s.config.marker (Path.normalize path) text = .ok analysis ∧
      analysis.declarations.map Site.blur = a.declarations.map Site.blur ∧
      Plan.build analysis b.artifact (.ofConfig s.config) = .ok plan ∧
      Transform.file s.config.build.frontend b.artifact (.ofConfig s.config) (Path.normalize path) text =
        .ok (ofPlan plan text) ∧
      (∀ e ∈ plan.errors, e.fault = .noMetadata) ∧
      List.Forall₂ (Replaces b.artifact (.ofConfig s.config) (Path.normalize path))
        (analysis.declarations.filter isReplaced) plan.substitutions := by
  have hexplains := hs.explains hbuild hc
  obtain ⟨analysis, hanalyze, hfile, hdeclarations⟩ :=
    exists_analysis hscanner hmay hread (hexplains.yields ha)
  have hdeclarations : analysis.declarations.map Site.blur = a.declarations.map Site.blur := hdeclarations
  have hfinds : ∀ site ∈ analysis.declarations, isReplaced site = true →
      ∃ id e, Finds b.artifact (.ofConfig s.config) analysis.file site id e := by
    intro site hsite hreplaced
    obtain ⟨site', hsite', hsame⟩ := List.mem_map.1 (hdeclarations ▸ List.mem_map_of_mem hsite)
    obtain ⟨hplace, hkind⟩ := Site.eq_of_blur hsame
    have hdefine : site'.kind ≠ .define := by
      rw [hkind]
      simpa [isReplaced] using hreplaced
    obtain ⟨id, e, hid, he, hekind⟩ := hexplains.exists_element hscanner hnodup ha hsite' hdefine
    refine ⟨id, e, ?_, he, hekind.trans hkind⟩
    rw [hfile, CanonicalId.create, ← hplace]
    rw [CanonicalId.create, ← CanonicalId.filePart_normalize _ (hexplains.rooted ha)] at hid
    exact hid
  obtain ⟨plan, hplan, herrors, hsubstitutions⟩ := Plan.exists_plan hfinds
  rw [hfile] at hsubstitutions
  refine ⟨analysis, plan, hanalyze, hdeclarations, hplan, ?_, herrors, hsubstitutions⟩
  have hanalyze' : s.config.build.frontend.analyze (Options.ofConfig s.config).marker (Path.normalize path) text =
      .ok analysis := hanalyze
  rw [Transform.file, if_neg hsystem, hanalyze']
  exact congrArg (fun x => Except.bind x fun plan => .ok (ofPlan plan text)) (congrArg (Except.mapError _) hplan)

/-- What the first build of the importing file has collected. -/
def importerCollection : Collection := (importerStart.collect imported ["/a.ts"]).2

set_option maxRecDepth 10000 in
theorem importerCollection_spec : (importerStart.entryFiles imported).toOption = some ["/a.ts"] ∧
    (importerStart.collect imported ["/a.ts"]).1.toOption = some () ∧
      (declaredIds importerStart.config.idMode importerCollection.analyses).Nodup ∧
        (importerCollection.analyses.get? "/a.ts").isSome = true ∧
          (imported.read "/a.ts").toOption = some importerText ∧
            importerStart.config.marker.mayContribute importerText = true := by
  decide +kernel

set_option maxRecDepth 10000 in
theorem isSome_build_importer : (importerStart.build .sync imported).1.toOption.isSome = true := by
  decide +kernel

/-- The one declaration of the importing file is replaced. -/
theorem transform_importer : ∃ b a analysis plan, (importerStart.build .sync imported).1 = .ok b ∧
    importerCollection.analyses.get? "/a.ts" = some a ∧
      importerConfig.build.frontend.analyze importerConfig.marker (Path.normalize "/a.ts") importerText =
        .ok analysis ∧
      analysis.declarations.map Site.blur = a.declarations.map Site.blur ∧
      Plan.build analysis b.artifact (.ofConfig importerConfig) = .ok plan ∧
      Transform.file importerConfig.build.frontend b.artifact (.ofConfig importerConfig)
        (Path.normalize "/a.ts") importerText = .ok (ofPlan plan importerText) ∧
      (∀ e ∈ plan.errors, e.fault = .noMetadata) ∧
      List.Forall₂ (Replaces b.artifact (.ofConfig importerConfig) (Path.normalize "/a.ts"))
        (analysis.declarations.filter isReplaced) plan.substitutions := by
  obtain ⟨hentries, hcollect, hnodup, hget, hread, hmay⟩ := importerCollection_spec
  obtain ⟨a, ha⟩ := Option.isSome_iff_exists.1 hget
  have hcollects : importerStart.Collects imported importerCollection :=
    ⟨_, eq_ok_of_toOption hentries, Prod.ext (eq_ok_of_toOption hcollect) rfl⟩
  have htrusted : importerStart.Trusted imported :=
    .inl ⟨importerConfig, imported, start_importer, cache_of_start start_importer⟩
  obtain ⟨analysis, plan, h⟩ := transform_agree htrusted rfl (eq_ok_get isSome_build_importer) hcollects
    hnodup ha (eq_ok_of_toOption hread) hmay nofun
  exact ⟨_, a, analysis, plan, eq_ok_get isSome_build_importer, ha, h⟩

end Session
end StaticGql
