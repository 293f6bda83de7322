import StaticGql.Proofs.Analysis.Reread
import StaticGql.Proofs.Json.Unambiguous
import StaticGql.Proofs.Path
import StaticGql.Proofs.Session.Collect
import StaticGql.Proofs.Session.Rebuild

/-!
Sessions that start with a stored cache. The key of a cache tells all of a configuration that the
analysis of a text depends on, so what one session has stored is honest for any other that takes it.

What a session may have been through: it starts without a cache or with one that an earlier session has
left, it builds on one disk after another, and modules are taken out of it. Its registry, its cache and
its tracker stay fit for the next build all along.
-/

namespace StaticGql

/-! ### What analyses depend on -/

namespace Config

variable {c c' : Config}

theorem analysisPart_spec (h : c.analysisPart.blur = c'.analysisPart.blur) :
    c.build.frontend = c'.build.frontend ∧ c.marker.identifier = c'.marker.identifier ∧
      c.marker.importSources = c'.marker.importSources ∧ c.build.relativeIds = c'.build.relativeIds ∧
        Path.normalize c.project.root = Path.normalize c'.project.root := by
  have hname : ∀ f f' : Frontend, f.name = f'.name → f = f' := by
    intro f f' hf
    cases f <;> cases f' <;> first | rfl | exact absurd hf (by decide)
  have hfields : ∀ c : Config, c.analysisPart.blur = .obj [("frontend", .str c.build.frontend.name),
      ("marker", .obj [("identifier", .str c.marker.identifier),
        ("importSources", (Json.strs c.marker.importSources).blur)]),
      ("relativeIds", .bool c.build.relativeIds), ("root", .str (Path.normalize c.project.root))] :=
    fun _ => rfl
  rw [hfields, hfields] at h
  simp only [Json.obj.injEq, List.cons.injEq, Prod.mk.injEq, Json.str.injEq, Json.bool.injEq, true_and,
    and_true] at h
  obtain ⟨hfrontend, ⟨hidentifier, hsources⟩, hrelative, hroot⟩ := h
  have halike : (Json.strs c.marker.importSources).Alike (.strs c'.marker.importSources) := by
    rw [Json.Alike, Json.blur_sorted, Json.blur_sorted, hsources]
  exact ⟨hname _ _ hfrontend, hidentifier, halike.strs, hrelative, hroot⟩

theorem canonicalIds_congr (a : Analysis) (hrelative : c.build.relativeIds = c'.build.relativeIds)
    (hroot : Path.normalize c.project.root = Path.normalize c'.project.root) :
    a.canonicalIds c.idMode = a.canonicalIds c'.idMode := by
  have hfile : ∀ path, CanonicalId.filePart c.idMode path = CanonicalId.filePart c'.idMode path := by
    intro path
    rw [idMode, idMode, hrelative]
    by_cases hmode : c'.build.relativeIds = true
    · simp only [hmode, if_true, CanonicalId.filePart, hroot]
    · simp only [hmode, Bool.false_eq_true, if_false]
  simp only [Analysis.canonicalIds, CanonicalId.create, hfile]

/-- Frontends do not ask where the generated file of a marker is. -/
theorem analyze_systemPath (f : Frontend) (m : Marker) (path text : String) :
    f.analyze m path text = f.analyze { m with systemPath := none } path text := by
  cases f <;> rfl

theorem analysisOf_congr (h : c.analysisPart.blur = c'.analysisPart.blur) :
    c.analysisOf = c'.analysisOf := by
  obtain ⟨hfrontend, hidentifier, hsources, hrelative, hroot⟩ := analysisPart_spec h
  funext path text
  have hmay : c.marker.mayContribute text = c'.marker.mayContribute text := by
    rw [Marker.mayContribute, Marker.mayContribute, hidentifier, hsources]
  have hanalyze : c.build.frontend.analyze c.marker path text =
      c'.build.frontend.analyze c'.marker path text := by
    rw [analyze_systemPath, analyze_systemPath c'.build.frontend, hfrontend, hidentifier, hsources]
  rw [analysisOf, analysisOf, hmay, hanalyze]
  simp only [canonicalIds_congr _ hrelative hroot]

end Config

/-! ### Honest caches -/

namespace Cache

variable {config config' : Config} {texts : String → Set String} {keys : Set String} {c : Cache}

theorem honest_empty (config : Config) (texts : String → Set String) :
    (empty config.cacheKey).Honest config texts where
  key := rfl
  entry := nofun

theorem Honest.retain (h : c.Honest config texts) (paths : List String) :
    (c.retain paths).Honest config texts where
  key := h.key
  entry := by
    intro path e he
    rw [Cache.retain, Dict.get?_filter, Option.filter_eq_some_iff] at he
    exact h.entry he.1

/-- A cache that was stored under one configuration and is loaded under another. -/
theorem Honest.reload (hinj : Set.InjOn Blake3.ofText keys) (h : c.Honest config texts)
    (hconfig : config.analysisPart.compact ∈ keys) (hconfig' : config'.analysisPart.compact ∈ keys) :
    (ofText config'.cacheKey c.text).Honest config' texts := by
  rcases ofText_text c config'.cacheKey with hempty | ⟨hkey, hkey', hentries⟩
  · rw [hempty]
    exact honest_empty config' texts
  · have hpart : config.analysisPart.compact = config'.analysisPart.compact := by
      apply hinj hconfig hconfig'
      exact h.key.symm.trans hkey
    refine ⟨hkey', fun {path e'} he' => ?_⟩
    have hget := congrArg (fun d => d.get? path) hentries
    simp only [Dict.get?_map, he', Option.map_some] at hget
    obtain ⟨e, he, hblur⟩ := Option.map_eq_some_iff.1 hget.symm
    rw [CacheEntry.blur, CacheEntry.blur, CacheEntry.mk.injEq] at hblur
    obtain ⟨text, htext, hfingerprint, a, ha, hanalysis⟩ := h.entry he
    rw [Config.analysisOf_congr (Json.blur_eq_of_compact_eq hpart)] at ha
    exact ⟨text, htext, hblur.1.symm.trans hfingerprint, a, ha, hblur.2.1.symm.trans hanalysis⟩

end Cache
end StaticGql

namespace StaticGql.Session

open Fingerprint (Same)

variable {s t : Session} {d d₀ : Disk} {c : Collection} {last : Option Disk} {seen : Set String}
  {done : Set String} {analyses : Dict Analysis} {fingerprints : Dict Fingerprint} {a : Artifact}

/-! ### Starting -/

theorem start_eq_ok_iff {c : Config} : start c d = .ok s ↔
    c.check = .ok () ∧ ∃ discovery, Discovery.ofProject c.project = .ok discovery ∧
      s = ⟨c, discovery, .empty, ⟨(loadCache d c.cacheKey c.build.cacheDir).fingerprints⟩,
        loadCache d c.cacheKey c.build.cacheDir, none, false⟩ := by
  constructor
  · intro h
    obtain ⟨⟨⟩, hcheck, h⟩ := bind_eq_ok_iff.1 h
    obtain ⟨discovery, hdiscovery, h⟩ := bind_eq_ok_iff.1 h
    cases h
    exact ⟨mapError_eq_ok_iff.1 hcheck, discovery, hdiscovery, rfl⟩
  · rintro ⟨hcheck, discovery, hdiscovery, rfl⟩
    refine bind_eq_ok_iff.2 ⟨(), mapError_eq_ok_iff.2 hcheck, ?_⟩
    exact bind_eq_ok_iff.2 ⟨discovery, hdiscovery, rfl⟩

theorem cache_of_start {c : Config} (h : start c d = .ok s) :
    s.cache = loadCache d c.cacheKey c.build.cacheDir := by
  obtain ⟨-, discovery, -, rfl⟩ := start_eq_ok_iff.1 h
  rfl

/-- A session under the same configuration that has built nothing and keeps no cache. -/
def fresh (s : Session) : Session :=
  ⟨s.config.withoutCache, s.discovery, .empty, .empty, .empty s.config.cacheKey, none, false⟩

/-! ### Histories -/

/-- The text whose hash signs the module of a file. -/
def signatureText? (mode : IdMode) (analyses : Dict Analysis) (g : Graph) (file : String)
    (a : Analysis) : Option String :=
  match ModuleDefinition.importsOf mode analyses file a with
  | .ok imports => some (ModuleDefinition.signatureText imports
      (ModuleDefinition.exportsOf a (g.declarationsIn file)) (g.declarationsIn file))
  | .error _ => none

/-- The texts whose hashes sign the modules of a build that has collected its files. -/
def signatureTexts (s : Session) (d : Disk) (analyses : Dict Analysis) : List String :=
  match Graph.build s.config.idMode analyses d.isFile with
  | .ok g => analyses.toList.filterMap fun (file, a) =>
      signatureText? s.config.idMode analyses g file a
  | .error _ => []

/-- The texts that are hashed when a session builds on a disk, or that may be. -/
def hashed (s : Session) (d : Disk) : List String :=
  let texts := d.files.values.filterMap fun
    | .text text => some text
    | .binary => none
  let signatures :=
    match s.entryFiles d with
    | .error _ => []
    | .ok entries =>
      match s.collect d entries with
      | (.error _, _) => []
      | (.ok (), c) => s.signatureTexts d c.analyses
  texts ++ signatures

theorem mem_hashed_of_read {path text : String} (h : d.read path = .ok text) : text ∈ s.hashed d := by
  obtain ⟨place, -, h⟩ := bind_eq_ok_iff.1 h
  apply List.mem_append_left
  apply List.mem_filterMap.2
  cases hfile : d.file? place with
  | none =>
      rw [hfile] at h
      cases h
  | some content =>
      rw [hfile] at h
      cases content with
      | binary => cases h
      | text text' =>
          cases h
          exact ⟨_, Dict.mem_values_iff.2 ⟨_, Disk.get?_of_file hfile⟩, rfl⟩

theorem signedWith_of_hashed (hhashed : ∀ text ∈ s.hashed d, text ∈ seen) (hc : s.Collects d c) :
    s.SignedWith d c.analyses seen := by
  obtain ⟨entries, hentries, hcollect⟩ := hc
  rintro ⟨_, _, g, hbuilt, hchecked⟩ rfl rfl text ⟨file, a, imports, ha, himports, htext⟩
  apply hhashed
  apply List.mem_append_right
  simp only [hentries, hcollect, signatureTexts, hbuilt]
  apply List.mem_filterMap.2
  refine ⟨(file, a), Dict.mem_toList_iff.2 ha, ?_⟩
  simp only [signatureText?, himports, htext]

/-- The disk that an artifact is of after one more build. -/
def builtOn (last : Option Disk) (d : Disk) : Except Failure Built → Option Disk
  | .ok ⟨_, true⟩ => some d
  | _ => last

/-- A session that some history has led to, where all that was hashed is among `seen`, and the disk
that its last artifact was made on. A cache that is found may be what any session has left, under
whatever configuration. -/
inductive Arises (seen : Set String) : Session → Option Disk → Prop
  | start {c : Config} {d : Disk} {s : Session} (hkey : c.analysisPart.compact ∈ seen)
      (h : start c d = .ok s) (hcache : s.cache = .empty c.cacheKey) : Arises seen s none
  | reopen {t : Session} {last : Option Disk} {c : Config} {d : Disk} {s : Session} {folder : String}
      (ht : Arises seen t last) (hkey : c.analysisPart.compact ∈ seen)
      (hfolder : c.build.cacheDir = some folder)
      (hread : d.read (Path.append folder Cache.fileName) = .ok t.cache.text)
      (h : Session.start c d = .ok s) : Arises seen s none
  | build {s : Session} {last : Option Disk} (scheduler : Scheduler) (d : Disk)
      (hs : Arises seen s last) (hhashed : ∀ text ∈ s.hashed d, text ∈ seen) :
      Arises seen (s.build scheduler d).2.1 (builtOn last d (s.build scheduler d).1)
  | remove {s t : Session} {last : Option Disk} {path : String} {removed : List CanonicalId}
      (hs : Arises seen s last) (h : s.removeModule path = .ok (removed, t)) : Arises seen t last

/-! ### What stays true -/

/-- The artifact is what these analyses come to on a disk, and the tracker knows the files that they
are of. -/
structure Made (s : Session) (seen : Set String) (d : Disk) (done : Set String)
    (analyses : Dict Analysis) (fingerprints : Dict Fingerprint) (a : Artifact) : Prop where
  within : d.Within fun _ => seen
  fingerprinted : FingerprintsOf d done fingerprints
  analysed : s.AnalysesOf d done analyses
  signed : s.SignedWith d analyses seen
  tracked : ∀ path, Same (s.tracker.files.get? path) (fingerprints.get? path)
  elements : ∀ scheduler, s.relinked scheduler d analyses = some a.elements
  stable : a.stable = ⟨a.elements, ⟨0, warningsOf analyses, .zero⟩⟩

theorem Made.congr (h : s.Made seen d done analyses fingerprints a) (hconfig : t.config = s.config)
    (htracker : t.tracker = s.tracker) : t.Made seen d done analyses fingerprints a := by
  obtain ⟨config, discovery, registry, tracker, cache, artifact, dirty⟩ := t
  subst hconfig htracker
  exact ⟨h.within, h.fingerprinted, h.analysed, h.signed, h.tracked, h.elements, h.stable⟩

/-- A session that is fit for the next build. -/
structure Sound (seen : Set String) (s : Session) (last : Option Disk) : Prop where
  checked : s.config.check = .ok ()
  discovered : Discovery.ofProject s.config.project = .ok s.discovery
  key : s.config.analysisPart.compact ∈ seen
  honest : s.cache.Honest s.config fun _ => seen
  settled : s.IsSettled seen
  made : s.dirty = false → ∀ a, s.artifact = some a →
    ∃ d done analyses fingerprints, last = some d ∧ s.Made seen d done analyses fingerprints a

theorem sound_start {c : Config} (hkey : c.analysisPart.compact ∈ seen) (h : start c d = .ok s)
    (hhonest : s.cache.Honest c fun _ => seen) : Sound seen s none := by
  obtain ⟨hcheck, discovery, hdiscovery, rfl⟩ := start_eq_ok_iff.1 h
  exact ⟨hcheck, hdiscovery, hkey, hhonest, .empty _, fun _ _ => nofun⟩

theorem Sound.withCache (h : Sound seen s last) {cache : Cache} (hcache : cache.Honest s.config fun _ => seen) :
    Sound seen { s with cache := cache } last := by
  refine ⟨h.checked, h.discovered, h.key, hcache, h.settled, fun hdirty a ha => ?_⟩
  obtain ⟨d, done, analyses, fingerprints, hlast, hmade⟩ := h.made hdirty a ha
  exact ⟨d, done, analyses, fingerprints, hlast, hmade.congr rfl rfl⟩

theorem Sound.withRegistry (h : Sound seen s last) {r : Registry}
    (hr : Registry.Settled (IsKnown s.config.idMode seen) r) :
    Sound seen { s with registry := r } last := by
  refine ⟨h.checked, h.discovered, h.key, h.honest, hr, fun hdirty a ha => ?_⟩
  obtain ⟨d, done, analyses, fingerprints, hlast, hmade⟩ := h.made hdirty a ha
  exact ⟨d, done, analyses, fingerprints, hlast, hmade.congr rfl rfl⟩

theorem Sound.remove (h : Sound seen s last) {path : String} {removed : List CanonicalId}
    (ht : s.removeModule path = .ok (removed, t)) : Sound seen t last := by
  obtain ⟨key, -, ht⟩ := bind_eq_ok_iff.1 ht
  cases ht
  refine ⟨h.checked, h.discovered, h.key, ?_, h.settled.dropModule key, nofun⟩
  refine ⟨h.honest.key, fun {path' e} he => ?_⟩
  have he : (s.cache.entries.erase (Path.normalize path)).get? path' = some e := he
  rw [Dict.get?_erase] at he
  split at he
  · cases he
  · exact h.honest.entry he

theorem settled_evaluate (hinj : Set.InjOn Blake3.ofText seen) (scheduler : Scheduler)
    (hs : s.IsSettled seen) {modules : Dict ModuleDefinition}
    (hm : Registry.IsProject (IsKnown s.config.idMode seen) modules) :
    Registry.Settled (IsKnown s.config.idMode seen) (s.evaluate scheduler modules).2 := by
  rw [evaluate_snd]
  exact hs.bring scheduler (told_known _ hinj) hm

theorem tracker_finish (diff : Diff) (r : Registry) :
    (s.finish d c diff r).2.1.tracker = s.tracker.commit diff := rfl

theorem elements_finish (diff : Diff) (r : Registry) :
    (s.finish d c diff r).1.artifact.elements = r.elements := rfl

theorem Sound.finish (hinj : Set.InjOn Blake3.ofText seen) (h : Sound seen s last)
    (hd : d.Within fun _ => seen) (hc : s.Collected d done c) (hwarnings : c.assembly.warnings = [])
    (hhonest : c.cache.Honest s.config fun _ => seen) (hsigned : s.SignedWith d c.analyses seen)
    {modules : Dict ModuleDefinition} (hlink : s.link d c.analyses = .ok modules)
    {scheduler : Scheduler} (hok : (s.evaluate scheduler modules).1 = .ok ()) :
    Sound seen (s.finish d c (s.tracker.diff c.fingerprints) (s.evaluate scheduler modules).2).2.1
      (some d) := by
  have hsettled := settled_evaluate hinj scheduler h.settled (links_of_link hsigned hlink).known
  refine ⟨h.checked, h.discovered, h.key, hhonest.retain _, hsettled, fun _ a ha => ?_⟩
  have hmade : (s.finish d c (s.tracker.diff c.fingerprints)
      (s.evaluate scheduler modules).2).1.artifact = a := Option.some.inj ha
  rw [← hmade]
  refine ⟨d, done, c.analyses, c.fingerprints, rfl, ?_⟩
  refine ⟨hd, hc.fingerprints, hc.analyses, hsigned, ?_, ?_, ?_⟩
  · intro path
    rw [tracker_finish]
    exact s.tracker.same_commit_diff c.fingerprints path
  · intro scheduler'
    have hconfig : (s.finish d c (s.tracker.diff c.fingerprints)
        (s.evaluate scheduler modules).2).2.1.config = s.config := rfl
    rw [elements_finish, relinked_of_config hconfig]
    exact relinked_of_evaluate scheduler scheduler' hinj h.settled hsigned hlink hok
  · exact stable_finish hwarnings _ _

theorem Sound.buildFrom (hinj : Set.InjOn Blake3.ofText seen) (h : Sound seen s last)
    (hd : d.Within fun _ => seen) (hc : s.Collected d done c) (hwarnings : c.assembly.warnings = [])
    (hhonest : c.cache.Honest s.config fun _ => seen) (hsigned : s.SignedWith d c.analyses seen)
    (scheduler : Scheduler) : Sound seen (s.buildFrom scheduler d c).2.1
      (builtOn last d (s.buildFrom scheduler d c).1) := by
  rw [Session.buildFrom]
  cases hunchanged : s.unchanged? (s.tracker.diff c.fingerprints) with
  | some a =>
      exact h
  | none =>
      cases hlink : s.link d c.analyses with
      | error e =>
          exact h
      | ok modules =>
          have hsettled := settled_evaluate hinj scheduler h.settled (links_of_link hsigned hlink).known
          have hfinish : (s.evaluate scheduler modules).1 = .ok () → _ :=
            h.finish hinj hd hc hwarnings hhonest hsigned hlink
          simp only
          rcases hrun : s.evaluate scheduler modules with ⟨e | ⟨⟨⟩⟩, r⟩
          · rw [hrun] at hsettled
            exact h.withRegistry hsettled
          · rw [hrun] at hfinish
            exact hfinish rfl

theorem Sound.build (hinj : Set.InjOn Blake3.ofText seen) (h : Sound seen s last)
    (hhashed : ∀ text ∈ s.hashed d, text ∈ seen) (scheduler : Scheduler) :
    Sound seen (s.build scheduler d).2.1 (builtOn last d (s.build scheduler d).1) := by
  have hd : d.Within fun _ => seen := fun hread => hhashed _ (mem_hashed_of_read hread)
  rw [Session.build]
  cases hentries : s.entryFiles d with
  | error e => exact h
  | ok entries =>
      obtain ⟨hhonest, hok, -⟩ := collect_spec (fun _ => hinj) hd h.honest entries
      have hwarnings := collect_warnings s d entries
      simp only
      rcases hrun : s.collect d entries with ⟨e | ⟨⟨⟩⟩, c⟩
      · rw [hrun] at hhonest
        exact h.withCache hhonest
      · rw [hrun] at hhonest hok hwarnings
        have hc := hok rfl
        refine (h.withCache hhonest).buildFrom hinj hd ⟨hc.fine, hc.fingerprints, hc.analyses⟩ hwarnings
          hhonest ?_ scheduler
        have hsigned := signedWith_of_hashed hhashed ⟨entries, hentries, hrun⟩
        exact hsigned

/-- Whatever a session has been through, it is fit for the next build. -/
theorem Arises.sound (hinj : Set.InjOn Blake3.ofText seen) (h : Arises seen s last) :
    Sound seen s last := by
  induction h with
  | start hkey h hcache => exact sound_start hkey h (hcache ▸ Cache.honest_empty _ _)
  | @reopen t last c d s folder ht hkey hfolder hread h ih =>
      apply sound_start hkey h
      have hload : s.cache = .ofText c.cacheKey t.cache.text := by
        rw [cache_of_start h, hfolder, loadCache, hread]
      rw [hload]
      exact ih.honest.reload hinj ih.key hkey
  | build scheduler d hs hhashed ih => exact ih.build hinj hhashed scheduler
  | remove hs h ih => exact ih.remove h

end StaticGql.Session
