import StaticGql.Proofs.Session.Agreement
import StaticGql.Proofs.Session.Closure

/-!
Builds that fail. All that such a build changes is what the session knows of analyses and modules, and
that makes no difference to the next one: once the files are back as they were when a build succeeded,
its artifact stands.
-/

namespace StaticGql.Session

open Fingerprint (Same)

variable {s t : Session} {d d' : Disk} {c : Collection} {last last' : Option Disk} {seen : Set String}
  {entries : List String} {scheduler : Scheduler} {b : Built} {e : Failure}

/-! ### What a failure leaves -/

/-- The second session differs from the first in its registry and its cache alone. -/
def Kept (s t : Session) : Prop := ∃ registry cache, t = { s with registry := registry, cache := cache }

theorem Kept.refl (s : Session) : s.Kept s := ⟨s.registry, s.cache, rfl⟩

theorem Kept.trans {u : Session} (h : s.Kept t) (h' : t.Kept u) : s.Kept u := by
  obtain ⟨registry, cache, rfl⟩ := h
  obtain ⟨registry', cache', rfl⟩ := h'
  exact ⟨registry', cache', rfl⟩

theorem Kept.scan_eq (h : s.Kept t) (d : Disk) : t.scan d = s.scan d := by
  obtain ⟨registry, cache, rfl⟩ := h
  rfl

theorem kept_buildFrom (h : (s.buildFrom scheduler d c).1 = .error e) :
    s.Kept (s.buildFrom scheduler d c).2.1 ∧ (s.buildFrom scheduler d c).2.2 = d := by
  rw [buildFrom] at h ⊢
  cases hunchanged : s.unchanged? (s.tracker.diff c.fingerprints) with
  | some a =>
      rw [hunchanged] at h
      cases h
  | none =>
      rw [hunchanged] at h
      cases hlink : s.link d c.analyses with
      | error e => exact ⟨.refl s, rfl⟩
      | ok modules =>
          rw [hlink] at h
          rcases hrun : s.evaluate scheduler modules with ⟨e | ⟨⟨⟩⟩, r⟩
          · simp only [hrun, and_true]
            exact ⟨r, s.cache, rfl⟩
          · simp only [hrun] at h
            cases h

theorem kept_build (h : (s.build scheduler d).1 = .error e) :
    s.Kept (s.build scheduler d).2.1 ∧ (s.build scheduler d).2.2 = d := by
  rw [build] at h ⊢
  cases hentries : s.entryFiles d with
  | error e => exact ⟨.refl s, rfl⟩
  | ok entries =>
      simp only [hentries] at h ⊢
      rcases hcollect : s.collect d entries with ⟨e | ⟨⟨⟩⟩, c⟩
      · exact ⟨⟨s.registry, c.cache, rfl⟩, rfl⟩
      · simp only [hcollect] at h ⊢
        obtain ⟨hkept, hdisk⟩ := kept_buildFrom h
        exact ⟨Kept.trans ⟨s.registry, c.cache, rfl⟩ hkept, hdisk⟩

/-- One failing build after another leads from the first session to the second. -/
inductive FailsTo (seen : Set String) : Session → Session → Prop
  | refl (s : Session) : FailsTo seen s s
  | build {s t : Session} {e : Failure} (scheduler : Scheduler) (d : Disk) (h : FailsTo seen s t)
      (hhashed : ∀ text ∈ t.hashed d, text ∈ seen) (hfails : (t.build scheduler d).1 = .error e) :
      FailsTo seen s (t.build scheduler d).2.1

theorem FailsTo.kept (h : FailsTo seen s t) : s.Kept t := by
  induction h with
  | refl => exact .refl _
  | build scheduler d h hhashed hfails ih => exact ih.trans (kept_build hfails).1

theorem FailsTo.arises (h : FailsTo seen s t) (hs : Arises seen s last) : Arises seen t last := by
  induction h with
  | refl => exact hs
  | build scheduler d h hhashed hfails ih =>
      have hbuild := Arises.build scheduler d ih hhashed
      rw [hfails] at hbuild
      exact hbuild

/-! ### What a success leaves -/

/-- The session has taken in what it collected: the artifact is its last, and it tracks these files. -/
structure Rests (s : Session) (a : Artifact) (fingerprints : Dict Fingerprint) : Prop where
  artifact : s.artifact = some a
  clean : s.dirty = false
  tracked : ∀ path, Same (s.tracker.files.get? path) (fingerprints.get? path)

theorem unchanged_eq_some_iff {diff : Diff} {a : Artifact} :
    s.unchanged? diff = some a ↔ diff.isEmpty = true ∧ s.dirty = false ∧ s.artifact = some a := by
  rw [unchanged?]
  cases diff.isEmpty <;> cases s.dirty <;> simp

theorem Rests.unchanged {a : Artifact} (h : s.Rests a c.fingerprints) :
    s.unchanged? (s.tracker.diff c.fingerprints) = some a :=
  unchanged_eq_some_iff.2 ⟨Tracker.isEmpty_diff_iff.2 h.tracked, h.clean, h.artifact⟩

theorem Rests.of_kept {a : Artifact} {fingerprints : Dict Fingerprint} (h : s.Rests a fingerprints) (hkept : s.Kept t) :
    t.Rests a fingerprints := by
  obtain ⟨registry, cache, rfl⟩ := hkept
  exact ⟨h.artifact, h.clean, h.tracked⟩

theorem rests_build (h : (s.build scheduler d).1 = .ok b) : ∃ c, s.Collects d c ∧
    (s.build scheduler d).2.1.Rests b.artifact c.fingerprints ∧
      (s.build scheduler d).2.1.config = s.config ∧ (s.build scheduler d).2.1.discovery = s.discovery := by
  by_cases hcollects : ∃ c, s.Collects d c
  · obtain ⟨c, hc⟩ := hcollects
    refine ⟨c, hc, ?_⟩
    rw [build_of_collects hc, buildFrom] at h ⊢
    cases hunchanged : unchanged? { s with cache := c.cache } (s.tracker.diff c.fingerprints) with
    | some a =>
        simp only [hunchanged] at h ⊢
        cases h
        obtain ⟨hdiff, hclean, hartifact⟩ := unchanged_eq_some_iff.1 hunchanged
        exact ⟨⟨hartifact, hclean, Tracker.isEmpty_diff_iff.1 hdiff⟩, trivial, trivial⟩
    | none =>
        simp only [hunchanged] at h ⊢
        cases hlink : link { s with cache := c.cache } d c.analyses with
        | error e =>
            rw [hlink] at h
            cases h
        | ok modules =>
            simp only [hlink] at h ⊢
            rcases hrun : evaluate { s with cache := c.cache } scheduler modules with ⟨e | ⟨⟨⟩⟩, r⟩
            · simp only [hrun] at h
              cases h
            · simp only [hrun] at h ⊢
              cases h
              exact ⟨⟨rfl, rfl, s.tracker.same_commit_diff c.fingerprints⟩, rfl, rfl⟩
  · obtain ⟨e, he⟩ := build_of_not_collects hcollects scheduler
    rw [he] at h
    cases h

/-! ### Files that are back -/

/-- The second disk shows a build what the first does: it starts from the same files, every file that
can be reached on the first reads the same, and its imports lead to the same files. -/
structure Shows (s : Session) (d d' : Disk) : Prop where
  entries : s.entryFiles d' = s.entryFiles d
  read : ∀ entries n path, s.entryFiles d = .ok entries → path ∈ s.reached d entries n → d'.read path = d.read path
  follow : ∀ entries n path a, s.entryFiles d = .ok entries → path ∈ s.reached d entries n → s.Yields d path a →
    Collect.targets s d' a = Collect.targets s d a

theorem Shows.refl (s : Session) (d : Disk) : s.Shows d d := ⟨rfl, fun _ _ _ _ _ => rfl, fun _ _ _ _ _ _ _ => rfl⟩

theorem yields_congr {path : String} {a : Analysis} (h : d'.read path = d.read path) :
    s.Yields d' path a ↔ s.Yields d path a := by
  rw [Yields, Yields, h]

theorem Shows.reached_eq (h : s.Shows d d') (hentries : s.entryFiles d = .ok entries) (n : Nat) :
    s.reached d' entries n = s.reached d entries n := by
  induction n with
  | zero => rfl
  | succ n ih =>
      ext p
      rw [reached, reached, ih, Set.mem_ofPred_eq, Set.mem_ofPred_eq]
      refine or_congr_right (exists_congr fun q => and_congr_right fun hq => exists_congr fun a => ?_)
      rw [yields_congr (h.read entries n q hentries hq)]
      refine and_congr_right fun hyields => ?_
      rw [h.follow entries n q a hentries hq hyields]

theorem reached_congr (hconfig : t.config = s.config) (hdiscovery : t.discovery = s.discovery) (d : Disk)
    (entries : List String) (n : Nat) : t.reached d entries n = s.reached d entries n := by
  obtain ⟨config, discovery, registry, tracker, cache, artifact, dirty⟩ := t
  subst hconfig hdiscovery
  induction n with
  | zero => rfl
  | succ n ih =>
      rw [reached, reached, ih]
      rfl

/-- Where a build has collected its files, no more rounds would reach more. -/
theorem Arises.reached_subset (hs : Arises seen s last) (hinj : Set.InjOn Blake3.ofText seen)
    (hd : d.Within fun _ => seen) (hentries : s.entryFiles d = .ok entries)
    (hcollect : (s.collect d entries).1 = .ok ()) (n : Nat) :
    s.reached d entries n ⊆ s.reached d entries (d.files.size + 1) := by
  have hcollected := (collect_spec (fun _ => hinj) hd (hs.sound hinj).honest entries).2.1 hcollect
  have hprogress := hs.progress (c := (s.collect d entries).2) ⟨entries, hentries, Prod.ext hcollect rfl⟩
  induction n with
  | zero => exact fun _ hp => hp.elim
  | succ n ih =>
      rintro p (hp | ⟨q, hq, b, hyields, htarget⟩)
      · exact .inl hp
      · obtain ⟨a, ha, rfl⟩ := Option.map_eq_some_iff.1 ((hcollected.analyses q b).2 ⟨ih hq, hyields⟩)
        have hseen := (hprogress.taken q a ha).2.2 p htarget
        rcases hprogress.settled p hseen with hnone | htaken | hgone
        · cases hnone
        · obtain ⟨a', ha'⟩ := Option.isSome_iff_exists.1 htaken
          exact ((hcollected.analyses p a'.blur).1 (by rw [ha']; rfl)).1
        · exact absurd hgone (read_ne_notFound (isFile_of_target htarget))

/-- A later session collects the same files where the disk shows the same. -/
theorem exists_collects_of_shows (hs : Arises seen s last) (ht : Arises seen t last')
    (hinj : Set.InjOn Blake3.ofText seen) (hd : d.Within fun _ => seen) (hd' : d'.Within fun _ => seen)
    (hconfig : t.config = s.config) (hdiscovery : t.discovery = s.discovery) (hshows : s.Shows d d')
    (hc : s.Collects d c) : ∃ c', t.Collects d' c' ∧ c'.fingerprints = c.fingerprints := by
  obtain ⟨entries, hentries, hcollect⟩ := hc
  have hentries' : t.entryFiles d' = .ok entries := by
    rw [entryFiles, hdiscovery]
    exact hshows.entries.trans hentries
  have hreached : ∀ n, t.reached d' entries n = s.reached d entries n := fun n =>
    (reached_congr hconfig hdiscovery d' entries n).trans (hshows.reached_eq hentries n)
  have hok : (s.collect d entries).1 = .ok () := by rw [hcollect]
  have hfine := (collect_eq_ok_iff (fun _ => hinj) hd (hs.sound hinj).honest entries).1 hok
  have hclosed := hs.reached_subset hinj hd hentries hok
  have hread : ∀ {n p}, p ∈ s.reached d entries n → d'.read p = d.read p := fun hp =>
    hshows.read entries _ _ hentries hp
  have hok' : (t.collect d' entries).1 = .ok () := by
    rw [collect_eq_ok_iff (fun _ => hinj) hd' (ht.sound hinj).honest, hreached]
    intro p hp hfails
    refine hfine p (hclosed _ hp) ?_
    rwa [Fails, hconfig, hread hp] at hfails
  refine ⟨_, ⟨entries, hentries', Prod.ext hok' rfl⟩, ?_⟩
  have hcollected := ((collect_spec (fun _ => hinj) hd (hs.sound hinj).honest entries).2.1 hok).fingerprints
  have hcollected' := ((collect_spec (fun _ => hinj) hd' (ht.sound hinj).honest entries).2.1 hok').fingerprints
  have hclosed' := ht.reached_subset hinj hd' hentries' hok'
  rw [hcollect] at hcollected
  apply Dict.ext_get?
  intro p
  ext f
  rw [hcollected, hcollected']
  constructor
  · rintro ⟨hp, htext⟩
    rw [hreached] at hp
    exact ⟨hclosed _ hp, by rwa [hread hp] at htext⟩
  · rintro ⟨hp, htext⟩
    refine ⟨hclosed' (d.files.size + 1) (by rwa [hreached]), by rwa [hread hp]⟩

/-- Every import and re-export of a collected file that is relative leads to a collected file. -/
def Resolved (s : Session) (d : Disk) : Prop :=
  ∀ c, s.Collects d c → ∀ q ∈ c.analyses.toList, ∀ source ∈ q.2.sources,
    ModuleRef.isRelative source = true → (ModuleRef.resolve? q.1 source c.analyses.contains).isSome = true

theorem Resolved.sameBeside (h : s.Resolved d) (hc : s.Collects d c) (onDisk onDisk' : String → Bool) :
    SameBeside c.analyses onDisk onDisk' := by
  intro file a ha source hsource hnone
  have hrelative : ¬ModuleRef.isRelative source = true := by
    intro hrelative
    have hsome := h c hc (file, a) (Dict.mem_toList_iff.2 ha) source hsource hrelative
    rw [hnone] at hsome
    cases hsome
  rw [ModuleRef.resolve?, ModuleRef.resolve?, if_neg hrelative, if_neg hrelative]

theorem build_restored (hinj : Set.InjOn Blake3.ofText seen) (hs : Arises seen s last)
    (hhashed : ∀ text ∈ s.hashed d, text ∈ seen) (hbuild : (s.build scheduler d).1 = .ok b)
    (hfails : FailsTo seen (s.build scheduler d).2.1 t) (hshows : s.Shows d d')
    (hhashed' : ∀ text ∈ t.hashed d', text ∈ seen) (scheduler' : Scheduler) :
    t.artifact = some b.artifact ∧ (t.build scheduler' d').1 = .ok ⟨b.artifact, false⟩ := by
  obtain ⟨c, hc, hrests, hconfig, hdiscovery⟩ := rests_build hbuild
  have ht := hfails.arises (.build scheduler d hs hhashed)
  have hrests := hrests.of_kept hfails.kept
  have hsame : t.config = s.config ∧ t.discovery = s.discovery := by
    obtain ⟨registry, cache, rfl⟩ := hfails.kept
    exact ⟨hconfig, hdiscovery⟩
  refine ⟨hrests.artifact, ?_⟩
  obtain ⟨c', hc', hfingerprints⟩ := exists_collects_of_shows hs ht hinj
    (fun hread => hhashed _ (mem_hashed_of_read hread)) (fun hread => hhashed' _ (mem_hashed_of_read hread))
    hsame.1 hsame.2 hshows hc
  rw [← hfingerprints] at hrests
  have hunchanged : unchanged? { t with cache := c'.cache } (t.tracker.diff c'.fingerprints) = some b.artifact :=
    hrests.unchanged
  rw [build_of_collects hc', buildFrom]
  simp only [hunchanged]

/-- A build that fails, in whatever phase, leaves the tracked files, the last artifact, its mark and all
that is on the disk as they were. Once the disk shows again what it did when a build succeeded, with
only failing builds in between, that build's artifact is given again. It is the one of a fresh session, if
every relative import leads to a collected file. -/
theorem failing_build :
    (∀ (s : Session) (scheduler : Scheduler) (d : Disk) (e : Failure), (s.build scheduler d).1 = .error e →
      (s.build scheduler d).2.1.tracker = s.tracker ∧ (s.build scheduler d).2.1.artifact = s.artifact ∧
        (s.build scheduler d).2.1.dirty = s.dirty ∧ (s.build scheduler d).2.2 = d ∧
          ∀ d', (s.build scheduler d).2.1.scan d' = s.scan d') ∧
      ∀ (seen : Set String) (s : Session) (last : Option Disk) (scheduler : Scheduler) (d : Disk) (b : Built)
        (t : Session) (d' : Disk), Set.InjOn Blake3.ofText seen → Arises seen s last →
        (∀ text ∈ s.hashed d, text ∈ seen) → (s.build scheduler d).1 = .ok b →
        FailsTo seen (s.build scheduler d).2.1 t → s.Shows d d' → (∀ text ∈ t.hashed d', text ∈ seen) →
          t.artifact = some b.artifact ∧
            (∀ scheduler', (t.build scheduler' d').1 = .ok ⟨b.artifact, false⟩) ∧
              ((∀ text ∈ t.fresh.hashed d', text ∈ seen) → t.Resolved d' →
                start t.config.withoutCache d' = .ok t.fresh ∧
                  ∀ scheduler' scheduler'', SameOutcome (t.build scheduler' d').1 (t.fresh.build scheduler'' d').1) := by
  refine ⟨fun s scheduler d e h => ?leaves, fun seen s last scheduler d b t d' hinj hs hhashed hbuild hfails hshows
    hhashed' => ⟨?artifact, fun scheduler' => ?again, fun hfresh hresolved => ?agrees⟩⟩
  case leaves =>
    obtain ⟨hkept, hdisk⟩ := kept_build h
    have hscan := hkept.scan_eq
    obtain ⟨registry, cache, hkept⟩ := hkept
    refine ⟨?_, ?_, ?_, hdisk, hscan⟩ <;> rw [hkept]
  case artifact => exact (build_restored hinj hs hhashed hbuild hfails hshows hhashed' .sync).1
  case again => exact (build_restored hinj hs hhashed hbuild hfails hshows hhashed' scheduler').2
  case agrees =>
    have ht := hfails.arises (.build scheduler d hs hhashed)
    refine ⟨start_fresh (ht.sound hinj) d', fun scheduler' scheduler'' => ?_⟩
    refine (build_agree ht hinj hhashed' hfresh scheduler' scheduler'').2.2 ?_
    exact current_of_sameBeside ht hinj hhashed' scheduler' fun c d₀ hc _ => hresolved.sameBeside hc _ _

/-! A file that another one imports turns into bytes that are no text, and back. -/

def pairConfig : Config := { importerConfig with build := { importerConfig.build with followImports := true } }

def pairText : String := "import'./b'//gql"

def pairWith (content : Disk.Content) : Disk := ⟨.ofList [("/a.ts", .text pairText), ("/b.ts", content)], [], "/"⟩

def pair : Disk := pairWith (.text "")

def torn : Disk := pairWith .binary

set_option maxRecDepth 10000 in
theorem isSome_start_pair : (start pairConfig pair).toOption.isSome = true := by
  decide +kernel

def pairStart : Session := (start pairConfig pair).toOption.get isSome_start_pair

def pairBuilt : Session := (pairStart.build .sync pair).2.1

def pairFailed : Session := (pairBuilt.build .sync torn).2.1

/-- All that is hashed. -/
def pairHashed : List String :=
  [pairConfig.analysisPart.compact, pairText, "",
    "\x7b\"declarations\":[],\"exports\":\x7b\x7d,\"imports\":[\"/b.ts\"]\x7d",
    "\x7b\"declarations\":[],\"exports\":\x7b\x7d,\"imports\":[]\x7d"]

set_option maxRecDepth 10000 in
theorem nodup_pairHashed : (pairHashed.map Blake3.ofText).Nodup := by decide +kernel

set_option maxRecDepth 10000 in
theorem pair_spec : (∀ text ∈ pairStart.hashed pair, text ∈ pairHashed) ∧
    (∀ text ∈ pairBuilt.hashed torn, text ∈ pairHashed) ∧ (∀ text ∈ pairFailed.hashed pair, text ∈ pairHashed) ∧
      (∀ text ∈ pairFailed.fresh.hashed pair, text ∈ pairHashed) ∧
        (pairStart.build .sync pair).1.toOption.isSome = true ∧ (pairBuilt.build .sync torn).1.isOk = false ∧
          (pairFailed.entryFiles pair).toOption = some ["/a.ts"] ∧
            (pairFailed.collect pair ["/a.ts"]).1.toOption = some () ∧
              ∀ q ∈ (pairFailed.collect pair ["/a.ts"]).2.analyses.toList, ∀ source ∈ q.2.sources,
                ModuleRef.isRelative source = true → (ModuleRef.resolve? q.1 source
                  (pairFailed.collect pair ["/a.ts"]).2.analyses.contains).isSome = true := by
  decide +kernel

theorem failing_build_pair : ∃ b e, (pairStart.build .sync pair).1 = .ok b ∧
    (pairBuilt.build .sync torn).1 = .error e ∧ pairFailed.tracker = pairBuilt.tracker ∧
      pairFailed.artifact = some b.artifact ∧ (pairFailed.build .sync pair).1 = .ok ⟨b.artifact, false⟩ ∧
        SameOutcome (pairFailed.build .sync pair).1 (pairFailed.fresh.build .sync pair).1 := by
  obtain ⟨hstart, hbuilt, hfailed, hfresh, hsome, herror, hentries, hcollect, hresolved⟩ := pair_spec
  obtain ⟨b, hb⟩ := Option.isSome_iff_exists.1 hsome
  have hb := eq_ok_of_toOption hb
  obtain ⟨e, he⟩ : ∃ e, (pairBuilt.build .sync torn).1 = .error e := by
    cases hresult : (pairBuilt.build .sync torn).1 with
    | error e => exact ⟨e, rfl⟩
    | ok b' =>
        rw [hresult] at herror
        cases herror
  have hinj : Set.InjOn Blake3.ofText { text | text ∈ pairHashed } :=
    fun _ h _ h' => List.inj_on_of_nodup_map nodup_pairHashed h h'
  have harises : Arises { text | text ∈ pairHashed } pairStart none :=
    .start (by simp [pairHashed]) (eq_ok_get isSome_start_pair) (cache_of_start (eq_ok_get isSome_start_pair))
  have hfails : FailsTo { text | text ∈ pairHashed } pairBuilt pairFailed :=
    .build .sync torn (.refl _) hbuilt he
  have hcollects : pairFailed.Collects pair (pairFailed.collect pair ["/a.ts"]).2 :=
    ⟨_, eq_ok_of_toOption hentries, Prod.ext (eq_ok_of_toOption hcollect) rfl⟩
  have hresolves : pairFailed.Resolved pair := by
    intro c hc
    rw [hc.unique hcollects]
    exact hresolved
  have hleaves := failing_build.1 pairBuilt .sync torn e he
  obtain ⟨hartifact, hagain, hagrees⟩ := failing_build.2 _ pairStart none .sync pair b pairFailed pair hinj harises
    hstart hb hfails (.refl _ _) hfailed
  exact ⟨b, e, hb, he, hleaves.1, hartifact, hagain .sync, (hagrees hfresh hresolves).2 .sync .sync⟩

end StaticGql.Session
