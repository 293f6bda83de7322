import StaticGql.Proofs.Session.Excluded
import StaticGql.Proofs.Session.Failing

/-!
A scan after a build that succeeded: what it finds gone, changed and new among the files that the build
read and the entry files that there are now.
-/

namespace StaticGql.Session

open Fingerprint (Same)
open Path (Rooted append normalize startsAtRoot)

variable {s t : Session} {d d' : Disk} {c : Collection} {entries paths : List String} {scheduler : Scheduler}
  {b : Built} {p : String} {diff : Diff}

/-- A scan can tell what is at a path: a text, or nothing. -/
def Tells (d : Disk) (p : String) : Prop := (∃ text, d.read p = .ok text) ∨ d.read p = .error .notFound

theorem fingerprint?_eq_ok_iff {o : Option (String × Fingerprint)} (hnormal : normalize p = p) :
    fingerprint? d p = .ok o ↔
      (∃ text, d.read p = .ok text ∧ o = some (p, .ofText text 0)) ∨ d.read p = .error .notFound ∧ o = none := by
  rw [fingerprint?, hnormal]
  cases d.read p with
  | ok text => simp [eq_comm]
  | error e => cases e <;> simp [eq_comm]

theorem exists_fingerprint?_iff (hnormal : normalize p = p) : (∃ o, fingerprint? d p = .ok o) ↔ Tells d p := by
  simp only [fingerprint?_eq_ok_iff hnormal, Tells]
  constructor
  · rintro ⟨o, ⟨text, hread, -⟩ | ⟨hgone, -⟩⟩
    · exact .inl ⟨text, hread⟩
    · exact .inr hgone
  · rintro (⟨text, hread⟩ | hgone)
    · exact ⟨_, .inl ⟨text, hread, rfl⟩⟩
    · exact ⟨_, .inr ⟨hgone, rfl⟩⟩

/-- The fingerprints that a scan compares with are those of the files that are there. -/
theorem fingerprintsOf_mapM {now : List (Option (String × Fingerprint))} (hnormal : ∀ p ∈ paths, normalize p = p)
    (h : paths.mapM (fingerprint? d) = .ok now) :
    FingerprintsOf d { p | p ∈ paths } (.ofList (now.filterMap id)) := by
  have hall := mapM_eq_ok_iff.1 h
  have hmem : ∀ p f, (p, f) ∈ now.filterMap id ↔ p ∈ paths ∧ ∃ text, d.read p = .ok text ∧ f = .ofText text 0 := by
    intro p f
    rw [List.mem_filterMap]
    constructor
    · rintro ⟨o, ho, hsome⟩
      obtain ⟨q, hq, hfingerprint⟩ := exists_of_forall₂ hall.flip ho
      rcases (fingerprint?_eq_ok_iff (hnormal q hq)).1 hfingerprint with ⟨text, hread, rfl⟩ | ⟨-, rfl⟩
      · cases hsome
        exact ⟨hq, text, hread, rfl⟩
      · cases hsome
    · rintro ⟨hp, text, hread, rfl⟩
      obtain ⟨o, ho, hfingerprint⟩ := exists_of_forall₂ hall hp
      rcases (fingerprint?_eq_ok_iff (hnormal p hp)).1 hfingerprint with ⟨text', hread', rfl⟩ | ⟨hgone, -⟩
      · rw [hread] at hread'
        cases hread'
        exact ⟨_, ho, rfl⟩
      · rw [hread] at hgone
        cases hgone
  intro p f
  rw [Set.mem_ofPred_eq, ← hmem]
  constructor
  · exact Dict.mem_of_get?_ofList
  · intro hpf
    -- One path may come more than once, but always with the same fingerprint.
    obtain ⟨g, hg⟩ := Option.isSome_iff_exists.1 (Dict.isSome_get?_ofList.2 (List.mem_map_of_mem hpf))
    obtain ⟨-, text, hread, rfl⟩ := (hmem p f).1 hpf
    obtain ⟨-, text', hread', rfl⟩ := (hmem p g).1 (Dict.mem_of_get?_ofList hg)
    rw [hread] at hread'
    cases hread'
    exact hg

/-! ### Any scan -/

/-- The files that a scan looks at: the entry files and the tracked ones. -/
def Scanned (s : Session) (entries : List String) (p : String) : Prop := p ∈ entries ∨ p ∈ s.tracker.files.keys

theorem scan_eq (hentries : s.entryFiles d = .ok entries) : s.scan d =
    ((Dict.sortedTexts (entries ++ s.tracker.files.keys)).mapM (fingerprint? d)).map fun now =>
      s.tracker.diff (.ofList (now.filterMap id)) := by
  rw [scan, hentries]
  rfl

theorem mem_sortedTexts_scanned : p ∈ Dict.sortedTexts (entries ++ s.tracker.files.keys) ↔ s.Scanned entries p := by
  rw [Dict.mem_sortedTexts_iff, List.mem_append, Scanned]

/-- A scan fails only for a file that is neither a text nor gone. -/
theorem exists_scan_iff (hnormal : ∀ p, s.Scanned entries p → normalize p = p)
    (hentries : s.entryFiles d = .ok entries) :
    (∃ diff, s.scan d = .ok diff) ↔ ∀ p, s.Scanned entries p → Tells d p := by
  rw [scan_eq hentries]
  simp only [← mem_sortedTexts_scanned] at hnormal ⊢
  constructor
  · rintro ⟨diff, hdiff⟩ p hp
    obtain ⟨now, hnow, -⟩ := map_eq_ok_iff.1 hdiff
    obtain ⟨o, -, ho⟩ := exists_of_forall₂ (mapM_eq_ok_iff.1 hnow) hp
    exact (exists_fingerprint?_iff (hnormal p hp)).1 ⟨o, ho⟩
  · intro h
    obtain ⟨now, hnow⟩ := exists_forall₂ fun p hp => (exists_fingerprint?_iff (hnormal p hp)).2 (h p hp)
    exact ⟨_, map_eq_ok_iff.2 ⟨now, mapM_eq_ok_iff.2 hnow, rfl⟩⟩

theorem scan_spec (hnormal : ∀ p, s.Scanned entries p → normalize p = p) (hentries : s.entryFiles d = .ok entries)
    (hscan : s.scan d = .ok diff) :
    ∃ now, diff = s.tracker.diff now ∧ FingerprintsOf d { p | s.Scanned entries p } now := by
  rw [scan_eq hentries, map_eq_ok_iff] at hscan
  obtain ⟨now, hnow, rfl⟩ := hscan
  have hof := fingerprintsOf_mapM (fun p hp => hnormal p (mem_sortedTexts_scanned.1 hp)) hnow
  simp only [mem_sortedTexts_scanned] at hof
  exact ⟨_, rfl, hof⟩

/-! ### After a build -/

/-- What a scan of the second disk reports after a build on the first: of the files that the build read those
that are gone and those with another content, and the entry files that it did not read. -/
structure Reports (t : Session) (d d' : Disk) (entries : List String) (diff : Diff) : Prop where
  removed : ∀ p, p ∈ diff.removed ↔ p ∈ t.tracker.files.keys ∧ d'.read p = .error .notFound
  changed : ∀ p, p ∈ diff.changed ↔ p ∈ t.tracker.files.keys ∧ ∃ text text', d.read p = .ok text ∧
    d'.read p = .ok text' ∧ (Blake3.ofText text ≠ Blake3.ofText text' ∨ text.utf8ByteSize ≠ text'.utf8ByteSize)
  added : ∀ p, p ∈ diff.added ↔ p ∈ entries ∧ p ∉ t.tracker.files.keys ∧ ∃ text, d'.read p = .ok text

/-- A scan of tracked files that have normal paths, whose fingerprints are those of the first disk. -/
theorem reports_of_scan (hnormal : ∀ p, t.Scanned entries p → normalize p = p)
    (htracked : ∀ p f, t.tracker.files.get? p = some f →
      ∃ text, d.read p = .ok text ∧ f.differs (.ofText text 0) = false)
    (hentries : t.entryFiles d' = .ok entries) (hscan : t.scan d' = .ok diff) : t.Reports d d' entries diff := by
  obtain ⟨now, rfl, hnow⟩ := scan_spec hnormal hentries hscan
  have htells := (exists_scan_iff hnormal hentries).1 ⟨_, hscan⟩
  have hthere : ∀ {p}, (now.get? p).isSome = true ↔ t.Scanned entries p ∧ ∃ text, d'.read p = .ok text := by
    intro p
    rw [Option.isSome_iff_exists]
    constructor
    · rintro ⟨f, hf⟩
      obtain ⟨hp, text, hread, -⟩ := (hnow p f).1 hf
      exact ⟨hp, text, hread⟩
    · rintro ⟨hp, text, hread⟩
      exact ⟨_, (hnow p _).2 ⟨hp, text, hread, rfl⟩⟩
  have hexact := t.tracker.exact_diff now
  refine ⟨fun p => ?removed, fun p => ?changed, fun p => ?added⟩
  case removed =>
    rw [hexact.removed, and_congr_right_iff]
    intro hp
    rw [Dict.mem_keys_iff, hthere]
    rcases htells p (.inr hp) with ⟨text, hread⟩ | hgone
    · simp [hread, Scanned, hp]
    · simp [hgone]
  case changed =>
    rw [hexact.changed]
    constructor
    · rintro ⟨f, g, hf, hg, hdiffers⟩
      obtain ⟨text, hread, hsame⟩ := htracked p f hf
      obtain ⟨-, text', hread', rfl⟩ := (hnow p g).1 hg
      obtain ⟨hhash, hsize⟩ := Fingerprint.differs_eq_false_iff.1 hsame
      rw [hhash, hsize] at hdiffers
      exact ⟨Dict.mem_keys_iff.2 (by rw [hf]; rfl), text, text', hread, hread', hdiffers⟩
    · rintro ⟨hp, text, text', hread, hread', hdiffers⟩
      obtain ⟨f, hf⟩ := Option.isSome_iff_exists.1 (Dict.mem_keys_iff.1 hp)
      obtain ⟨text₀, hread₀, hsame⟩ := htracked p f hf
      rw [hread] at hread₀
      cases hread₀
      obtain ⟨hhash, hsize⟩ := Fingerprint.differs_eq_false_iff.1 hsame
      refine ⟨f, _, hf, (hnow p _).2 ⟨.inr hp, text', hread', rfl⟩, ?_⟩
      rw [hhash, hsize]
      exact hdiffers
  case added =>
    rw [hexact.added, Dict.mem_keys_iff, hthere]
    constructor
    · rintro ⟨⟨hp, htext⟩, hnot⟩
      exact ⟨hp.resolve_right hnot, hnot, htext⟩
    · rintro ⟨hp, hnot, htext⟩
      exact ⟨⟨.inl hp, htext⟩, hnot⟩

/-- The files that a build has read are tracked with what it has read. -/
theorem tracked_build (h : (s.build scheduler d).1 = .ok b) : ∃ c, s.Collects d c ∧
    (s.build scheduler d).2.1.tracker.files.keys = c.fingerprints.keys ∧
      ∀ p f, (s.build scheduler d).2.1.tracker.files.get? p = some f →
        ∃ text, d.read p = .ok text ∧ f.differs (.ofText text 0) = false := by
  obtain ⟨c, hc, hrests, -, -⟩ := rests_build h
  refine ⟨c, hc, Dict.keys_eq_iff.2 fun p => (hrests.tracked p).isSome_iff, fun p f hf => ?_⟩
  obtain ⟨entries, -, hcollect⟩ := hc
  have hbound := collect_bound s d entries
  rw [hcollect] at hbound
  have hsame := hrests.tracked p
  rw [hf] at hsame
  cases hg : c.fingerprints.get? p with
  | none =>
      rw [hg] at hsame
      cases hsame
  | some g =>
      rw [hg] at hsame
      obtain ⟨-, text, hread, rfl⟩ := hbound.fingerprints p g hg
      cases hsame with
      | some hsame => exact ⟨text, hread, hsame⟩

/-- A diff says exactly what there is to say, and nothing more once it is committed. After a build, a scan
of a disk that it can read reports the tracked files that are gone, those with another content, and the
entry files that can be read at their normal path and were not collected; where files are at the names of
places, every entry file can. -/
theorem tracking : (∀ (t : Tracker) (now : Dict Fingerprint), t.Exact now) ∧
    ∀ (s : Session) (scheduler : Scheduler) (d : Disk) (b : Built), startsAtRoot s.discovery.root = true →
      (s.build scheduler d).1 = .ok b → ∃ c, s.Collects d c ∧
        (s.build scheduler d).2.1.tracker.files.keys = c.fingerprints.keys ∧
          (s.cache.Filed → NoIndexAtRoot d → ∀ p ∈ c.fingerprints.keys, normalize p = p) ∧
            ((∀ p ∈ c.fingerprints.keys, normalize p = p) → ∀ d' entries,
              (s.build scheduler d).2.1.entryFiles d' = .ok entries →
                ((∃ diff, (s.build scheduler d).2.1.scan d' = .ok diff) ↔
                  ∀ p, p ∈ entries ∨ p ∈ c.fingerprints.keys → Tells d' p) ∧
                (∀ diff, (s.build scheduler d).2.1.scan d' = .ok diff →
                  (s.build scheduler d).2.1.Reports d d' entries diff) ∧
                (Rooted s.discovery.root → d'.Grounded → ∀ p ∈ entries, d'.read p ≠ .error .notFound)) := by
  refine ⟨Tracker.exact_diff, fun s scheduler d b hroot hbuild => ?_⟩
  obtain ⟨c, hc, hkeys, htracked⟩ := tracked_build hbuild
  obtain ⟨-, -, -, -, hdiscovery⟩ := rests_build hbuild
  generalize (s.build scheduler d).2.1 = t at hkeys htracked hdiscovery ⊢
  refine ⟨c, hc, hkeys, fun hfiled hindex p hp => ?normal, fun hnormal d' entries hentries => ?scan⟩
  case normal =>
    obtain ⟨place, hplace, rfl⟩ := exists_place_of_collects hfiled hroot hindex hc (Dict.mem_keys_iff.1 hp)
    exact Path.normalize_name hplace
  case scan =>
    have hroot' : startsAtRoot t.discovery.root = true := by rw [hdiscovery, hroot]
    have hscanned : ∀ p, t.Scanned entries p → normalize p = p := by
      rintro p (hp | hp)
      · obtain ⟨place, hplace, rfl⟩ := exists_place_of_entryFiles hroot' hentries p hp
        exact Path.normalize_name hplace
      · exact hnormal p (hkeys ▸ hp)
    refine ⟨?_, fun diff hscan => reports_of_scan hscanned htracked hentries hscan, fun hrooted hgrounded p hp => ?_⟩
    · rw [exists_scan_iff hscanned hentries, ← hkeys]
      rfl
    · rw [← hdiscovery] at hrooted
      exact hgrounded.read_ne_notFound (entry_spec hrooted hgrounded.named hentries hp).1

/-! One of two files is gone, the other has changed, and there is a new one. -/

def wideConfig : Config :=
  ⟨⟨"/app", ["*.ts"], []⟩, ⟨"gql", [], none⟩, ⟨.scanner, false, none, .sync, true⟩, .standard⟩

def wideDisk (files : List (String × String)) : Disk :=
  ⟨.ofList (files.map fun (name, text) => ("/app/" ++ name, .text text)), ["/app"], "/"⟩

def before : Disk := wideDisk [("a.ts", "1"), ("b.ts", "2")]

def after : Disk := wideDisk [("a.ts", "3"), ("c.ts", "4")]

set_option maxRecDepth 10000 in
theorem isSome_start_wide : (start wideConfig before).toOption.isSome = true := by
  decide +kernel

def wideStart : Session := (start wideConfig before).toOption.get isSome_start_wide

theorem start_wide : start wideConfig before = .ok wideStart := eq_ok_get isSome_start_wide

def wideBuilt : Session := (wideStart.build .sync before).2.1

set_option maxRecDepth 10000 in
theorem wide_spec : (wideStart.build .sync before).1.toOption.isSome = true ∧
    wideBuilt.tracker.files.keys = ["/app/a.ts", "/app/b.ts"] ∧
      (wideBuilt.entryFiles after).toOption = some ["/app/a.ts", "/app/c.ts"] ∧
        (wideBuilt.scan after).toOption.isSome = true := by
  decide +kernel

theorem tracking_wide : ∃ b diff, (wideStart.build .sync before).1 = .ok b ∧ wideBuilt.scan after = .ok diff ∧
    "/app/c.ts" ∈ diff.added ∧ "/app/b.ts" ∈ diff.removed ∧ "/app/a.ts" ∉ diff.removed := by
  obtain ⟨hbuild, hkeys, hentries, hscan⟩ := wide_spec
  obtain ⟨b, hb⟩ := Option.isSome_iff_exists.1 hbuild
  obtain ⟨diff, hdiff⟩ := Option.isSome_iff_exists.1 hscan
  have hb := eq_ok_of_toOption hb
  have hdiff := eq_ok_of_toOption hdiff
  have hbuilt : (wideStart.build .sync before).2.1 = wideBuilt := rfl
  have hindex : NoIndexAtRoot before := by decide
  obtain ⟨c, -, -, hnormal, hscans⟩ := tracking.2 wideStart .sync before b (startsAtRoot_of_start start_wide) hb
  rw [hbuilt] at hscans
  obtain ⟨-, hreports, -⟩ := hscans (hnormal (filed_of_start start_wide rfl) hindex) after _
    (eq_ok_of_toOption hentries)
  have hreports := hreports diff hdiff
  refine ⟨b, diff, hb, hdiff, (hreports.added _).2 ⟨by simp, by simp [hkeys], "4", by decide⟩,
    (hreports.removed _).2 ⟨by simp [hkeys], by decide⟩, fun hremoved => ?_⟩
  have hgone := ((hreports.removed _).1 hremoved).2
  have hread : after.read "/app/a.ts" = .ok "3" := by decide
  rw [hread] at hgone
  cases hgone

/-- A file whose name has a backslash. -/
def slanted : Disk := wideDisk [("a.ts", "1"), ("b.ts", "2"), ("b\\c.ts", "3")]

set_option maxRecDepth 10000 in
theorem slanted_spec : (slanted.filesBelow "/app").map (append "/app") = ["/app/a.ts", "/app/b.ts", "/app/b\\c.ts"] ∧
    wideBuilt.discovery.isEntry "/app/b\\c.ts" = true ∧ normalize "/app/b\\c.ts" = "/app/b/c.ts" ∧
      (wideBuilt.entryFiles slanted).toOption = some ["/app/a.ts", "/app/b.ts", "/app/b/c.ts"] ∧
        (wideBuilt.scan slanted).toOption = some .empty := by
  decide +kernel

/-- It is an entry file that was not collected, and a scan does not report it: its normal path is that of
another file, which is not there. -/
theorem not_reported_slanted : ∃ b, (wideStart.build .sync before).1 = .ok b ∧
    wideBuilt.entryFiles slanted = .ok ["/app/a.ts", "/app/b.ts", "/app/b/c.ts"] ∧
      "/app/b/c.ts" ∉ wideBuilt.tracker.files.keys ∧ slanted.isFile "/app/b\\c.ts" = true ∧
        wideBuilt.scan slanted = .ok .empty := by
  obtain ⟨hbuild, hkeys, -⟩ := wide_spec
  obtain ⟨b, hb⟩ := Option.isSome_iff_exists.1 hbuild
  obtain ⟨-, -, -, hentries, hscan⟩ := slanted_spec
  exact ⟨b, eq_ok_of_toOption hb, eq_ok_of_toOption hentries, by simp [hkeys], by decide,
    eq_ok_of_toOption hscan⟩

end StaticGql.Session
