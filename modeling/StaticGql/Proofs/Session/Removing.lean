import StaticGql.Proofs.Path.Normal
import StaticGql.Proofs.Session.Agreement
import StaticGql.Proofs.Session.Visits

/-!
Taking a module out of a session. The registry finds the module of a file under every spelling of its
path, the cache and the tracker only under those that start at the root.
-/

namespace StaticGql

namespace Path

open Text (splitOn joinWith)

variable {p : String} {segments : List Segment} {cs : List Char}

/-- The path is written from the root on, whichever way its slashes lean. -/
def FromRoot (p : String) : Prop := ∃ rest, unify p = '/' :: rest

theorem head_joinWith {c : Char} {rest : List Char} (hne : ∀ s ∈ segments, s ≠ []) (h : joinWith slash segments = c :: rest) :
    ∃ s ∈ segments, c ∈ s := by
  cases segments with
  | nil => cases h
  | cons s more =>
      refine ⟨s, List.mem_cons_self, ?_⟩
      obtain ⟨tail, hjoin, -⟩ := exists_joinWith_cons s more
      rw [hjoin] at h
      obtain ⟨a, s, rfl⟩ := List.exists_cons_of_ne_nil (hne s List.mem_cons_self)
      cases h
      exact List.mem_cons_self

theorem head_normalizeChars {c : Char} {rest : List Char} (h : normalizeChars cs = c :: rest) :
    (∃ rest, cs = '/' :: rest) ∨ c.isAlpha = true ∨ c = '.' ∨ c ∈ cs ∧ c ≠ '/' := by
  rcases splitRoot_cases cs with hsplit | ⟨a, halpha, rfl⟩ | ⟨root, behind, htop, rfl⟩
  · rw [normalizeChars_of_splitRoot hsplit] at h
    dsimp only at h
    split at h
    · cases h
      exact .inr (.inr (.inl rfl))
    · have hparts : ∀ s ∈ resolveSegments false (splitOn '/' cs), s ∈ splitOn '/' cs ∧ s ≠ [] :=
        fun s hs => mem_resolveSegments hs
      obtain ⟨s, hs, hc⟩ := head_joinWith (fun s hs => (hparts s hs).2) h
      obtain ⟨hslash, hmem⟩ := Text.not_mem_of_mem_splitOn (hparts s hs).1
      exact .inr (.inr (.inr ⟨hmem c hc, fun heq => hslash (heq ▸ hc)⟩))
  · rw [normalizeChars_drive halpha] at h
    cases h
    exact .inr (.inl halpha)
  · rw [normalizeChars_top htop] at h
    cases htop with
    | slash => exact .inl ⟨behind, rfl⟩
    | drive halpha =>
        cases h
        exact .inr (.inl halpha)

theorem FromRoot.exists_place (h : FromRoot p) : ∃ place, Disk.IsPlace place ∧ normalize p = Disk.name place := by
  obtain ⟨rest, hrest⟩ := h
  refine ⟨_, isPlace_placeOf ?_, normalize_of_unify hrest⟩
  have hplain := backslash_not_mem_unify p
  rw [hrest] at hplain
  exact fun hmem => hplain (List.mem_cons_of_mem _ hmem)

theorem Rooted.fromRoot (h : Rooted p) : FromRoot p := by
  obtain ⟨rest, hrest⟩ := h.start
  exact ⟨rest, by rw [unify_of_plain h.plain, hrest]⟩

theorem FromRoot.rooted_normalize (h : FromRoot p) : Rooted (normalize p) := by
  obtain ⟨place, hplace, hname⟩ := h.exists_place
  exact hname ▸ rooted_name hplace

theorem fromRoot_normalize : FromRoot (normalize p) ↔ FromRoot p := by
  constructor
  · rintro ⟨rest, hrest⟩
    have hchars : (normalize p).toList = normalizeChars (unify p) := String.toList_ofList
    rw [unify, hchars] at hrest
    cases hnormal : normalizeChars (unify p) with
    | nil =>
        rw [hnormal] at hrest
        cases hrest
    | cons c tail =>
        rw [hnormal, List.map_cons, List.cons.injEq] at hrest
        have hc : c = '/' ∨ c = '\\' := by
          by_cases hback : c = '\\'
          · exact .inr hback
          · exact .inl (by simpa [hback] using hrest.1)
        rcases head_normalizeChars hnormal with hslash | halpha | rfl | ⟨hmem, hne⟩
        · exact hslash
        · rcases hc with rfl | rfl <;> cases halpha
        · rcases hc with hc | hc <;> cases hc
        · rcases hc with rfl | rfl
          · exact absurd rfl hne
          · exact absurd hmem (backslash_not_mem_unify p)
  · exact fun h => h.rooted_normalize.fromRoot

end Path

/-- Two spellings of one key: one that starts at the root is brought to the file's own path. -/
theorem CanonicalId.normalize_eq_iff {mode : IdMode} {path file : String} (hfile : Path.Rooted file)
    (hnormal : Path.normalize file = file) (hkey : fileKey mode (Path.normalize path) = fileKey mode file) :
    Path.normalize path = file ↔ Path.FromRoot path := by
  constructor
  · intro h
    rw [← Path.fromRoot_normalize, h]
    exact hfile.fromRoot
  · intro h
    have hrooted := h.rooted_normalize
    rw [fileKey_eq, fileKey_eq] at hkey
    have hsame := filePart_inj hrooted hfile hkey
    obtain ⟨place, hplace, hname⟩ := h.exists_place
    rwa [hname, Path.normalize_name hplace, ← hname, hnormal] at hsame

theorem CanonicalId.fromRoot_of_absolute {path file : String} (hfile : Path.Rooted file)
    (hkey : fileKey .absolute (Path.normalize path) = fileKey .absolute file) : Path.FromRoot path := by
  rw [fileKey_eq, fileKey_eq] at hkey
  obtain ⟨place, hplace, hname⟩ := Path.exists_place hfile.start
  rw [filePart_of_name .absolute hplace hname, filePart.eq_def] at hkey
  dsimp only at hkey
  split at hkey
  · rw [← Path.fromRoot_normalize, ← Path.fromRoot_normalize, Except.ok.inj hkey]
    exact (Path.rooted_name hplace).fromRoot
  · cases hkey

namespace Session

variable {s t : Session} {path file : String} {removed : List CanonicalId}

/-- The session does not track the file, and its cache has no entry for it. -/
def Forgot (s : Session) (file : String) : Prop :=
  s.tracker.files.get? file = none ∧ s.cache.entry? file = none

theorem removeModule_eq_ok_iff : s.removeModule path = .ok (removed, t) ↔ ∃ key,
    CanonicalId.fileKey s.config.idMode (Path.normalize path) = .ok key ∧
      removed = (s.registry.removeModule key).1 ∧
        t = { s with
          registry := (s.registry.removeModule key).2
          cache := (s.cache.remove (Path.normalize path)).2
          tracker := (s.tracker.forget (Path.normalize path)).2
          dirty := true } := by
  constructor
  · intro h
    obtain ⟨key, hkey, h⟩ := bind_eq_ok_iff.1 h
    cases h
    exact ⟨key, mapError_eq_ok_iff.1 hkey, rfl, rfl⟩
  · rintro ⟨key, hkey, rfl, rfl⟩
    exact bind_eq_ok_iff.2 ⟨key, mapError_eq_ok_iff.2 hkey, rfl⟩

theorem forgot_removeModule (h : s.removeModule path = .ok (removed, t)) (file : String) :
    t.Forgot file ↔ Path.normalize path = file ∨ s.Forgot file := by
  obtain ⟨key, -, -, rfl⟩ := removeModule_eq_ok_iff.1 h
  have htracker : (s.tracker.forget (Path.normalize path)).2.files.get? file =
      if Path.normalize path = file then none else s.tracker.files.get? file := Dict.get?_erase ..
  have hcache : Cache.entry? (s.cache.remove (Path.normalize path)).2 file =
      if Path.normalize path = file then none else s.cache.entry? file := Dict.get?_erase ..
  rw [Forgot, htracker, hcache, Forgot]
  by_cases hfile : Path.normalize path = file
  · simp [hfile]
  · simp [hfile]

/-- A build after the file was forgotten does not take it from the cache. -/
theorem Forgot.reads (h : t.Forgot file) {d : Disk} {entries : List String} {text : String}
    (hentries : t.entryFiles d = .ok entries) (hread : d.read file = .ok text) :
    ¬t.Reads d entries file (some .hit) ∧ ((t.collect d entries).1 = .ok () →
      ((t.collect d entries).2.fingerprints.get? file).isSome = true →
        t.Reads d entries file (some .miss) ∨ t.Reads d entries file (some .skip)) := by
  have hnodup : entries.Nodup := by
    rw [entryFiles] at hentries
    split at hentries
    · rw [← Except.ok.inj hentries]
      exact Dict.nodup_keys _
    · cases hentries
  have hnot := not_reads_hit (d := d) hnodup h.2
  refine ⟨hnot, fun hcollect hfingerprint => ?_⟩
  obtain ⟨reading, hreads⟩ := exists_reads hcollect hfingerprint
  cases reading with
  | none =>
      obtain ⟨c, result, c', -, -, hlooks⟩ := hreads
      cases hlooks with
      | gone hgone =>
          rw [hread] at hgone
          cases hgone
  | some reading =>
      cases reading with
      | hit => exact absurd hreads hnot
      | miss => exact .inl hreads
      | skip => exact .inr hreads

/-- The module of a file goes under every spelling of its path. The session forgets the file itself if
the path starts at the root, as it does wherever ids are absolute; a path that is relative to the root
leaves it tracked and cached. Once it is forgotten the next build reads it again. -/
theorem removeModule_forgets (h : s.removeModule path = .ok (removed, t)) (hfile : Path.Rooted file)
    (hnormal : Path.normalize file = file) (hkey : CanonicalId.fileKey s.config.idMode (Path.normalize path) =
      CanonicalId.fileKey s.config.idMode file) :
    (∃ key, CanonicalId.fileKey s.config.idMode file = .ok key ∧ t.registry.modules.get? key = none) ∧
      (t.Forgot file ↔ Path.FromRoot path ∨ s.Forgot file) ∧
        (s.config.idMode = .absolute → Path.FromRoot path) ∧
          (t.Forgot file → t.dirty = true ∧ ∀ d entries text, t.entryFiles d = .ok entries →
            d.read file = .ok text → ¬t.Reads d entries file (some .hit) ∧ ((t.collect d entries).1 = .ok () →
              ((t.collect d entries).2.fingerprints.get? file).isSome = true →
                t.Reads d entries file (some .miss) ∨ t.Reads d entries file (some .skip))) := by
  refine ⟨?module, ?forgot, fun hmode => ?absolute, fun hforgot => ⟨?dirty, fun d entries text hentries hread => ?reads⟩⟩
  case module =>
    obtain ⟨key, hkey', -, rfl⟩ := removeModule_eq_ok_iff.1 h
    refine ⟨key, hkey ▸ hkey', ?_⟩
    show (s.registry.modules.erase key).get? key = none
    rw [Dict.get?_erase, if_pos rfl]
  case forgot => rw [forgot_removeModule h, CanonicalId.normalize_eq_iff hfile hnormal hkey]
  case absolute =>
    rw [hmode] at hkey
    exact CanonicalId.fromRoot_of_absolute hfile hkey
  case dirty =>
    obtain ⟨key, -, -, rfl⟩ := removeModule_eq_ok_iff.1 h
    rfl
  case reads => exact hforgot.reads hentries hread

/-! A session with ids relative to the root that has built one file. -/

def relativeConfig : Config := { importerConfig with build := { importerConfig.build with relativeIds := true } }

def lone : Disk := ⟨.ofList [("/a.ts", .text "export const b=gql.q(()=>query.slice({}))")], [], "/"⟩

set_option maxRecDepth 10000 in
theorem isSome_start_lone : (start relativeConfig lone).toOption.isSome = true := by
  decide +kernel

def loneBuilt : Session := (((start relativeConfig lone).toOption.get isSome_start_lone).build .sync lone).2.1

set_option maxRecDepth 10000 in
theorem lone_spec : (((loneBuilt.removeModule "/./a.ts").toOption.map fun q =>
    (q.2.entryFiles lone).toOption) = some (some ["/a.ts"])) ∧
    ((loneBuilt.removeModule "a.ts").toOption.map fun q => (q.1, (q.2.tracker.files.get? "/a.ts").isSome,
      (Cache.entry? q.2.cache "/a.ts").isSome, (q.2.build .sync lone).1.toOption.map (·.artifact.report.stats))) =
        some ([⟨"a.ts::b"⟩], true, true, some ⟨1, 0, 0⟩) ∧
      CanonicalId.fileKey loneBuilt.config.idMode (Path.normalize "/./a.ts") =
          CanonicalId.fileKey loneBuilt.config.idMode "/a.ts" ∧
        CanonicalId.fileKey loneBuilt.config.idMode (Path.normalize "a.ts") =
          CanonicalId.fileKey loneBuilt.config.idMode "/a.ts" := by
  decide +kernel

theorem forgotten_lone : ∃ removed t, loneBuilt.removeModule "/./a.ts" = .ok (removed, t) ∧ t.Forgot "/a.ts" ∧
    t.dirty = true ∧ ¬t.Reads lone ["/a.ts"] "/a.ts" (some .hit) := by
  obtain ⟨hremove, -, hkey, -⟩ := lone_spec
  obtain ⟨⟨removed, t⟩, hremove, hentries⟩ := Option.map_eq_some_iff.1 hremove
  have hremove := eq_ok_of_toOption hremove
  have hrooted : Path.Rooted "/a.ts" := ⟨⟨_, rfl⟩, by decide⟩
  obtain ⟨-, hforgot, -, hreads⟩ := removeModule_forgets hremove hrooted (by decide) hkey
  have hforgot := hforgot.2 (.inl ⟨_, rfl⟩)
  obtain ⟨hdirty, hreads⟩ := hreads hforgot
  exact ⟨removed, t, hremove, hforgot, hdirty, (hreads lone _ _ (eq_ok_of_toOption hentries) rfl).1⟩

/-- A path relative to the root takes the module out of the registry, and the next build takes the file
from the cache. -/
theorem not_forgotten_lone : ∃ removed t b, loneBuilt.removeModule "a.ts" = .ok (removed, t) ∧
    CanonicalId.fileKey loneBuilt.config.idMode (Path.normalize "a.ts") =
        CanonicalId.fileKey loneBuilt.config.idMode "/a.ts" ∧
      removed = [⟨"a.ts::b"⟩] ∧ ¬t.Forgot "/a.ts" ∧ (t.build .sync lone).1 = .ok b ∧
        b.artifact.report.stats = ⟨1, 0, 0⟩ := by
  obtain ⟨-, hremove, -, hkey⟩ := lone_spec
  obtain ⟨⟨removed, t⟩, hremove, hafter⟩ := Option.map_eq_some_iff.1 hremove
  obtain ⟨hremoved, htracked, -, hbuild⟩ := by simpa only [Prod.mk.injEq] using hafter
  obtain ⟨b, hb, hstats⟩ := Option.map_eq_some_iff.1 hbuild
  refine ⟨removed, t, b, eq_ok_of_toOption hremove, hkey, hremoved, fun hforgot => ?_, eq_ok_of_toOption hb, hstats⟩
  rw [hforgot.1] at htracked
  cases htracked

end Session
end StaticGql
