import Mathlib.Data.Finset.Card
import StaticGql.Proofs.Session.History
import StaticGql.Proofs.Session.Paths

/-!
What a build collects is closed under the imports that it follows. Each round but the last takes in a
file that no round before it has taken in, and only files that can be read there are few.
-/

namespace StaticGql

open Path (Rooted normalize startsAtRoot)
open ModuleRef (candidatesAt isRelative)

/-! ### Caches filed by path -/

/-- Every analysis is under the path that it carries. -/
def Cache.Filed (c : Cache) : Prop := ∀ path e, c.entries.get? path = some e → e.analysis.file = path

namespace Cache

variable {c : Cache} {path : String} {e : CacheEntry}

theorem filed_empty (key : String) : (empty key).Filed := nofun

theorem Filed.insert (h : c.Filed) (he : e.analysis.file = path) : (c.insert path e).Filed := by
  intro path' e' he'
  rw [Cache.insert, Dict.get?_insert] at he'
  split at he'
  · rename_i hpath
    cases he'
    exact he.trans hpath
  · exact h path' e' he'

theorem Filed.retain (h : c.Filed) (paths : List String) : (c.retain paths).Filed := by
  intro path e he
  rw [Cache.retain, Dict.get?_filter, Option.filter_eq_some_iff] at he
  exact h path e he.1

theorem Filed.remove (h : c.Filed) (path : String) : (c.remove path).2.Filed := by
  intro path' e he
  rw [Cache.remove, Dict.get?_erase] at he
  split at he
  · cases he
  · exact h path' e he

theorem Filed.reload (h : c.Filed) (key : String) : (ofText key c.text).Filed := by
  rcases ofText_text c key with hempty | ⟨-, -, hentries⟩
  · rw [hempty]
    exact filed_empty key
  · intro path e he
    have hget := congrArg (fun d => d.get? path) hentries
    simp only [Dict.get?_map, he, Option.map_some] at hget
    obtain ⟨e', he', hblur⟩ := Option.map_eq_some_iff.1 hget.symm
    have hfile : e'.analysis.file = e.analysis.file := congrArg (fun e => e.analysis.file) hblur
    rw [← hfile]
    exact h path e' he'

theorem Filed.lookup (h : c.Filed) {now : Fingerprint} {a : Analysis} (ha : c.lookup? path now = some a) :
    a.file = path := by
  obtain ⟨e, he, rfl⟩ := Option.map_eq_some_iff.1 ha
  exact h path e (Option.filter_eq_some_iff.1 he).1

end Cache

namespace Session

variable {s t : Session} {d : Disk} {c : Collection} {entries : List String} {last : Option Disk}
  {seen : Set String}

/-! ### Paths that can be read -/

/-- All paths that a build may read a text at: the names of the files, and what imports of the root mean,
which may be another name of one of them. -/
def legible (s : Session) (d : Disk) : List String :=
  ((candidatesAt "/").find? (Collect.mayFollow s d)).toList ++ d.files.keys

theorem length_legible_le (s : Session) (d : Disk) : (s.legible d).length ≤ d.files.size + 1 := by
  have hfirst : ((candidatesAt "/").find? (Collect.mayFollow s d)).toList.length ≤ 1 := by
    cases (candidatesAt "/").find? (Collect.mayFollow s d) <;> simp
  have hkeys : d.files.keys.length = d.files.size := List.length_map ..
  rw [legible, List.length_append]
  omega

theorem mem_legible_of_name {place : Disk.Place} {content : Disk.Content}
    (h : d.file? place = some content) : Disk.name place ∈ s.legible d := by
  apply List.mem_append_right
  rw [Dict.mem_keys_iff, Disk.get?_of_file h]
  rfl

theorem exists_content_of_isFile {path : String} (h : d.isFile path = true) :
    ∃ place content, d.locate path = .ok place ∧ d.file? place = some content := by
  rw [Disk.isFile] at h
  split at h
  · rename_i place hlocate
    obtain ⟨content, hcontent⟩ := Option.isSome_iff_exists.1 h
    exact ⟨place, content, hlocate, hcontent⟩
  · cases h

/-- A file that is there does not turn out to be missing when it is read. -/
theorem read_ne_notFound {path : String} (h : d.isFile path = true) :
    d.read path ≠ .error .notFound := by
  obtain ⟨place, content, hlocate, hcontent⟩ := exists_content_of_isFile h
  cases content <;> simp [Disk.read, hlocate, hcontent, bind, Except.bind]

theorem mem_legible_of_entry (hroot : startsAtRoot s.discovery.root = true)
    (hentries : s.entryFiles d = .ok entries) {p text : String} (hp : p ∈ entries)
    (hread : d.read p = .ok text) : p ∈ s.legible d := by
  obtain ⟨place, hplace, rfl⟩ := exists_place_of_entryFiles hroot hentries p hp
  obtain ⟨place', -, -, hname, hfile⟩ := Disk.read_spec (Path.rooted_name hplace) hread
  rw [Path.normalize_name hplace] at hname
  rw [hname]
  exact mem_legible_of_name hfile

theorem isFile_of_target {a : Analysis} {t : String} (ht : t ∈ Collect.targets s d a) :
    d.isFile t = true := by
  obtain ⟨source, -, hfind⟩ := exists_of_mem_targets ht
  have hmay : Collect.mayFollow s d t = true := List.find?_some hfind
  rw [Collect.mayFollow, Bool.and_eq_true] at hmay
  exact hmay.1

theorem mem_legible_of_target {a : Analysis} {text t : String} (hfile : Rooted a.file)
    (hread : d.read a.file = .ok text) (ht : t ∈ Collect.targets s d a) : t ∈ s.legible d := by
  obtain ⟨source, hrelative, hfind⟩ := exists_of_mem_targets ht
  obtain ⟨place, hplace, hne, hname, -⟩ := Disk.read_spec hfile hread
  obtain ⟨dir, hdir, hroot⟩ := Path.exists_parent hplace hne hname
  obtain ⟨base, hbase, hjoin⟩ := Path.exists_place_join hroot (ModuleRef.exists_of_isRelative hrelative)
  rw [ModuleRef.candidates_eq, hdir, Option.getD_some, hjoin] at hfind
  by_cases hnil : base = []
  · rw [hnil] at hfind
    exact List.mem_append_left _ (Option.mem_toList.2 hfind)
  · obtain ⟨place', hplace', rfl⟩ :=
      ModuleRef.exists_place_of_candidate hbase hnil (List.mem_of_find?_eq_some hfind)
    obtain ⟨found, content, hlocate, hcontent⟩ := exists_content_of_isFile (isFile_of_target ht)
    obtain ⟨-, hfound⟩ := Disk.locate_spec (rooted_target hfile hread ht) hlocate
    rw [Path.normalize_name hplace'] at hfound
    rw [← hfound]
    exact mem_legible_of_name hcontent

/-! ### One round -/

namespace Collect

variable {α β : Type}

/-- What was taken in is what was there before and what is new. -/
theorem exists_of_get?_foldl {l : List Analysis} {analyses : Dict Analysis} {p : String} {a : Analysis}
    (h : (l.foldl (fun analyses a => analyses.insert a.file a) analyses).get? p = some a) :
    analyses.get? p = some a ∨ a ∈ l ∧ a.file = p := by
  induction l generalizing analyses with
  | nil => exact .inl h
  | cons b rest ih =>
      rcases ih h with h | ⟨ha, hfile⟩
      · rw [Dict.get?_insert] at h
        split at h
        · cases h
          exact .inr ⟨by simp, ‹_›⟩
        · exact .inl h
      · exact .inr ⟨List.mem_cons_of_mem b ha, hfile⟩

theorem isSome_get?_foldl {l : List Analysis} {analyses : Dict Analysis} {p : String} :
    ((l.foldl (fun analyses a => analyses.insert a.file a) analyses).get? p).isSome = true ↔
      (analyses.get? p).isSome = true ∨ ∃ a ∈ l, a.file = p := by
  induction l generalizing analyses with
  | nil => simp
  | cons b rest ih =>
      rw [List.foldl_cons, ih, Dict.get?_insert]
      by_cases hb : b.file = p <;> simp [hb]

/-- The step takes nothing in and keeps the cache filed. -/
def Steady (x : Collect α) (R : α → Prop) : Prop :=
  ∀ c : Collection, c.cache.Filed →
    Ends x c (fun a c' => R a ∧ c'.cache.Filed ∧ c'.analyses = c.analyses ∧ c'.seen = c.seen)
      fun c' => c'.cache.Filed

theorem Steady.mapM {R : α → β → Prop} {g : α → Collect β} (l : List α) (h : ∀ a, Steady (g a) (R a)) :
    Steady (l.mapM g) (List.Forall₂ R l) := by
  intro c hc
  refine .mapM (I := fun before results c' => List.Forall₂ R before results ∧ c'.cache.Filed ∧
    c'.analyses = c.analyses ∧ c'.seen = c.seen) ⟨.nil, hc, rfl, rfl⟩ ?_
  rintro a - before results c' ⟨hresults, hfiled, hanalyses, hseen⟩
  refine (h a c' hfiled).mono ?_ fun _ h => h
  rintro b c'' ⟨hb, hfiled', hanalyses', hseen'⟩
  exact ⟨List.rel_append hresults (.cons hb .nil), hfiled', hanalyses'.trans hanalyses,
    hseen'.trans hseen⟩

/-- What looking at a path gives, whatever the cache is filled with. -/
inductive Looked (d : Disk) (path : String) : List Analysis × List Unread → Prop
  | gone (h : d.read path = .error .notFound) : Looked d path ([], [])
  | known {text : String} {a : Analysis} (hread : d.read path = .ok text) (hfile : a.file = path) :
      Looked d path ([a], [])
  | unread {u : Unread} (hread : d.read path = .ok u.text) (hpath : u.path = path) :
      Looked d path ([], [u])

theorem steady_look (path : String) : Steady (look s d path) (Looked d path) := by
  intro c hc
  rw [look]
  cases hread : d.read path with
  | error e =>
      cases e with
      | notFound => exact .pure ⟨.gone hread, hc, rfl, rfl⟩
      | notFolder | isFolder | taken | notText => exact .throw hc
  | ok text =>
      refine .bind (.setFingerprint path _) ?_
      rintro _ _ rfl
      by_cases hmay : s.config.marker.mayContribute text = true
      · simp only [hmay, Bool.not_true, Bool.false_eq_true, if_false]
        refine .bind .get ?_
        rintro _ _ ⟨rfl, rfl⟩
        cases hlook : c.cache.lookup? path (.ofText text 0) with
        | none => exact .pure ⟨.unread hread rfl, hc, rfl, rfl⟩
        | some a =>
            refine .bind (.record .hit) ?_
            rintro _ _ rfl
            exact .pure ⟨.known hread (hc.lookup hlook), hc, rfl, rfl⟩
      · simp only [hmay, Bool.not_false, if_true]
        refine .bind (.record .skip) ?_
        rintro _ _ rfl
        refine .bind (.remember path _) ?_
        rintro _ _ rfl
        exact .pure ⟨.known hread rfl, hc.insert rfl, rfl, rfl⟩

theorem steady_analyse (u : Unread) : Steady (analyse s u) fun a => a.file = u.path := by
  intro c hc
  rw [analyse]
  cases ha : s.config.build.frontend.analyze s.config.marker u.path u.text with
  | error e => exact .throw hc
  | ok a =>
      have hfile := Frontend.file_of_analyze ha
      cases hids : a.canonicalIds s.config.idMode with
      | error e =>
          simp only [hids]
          exact .throw hc
      | ok ids =>
          simp only [hids]
          refine .bind (.record .miss) ?_
          rintro _ _ rfl
          refine .bind (.remember u.path _) ?_
          rintro _ _ rfl
          exact .pure ⟨hfile, hc.insert hfile, rfl, rfl⟩

/-- A round takes in what is pending and can be read. -/
theorem exists_taken_iff {pending : List String} {found : List (List Analysis × List Unread)}
    {fresh : List Analysis} (hfound : List.Forall₂ (Looked d) pending found)
    (hfresh : List.Forall₂ (fun u a => a.file = u.path) (found.flatMap (·.2)) fresh) (p : String) :
    (∃ a ∈ found.flatMap (·.1) ++ fresh, a.file = p) ↔ p ∈ pending ∧ ∃ text, d.read p = .ok text := by
  constructor
  · rintro ⟨a, ha, rfl⟩
    rcases List.mem_append.1 ha with ha | ha
    · obtain ⟨result, hresult, ha⟩ := List.mem_flatMap.1 ha
      obtain ⟨path, hpath, hlooked⟩ := exists_of_forall₂ hfound.flip hresult
      cases hlooked with
      | gone | unread => cases ha
      | known hread hfile =>
          obtain rfl := List.mem_singleton.1 ha
          exact hfile ▸ ⟨hpath, _, hread⟩
    · obtain ⟨u, hu, hfile⟩ := exists_of_forall₂ hfresh.flip ha
      obtain ⟨result, hresult, hu⟩ := List.mem_flatMap.1 hu
      obtain ⟨path, hpath, hlooked⟩ := exists_of_forall₂ hfound.flip hresult
      cases hlooked with
      | gone | known => cases hu
      | unread hread hsame =>
          obtain rfl := List.mem_singleton.1 hu
          rw [hfile, hsame]
          exact ⟨hpath, _, hread⟩
  · rintro ⟨hp, text, htext⟩
    obtain ⟨result, hresult, hlooked⟩ := exists_of_forall₂ hfound hp
    cases hlooked with
    | gone hgone =>
        rw [hgone] at htext
        cases htext
    | @known _ a _ hfile =>
        exact ⟨a, List.mem_append_left _ (List.mem_flatMap.2 ⟨_, hresult, by simp⟩), hfile⟩
    | @unread u _ hsame =>
        have hu : u ∈ found.flatMap (·.2) := List.mem_flatMap.2 ⟨_, hresult, by simp⟩
        obtain ⟨a, ha, hfile⟩ := exists_of_forall₂ hfresh hu
        exact ⟨a, List.mem_append_right _ ha, hfile.trans hsame⟩

/-- What a round leads to. -/
structure Leads (s : Session) (d : Disk) (pending : List String) (c : Collection) (new : List String)
    (c' : Collection) : Prop where
  filed : c'.cache.Filed
  gone : ∀ p ∈ pending, (∃ text, d.read p = .ok text) ∨ d.read p = .error .notFound
  taken_iff : ∀ p, (c'.analyses.get? p).isSome = true ↔
    (c.analyses.get? p).isSome = true ∨ p ∈ pending ∧ ∃ text, d.read p = .ok text
  followed : ∀ p a, c'.analyses.get? p = some a →
    c.analyses.get? p = some a ∨ a.file = p ∧ ∀ t ∈ targets s d a, t ∈ c'.seen
  seen : ∀ p ∈ c.seen, p ∈ c'.seen
  new_iff : ∀ p, p ∈ new ↔ p ∈ c'.seen ∧ p ∉ c.seen
  reached : ∀ p ∈ new, ∃ a text, a.file ∈ pending ∧ d.read a.file = .ok text ∧ p ∈ targets s d a

theorem round_leads (hc : c.cache.Filed) (pending : List String) :
    Ends (round s d pending) c (Leads s d pending c) fun c' => c'.cache.Filed := by
  rw [round]
  refine .bind (Steady.mapM pending steady_look c hc) ?_
  rintro found c₁ ⟨hfound, hfiled₁, hanalyses₁, hseen₁⟩
  refine .bind (Steady.mapM _ steady_analyse c₁ hfiled₁) ?_
  rintro fresh c₂ ⟨hfresh, hfiled₂, hanalyses₂, hseen₂⟩
  have htaken := exists_taken_iff hfound hfresh
  refine .bind (takeAll_taken _) ?_
  rintro reached c₃ ⟨hcache, -, hanalyses, hseen, hnew⟩
  rw [hanalyses₂, hanalyses₁] at hanalyses
  rw [hseen₂, hseen₁] at hseen hnew
  refine .pure ⟨hcache ▸ hfiled₂, fun p hp => ?_, fun p => ?_, fun p a ha => ?_, fun p hp => ?_, hnew,
    fun p hp => ?_⟩
  · obtain ⟨result, -, hlooked⟩ := exists_of_forall₂ hfound hp
    cases hlooked with
    | gone h => exact .inr h
    | known hread | unread hread => exact .inl ⟨_, hread⟩
  · rw [hanalyses, isSome_get?_foldl, htaken]
  · rw [hanalyses] at ha
    refine (exists_of_get?_foldl ha).imp_right fun hnow => ⟨hnow.2, fun t ht => ?_⟩
    exact (hseen t).2 (.inr ⟨a, hnow.1, ht⟩)
  · exact (hseen p).2 (.inl hp)
  · obtain ⟨hp, hnot⟩ := (hnew p).1 hp
    obtain ⟨a, ha, hp⟩ := ((hseen p).1 hp).resolve_left hnot
    obtain ⟨hpending, text, hread⟩ := (htaken a.file).1 ⟨a, ha, rfl⟩
    exact ⟨a, text, hpending, hread, hp⟩

/-! ### All rounds -/

/-- The collection while some files are pending: all else that was seen is taken in or gone. -/
structure Progress (s : Session) (d : Disk) (pending : List String) (c : Collection) : Prop where
  filed : c.cache.Filed
  seen : ∀ p ∈ c.seen, Rooted p ∧ ∀ text, d.read p = .ok text → p ∈ s.legible d
  untaken : ∀ p ∈ pending, p ∈ c.seen ∧ c.analyses.get? p = none
  taken : ∀ p a, c.analyses.get? p = some a → p ∈ c.seen ∧ a.file = p ∧ ∀ t ∈ targets s d a, t ∈ c.seen
  settled : ∀ p ∈ c.seen,
    p ∈ pending ∨ (c.analyses.get? p).isSome = true ∨ d.read p = .error .notFound

theorem Progress.start (hfiled : s.cache.Filed) (hroot : startsAtRoot s.discovery.root = true)
    (hentries : s.entryFiles d = .ok entries) :
    Progress s d entries ⟨s.cache, .start, ∅, ∅, entries⟩ where
  filed := hfiled
  seen p hp := ⟨rooted_entryFiles hroot hentries p hp, fun _ => mem_legible_of_entry hroot hentries hp⟩
  untaken _ hp := ⟨hp, rfl⟩
  taken := nofun
  settled _ hp := .inl hp

variable {pending new : List String} {c' : Collection}

theorem Progress.leads (h : Progress s d pending c) (hround : Leads s d pending c new c') :
    Progress s d new c' where
  filed := hround.filed
  seen p hp := by
    by_cases hold : p ∈ c.seen
    · exact h.seen p hold
    · obtain ⟨a, text, hpending, hread, htarget⟩ := hround.reached p ((hround.new_iff p).2 ⟨hp, hold⟩)
      have hfile := (h.seen a.file (h.untaken a.file hpending).1).1
      exact ⟨rooted_target hfile hread htarget, fun _ _ => mem_legible_of_target hfile hread htarget⟩
  untaken p hp := by
    obtain ⟨hseen, hnot⟩ := (hround.new_iff p).1 hp
    refine ⟨hseen, Option.not_isSome_iff_eq_none.1 fun htaken => ?_⟩
    rcases (hround.taken_iff p).1 htaken with htaken | ⟨hpending, -⟩
    · obtain ⟨a, ha⟩ := Option.isSome_iff_exists.1 htaken
      exact hnot (h.taken p a ha).1
    · exact hnot (h.untaken p hpending).1
  taken p a ha := by
    have hseen : p ∈ c'.seen := by
      rcases (hround.taken_iff p).1 (by rw [ha]; rfl) with htaken | ⟨hpending, -⟩
      · obtain ⟨b, hb⟩ := Option.isSome_iff_exists.1 htaken
        exact hround.seen p (h.taken p b hb).1
      · exact hround.seen p (h.untaken p hpending).1
    rcases hround.followed p a ha with hold | ⟨hfile, hfollowed⟩
    · obtain ⟨-, hfile, hfollowed⟩ := h.taken p a hold
      exact ⟨hseen, hfile, fun t ht => hround.seen t (hfollowed t ht)⟩
    · exact ⟨hseen, hfile, hfollowed⟩
  settled p hp := by
    by_cases hold : p ∈ c.seen
    · rcases h.settled p hold with hpending | htaken | hgone
      · exact .inr ((hround.gone p hpending).imp_left fun hread => (hround.taken_iff p).2 (.inr ⟨hpending, hread⟩))
      · exact .inr (.inl ((hround.taken_iff p).2 (.inl htaken)))
      · exact .inr (.inr hgone)
    · exact .inl ((hround.new_iff p).2 ⟨hp, hold⟩)

/-- The paths at which a text may still be read. -/
def unread (s : Session) (d : Disk) (c : Collection) : Finset String :=
  (s.legible d).toFinset.filter fun p => c.analyses.get? p = none

theorem mem_unread_iff {p : String} :
    p ∈ unread s d c ↔ p ∈ s.legible d ∧ c.analyses.get? p = none := by
  rw [unread, Finset.mem_filter, List.mem_toFinset]

/-- A round that comes upon something new has taken in something that was unread. -/
theorem card_unread_lt (h : Progress s d pending c) (hround : Leads s d pending c new c')
    (hne : new ≠ []) : (unread s d c').card < (unread s d c).card := by
  obtain ⟨p, rest, rfl⟩ := List.exists_cons_of_ne_nil hne
  obtain ⟨a, text, hpending, hread, -⟩ := hround.reached p (by simp)
  obtain ⟨hseen, hnone⟩ := h.untaken a.file hpending
  apply Finset.card_lt_card
  rw [Finset.ssubset_iff_of_subset]
  · refine ⟨a.file, mem_unread_iff.2 ⟨(h.seen a.file hseen).2 text hread, hnone⟩, fun hmem => ?_⟩
    have htaken := (hround.taken_iff a.file).2 (.inr ⟨hpending, text, hread⟩)
    rw [(mem_unread_iff.1 hmem).2] at htaken
    cases htaken
  · intro q hq
    obtain ⟨hlegible, hnone'⟩ := mem_unread_iff.1 hq
    refine mem_unread_iff.2 ⟨hlegible, Option.not_isSome_iff_eq_none.1 fun htaken => ?_⟩
    have htaken := (hround.taken_iff q).2 (.inl htaken)
    rw [hnone'] at htaken
    cases htaken

/-- What a round comes upon is yet to be read. -/
theorem card_unread_pos (h : Progress s d pending c) (hround : Leads s d pending c new c')
    (hne : new ≠ []) : 0 < (unread s d c').card := by
  obtain ⟨p, rest, rfl⟩ := List.exists_cons_of_ne_nil hne
  obtain ⟨a, text, hpending, hread, htarget⟩ := hround.reached p (by simp)
  have hfile := (h.seen a.file (h.untaken a.file hpending).1).1
  apply Finset.card_pos.2
  exact ⟨p, mem_unread_iff.2 ⟨mem_legible_of_target hfile hread htarget, ((h.leads hround).untaken p (by simp)).2⟩⟩

/-- With a round for each path that is unread, the rounds end with nothing pending. -/
theorem rounds_progress (fuel : Nat) (h : Progress s d pending c)
    (hfuel : pending ≠ [] → 0 < fuel ∧ (unread s d c).card ≤ fuel) :
    Ends (rounds s d fuel pending) c (fun _ c' => Progress s d [] c') fun c' => c'.cache.Filed := by
  induction fuel generalizing c pending with
  | zero =>
      obtain rfl : pending = [] := by
        by_contra hne
        exact absurd (hfuel hne).1 (Nat.lt_irrefl 0)
      exact .pure h
  | succ fuel ih =>
      cases pending with
      | nil => exact .pure h
      | cons path rest =>
          have hrounds : rounds s d (fuel + 1) (path :: rest) =
              round s d (path :: rest) >>= rounds s d fuel := by
            rw [rounds]
            simp
          rw [hrounds]
          refine .bind (round_leads h.filed _) fun new c' hround => ih (h.leads hround) fun hne => ?_
          have hlt := card_unread_lt h hround hne
          have hpos := card_unread_pos h hround hne
          have hle := (hfuel (by simp)).2
          omega

end Collect

/-- A build has the rounds that it takes until nothing is pending. -/
theorem collect_progress (hfiled : s.cache.Filed) (hroot : startsAtRoot s.discovery.root = true)
    (hentries : s.entryFiles d = .ok entries) : (s.collect d entries).2.cache.Filed ∧
      ((s.collect d entries).1 = .ok () → Collect.Progress s d [] (s.collect d entries).2) := by
  have hcard : (Collect.unread s d ⟨s.cache, .start, ∅, ∅, entries⟩).card ≤ d.files.size + 1 :=
    calc (Collect.unread s d ⟨s.cache, .start, ∅, ∅, entries⟩).card
        ≤ (s.legible d).toFinset.card := Finset.card_filter_le ..
      _ ≤ (s.legible d).length := List.toFinset_card_le _
      _ ≤ d.files.size + 1 := length_legible_le s d
  have hrounds := Collect.rounds_progress (d.files.size + 1) (.start hfiled hroot hentries)
    fun _ => ⟨Nat.succ_pos _, hcard⟩
  rw [Collect.Ends] at hrounds
  rw [collect]
  rcases hrun : (Collect.rounds s d (d.files.size + 1) entries).run.run
    ⟨s.cache, .start, ∅, ∅, entries⟩ with ⟨e | a, c⟩
  · rw [hrun] at hrounds
    exact ⟨hrounds, fun h => by cases h⟩
  · rw [hrun] at hrounds
    exact ⟨hrounds.filed, fun _ => hrounds⟩

/-! ### After any history -/

theorem filed_buildFrom (hfiled : s.cache.Filed) (hc : c.cache.Filed) (scheduler : Scheduler) :
    (s.buildFrom scheduler d c).2.1.cache.Filed ∧
      (s.buildFrom scheduler d c).2.1.discovery = s.discovery := by
  rw [buildFrom]
  cases s.unchanged? (s.tracker.diff c.fingerprints) with
  | some a => exact ⟨hfiled, rfl⟩
  | none =>
      cases s.link d c.analyses with
      | error e => exact ⟨hfiled, rfl⟩
      | ok modules =>
          simp only
          rcases s.evaluate scheduler modules with ⟨e | ⟨⟨⟩⟩, r⟩
          · exact ⟨hfiled, rfl⟩
          · exact ⟨hc.retain _, rfl⟩

theorem filed_build (hfiled : s.cache.Filed) (hroot : startsAtRoot s.discovery.root = true)
    (scheduler : Scheduler) : (s.build scheduler d).2.1.cache.Filed ∧
      (s.build scheduler d).2.1.discovery = s.discovery := by
  rw [build]
  cases hentries : s.entryFiles d with
  | error e => exact ⟨hfiled, rfl⟩
  | ok entries =>
      obtain ⟨hcollected, -⟩ := collect_progress hfiled hroot hentries
      simp only
      rcases hrun : s.collect d entries with ⟨e | ⟨⟨⟩⟩, c⟩
      · rw [hrun] at hcollected
        exact ⟨hcollected, rfl⟩
      · rw [hrun] at hcollected
        exact filed_buildFrom hcollected hcollected scheduler

theorem startsAtRoot_of_start {config : Config} (h : start config d = .ok s) :
    startsAtRoot s.discovery.root = true := by
  obtain ⟨hcheck, discovery, hdiscovery, rfl⟩ := start_eq_ok_iff.1 h
  show startsAtRoot discovery.root = true
  rw [root_of_ofProject hdiscovery]
  exact startsAtRoot_of_check hcheck

theorem Arises.filed (h : Arises seen s last) :
    s.cache.Filed ∧ startsAtRoot s.discovery.root = true := by
  induction h with
  | start hkey h hcache => exact ⟨hcache ▸ Cache.filed_empty _, startsAtRoot_of_start h⟩
  | @reopen t last config d s folder ht hkey hfolder hread h ih =>
      have hload : s.cache = .ofText config.cacheKey t.cache.text := by
        rw [cache_of_start h, hfolder, loadCache, hread]
      exact ⟨hload ▸ ih.1.reload _, startsAtRoot_of_start h⟩
  | build scheduler d hs hhashed ih =>
      obtain ⟨hfiled, hdiscovery⟩ := filed_build (d := d) ih.1 ih.2 scheduler
      exact ⟨hfiled, hdiscovery ▸ ih.2⟩
  | remove hs h ih =>
      obtain ⟨key, -, h⟩ := bind_eq_ok_iff.1 h
      cases h
      exact ⟨ih.1.remove _, ih.2⟩

/-- Nothing is pending when a build has collected its files. -/
theorem Arises.progress (hs : Arises seen s last) (hc : s.Collects d c) : Collect.Progress s d [] c := by
  obtain ⟨entries, hentries, hcollect⟩ := hc
  obtain ⟨hfiled, hroot⟩ := hs.filed
  obtain ⟨-, hprogress⟩ := collect_progress hfiled hroot hentries
  rw [hcollect] at hprogress
  exact hprogress rfl

theorem mem_relativeSources_iff {a : Analysis} {source : String} :
    source ∈ a.relativeSources ↔ source ∈ a.sources ∧ Analysis.isRelativeSource source = true := by
  have hunique := @Collect.mem_new [] (a.sources.filter Analysis.isRelativeSource) source []
  simpa [Analysis.relativeSources] using hunique

/-- What an analysed file imports or passes on by a path, and that is a file of the project, is analysed
too, and the linker finds it. -/
theorem Arises.collects_closed (hs : Arises seen s last) (hfollow : s.config.build.followImports = true)
    (hc : s.Collects d c) {path source target : String} {a : Analysis}
    (ha : c.analyses.get? path = some a) (hsource : source ∈ a.sources)
    (hpath : source ≠ "." ∧ source ≠ "..")
    (hresolve : ModuleRef.resolve? path source (Collect.mayFollow s d) = some target) :
    (∃ b, c.analyses.get? target = some b) ∧
      ∀ l : Linker, l.analyses = c.analyses → ∃ t, l.targetFile path source = .ok (some t) := by
  have hprogress := hs.progress hc
  obtain ⟨-, hfile, hfollowed⟩ := hprogress.taken path a ha
  have hrelative : Analysis.isRelativeSource source = true := by
    have h := (ModuleRef.resolve_eq_some hresolve).1
    simpa [ModuleRef.isRelative, Analysis.isRelativeSource, hpath] using h
  have htarget : target ∈ Collect.targets s d a := by
    rw [Collect.targets, if_pos hfollow, hfile]
    exact List.mem_filterMap.2 ⟨source, mem_relativeSources_iff.2 ⟨hsource, hrelative⟩, hresolve⟩
  have hcollected : (c.analyses.get? target).isSome = true := by
    rcases hprogress.settled target (hfollowed target htarget) with hpending | htaken | hgone
    · cases hpending
    · exact htaken
    · exact absurd hgone (read_ne_notFound (isFile_of_target htarget))
  refine ⟨Option.isSome_iff_exists.1 hcollected, fun l hl => ?_⟩
  rw [Linker.targetFile, hl]
  obtain ⟨hrelative, hfind⟩ := ModuleRef.resolve_eq_some hresolve
  rw [ModuleRef.resolve?, if_pos hrelative]
  cases hlinked : (ModuleRef.candidates path source).find? c.analyses.contains with
  | some t => exact ⟨t, rfl⟩
  | none =>
      have hnone := List.find?_eq_none.1 hlinked target (List.mem_of_find?_eq_some hfind)
      exact absurd hcollected hnone

/-! A folder is imported by a path to its index, which is followed, and by a dot, which is not. -/

def folderConfig : Config :=
  ⟨⟨"/app", ["a.ts"], []⟩, ⟨"gql", [], none⟩, ⟨.scanner, false, none, .sync, true⟩, .standard⟩

def folder (text : String) : Disk :=
  ⟨.ofList [("/app/a.ts", .text text), ("/app/index.ts", .text "export const b=gql.q(()=>query.slice({}))")],
    ["/app"], "/"⟩

set_option maxRecDepth 10000 in
theorem isSome_start_folder : (start folderConfig (folder "")).toOption.isSome = true := by
  decide +kernel

def folderStart : Session := (start folderConfig (folder "")).toOption.get isSome_start_folder

theorem arises_folder : Arises Set.univ folderStart none :=
  .start trivial (eq_ok_get isSome_start_folder) (cache_of_start (eq_ok_get isSome_start_folder))

theorem follows_folder : folderStart.config.build.followImports = true := by decide +kernel

/-- What is collected where the one entry file has a text. -/
def folderCollection (text : String) : Collection := (folderStart.collect (folder text) ["/app/a.ts"]).2

theorem collects_folder {text : String}
    (hentries : (folderStart.entryFiles (folder text)).toOption = some ["/app/a.ts"])
    (hcollect : (folderStart.collect (folder text) ["/app/a.ts"]).1.toOption = some ()) :
    folderStart.Collects (folder text) (folderCollection text) :=
  ⟨_, eq_ok_of_toOption hentries, Prod.ext (eq_ok_of_toOption hcollect) rfl⟩

def byPath : String := "import{b}from'./index'\ngql.q(()=>query.slice({},b))"

def byDot : String := "import{b}from'.'\ngql.q(()=>query.slice({},b))"

set_option maxRecDepth 10000 in
theorem byPath_spec : (folderStart.entryFiles (folder byPath)).toOption = some ["/app/a.ts"] ∧
    (folderStart.collect (folder byPath) ["/app/a.ts"]).1.toOption = some () ∧
      ((folderCollection byPath).analyses.get? "/app/a.ts").map (·.sources) = some ["./index"] ∧
        ModuleRef.resolve? "/app/a.ts" "./index" (Collect.mayFollow folderStart (folder byPath)) =
          some "/app/index.ts" := by
  decide +kernel

theorem closed_byPath : ∃ a, Arises Set.univ folderStart none ∧
    folderStart.config.build.followImports = true ∧
      folderStart.Collects (folder byPath) (folderCollection byPath) ∧
      (folderCollection byPath).analyses.get? "/app/a.ts" = some a ∧ "./index" ∈ a.sources ∧
      ("./index" ≠ "." ∧ "./index" ≠ "..") ∧
      ModuleRef.resolve? "/app/a.ts" "./index" (Collect.mayFollow folderStart (folder byPath)) =
        some "/app/index.ts" ∧
      (∃ b, (folderCollection byPath).analyses.get? "/app/index.ts" = some b) ∧
        ∀ l : Linker, l.analyses = (folderCollection byPath).analyses →
          ∃ t, l.targetFile "/app/a.ts" "./index" = .ok (some t) := by
  obtain ⟨hentries, hcollect, hsources, hresolve⟩ := byPath_spec
  obtain ⟨a, ha, hsources⟩ := Option.map_eq_some_iff.1 hsources
  have hsource : "./index" ∈ a.sources := by simp [hsources]
  have hcollects := collects_folder hentries hcollect
  exact ⟨a, arises_folder, follows_folder, hcollects, ha, hsource, by decide, hresolve,
    arises_folder.collects_closed follows_folder hcollects ha hsource (by decide) hresolve⟩

set_option maxRecDepth 10000 in
theorem byDot_spec : (folderStart.entryFiles (folder byDot)).toOption = some ["/app/a.ts"] ∧
    (folderStart.collect (folder byDot) ["/app/a.ts"]).1.toOption = some () ∧
      ((folderCollection byDot).analyses.get? "/app/a.ts").map (·.sources) = some ["."] ∧
        ModuleRef.resolve? "/app/a.ts" "." (Collect.mayFollow folderStart (folder byDot)) =
            some "/app/index.ts" ∧
          ((folderCollection byDot).analyses.get? "/app/index.ts").isNone = true ∧
            ((⟨(folderCollection byDot).analyses, ∅, (folder byDot).isFile⟩ : Linker).targetFile "/app/a.ts"
              ".").toOption = some none := by
  decide +kernel

/-- The index is there and not excluded, but it is not collected, and its names lead outside. -/
theorem not_closed_byDot : ∃ a, Arises Set.univ folderStart none ∧
    folderStart.config.build.followImports = true ∧
      folderStart.Collects (folder byDot) (folderCollection byDot) ∧
      (folderCollection byDot).analyses.get? "/app/a.ts" = some a ∧ "." ∈ a.sources ∧
      ModuleRef.isRelative "." = true ∧
      ModuleRef.resolve? "/app/a.ts" "." (Collect.mayFollow folderStart (folder byDot)) =
        some "/app/index.ts" ∧
      (folderCollection byDot).analyses.get? "/app/index.ts" = none ∧
        ∀ l : Linker, l.analyses = (folderCollection byDot).analyses → l.onDisk = (folder byDot).isFile →
          l.targetFile "/app/a.ts" "." = .ok none := by
  obtain ⟨hentries, hcollect, hsources, hresolve, hnone, houtside⟩ := byDot_spec
  obtain ⟨a, ha, hsources⟩ := Option.map_eq_some_iff.1 hsources
  refine ⟨a, arises_folder, follows_folder, collects_folder hentries hcollect, ha, by simp [hsources], by decide,
    hresolve, Option.isNone_iff_eq_none.1 hnone, fun l hanalyses hdisk => ?_⟩
  have houtside := eq_ok_of_toOption houtside
  rw [Linker.targetFile] at houtside ⊢
  rw [hanalyses, hdisk]
  exact houtside

end Session
end StaticGql
