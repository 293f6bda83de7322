import StaticGql.Proofs.Path.Components
import StaticGql.Proofs.Session.Closure
import StaticGql.Proofs.Session.Paths

/-!
What a build finds below its root, and which files are excluded. The walk sees a file by its path below the
root, however the root is spelled. An import sees the normal path, which is below the root as it is spelled only if
that does not climb: so a file is excluded or not whichever way a build comes to it, if the root does not climb.
-/

namespace StaticGql

open Path (Rooted Level append below? normalize slash startsAtRoot)
open Disk (IsPlace name)
open Text (joinWith)

/-! ### Disks whose names are read as they are written -/

namespace Disk

/-- Every file is at the name of a place. Where names have no backslash, as the disk of every machine that
separates folders by it, this is so. -/
def Named (d : Disk) : Prop := ∀ p, (d.files.get? p).isSome = true → ∃ place, IsPlace place ∧ p = name place

/-- Every file is in a folder, as that is in its own. -/
def Grounded (d : Disk) : Prop := ∀ p, (d.files.get? p).isSome = true →
  ∃ segment folder, IsPlace (segment :: folder) ∧ p = name (segment :: folder) ∧
    ∀ above, above <:+ folder → d.hasFolder above = true

variable {d : Disk} {root rel : String} {place base : Place}

theorem Grounded.named (h : d.Grounded) : d.Named := by
  intro p hp
  obtain ⟨segment, folder, hplace, rfl, -⟩ := h p hp
  exact ⟨_, hplace, rfl⟩

/-- The place that a path from the root names. -/
def placeAt (p : String) : Place := Path.placeOf p.toList.tail

theorem named_of_keys (h : ∀ p ∈ d.files.keys, IsPlace (placeAt p) ∧ p = name (placeAt p)) : d.Named :=
  fun p hp => ⟨placeAt p, h p (Dict.mem_keys_iff.2 hp)⟩

theorem mem_filesBelow_iff (hnamed : d.Named) (hbase : IsPlace base) (hlocate : d.locate root = .ok base) :
    rel ∈ d.filesBelow root ↔ ∃ place, IsPlace place ∧ rel = String.ofList (joinWith slash place.reverse) ∧
      (d.files.get? (name (place ++ base))).isSome = true := by
  rw [filesBelow, hlocate]
  simp only [List.mem_filterMap, Dict.mem_keys_iff]
  constructor
  · rintro ⟨p, hp, hbelow⟩
    obtain ⟨found, hfound, rfl⟩ := hnamed p hp
    obtain ⟨place, rfl, hrel⟩ := (Path.below?_name hbase hfound).1 hbelow
    exact ⟨place, fun s hs => hfound s (List.mem_append_left base hs), hrel, hp⟩
  · rintro ⟨place, hplace, rfl, hp⟩
    refine ⟨_, hp, (Path.below?_name hbase ?_).2 ⟨place, rfl, rfl⟩⟩
    intro s hs
    exact (List.mem_append.1 hs).elim (hplace s) (hbase s)

theorem follow_name {segment : Path.Segment} (h : IsName segment) (hfolder : d.hasFolder place = true) :
    d.follow place segment = .ok (segment :: place) := by
  rw [follow, hfolder, if_neg (by simp), if_neg (not_or.2 ⟨h.ne_nil, h.ne_here⟩), if_neg h.ne_up]

/-- Names lead down as far as there are folders. -/
theorem foldlM_follow_names (hplace : IsPlace place)
    (hfolders : ∀ above, above <:+ place.tail → d.hasFolder above = true) :
    place.reverse.foldlM d.follow [] = .ok place := by
  induction place with
  | nil => rfl
  | cons segment folder ih =>
      obtain ⟨hsegment, hfolder⟩ := List.forall_mem_cons.1 hplace
      have hfront := ih hfolder fun above habove => hfolders above (habove.trans (List.tail_suffix folder))
      have hlast := follow_name hsegment (hfolders folder List.suffix_rfl)
      rw [List.reverse_cons, List.foldlM_append, hfront]
      show List.foldlM d.follow folder [segment] = _
      rw [List.foldlM_cons, hlast]
      rfl

theorem locate_name (hplace : IsPlace place) (hfolders : ∀ above, above <:+ place.tail → d.hasFolder above = true) :
    d.locate (name place) = .ok place := by
  have hroot : startsAtRoot (name place) = true := by
    rw [startsAtRoot, Path.toList_name]
    rfl
  have hne : (name place).isEmpty = false := by
    rw [Bool.eq_false_iff, ne_eq, String.isEmpty_iff]
    intro hempty
    rw [hempty] at hroot
    cases hroot
  have htop : d.follow [] [] = .ok [] := rfl
  rw [locate, hne, if_neg (by simp), Disk.segments, if_pos hroot, (splitOn_name hplace).1, List.foldlM_cons, htop]
  show (Text.splitOn '/' (joinWith slash place.reverse)).foldlM d.follow [] = .ok place
  cases place with
  | nil => exact htop
  | cons segment folder =>
      have hsplit : Text.splitOn '/' (joinWith slash (segment :: folder).reverse) = (segment :: folder).reverse :=
        Text.splitOn_joinWith (by simp) fun s hs => (hplace s (List.mem_reverse.1 hs)).slash
      rw [hsplit, foldlM_follow_names hplace hfolders]

/-- Where files are in folders none of them is missing at its name. -/
theorem Grounded.read_ne_notFound (h : d.Grounded) {p : String} (hp : (d.files.get? p).isSome = true) :
    d.read p ≠ .error .notFound := by
  obtain ⟨segment, folder, hplace, rfl, hfolders⟩ := h p hp
  have hlocate : d.locate (name (segment :: folder)) = .ok (segment :: folder) := locate_name hplace hfolders
  obtain ⟨content, hcontent⟩ := Option.isSome_iff_exists.1 hp
  have hfile : d.file? (segment :: folder) = some content := by
    rw [file?, if_neg (by simp), hcontent]
  cases content <;> simp [read, hlocate, hfile, bind, Except.bind]

end Disk

/-! ### What the globs see -/

namespace Discovery

variable {d : Discovery} {p : String} {place base : Disk.Place}

/-- Whether a path is excluded by what it is below the normal root. -/
def excludes (d : Discovery) (p : String) : Bool :=
  d.exclude.any (·.accepts ((below? (normalize d.root) p).getD p))

/-- Below a root that does not climb, only what a path is below the normal root counts. -/
theorem isExcluded_of_level (hroot : Rooted d.root) (hlevel : Level d.root) (p : String) :
    d.isExcluded p = d.excludes p := by
  rw [isExcluded, excludes, relative, Path.below?_congr (Path.components_normalize hroot hlevel)]

/-- Below a root that climbs there is no normal path, and the globs see it whole. -/
theorem isExcluded_of_not_level (hroot : Rooted d.root) (hclimbs : ¬Level d.root) (hplace : IsPlace place) :
    d.isExcluded (name place) = d.exclude.any (·.accepts (name place)) := by
  rw [isExcluded, relative, Path.below?_of_not_level hroot hclimbs hplace, Option.getD_none]

/-- Whatever the root, the walk excludes a file by what it is below the normal root. -/
theorem isExcluded_append (hroot : Rooted d.root) (hbase : IsPlace base) (hnormal : normalize d.root = name base)
    (hplace : IsPlace place) :
    d.isExcluded (append d.root (String.ofList (joinWith slash place.reverse))) =
      d.excludes (name (place ++ base)) := by
  have hfound : IsPlace (place ++ base) := fun s hs => (List.mem_append.1 hs).elim (hplace s) (hbase s)
  have hbelow := (Path.below?_name hbase hfound).2 ⟨place, rfl, rfl⟩
  rw [isExcluded, relative, Path.below?_append hroot.start hplace, excludes, hnormal, hbelow, Option.getD_some,
    Option.getD_some]

end Discovery

/-! ### Entry files -/

namespace Session

variable {s : Session} {d : Disk} {entries : List String} {p rel : String}

theorem entryFiles_eq_ok_iff : s.entryFiles d = .ok entries ↔ d.isFolder s.discovery.root = true ∧
    entries = Dict.sortedTexts ((((d.filesBelow s.discovery.root).map (append s.discovery.root)).filter
      s.discovery.isEntry).map normalize) := by
  rw [entryFiles]
  split
  · rename_i hfolder
    rw [Except.ok.injEq]
    exact ⟨fun h => ⟨hfolder, h.symm⟩, fun h => h.2.symm⟩
  · rename_i hfolder
    simp [hfolder]

/-- What the walk comes upon: a file of the disk, whose path the globs see as below the normal root. -/
theorem walked (hroot : Rooted s.discovery.root) (hnamed : d.Named) (hrel : rel ∈ d.filesBelow s.discovery.root) :
    (d.files.get? (normalize (append s.discovery.root rel))).isSome = true ∧
      s.discovery.isExcluded (append s.discovery.root rel) =
        s.discovery.excludes (normalize (append s.discovery.root rel)) := by
  cases hlocate : d.locate s.discovery.root with
  | error e =>
      rw [Disk.filesBelow, hlocate] at hrel
      cases hrel
  | ok base =>
      obtain ⟨hbase, hnormal⟩ := Disk.locate_spec hroot hlocate
      obtain ⟨place, hplace, rfl, hfile⟩ := (Disk.mem_filesBelow_iff hnamed hbase hlocate).1 hrel
      rw [Path.normalize_append_joinWith hroot hnormal.symm hbase hplace]
      exact ⟨hfile, Discovery.isExcluded_append hroot hbase hnormal.symm hplace⟩

/-- Entry files are files of the disk that no glob excludes. -/
theorem entry_spec (hroot : Rooted s.discovery.root) (hnamed : d.Named) (hentries : s.entryFiles d = .ok entries)
    (hp : p ∈ entries) : (d.files.get? p).isSome = true ∧ s.discovery.excludes p = false := by
  obtain ⟨-, rfl⟩ := entryFiles_eq_ok_iff.1 hentries
  obtain ⟨path, hpath, rfl⟩ := List.mem_map.1 (Dict.mem_sortedTexts_iff.1 hp)
  obtain ⟨hpath, hentry⟩ := List.mem_filter.1 hpath
  obtain ⟨rel, hrel, rfl⟩ := List.mem_map.1 hpath
  obtain ⟨hfile, hexcluded⟩ := walked hroot hnamed hrel
  refine ⟨hfile, ?_⟩
  rw [Discovery.isEntry, Bool.and_eq_true, Bool.not_eq_true'] at hentry
  rw [← hexcluded, hentry.2]

end Session
end StaticGql

namespace StaticGql.Session

open Path (Rooted Level append normalize)
open Disk (IsPlace name)

variable {s : Session} {d : Disk} {c : Collection} {entries pending : List String} {last : Option Disk}
  {seen : Set String}

namespace Collect

/-- What was seen is an entry file or may be followed, and the fingerprints are those of texts that were
seen. -/
structure Bound (s : Session) (d : Disk) (entries : List String) (c : Collection) : Prop where
  seen : ∀ p ∈ c.seen, p ∈ entries ∨ mayFollow s d p = true
  fingerprints : ∀ p f, c.fingerprints.get? p = some f → p ∈ c.seen ∧ ∃ text, d.read p = .ok text ∧ f = .ofText text 0

theorem Bound.start (s : Session) (d : Disk) (entries : List String) :
    Bound s d entries ⟨s.cache, .start, ∅, ∅, entries⟩ := ⟨fun _ hp => .inl hp, nofun⟩

theorem bound_look (hc : Bound s d entries c) {path : String} (hpath : path ∈ c.seen) :
    Ends (look s d path) c (fun _ c' => Bound s d entries c' ∧ c'.seen = c.seen) (Bound s d entries) := by
  rw [look]
  cases hread : d.read path with
  | error e =>
      cases e with
      | notFound => exact .pure ⟨hc, rfl⟩
      | notFolder | isFolder | taken | notText => exact .throw hc
  | ok text =>
      refine .bind (.setFingerprint path _) ?_
      rintro _ _ rfl
      have hset : Bound s d entries { c with fingerprints := c.fingerprints.insert path (.ofText text 0) } := by
        refine ⟨hc.seen, fun p f hf => ?_⟩
        simp only [Dict.get?_insert] at hf
        split at hf
        · rename_i heq
          subst heq
          exact ⟨hpath, text, hread, (Option.some.inj hf).symm⟩
        · exact hc.fingerprints p f hf
      split
      · refine .bind (.record .skip) ?_
        rintro _ _ rfl
        refine .bind (.remember path _) ?_
        rintro _ _ rfl
        exact .pure ⟨⟨hset.seen, hset.fingerprints⟩, rfl⟩
      · refine .bind .get ?_
        rintro _ _ ⟨rfl, rfl⟩
        split
        · refine .bind (.record .hit) ?_
          rintro _ _ rfl
          exact .pure ⟨⟨hset.seen, hset.fingerprints⟩, rfl⟩
        · exact .pure ⟨hset, rfl⟩

theorem bound_analyse (hc : Bound s d entries c) (u : Unread) :
    Ends (analyse s u) c (fun _ c' => Bound s d entries c' ∧ c'.seen = c.seen) (Bound s d entries) := by
  rw [analyse]
  split
  · exact .throw hc
  · split
    · exact .throw hc
    · refine .bind (.record .miss) ?_
      rintro _ _ rfl
      refine .bind (.remember u.path _) ?_
      rintro _ _ rfl
      exact .pure ⟨⟨hc.seen, hc.fingerprints⟩, rfl⟩

/-- A member of a list that keeps the bound and sees nothing new does so for the whole list. -/
theorem Bound.mapM {α β : Type} {g : α → Collect β} {l : List α} (hc : Bound s d entries c)
    (h : ∀ a ∈ l, ∀ c', Bound s d entries c' → c'.seen = c.seen →
      Ends (g a) c' (fun _ c'' => Bound s d entries c'' ∧ c''.seen = c'.seen) (Bound s d entries)) :
    Ends (l.mapM g) c (fun _ c' => Bound s d entries c' ∧ c'.seen = c.seen) (Bound s d entries) := by
  refine .mapM (I := fun _ _ c' => Bound s d entries c' ∧ c'.seen = c.seen) ⟨hc, rfl⟩ ?_
  rintro a ha - - c' ⟨hbound, hseen⟩
  exact (h a ha c' hbound hseen).mono (fun _ _ h => ⟨h.1, h.2.trans hseen⟩) fun _ h => h

theorem mayFollow_of_target {a : Analysis} {t : String} (ht : t ∈ targets s d a) : mayFollow s d t = true := by
  obtain ⟨source, -, hfind⟩ := exists_of_mem_targets ht
  exact List.find?_some hfind

theorem bound_round (hc : Bound s d entries c) (hpending : ∀ p ∈ pending, p ∈ c.seen) :
    Ends (round s d pending) c (fun new c' => Bound s d entries c' ∧ ∀ p ∈ new, p ∈ c'.seen) (Bound s d entries) := by
  rw [round]
  refine .bind (hc.mapM fun path hpath c' hc' hseen => bound_look hc' (hseen ▸ hpending path hpath)) ?_
  rintro found c₁ ⟨hc₁, -⟩
  refine .bind (hc₁.mapM fun u _ c' hc' _ => bound_analyse hc' u) ?_
  rintro fresh c₂ ⟨hc₂, -⟩
  refine .bind (takeAll_taken _) ?_
  rintro reached c₃ ⟨-, hfingerprints, -, hseen, hnew⟩
  refine .pure ⟨⟨fun p hp => ?_, fun p f hf => ?_⟩, fun p hp => ((hnew p).1 hp).1⟩
  · rcases (hseen p).1 hp with hp | ⟨a, -, htarget⟩
    · exact hc₂.seen p hp
    · exact .inr (mayFollow_of_target htarget)
  · rw [hfingerprints] at hf
    exact (hc₂.fingerprints p f hf).imp_left fun hp => (hseen p).2 (.inl hp)

theorem bound_rounds (fuel : Nat) (hc : Bound s d entries c) (hpending : ∀ p ∈ pending, p ∈ c.seen) :
    Ends (rounds s d fuel pending) c (fun _ => Bound s d entries) (Bound s d entries) := by
  induction fuel generalizing c pending with
  | zero => exact .pure hc
  | succ fuel ih =>
      cases pending with
      | nil => exact .pure hc
      | cons path rest =>
          rw [rounds]
          · exact .bind (bound_round hc hpending) fun new c' h => ih h.1 h.2
          · simp

end Collect

/-- However a collection ends, it has read entry files and what imports may lead to. -/
theorem collect_bound (s : Session) (d : Disk) (entries : List String) :
    Collect.Bound s d entries (s.collect d entries).2 := by
  have hrounds := Collect.bound_rounds (d.files.size + 1) (.start s d entries) fun _ hp => hp
  rw [Collect.Ends] at hrounds
  rw [collect]
  rcases hrun : (Collect.rounds s d (d.files.size + 1) entries).run.run
    ⟨s.cache, .start, ∅, ∅, entries⟩ with ⟨e | a, c⟩
  · rw [hrun] at hrounds
    exact hrounds
  · rw [hrun] at hrounds
    exact hrounds

/-! ### Normal paths

What an import leads to from the root of a disk is an index file under a path with two slashes.
-/

theorem locate_slash {p : String} (hp : Path.startsAtRoot p = true) : d.locate ("/" ++ p) = d.locate p := by
  obtain ⟨rest, hrest⟩ := Path.startsAtRoot_iff.1 hp
  have hlist : ("/" ++ p).toList = '/' :: '/' :: rest := by rw [String.toList_append, hrest]; rfl
  have hne : ∀ {q : String} {c cs}, q.toList = c :: cs → q.isEmpty = false := by
    intro q c cs hq
    rw [Bool.eq_false_iff, ne_eq, String.isEmpty_iff]
    rintro rfl
    cases hq
  have htop : d.follow [] [] = .ok [] := rfl
  rw [Disk.locate, Disk.locate, hne hlist, hne hrest, Disk.segments, Disk.segments, if_pos hp,
    if_pos (Path.startsAtRoot_iff.2 ⟨_, hlist⟩), hlist, hrest]
  simp only [Text.splitOn, if_true, List.foldlM_cons, htop]
  rfl

/-- No file can be imported as the index of the root of the disk. -/
def NoIndexAtRoot (d : Disk) : Prop := ∀ e ∈ ModuleRef.extensions, d.isFile ("/index" ++ e) = false

instance : DecidablePred NoIndexAtRoot := fun _ => inferInstanceAs (Decidable (∀ _ ∈ _, _))

theorem exists_place_of_target (hindex : NoIndexAtRoot d) {a : Analysis} {text t : String} (hfile : Rooted a.file)
    (hread : d.read a.file = .ok text) (ht : t ∈ Collect.targets s d a) : ∃ place, IsPlace place ∧ t = name place := by
  obtain ⟨source, hrelative, hfind⟩ := exists_of_mem_targets ht
  obtain ⟨place, hplace, hne, hname, -⟩ := Disk.read_spec hfile hread
  obtain ⟨dir, hdir, hroot⟩ := Path.exists_parent hplace hne hname
  obtain ⟨base, hbase, hjoin⟩ := Path.exists_place_join hroot (ModuleRef.exists_of_isRelative hrelative)
  rw [ModuleRef.candidates_eq, hdir, Option.getD_some, hjoin] at hfind
  have hmem := List.mem_of_find?_eq_some hfind
  by_cases hnil : base = []
  · subst hnil
    have hisFile := isFile_of_target ht
    rcases ModuleRef.of_mem_candidatesAt hmem with rfl | ⟨e, he, stem, hstem, -⟩ | ⟨e, he, rfl⟩ | ⟨e, he, rfl⟩
    · exact ⟨[], hbase, rfl⟩
    · have hlength := congrArg (fun q => q.toList.length) hstem
      have hlong := (ModuleRef.isExtension_written e he).1.2
      simp only [String.toList_append, List.length_append] at hlength
      have hshort : (name []).toList.length = 1 := rfl
      omega
    · obtain ⟨hplain, hlong⟩ := ModuleRef.isExtension_of_mem e he
      have hsegment : Disk.IsName ([] ++ e.toList) := Disk.isName_append (by simp) hplain hlong
      refine ⟨[e.toList], List.forall_mem_cons.2 ⟨hsegment, hbase⟩, ?_⟩
      rw [← String.toList_inj, Disk.name_cons, String.toList_append]
      rfl
    · have hsame : name [] ++ "/index" ++ e = "/" ++ ("/index" ++ e) := by
        rw [String.append_assoc]
        rfl
      have hstart : Path.startsAtRoot ("/index" ++ e) = true := Path.startsAtRoot_append (by decide) e
      rw [hsame, Disk.isFile, locate_slash hstart] at hisFile
      have hnone := hindex e he
      rw [Disk.isFile, hisFile] at hnone
      cases hnone
  · exact ModuleRef.exists_place_of_candidate hbase hnil hmem

namespace Collect

/-- All that was seen is at the name of a place. -/
def AtPlaces (c : Collection) : Prop := ∀ p ∈ c.seen, ∃ place, IsPlace place ∧ p = name place

variable {new : List String} {c' : Collection}

theorem AtPlaces.leads (hc : AtPlaces c) (hindex : NoIndexAtRoot d) (hpending : ∀ p ∈ pending, p ∈ c.seen)
    (hround : Leads s d pending c new c') : AtPlaces c' := by
  intro p hp
  by_cases hold : p ∈ c.seen
  · exact hc p hold
  · obtain ⟨a, text, hfile, hread, htarget⟩ := hround.reached p ((hround.new_iff p).2 ⟨hp, hold⟩)
    obtain ⟨place, hplace, hname⟩ := hc a.file (hpending _ hfile)
    exact exists_place_of_target hindex (hname ▸ Path.rooted_name hplace) hread htarget

theorem rounds_atPlaces (fuel : Nat) (hfiled : c.cache.Filed) (hc : AtPlaces c) (hindex : NoIndexAtRoot d)
    (hpending : ∀ p ∈ pending, p ∈ c.seen) :
    Ends (rounds s d fuel pending) c (fun _ => AtPlaces) fun c' => c'.cache.Filed := by
  induction fuel generalizing c pending with
  | zero => exact .pure hc
  | succ fuel ih =>
      cases pending with
      | nil => exact .pure hc
      | cons path rest =>
          rw [rounds]
          · refine .bind (round_leads hfiled _) fun new c' hround => ?_
            exact ih hround.filed (hc.leads hindex hpending hround) fun p hp => ((hround.new_iff p).1 hp).1
          · simp

end Collect

/-- All that a build reads it reads under its normal path. -/
theorem exists_place_of_collects (hfiled : s.cache.Filed) (hroot : Path.startsAtRoot s.discovery.root = true)
    (hindex : NoIndexAtRoot d) (hc : s.Collects d c) {p : String} (hp : (c.fingerprints.get? p).isSome = true) :
    ∃ place, IsPlace place ∧ p = name place := by
  obtain ⟨entries, hentries, hcollect⟩ := hc
  obtain ⟨f, hf⟩ := Option.isSome_iff_exists.1 hp
  have hseen := ((collect_bound s d entries).fingerprints p f (by rw [hcollect]; exact hf)).1
  have hrounds := Collect.rounds_atPlaces (s := s) (d.files.size + 1) (c := ⟨s.cache, .start, ∅, ∅, entries⟩) hfiled
    (exists_place_of_entryFiles hroot hentries) hindex fun _ hp => hp
  rw [Collect.Ends] at hrounds
  rw [collect] at hcollect hseen
  rw [hcollect] at hrounds hseen
  exact hrounds p hseen

/-! ### Walked and followed -/

/-- Where the root does not climb, a file is excluded by what it is below the normal root, whether it is
walked upon or imported, and no excluded file is read. Where the root climbs, this goes for the walk alone: the
target of an import is held against the globs with its whole path. -/
theorem excluded_alike (hfiled : s.cache.Filed) (hroot : Rooted s.discovery.root) (hnamed : d.Named)
    (hindex : NoIndexAtRoot d) (hc : s.Collects d c) :
    (∀ rel ∈ d.filesBelow s.discovery.root, s.discovery.isExcluded (append s.discovery.root rel) =
      s.discovery.excludes (normalize (append s.discovery.root rel))) ∧
      (Level s.discovery.root → (∀ p, s.discovery.isExcluded p = s.discovery.excludes p) ∧
        ∀ p, (c.fingerprints.get? p).isSome = true → normalize p = p ∧ s.discovery.excludes p = false) ∧
        (¬Level s.discovery.root → ∀ place, IsPlace place →
          s.discovery.isExcluded (name place) = s.discovery.exclude.any (·.accepts (name place))) := by
  refine ⟨fun rel hrel => (walked hroot hnamed hrel).2, fun hlevel => ?level,
    fun hclimbs place hplace => Discovery.isExcluded_of_not_level hroot hclimbs hplace⟩
  case level =>
    have halike := Discovery.isExcluded_of_level hroot hlevel
    refine ⟨halike, fun p hp => ?_⟩
    have hstart := Path.startsAtRoot_iff.2 hroot.start
    obtain ⟨place, hplace, rfl⟩ := exists_place_of_collects hfiled hstart hindex hc hp
    refine ⟨Path.normalize_name hplace, ?_⟩
    obtain ⟨f, hf⟩ := Option.isSome_iff_exists.1 hp
    obtain ⟨entries, hentries, hcollect⟩ := hc
    have hbound := collect_bound s d entries
    rw [hcollect] at hbound
    rcases hbound.seen _ (hbound.fingerprints _ f hf).1 with hentry | hfollow
    · exact (entry_spec hroot hnamed hentries hentry).2
    · rw [Collect.mayFollow, Bool.and_eq_true, Bool.not_eq_true'] at hfollow
      rw [← halike, hfollow.2]

/-! One file imports another that is excluded, below a root that is spelled in two ways. -/

def besideConfig (root : String) : Config :=
  ⟨⟨root, ["a.ts"], ["b.ts"]⟩, ⟨"gql", [], none⟩, ⟨.scanner, false, none, .sync, true⟩, .standard⟩

def besideDisk : Disk :=
  ⟨.ofList [("/app/a.ts", .text "import{b}from'./b'\ngql.q(()=>query.slice({},b))"),
    ("/app/b.ts", .text "export const b=gql.q(()=>query.slice({}))")], ["/app", "/app/sub"], "/"⟩

set_option maxRecDepth 10000 in
theorem isSome_start_beside : (start (besideConfig "/app") besideDisk).toOption.isSome = true := by
  decide +kernel

set_option maxRecDepth 10000 in
theorem isSome_start_besideUp : (start (besideConfig "/app/sub/..") besideDisk).toOption.isSome = true := by
  decide +kernel

def besideStart : Session := (start (besideConfig "/app") besideDisk).toOption.get isSome_start_beside

def besideUpStart : Session := (start (besideConfig "/app/sub/..") besideDisk).toOption.get isSome_start_besideUp

theorem start_beside : start (besideConfig "/app") besideDisk = .ok besideStart := eq_ok_get isSome_start_beside

theorem start_besideUp : start (besideConfig "/app/sub/..") besideDisk = .ok besideUpStart :=
  eq_ok_get isSome_start_besideUp

/-- What is collected from the one entry file. -/
def besideCollection (s : Session) : Collection := (s.collect besideDisk ["/app/a.ts"]).2

theorem besideDisk_named : besideDisk.Named := Disk.named_of_keys (by decide)

set_option maxRecDepth 10000 in
theorem beside_spec : (besideStart.entryFiles besideDisk).toOption = some ["/app/a.ts"] ∧
    (besideStart.collect besideDisk ["/app/a.ts"]).1.toOption = some () ∧
      (besideCollection besideStart).fingerprints.keys = ["/app/a.ts"] ∧
        besideStart.discovery.root = "/app" := by
  decide +kernel

set_option maxRecDepth 10000 in
theorem besideUp_spec : (besideUpStart.entryFiles besideDisk).toOption = some ["/app/a.ts"] ∧
    (besideUpStart.collect besideDisk ["/app/a.ts"]).1.toOption = some () ∧
      (besideCollection besideUpStart).fingerprints.keys = ["/app/a.ts", "/app/b.ts"] ∧
        besideUpStart.discovery.excludes "/app/b.ts" = true ∧
          besideUpStart.discovery.isExcluded "/app/b.ts" = false ∧
            besideUpStart.discovery.isExcluded "/app/sub/../b.ts" = true := by
  decide +kernel

theorem filed_of_start {config : Config} {d : Disk} {s : Session} (h : start config d = .ok s)
    (hcache : config.build.cacheDir = none) : s.cache.Filed := by
  rw [cache_of_start h, hcache]
  exact Cache.filed_empty _

theorem excluded_beside : ∃ c, besideStart.cache.Filed ∧ Rooted besideStart.discovery.root ∧ besideDisk.Named ∧
    NoIndexAtRoot besideDisk ∧ besideStart.Collects besideDisk c ∧ besideDisk.isFile "/app/b.ts" = true ∧
      besideStart.discovery.isExcluded "/app/b.ts" = besideStart.discovery.excludes "/app/b.ts" ∧
        besideStart.discovery.excludes "/app/a.ts" = false := by
  obtain ⟨hentries, hcollect, hkeys, hroot⟩ := beside_spec
  have hfiled := filed_of_start start_beside rfl
  have hrooted : Rooted besideStart.discovery.root := by
    rw [hroot]
    exact ⟨⟨_, rfl⟩, by decide⟩
  have hindex : NoIndexAtRoot besideDisk := by decide
  have hcollects : besideStart.Collects besideDisk (besideCollection besideStart) :=
    ⟨_, eq_ok_of_toOption hentries, Prod.ext (eq_ok_of_toOption hcollect) rfl⟩
  have hlevel : Level besideStart.discovery.root := by
    rw [hroot]
    decide
  obtain ⟨halike, hread⟩ := (excluded_alike hfiled hrooted besideDisk_named hindex hcollects).2.1 hlevel
  have hfingerprint := Dict.mem_keys_iff.1 (hkeys.symm ▸ List.mem_singleton_self "/app/a.ts")
  exact ⟨_, hfiled, hrooted, besideDisk_named, hindex, hcollects, by decide, halike _,
    (hread _ hfingerprint).2⟩

/-- Below a root that climbs, the walk leaves out a file that an import leads to. -/
theorem followed_excluded : ∃ c, (besideConfig "/app/sub/..").check = .ok () ∧
    start (besideConfig "/app/sub/..") besideDisk = .ok besideUpStart ∧ besideUpStart.Collects besideDisk c ∧
      normalize "/app/sub/../b.ts" = "/app/b.ts" ∧ (c.fingerprints.get? "/app/b.ts").isSome = true ∧
        besideUpStart.discovery.excludes "/app/b.ts" = true ∧
          besideUpStart.discovery.isExcluded "/app/sub/../b.ts" = true ∧
            besideUpStart.discovery.isExcluded "/app/b.ts" = false := by
  obtain ⟨hentries, hcollect, hkeys, hexcludes, himport, hwalk⟩ := besideUp_spec
  have hcollects : besideUpStart.Collects besideDisk (besideCollection besideUpStart) :=
    ⟨_, eq_ok_of_toOption hentries, Prod.ext (eq_ok_of_toOption hcollect) rfl⟩
  have hfingerprint := Dict.mem_keys_iff.1 (hkeys.symm ▸ List.mem_cons_of_mem _ (List.mem_singleton_self "/app/b.ts"))
  exact ⟨_, (start_eq_ok_iff.1 start_besideUp).1, start_besideUp, hcollects, by decide, hfingerprint, hexcludes,
    hwalk, himport⟩

end StaticGql.Session
