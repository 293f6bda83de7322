import StaticGql.Proofs.Session.Paths

/-!
How a build comes to its files. It comes to each of them once, with a cache that has learnt nothing
about that file since the build began, and then the file is a hit, is skipped, or has to be analysed.
-/

namespace StaticGql.Session

namespace Collect

variable {s : Session} {d : Disk} {c c' c₀ : Collection} {path : String} {pending new : List String}
  {reading : Option Reading} {result : List Analysis × List Unread} {α β : Type}

/-! ### One file -/

/-- All that may come of looking at a file: the reading, what comes back, and what is collected then. -/
inductive Looks (s : Session) (d : Disk) (path : String) (c : Collection) :
    Option Reading → List Analysis × List Unread → Collection → Prop
  | gone (hread : d.read path = .error .notFound) : Looks s d path c none ([], []) c
  | hit {text : String} {a : Analysis} (hread : d.read path = .ok text)
      (hmay : s.config.marker.mayContribute text = true) (hlook : c.cache.lookup? path (.ofText text 0) = some a) :
      Looks s d path c (some .hit) ([a], [])
        { c with fingerprints := c.fingerprints.insert path (.ofText text 0), assembly := c.assembly.record .hit }
  | skip {text : String} (hread : d.read path = .ok text) (hmay : s.config.marker.mayContribute text = false) :
      Looks s d path c (some .skip) ([.empty path], [])
        { c with
          fingerprints := c.fingerprints.insert path (.ofText text 0)
          assembly := c.assembly.record .skip
          cache := c.cache.insert path ⟨.ofText text 0, .empty path, []⟩ }
  | miss {text : String} (hread : d.read path = .ok text) (hmay : s.config.marker.mayContribute text = true)
      (hlook : c.cache.lookup? path (.ofText text 0) = none) :
      Looks s d path c (some .miss) ([], [⟨path, .ofText text 0, text⟩])
        { c with fingerprints := c.fingerprints.insert path (.ofText text 0) }

theorem look_looks (s : Session) (d : Disk) (path : String) (c : Collection) :
    Ends (look s d path) c (fun result c' => ∃ reading, Looks s d path c reading result c') fun _ => True := by
  rw [look]
  cases hread : d.read path with
  | error e =>
      cases e with
      | notFound => exact .pure ⟨none, .gone hread⟩
      | notFolder | isFolder | taken | notText => exact .throw trivial
  | ok text =>
      refine .bind (.setFingerprint path _) ?_
      rintro _ _ rfl
      cases hmay : s.config.marker.mayContribute text with
      | false =>
          refine .bind (.record .skip) ?_
          rintro _ _ rfl
          refine .bind (.remember path _) ?_
          rintro _ _ rfl
          exact .pure ⟨some .skip, .skip hread hmay⟩
      | true =>
          refine .bind .get ?_
          rintro _ _ ⟨rfl, rfl⟩
          cases hlook : c.cache.lookup? path (.ofText text 0) with
          | none => exact .pure ⟨some .miss, .miss hread hmay hlook⟩
          | some a =>
              refine .bind (.record .hit) ?_
              rintro _ _ rfl
              exact .pure ⟨some .hit, .hit hread hmay hlook⟩

theorem exists_looks_of_run (h : (look s d path).run.run c = (.ok result, c')) :
    ∃ reading, Looks s d path c reading result c' := by
  have hlooks := look_looks s d path c
  rw [Ends, h] at hlooks
  exact hlooks

/-- Nothing is a hit that the cache has no entry for. -/
theorem Looks.not_hit (h : Looks s d path c reading result c') (hcache : c.cache.entry? path = none) :
    reading ≠ some .hit := by
  rintro rfl
  cases h with
  | hit hread hmay hlook =>
      rw [Cache.lookup?, hcache] at hlook
      cases hlook

/-- What the step leaves as it was, apart from what it says of these paths. -/
structure Apart (paths : List String) (c c' : Collection) : Prop where
  entry : ∀ p ∉ paths, c'.cache.entry? p = c.cache.entry? p
  fingerprint : ∀ p ∉ paths, c'.fingerprints.get? p = c.fingerprints.get? p
  seen : c'.seen = c.seen

theorem Apart.refl (paths : List String) (c : Collection) : Apart paths c c := ⟨fun _ _ => rfl, fun _ _ => rfl, rfl⟩

theorem Apart.trans {paths : List String} {c'' : Collection} (h : Apart paths c c') (h' : Apart paths c' c'') :
    Apart paths c c'' where
  entry p hp := (h'.entry p hp).trans (h.entry p hp)
  fingerprint p hp := (h'.fingerprint p hp).trans (h.fingerprint p hp)
  seen := h'.seen.trans h.seen

theorem Apart.mono {paths paths' : List String} (h : Apart paths c c') (hpaths : paths ⊆ paths') :
    Apart paths' c c' where
  entry p hp := h.entry p fun hmem => hp (hpaths hmem)
  fingerprint p hp := h.fingerprint p fun hmem => hp (hpaths hmem)
  seen := h.seen

theorem Looks.apart (h : Looks s d path c reading result c') : Apart [path] c c' := by
  have hother : ∀ {p}, p ∉ [path] → path ≠ p := fun hp heq => hp (heq ▸ List.mem_singleton_self _)
  cases h with
  | gone => exact .refl _ _
  | hit => exact ⟨fun _ _ => rfl, fun p hp => by rw [Dict.get?_insert, if_neg (hother hp)], rfl⟩
  | miss => exact ⟨fun _ _ => rfl, fun p hp => by rw [Dict.get?_insert, if_neg (hother hp)], rfl⟩
  | skip =>
      refine ⟨fun p hp => ?_, fun p hp => by rw [Dict.get?_insert, if_neg (hother hp)], rfl⟩
      rw [Cache.entry?, Cache.insert, Dict.get?_insert, if_neg (hother hp)]
      rfl

theorem Looks.unread_path (h : Looks s d path c reading result c') : ∀ u ∈ result.2, u.path = path := by
  cases h with
  | gone | hit | skip => exact fun _ hu => absurd hu List.not_mem_nil
  | miss => exact fun u hu => by rw [List.mem_singleton.1 hu]

/-- An analysis that goes through is counted as a miss. -/
theorem analyse_miss (s : Session) (u : Unread) (c : Collection) :
    Ends (analyse s u) c (fun _ c' => c'.assembly = c.assembly.record .miss ∧ Apart [u.path] c c') fun _ => True := by
  rw [analyse]
  cases s.config.build.frontend.analyze s.config.marker u.path u.text with
  | error e => exact .throw trivial
  | ok a =>
      cases hids : a.canonicalIds s.config.idMode with
      | error e =>
          simp only [hids]
          exact .throw trivial
      | ok ids =>
          simp only [hids]
          refine .bind (.record .miss) ?_
          rintro _ _ rfl
          refine .bind (.remember u.path _) ?_
          rintro _ _ rfl
          refine .pure ⟨rfl, fun p hp => ?_, fun _ _ => rfl, rfl⟩
          have hother : u.path ≠ p := fun heq => hp (heq ▸ List.mem_singleton_self _)
          rw [Cache.entry?, Cache.insert, Dict.get?_insert, if_neg hother]
          rfl

/-! ### One round -/

theorem lookAll_apart (s : Session) (d : Disk) (pending : List String) (c : Collection) :
    Ends (pending.mapM (look s d)) c
      (fun found c' => Apart pending c c' ∧ ∀ u ∈ found.flatMap (·.2), u.path ∈ pending) fun _ => True := by
  refine .mapM (I := fun _ (found : List (List Analysis × List Unread)) c' => Apart pending c c' ∧
    ∀ u ∈ found.flatMap (·.2), u.path ∈ pending) ⟨.refl _ _, fun _ hu => absurd hu List.not_mem_nil⟩ ?_
  rintro path hpath before found c' ⟨hapart, hunread⟩
  refine (look_looks s d path c').mono ?_ fun _ h => h
  rintro result c'' ⟨reading, hlooks⟩
  refine ⟨hapart.trans (hlooks.apart.mono (List.cons_subset.2 ⟨hpath, List.nil_subset _⟩)), fun u hu => ?_⟩
  rw [List.flatMap_append, List.mem_append] at hu
  rcases hu with hu | hu
  · exact hunread u hu
  · rw [List.flatMap_singleton] at hu
    exact hlooks.unread_path u hu ▸ hpath

theorem analyseAll_apart (s : Session) {unread : List Unread} (hunread : ∀ u ∈ unread, u.path ∈ pending)
    (c : Collection) : Ends (unread.mapM (analyse s)) c (fun _ c' => Apart pending c c') fun _ => True := by
  refine .mapM (I := fun _ _ c' => Apart pending c c') (.refl _ _) ?_
  intro u hu before fresh c' hapart
  refine (analyse_miss s u c').mono ?_ fun _ h => h
  rintro a c'' ⟨-, h⟩
  exact hapart.trans (h.mono (List.cons_subset.2 ⟨hunread u hu, List.nil_subset _⟩))

/-- What a round does to the paths that were seen: the new ones join them, each once. -/
structure Grows (pending : List String) (c : Collection) (new : List String) (c' : Collection) : Prop where
  entry : ∀ p ∉ pending, c'.cache.entry? p = c.cache.entry? p
  fingerprint : ∀ p ∉ pending, c'.fingerprints.get? p = c.fingerprints.get? p
  seen : c'.seen = c.seen ++ new
  nodup : c.seen.Nodup → c'.seen.Nodup

theorem nodup_new {seen targets acc : List String} (h : (seen ++ acc).Nodup) :
    (seen ++ targets.foldl (fun l t => if t ∈ seen ++ l then l else l ++ [t]) acc).Nodup := by
  induction targets generalizing acc with
  | nil => exact h
  | cons t rest ih =>
      rw [List.foldl_cons]
      by_cases ht : t ∈ seen ++ acc
      · rw [if_pos ht]
        exact ih h
      · rw [if_neg ht]
        apply ih
        rw [← List.append_assoc, List.nodup_append]
        refine ⟨h, List.nodup_singleton t, fun x hx y hy heq => ht ?_⟩
        rw [← List.mem_singleton.1 hy, ← heq]
        exact hx

theorem takeAll_grows (s : Session) (d : Disk) (l : List Analysis) (c : Collection) :
    Ends (l.mapM (take s d)) c (fun reached c' => Grows [] c reached.flatten c') fun _ => True := by
  refine .mapM (I := fun _ reached c' => Grows [] c reached.flatten c')
    ⟨fun _ _ => rfl, fun _ _ => rfl, (List.append_nil _).symm, fun h => h⟩ ?_
  intro a _ before reached c' h
  rw [take]
  refine .bind .get ?_
  rintro _ _ ⟨rfl, rfl⟩
  refine .bind (.set (P := fun _ c'' => c'' = _) rfl) ?_
  rintro _ _ rfl
  refine .pure ⟨h.entry, h.fingerprint, ?_, fun hnodup => ?_⟩
  · rw [h.seen, List.flatten_append, List.append_assoc]
    simp
  · exact nodup_new (by rw [List.append_nil]; exact h.nodup hnodup)

theorem round_grows (s : Session) (d : Disk) (pending : List String) (c : Collection) :
    Ends (round s d pending) c (Grows pending c) fun _ => True := by
  rw [round]
  refine .bind (lookAll_apart s d pending c) ?_
  rintro found c₁ ⟨hapart₁, hunread⟩
  refine .bind (analyseAll_apart s hunread c₁) ?_
  intro fresh c₂ hapart₂
  refine .bind (takeAll_grows s d _ c₂) ?_
  intro reached c₃ hgrows
  have hapart := hapart₁.trans hapart₂
  refine .pure ⟨fun p hp => ?_, fun p hp => ?_, ?_, fun h => ?_⟩
  · exact (hgrows.entry p List.not_mem_nil).trans (hapart.entry p hp)
  · exact (hgrows.fingerprint p List.not_mem_nil).trans (hapart.fingerprint p hp)
  · rw [hgrows.seen, hapart.seen]
  · exact hgrows.nodup (by rwa [hapart.seen])

theorem grows_of_run (h : (round s d pending).run.run c = (.ok new, c')) : Grows pending c new c' := by
  have hgrows := round_grows s d pending c
  rw [Ends, h] at hgrows
  exact hgrows

/-! ### All rounds -/

/-- In the course of looking at these paths, one is looked at when this has been collected. -/
inductive LooksAt (s : Session) (d : Disk) : List String → Collection → String → Collection → Prop
  | here {path : String} {rest : List String} {c : Collection} : LooksAt s d (path :: rest) c path c
  | later {p path : String} {rest : List String} {c c' c₀ : Collection} {result : List Analysis × List Unread}
      (hrun : (look s d p).run.run c = (.ok result, c')) (h : LooksAt s d rest c' path c₀) :
      LooksAt s d (p :: rest) c path c₀

/-- In the course of the rounds a path is looked at when this has been collected. -/
inductive Visits (s : Session) (d : Disk) : Nat → List String → Collection → String → Collection → Prop
  | now {fuel : Nat} {pending : List String} {c : Collection} {path : String} {c₀ : Collection}
      (h : LooksAt s d pending c path c₀) : Visits s d (fuel + 1) pending c path c₀
  | later {fuel : Nat} {pending new : List String} {c c' : Collection} {path : String} {c₀ : Collection}
      (hrun : (round s d pending).run.run c = (.ok new, c')) (h : Visits s d fuel new c' path c₀) :
      Visits s d (fuel + 1) pending c path c₀

theorem LooksAt.mem (h : LooksAt s d pending c path c₀) : path ∈ pending := by
  induction h with
  | here => exact List.mem_cons_self
  | later hrun h ih => exact List.mem_cons_of_mem _ ih

theorem LooksAt.entry_eq (h : LooksAt s d pending c path c₀) (hnodup : pending.Nodup) :
    c₀.cache.entry? path = c.cache.entry? path := by
  induction h with
  | here => rfl
  | @later p path rest c c' c₀ result hrun h ih =>
      obtain ⟨hp, hrest⟩ := List.nodup_cons.1 hnodup
      obtain ⟨reading, hlooks⟩ := exists_looks_of_run hrun
      rw [ih hrest]
      refine hlooks.apart.entry path fun hmem => hp ?_
      rw [← List.mem_singleton.1 hmem]
      exact h.mem

/-- A path that has been seen is not looked at again. -/
theorem not_visits {fuel : Nat} (hseen : path ∈ c.seen) (hpending : path ∉ pending) (hnodup : c.seen.Nodup) :
    ¬Visits s d fuel pending c path c₀ := by
  intro h
  induction h with
  | now h => exact hpending h.mem
  | later hrun h ih =>
      have hgrows := grows_of_run hrun
      have hall := hgrows.nodup hnodup
      refine ih ?_ ?_ hall
      · rw [hgrows.seen]
        exact List.mem_append_left _ hseen
      · rw [hgrows.seen, List.nodup_append] at hall
        exact fun hnew => hall.2.2 _ hseen _ hnew rfl

/-- A build comes to a file with the entry that the cache had for it from the beginning. -/
theorem Visits.entry_eq {fuel : Nat} (h : Visits s d fuel pending c path c₀) (hseen : pending ⊆ c.seen)
    (hpending : pending.Nodup) (hnodup : c.seen.Nodup) : c₀.cache.entry? path = c.cache.entry? path := by
  induction h with
  | now h => exact h.entry_eq hpending
  | @later fuel pending new c c' path c₀ hrun h ih =>
      have hgrows := grows_of_run hrun
      have hall := hgrows.nodup hnodup
      have hparts := hall
      rw [hgrows.seen, List.nodup_append] at hparts
      by_cases hmem : path ∈ pending
      · refine absurd h (not_visits ?_ ?_ hall)
        · rw [hgrows.seen]
          exact List.mem_append_left _ (hseen hmem)
        · exact fun hnew => hparts.2.2 _ (hseen hmem) _ hnew rfl
      · rw [ih ?_ hparts.2.1 hall, hgrows.entry path hmem]
        rw [hgrows.seen]
        exact List.subset_append_right _ _

theorem run_bind_ok {x : Collect α} {f : α → Collect β} {b : β} (h : (x >>= f).run.run c = (.ok b, c')) :
    ∃ a c₁, x.run.run c = (.ok a, c₁) ∧ (f a).run.run c₁ = (.ok b, c') := by
  simp only [ExceptT.run_bind, StateT.run_bind] at h
  rcases hrun : x.run.run c with ⟨e | a, c₁⟩
  · rw [hrun] at h
    cases h
  · rw [hrun] at h
    exact ⟨a, c₁, rfl, h⟩

theorem exists_looksAt {found : List (List Analysis × List Unread)}
    (hrun : (pending.mapM (look s d)).run.run c = (.ok found, c')) (hpath : path ∈ pending) :
    ∃ c₀ result c₁, LooksAt s d pending c path c₀ ∧ (look s d path).run.run c₀ = (.ok result, c₁) := by
  induction pending generalizing c c' found with
  | nil => cases hpath
  | cons p rest ih =>
      rw [List.mapM_cons] at hrun
      obtain ⟨result, c₁, hlook, hrun⟩ := run_bind_ok hrun
      obtain ⟨results, c₂, hrest, -⟩ := run_bind_ok hrun
      by_cases hp : path = p
      · subst hp
        exact ⟨c, result, c₁, .here, hlook⟩
      · obtain ⟨c₀, result', c₁', h, hrun⟩ := ih hrest ((List.mem_cons.1 hpath).resolve_left hp)
        exact ⟨c₀, result', c₁', .later hlook h, hrun⟩

/-- Every file that rounds have taken a fingerprint of was looked at. -/
theorem exists_visits {fuel : Nat} {x : Unit} (hrun : (rounds s d fuel pending).run.run c = (.ok x, c'))
    (hbefore : c.fingerprints.get? path = none) (hafter : (c'.fingerprints.get? path).isSome = true) :
    ∃ c₀ result c₁, Visits s d fuel pending c path c₀ ∧ (look s d path).run.run c₀ = (.ok result, c₁) := by
  have hnot : ∀ {c : Collection}, c.fingerprints.get? path = none → c ≠ c' := by
    rintro c hbefore rfl
    rw [hbefore] at hafter
    cases hafter
  induction fuel generalizing pending c with
  | zero => exact absurd (Prod.mk.inj hrun).2 (hnot hbefore)
  | succ fuel ih =>
      cases pending with
      | nil => exact absurd (Prod.mk.inj hrun).2 (hnot hbefore)
      | cons p rest =>
          rw [rounds] at hrun
          · obtain ⟨new, c₁, hround, hrun⟩ := run_bind_ok hrun
            by_cases hpath : path ∈ p :: rest
            · have hlooks := hround
              rw [round] at hlooks
              obtain ⟨found, c₂, hfound, -⟩ := run_bind_ok hlooks
              obtain ⟨c₀, result, c₃, h, hlook⟩ := exists_looksAt hfound hpath
              exact ⟨c₀, result, c₃, .now h, hlook⟩
            · have hbefore := ((grows_of_run hround).fingerprint path hpath).trans hbefore
              obtain ⟨c₀, result, c₃, h, hlook⟩ := ih hrun hbefore
              exact ⟨c₀, result, c₃, .later hround h, hlook⟩
          · simp

end Collect

/-! ### A build -/

variable {s : Session} {d : Disk} {entries : List String} {path : String}

/-- A build that starts from these files comes to a file, and reads it in this way. -/
def Reads (s : Session) (d : Disk) (entries : List String) (path : String) (reading : Option Reading) : Prop :=
  ∃ c result c', Collect.Visits s d (d.files.size + 1) entries ⟨s.cache, .start, ∅, ∅, entries⟩ path c ∧
    (Collect.look s d path).run.run c = (.ok result, c') ∧ Collect.Looks s d path c reading result c'

/-- What the cache has no entry for is not a hit. -/
theorem not_reads_hit (hentries : entries.Nodup) (hcache : s.cache.entry? path = none) :
    ¬s.Reads d entries path (some .hit) := by
  rintro ⟨c, result, c', hvisits, -, hlooks⟩
  have hentry := hvisits.entry_eq (List.Subset.refl _) hentries hentries
  exact hlooks.not_hit (hentry.trans hcache) rfl

theorem exists_reads (hcollect : (s.collect d entries).1 = .ok ())
    (hpath : ((s.collect d entries).2.fingerprints.get? path).isSome = true) :
    ∃ reading, s.Reads d entries path reading := by
  obtain ⟨c, result, c', hvisits, hrun⟩ := Collect.exists_visits (x := ()) (Prod.ext hcollect rfl) rfl hpath
  obtain ⟨reading, hlooks⟩ := Collect.exists_looks_of_run hrun
  exact ⟨reading, c, result, c', hvisits, hrun, hlooks⟩

end StaticGql.Session
