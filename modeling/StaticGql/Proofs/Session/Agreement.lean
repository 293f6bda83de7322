import StaticGql.Proofs.Graph.Exact
import StaticGql.Proofs.Registry.Schedulers
import StaticGql.Proofs.Session.History

/-!
A build and the build of a fresh session. They have one outcome, unless the session takes its last
artifact again while linking against the files that are there now would not give it.

Builds under either scheduler. Whatever a session has been through, its registry holds elements of
declarations alone, which are ready at once, so it makes no difference which scheduler evaluates them.
-/

namespace StaticGql.Session

variable {s : Session} {d : Disk} {c c' : Collection} {last : Option Disk} {seen : Set String}
  {entries : List String}

/-! ### The fresh session -/

theorem start_fresh (h : Sound seen s last) (d : Disk) :
    start s.config.withoutCache d = .ok s.fresh :=
  start_eq_ok_iff.2 ⟨h.checked, s.discovery, h.discovered, rfl⟩

theorem sound_fresh (h : Sound seen s last) : Sound seen s.fresh none where
  checked := h.checked
  discovered := h.discovered
  key := h.key
  honest := Cache.honest_empty s.fresh.config _
  settled := .empty _
  made := fun _ _ => nofun

theorem reached_fresh (s : Session) (d : Disk) (entries : List String) (n : Nat) :
    s.fresh.reached d entries n = s.reached d entries n := by
  induction n with
  | zero => rfl
  | succ n ih =>
      rw [reached, reached, ih]
      rfl

theorem unchanged_fresh (s : Session) (diff : Diff) : s.fresh.unchanged? diff = none := by
  rw [unchanged?]
  exact ite_self none

/-- Both sessions collect, or neither does, and then the same but for numbers in options. -/
theorem collects_fresh (hinj : Set.InjOn Blake3.ofText seen) (h : Sound seen s last)
    (hd : d.Within fun _ => seen) (hc : s.Collects d c) : ∃ c', s.fresh.Collects d c' ∧
      (c'.analyses.map fun _ => Analysis.blur) = c.analyses.map fun _ => Analysis.blur := by
  obtain ⟨entries, hentries, hcollect⟩ := hc
  have hfine : (s.fresh.collect d entries).1 = .ok () := by
    rw [collect_eq_ok_iff (fun _ => hinj) hd (sound_fresh h).honest, reached_fresh]
    exact (collect_eq_ok_iff (fun _ => hinj) hd h.honest entries).1 (by rw [hcollect])
  obtain ⟨-, hok, -⟩ := collect_spec (fun _ => hinj) hd h.honest entries
  obtain ⟨-, hok', -⟩ := collect_spec (fun _ => hinj) hd (sound_fresh h).honest entries
  have hcollected := hok (by rw [hcollect])
  have hcollected' := hok' hfine
  rw [hcollect] at hcollected
  rw [reached_fresh] at hcollected'
  refine ⟨_, ⟨entries, hentries, Prod.ext hfine rfl⟩, ?_⟩
  apply Dict.ext_get?
  intro path
  rw [Dict.get?_map, Dict.get?_map]
  ext b
  have hiff := hcollected.analyses path b
  have hiff' := hcollected'.analyses path b
  rw [hiff, hiff']
  rfl

theorem collects_of_fresh (hinj : Set.InjOn Blake3.ofText seen) (h : Sound seen s last)
    (hd : d.Within fun _ => seen) (hc : s.fresh.Collects d c') : ∃ c, s.Collects d c := by
  obtain ⟨entries, hentries, hcollect⟩ := hc
  have hfine : (s.collect d entries).1 = .ok () := by
    rw [collect_eq_ok_iff (fun _ => hinj) hd h.honest, ← reached_fresh]
    exact (collect_eq_ok_iff (fun _ => hinj) hd (sound_fresh h).honest entries).1 (by rw [hcollect])
  exact ⟨_, entries, hentries, Prod.ext hfine rfl⟩

theorem Collects.unique (hc : s.Collects d c) (hc' : s.Collects d c') : c = c' := by
  obtain ⟨entries, hentries, hcollect⟩ := hc
  obtain ⟨entries', hentries', hcollect'⟩ := hc'
  rw [hentries, Except.ok.injEq] at hentries'
  subst hentries'
  rw [hcollect] at hcollect'
  exact (Prod.mk.injEq .. ▸ hcollect').2

theorem build_of_collects (hc : s.Collects d c) (scheduler : Scheduler) :
    s.build scheduler d = buildFrom { s with cache := c.cache } scheduler d c := by
  obtain ⟨entries, hentries, hcollect⟩ := hc
  rw [build]
  simp only [hentries, hcollect]

theorem build_of_not_collects (hnone : ¬∃ c, s.Collects d c) (scheduler : Scheduler) :
    ∃ e, (s.build scheduler d).1 = .error e := by
  rw [build]
  cases hentries : s.entryFiles d with
  | error e => exact ⟨_, rfl⟩
  | ok entries =>
      simp only
      rcases hcollect : s.collect d entries with ⟨e | ⟨⟨⟩⟩, c⟩
      · exact ⟨_, rfl⟩
      · exact absurd ⟨c, entries, hentries, hcollect⟩ hnone

/-! ### Agreement -/

/-- Where a build would take the last artifact again, linking what it has collected against the files
that are there now gives that artifact. -/
def Current (s : Session) (scheduler : Scheduler) (d : Disk) : Prop :=
  ∀ c a, s.Collects d c → s.unchanged? (s.tracker.diff c.fingerprints) = some a →
    s.relinked scheduler d c.analyses = some a.elements

theorem Collects.collected (hinj : Set.InjOn Blake3.ofText seen) (h : Sound seen s last)
    (hd : d.Within fun _ => seen) (hc : s.Collects d c) :
    (∃ done, s.Collected d done c) ∧ c.assembly.warnings = [] := by
  obtain ⟨entries, -, hcollect⟩ := hc
  obtain ⟨-, hok, -⟩ := collect_spec (fun _ => hinj) hd h.honest entries
  have hwarnings := collect_warnings s d entries
  rw [hcollect] at hok hwarnings
  exact ⟨⟨_, hok rfl⟩, hwarnings⟩

theorem gives_unchanged (hinj : Set.InjOn Blake3.ofText seen) (h : Sound seen s last)
    (hd : d.Within fun _ => seen) (hc : s.Collects d c) {a : Artifact}
    (hunchanged : s.unchanged? (s.tracker.diff c.fingerprints) = some a) (isNew : Bool) :
    Gives (.ok ⟨a, isNew⟩) (warningsOf c.analyses) (some a.elements) := by
  obtain ⟨⟨done, hdone⟩, -⟩ := hc.collected hinj h hd
  rw [unchanged?] at hunchanged
  split at hunchanged
  · rename_i hsame
    rw [Bool.and_eq_true, Bool.not_eq_true', Tracker.isEmpty_diff_iff] at hsame
    obtain ⟨d₀, done₀, analyses, fingerprints, -, hmade⟩ := h.made hsame.2 a hunchanged
    refine ⟨_, rfl, ?_⟩
    rw [hmade.stable]
    have hblur := analyses_eq_of_same (fun _ => hinj) hd hmade.within hdone.fingerprints hmade.fingerprinted
      hdone.analyses hmade.analysed fun path => (hmade.tracked path).symm.trans (hsame.1 path)
    rw [warningsOf_congr hblur]
  · cases hunchanged

/-- What a build gives that has collected its files. -/
theorem gives_build (hinj : Set.InjOn Blake3.ofText seen) (h : Sound seen s last)
    (hhashed : ∀ text ∈ s.hashed d, text ∈ seen) (hc : s.Collects d c) (scheduler scheduler' : Scheduler) :
    Gives (s.build scheduler d).1 (warningsOf c.analyses)
      (match s.unchanged? (s.tracker.diff c.fingerprints) with
        | some a => some a.elements
        | none => s.relinked scheduler' d c.analyses) := by
  have hd : d.Within fun _ => seen := fun hread => hhashed _ (mem_hashed_of_read hread)
  obtain ⟨-, hwarnings⟩ := hc.collected hinj h hd
  rw [build_of_collects hc]
  cases hunchanged : s.unchanged? (s.tracker.diff c.fingerprints) with
  | some a =>
      have hgives := gives_unchanged hinj h hd hc hunchanged false
      have htaken : (buildFrom { s with cache := c.cache } scheduler d c).1 = .ok ⟨a, false⟩ := by
        have hunchanged' : unchanged? { s with cache := c.cache } (s.tracker.diff c.fingerprints) =
          some a := hunchanged
        rw [buildFrom]
        simp only [hunchanged']
      rw [htaken]
      exact hgives
  | none =>
      have hsigned := signedWith_of_hashed hhashed hc
      have hsettled : IsSettled { s with cache := c.cache } seen := h.settled
      exact gives_buildFrom scheduler scheduler' hinj hsettled hsigned hwarnings hunchanged

/-- After any history a build has the outcome that a build of a fresh session without a cache has, if
and only if it does not take an artifact again that linking against the present files would not give. -/
theorem build_agree (hs : Arises seen s last) (hinj : Set.InjOn Blake3.ofText seen)
    (hhashed : ∀ text ∈ s.hashed d, text ∈ seen) (hfresh : ∀ text ∈ s.fresh.hashed d, text ∈ seen)
    (scheduler scheduler' : Scheduler) : start s.config.withoutCache d = .ok s.fresh ∧
      (SameOutcome (s.build scheduler d).1 (s.fresh.build scheduler' d).1 ↔ s.Current scheduler d) := by
  have h := hs.sound hinj
  have hd : d.Within fun _ => seen := fun hread => hhashed _ (mem_hashed_of_read hread)
  refine ⟨start_fresh h d, ?_⟩
  by_cases hcollects : ∃ c, s.Collects d c
  · obtain ⟨c, hc⟩ := hcollects
    obtain ⟨c', hc', hblur⟩ := collects_fresh hinj h hd hc
    have hsigned := signedWith_of_hashed hhashed hc
    have hsigned' := signedWith_of_hashed hfresh hc'
    have hgives := gives_build hinj h hhashed hc scheduler scheduler
    have hgives' := gives_build hinj (sound_fresh h) hfresh hc' scheduler' scheduler
    have hrelinked : s.fresh.relinked scheduler d c'.analyses = s.relinked scheduler d c.analyses :=
      relinked_congr scheduler scheduler hinj hblur hsigned' hsigned
    rw [unchanged_fresh, warningsOf_congr hblur, hrelinked] at hgives'
    rw [hgives.same_iff hgives']
    cases hunchanged : s.unchanged? (s.tracker.diff c.fingerprints) with
    | some a =>
        constructor
        · intro hsame c₁ a₁ hc₁ hunchanged₁
          have hsame : some a.elements = s.relinked scheduler d c.analyses := hsame
          obtain rfl := hc.unique hc₁
          rw [hunchanged, Option.some.injEq] at hunchanged₁
          rw [← hunchanged₁, hsame]
        · exact fun hcurrent => (hcurrent c a hc hunchanged).symm
    | none =>
        refine iff_of_true rfl ?_
        intro c₁ a₁ hc₁ hunchanged₁
        obtain rfl := hc.unique hc₁
        rw [hunchanged] at hunchanged₁
        cases hunchanged₁
  · obtain ⟨e, he⟩ := build_of_not_collects hcollects scheduler
    have hnone : ¬∃ c', s.fresh.Collects d c' := by
      rintro ⟨c', hc'⟩
      exact hcollects (collects_of_fresh hinj h hd hc')
    obtain ⟨e', he'⟩ := build_of_not_collects hnone scheduler'
    refine iff_of_true (.inl ⟨e, e', he, he'⟩) ?_
    intro c a hc
    exact absurd ⟨c, hc⟩ hcollects

/-! A file is built that refers to a name of a file beside it, which is not analysed. Once that one is gone
the session goes on giving its artifact. -/

def importerText : String := "import{b}from'./b'\ngql.q(()=>query.slice({},b))"

def importerConfig : Config :=
  ⟨⟨"/", ["a.ts"], []⟩, ⟨"gql", [], none⟩, ⟨.scanner, false, none, .sync, false⟩, .standard⟩

def imported : Disk := ⟨.ofList [("/a.ts", .text importerText), ("/b.ts", .text "")], [], "/"⟩

def notImported : Disk := imported.remove "/b.ts"

set_option maxRecDepth 10000 in
theorem isSome_start_importer : (start importerConfig imported).toOption.isSome = true := by
  decide +kernel

def importerStart : Session := (start importerConfig imported).toOption.get isSome_start_importer

/-- The session after it has built with the other file there. -/
def importer : Session := (importerStart.build .sync imported).2.1

theorem start_importer : start importerConfig imported = .ok importerStart :=
  eq_ok_get isSome_start_importer

/-- All that is hashed. -/
def importerHashed : List String :=
  [importerConfig.analysisPart.compact, importerText, "",
    "\x7b\"declarations\":[\x7b\"builder\":\x7b\"callee\":[\"query\",\"slice\"],\"operationType\":\"query\"," ++
    "\"options\":\x7b\x7d\x7d,\"id\":\"/a.ts::_anonymous_0\",\"kind\":\"slice\",\"references\":[]\x7d]," ++
    "\"exports\":\x7b\x7d,\"imports\":[]\x7d"]

set_option maxRecDepth 10000 in
theorem nodup_importerHashed : (importerHashed.map Blake3.ofText).Nodup := by decide +kernel

theorem injOn_importerHashed : Set.InjOn Blake3.ofText { text | text ∈ importerHashed } :=
  fun _ h _ h' => List.inj_on_of_nodup_map nodup_importerHashed h h'

set_option maxRecDepth 10000 in
theorem importer_spec : (∀ text ∈ importerStart.hashed imported, text ∈ importerHashed) ∧
    (∀ text ∈ importer.hashed notImported, text ∈ importerHashed) ∧
      (∀ text ∈ importer.fresh.hashed notImported, text ∈ importerHashed) ∧
        (importer.build .sync notImported).1.isOk = true ∧
          (importer.fresh.build .sync notImported).1.isOk = false := by
  decide +kernel

theorem arises_importer : ∃ last, Arises { text | text ∈ importerHashed } importer last := by
  have hstart : Arises { text | text ∈ importerHashed } importerStart none :=
    .start (by simp [importerHashed]) start_importer (cache_of_start start_importer)
  exact ⟨_, .build .sync imported hstart importer_spec.1⟩

theorem importer_differs : ¬SameOutcome (importer.build .sync notImported).1
    (importer.fresh.build .sync notImported).1 := by
  obtain ⟨-, -, -, hok, herror⟩ := importer_spec
  rintro (⟨e, e', he, -⟩ | ⟨b, b', -, hb', -⟩)
  · rw [he] at hok
    cases hok
  · rw [hb'] at herror
    cases herror

theorem not_current_importer : ¬importer.Current .sync notImported := by
  obtain ⟨last, harises⟩ := arises_importer
  obtain ⟨-, hhashed, hfresh, -⟩ := importer_spec
  have hagree := build_agree harises injOn_importerHashed hhashed hfresh .sync .sync
  exact fun hcurrent => importer_differs (hagree.2.2 hcurrent)

theorem build_stale : ∃ last, Arises { text | text ∈ importerHashed } importer last ∧
    Set.InjOn Blake3.ofText { text | text ∈ importerHashed } ∧
      (∀ text ∈ importer.hashed notImported, text ∈ importerHashed) ∧
        (∀ text ∈ importer.fresh.hashed notImported, text ∈ importerHashed) ∧
          ¬SameOutcome (importer.build .sync notImported).1 (importer.fresh.build .sync notImported).1 := by
  obtain ⟨last, harises⟩ := arises_importer
  obtain ⟨-, hhashed, hfresh, -⟩ := importer_spec
  exact ⟨last, harises, injOn_importerHashed, hhashed, hfresh, importer_differs⟩

/-! ### Files beside the analysed ones -/

variable {d₀ : Disk} {analyses : Dict Analysis}

theorem relinked_beside (h : SameBeside analyses d.isFile d₀.isFile) (scheduler : Scheduler) :
    s.relinked scheduler d analyses = s.relinked scheduler d₀ analyses := by
  rw [relinked, relinked, link, link, Graph.build_beside s.config.idMode h]

theorem SignedWith.beside (hsigned : s.SignedWith d analyses seen)
    (h : SameBeside analyses d.isFile d₀.isFile) : s.SignedWith d₀ analyses seen := by
  rintro ⟨_, _, g, hbuilt, hchecked⟩ rfl rfl
  rw [← Graph.build_beside s.config.idMode h] at hbuilt
  exact hsigned ⟨_, d.isFile, g, hbuilt, hchecked⟩ rfl rfl

/-- The last artifact is current while nothing that analysed files ask for has come or gone beside them
since it was made. -/
theorem current_of_sameBeside (hs : Arises seen s last) (hinj : Set.InjOn Blake3.ofText seen)
    (hhashed : ∀ text ∈ s.hashed d, text ∈ seen) (scheduler : Scheduler)
    (hsame : ∀ c d₀, s.Collects d c → last = some d₀ → SameBeside c.analyses d.isFile d₀.isFile) :
    s.Current scheduler d := by
  intro c a hc hunchanged
  have h := hs.sound hinj
  have hd : d.Within fun _ => seen := fun hread => hhashed _ (mem_hashed_of_read hread)
  obtain ⟨⟨done, hdone⟩, -⟩ := hc.collected hinj h hd
  rw [unchanged?] at hunchanged
  split at hunchanged
  · rename_i hfiles
    rw [Bool.and_eq_true, Bool.not_eq_true', Tracker.isEmpty_diff_iff] at hfiles
    obtain ⟨d₀, done₀, analyses, fingerprints, hlast, hmade⟩ := h.made hfiles.2 a hunchanged
    have hblur := analyses_eq_of_same (fun _ => hinj) hd hmade.within hdone.fingerprints hmade.fingerprinted
      hdone.analyses hmade.analysed fun path => (hmade.tracked path).symm.trans (hfiles.1 path)
    have hbeside := hsame c d₀ hc hlast
    have hsigned := (signedWith_of_hashed hhashed hc).beside hbeside
    rw [relinked_beside hbeside]
    rw [relinked_congr scheduler scheduler hinj hblur hsigned hmade.signed]
    exact hmade.elements scheduler
  · cases hunchanged

end StaticGql.Session

namespace StaticGql

/-! ### One build under either scheduler -/

/-- The element of some declaration. -/
def Definition.IsDeclared (e : Definition) : Prop := ∃ d : Declaration, d.definition = e

namespace Session

variable {s t : Session} {d : Disk} {c : Collection} {analyses : Dict Analysis}
  {modules : Dict ModuleDefinition}

/-- The elements of a session's registry are those of declarations. -/
abbrev Declared (s : Session) : Prop := s.registry.StemsFrom Definition.IsDeclared

theorem declared_of_link (h : s.link d analyses = .ok modules) :
    ∀ m ∈ modules.values, ∀ e ∈ m.elements, e.IsDeclared := by
  intro m hm e he
  obtain ⟨k, hk⟩ := Dict.mem_values_iff.1 hm
  obtain ⟨p, -, -, hmodules⟩ := link_eq_ok_iff.1 h
  obtain ⟨-, file, a, -, hm⟩ := ModuleDefinition.get?_ofAnalyses hmodules hk
  obtain ⟨-, -, helements, -⟩ := ModuleDefinition.ofAnalysis_spec hm
  rw [helements] at he
  obtain ⟨declaration, -, rfl⟩ := List.mem_map.1 he
  exact ⟨declaration, rfl⟩

theorem Declared.sync (h : s.Declared) (hlink : s.link d analyses = .ok modules) :
    (s.registry.sync modules).StemsFrom Definition.IsDeclared :=
  Registry.StemsFrom.sync h (declared_of_link hlink)

theorem Declared.evaluate_eq (h : s.Declared) (hlink : s.link d analyses = .ok modules) :
    s.evaluate .sync modules = s.evaluate .async modules := by
  have hready : (s.registry.sync modules).StemsFrom fun e => ∀ c, (e.factory c).isAsync = false := by
    refine (h.sync hlink).mono ?_
    rintro _ ⟨declaration, rfl⟩ c
    rfl
  rw [evaluate, evaluate, Registry.evaluate_eq fun n r' => Registry.prompt_of_registerAll hready]

theorem Declared.evaluate (h : s.Declared) (hlink : s.link d analyses = .ok modules)
    (scheduler : Scheduler) : (s.evaluate scheduler modules).2.StemsFrom Definition.IsDeclared := by
  rw [evaluate_snd]
  exact (h.sync hlink).evaluate scheduler

theorem Declared.buildFrom_eq (h : s.Declared) (d : Disk) (c : Collection) :
    s.buildFrom .sync d c = s.buildFrom .async d c := by
  rw [buildFrom, buildFrom]
  cases hlink : s.link d c.analyses with
  | error e => rfl
  | ok modules => simp only [h.evaluate_eq hlink]

/-- Builds end alike under both schedulers, whatever they leave. -/
theorem Declared.build_eq (h : s.Declared) (d : Disk) : s.build .sync d = s.build .async d := by
  rw [build, build]
  cases s.entryFiles d with
  | error e => rfl
  | ok entries =>
      simp only
      rcases s.collect d entries with ⟨e | ⟨⟨⟩⟩, c⟩
      · rfl
      · have hcache : Declared { s with cache := c.cache } := h
        exact hcache.buildFrom_eq d c

/-! ### Histories under either scheduler -/

/-- A session after some history, whatever has been stored on the disks. -/
inductive Reached : Session → Prop
  | start {c : Config} {d : Disk} {s : Session} (h : start c d = .ok s) : Reached s
  | build {s : Session} (scheduler : Scheduler) (d : Disk) (hs : Reached s) :
      Reached (s.build scheduler d).2.1
  | remove {s t : Session} {path : String} {removed : List CanonicalId} (hs : Reached s)
      (h : s.removeModule path = .ok (removed, t)) : Reached t

theorem Declared.buildFrom (h : s.Declared) (scheduler : Scheduler) (d : Disk) (c : Collection) :
    (s.buildFrom scheduler d c).2.1.Declared := by
  rw [Session.buildFrom]
  cases s.unchanged? (s.tracker.diff c.fingerprints) with
  | some a => exact h
  | none =>
      cases hlink : s.link d c.analyses with
      | error e => exact h
      | ok modules =>
          have hevaluate := h.evaluate hlink scheduler
          simp only
          rcases hrun : s.evaluate scheduler modules with ⟨e | ⟨⟨⟩⟩, r⟩
          · rw [hrun] at hevaluate
            exact hevaluate
          · rw [hrun] at hevaluate
            exact hevaluate

theorem Declared.build (h : s.Declared) (scheduler : Scheduler) (d : Disk) :
    (s.build scheduler d).2.1.Declared := by
  rw [Session.build]
  cases s.entryFiles d with
  | error e => exact h
  | ok entries =>
      simp only
      rcases s.collect d entries with ⟨e | ⟨⟨⟩⟩, c⟩
      · exact h
      · have hcache : Declared { s with cache := c.cache } := h
        exact hcache.buildFrom scheduler d c

theorem Reached.declared (h : Reached s) : s.Declared := by
  induction h with
  | start h =>
      obtain ⟨-, discovery, -, rfl⟩ := start_eq_ok_iff.1 h
      exact .empty _
  | build scheduler d _ ih => exact ih.build scheduler d
  | remove _ h ih =>
      obtain ⟨key, -, h⟩ := bind_eq_ok_iff.1 h
      cases h
      exact ih.dropModule key

/-- Both schedulers do the same to a registry, down to the answer and to what a failure in the middle of
a level leaves, if no element waits that is pending once all modules are registered. And they do the same
to a session, whatever it has been through: the artifact is the same, or the error. -/
theorem schedulers_alike :
    (∀ r : Registry, (∀ n r', Registry.registerAll.run.run r = (.ok n, r') → r'.Prompt) →
      (Registry.evaluate .sync).run.run r = (Registry.evaluate .async).run.run r) ∧
    ∀ s : Session, Reached s → ∀ d, s.build .sync d = s.build .async d :=
  ⟨fun _ => Registry.evaluate_eq, fun _ h d => h.declared.build_eq d⟩

/-- A registry with a module of which an element fails between two that do not. -/
def halting : Registry :=
  (Registry.empty.install ⟨"/a", [], ∅, [⟨⟨"A"⟩, .define, [], fun _ => .yield (.pure (.define .null))⟩,
    ⟨⟨"B"⟩, .define, [], fun _ => .yield (.yield (.fail (.failed "no")))⟩,
    ⟨⟨"C"⟩, .define, [], fun _ => .pure (.define .null)⟩,
    ⟨⟨"D"⟩, .define, [⟨"A"⟩], fun _ => .pure (.define .null)⟩], ""⟩).2

theorem prompt_halting {n : Nat} {r : Registry}
    (h : Registry.registerAll.run.run halting = (.ok n, r)) : r.Prompt := by
  refine Registry.prompt_of_registerAll (.install (.empty _) fun e he c => ?_) h
  simp only [List.mem_cons, List.not_mem_nil, or_false] at he
  rcases he with rfl | rfl | rfl | rfl <;> rfl

theorem schedulers_alike_halting :
    (Registry.evaluate .sync).run.run halting = (Registry.evaluate .async).run.run halting ∧
      ((Registry.evaluate .async).run.run halting).1 = .ok (.error (.evaluationFailed ⟨"B"⟩ "no")) ∧
        ((Registry.evaluate .async).run.run halting).2.evaluatedIds = [⟨"A"⟩] ∧
          importer.build .sync notImported = importer.build .async notImported := by
  have hreached : Reached importer := .build .sync imported (.start start_importer)
  refine ⟨schedulers_alike.1 _ fun n r => prompt_halting, ?_, ?_, ?_⟩
  · decide +kernel
  · decide +kernel
  · exact schedulers_alike.2 importer hreached notImported

end Session
end StaticGql
