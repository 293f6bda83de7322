import Mathlib.Data.Set.Function
import StaticGql.Proofs.Analysis.Reread
import StaticGql.Proofs.Dict
import StaticGql.Proofs.Frontend
import StaticGql.Session.Collect

/-!
What collecting comes to, whatever the cache holds: the analyses and the fingerprints of the files that
are reached from the entry files. A cache that holds what the frontend makes of some texts makes no
difference but to the numbers in options.
-/

namespace StaticGql

variable {α β γ : Type}

/-- What a build takes for the analysis of a text. -/
def Config.analysisOf (c : Config) (path text : String) : Build Analysis :=
  if !c.marker.mayContribute text then .ok (.empty path)
  else
    match c.build.frontend.analyze c.marker path text with
    | .error e => .error (.parseFailed path e.message)
    | .ok a =>
      match a.canonicalIds c.idMode with
      | .error e => .error (.invalidId e)
      | .ok _ => .ok a

theorem Config.analysisOf_of_mayContribute (c : Config) {path text : String}
    (h : c.marker.mayContribute text = true) : c.analysisOf path text =
      match c.build.frontend.analyze c.marker path text with
      | .error e => .error (.parseFailed path e.message)
      | .ok a =>
        match a.canonicalIds c.idMode with
        | .error e => .error (.invalidId e)
        | .ok _ => .ok a := by
  rw [analysisOf, if_neg (by simp [h])]

/-- Every entry is what a build takes for the analysis of one of the texts of its path. -/
structure Cache.Honest (config : Config) (texts : String → Set String) (c : Cache) : Prop where
  key : c.key = config.cacheKey
  entry : ∀ {path e}, c.entries.get? path = some e → ∃ text ∈ texts path,
    e.fingerprint = .ofText text 0 ∧ ∃ a, config.analysisOf path text = .ok a ∧ e.analysis.blur = a.blur

/-- Every file has one of the texts of its path. -/
def Disk.Within (d : Disk) (texts : String → Set String) : Prop :=
  ∀ {path text}, d.read path = .ok text → text ∈ texts path

namespace Session

/-! ### Steps that end well or badly -/

namespace Collect

variable {x : Collect α} {f : α → Collect β} {c : Collection} {P : α → Collection → Prop}
  {Q : β → Collection → Prop} {F : Collection → Prop}

/-- `P` holds of what the step returns and leaves if it goes through, and `F` of what it leaves
otherwise. -/
def Ends (x : Collect α) (c : Collection) (P : α → Collection → Prop) (F : Collection → Prop) : Prop :=
  match x.run.run c with
  | (.ok a, c) => P a c
  | (.error _, c) => F c

theorem Ends.bind (hx : Ends x c P F) (hf : ∀ a c', P a c' → Ends (f a) c' Q F) :
    Ends (x >>= f) c Q F := by
  rw [Ends] at hx ⊢
  simp only [ExceptT.run_bind, StateT.run_bind]
  rcases hrun : x.run.run c with ⟨e | a, c'⟩
  · rw [hrun] at hx
    exact hx
  · rw [hrun] at hx
    exact hf a c' hx

theorem Ends.pure {a : α} (h : P a c) : Ends (Pure.pure a) c P F := h

theorem Ends.throw {e : BuildError} (h : F c) : Ends (throw e : Collect α) c P F := h

theorem Ends.get : Ends get c (fun a c' => a = c ∧ c' = c) F := ⟨rfl, rfl⟩

theorem Ends.set {c' : Collection} {P : PUnit → Collection → Prop} (h : P ⟨⟩ c') :
    Ends (set c') c P F := h

theorem Ends.record (r : Reading) :
    Ends (record r) c (fun _ c' => c' = { c with assembly := c.assembly.record r }) F := rfl

theorem Ends.remember (path : String) (e : CacheEntry) :
    Ends (remember path e) c (fun _ c' => c' = { c with cache := c.cache.insert path e }) F := rfl

theorem Ends.setFingerprint (path : String) (f : Fingerprint) : Ends (setFingerprint path f) c
    (fun _ c' => c' = { c with fingerprints := c.fingerprints.insert path f }) F := rfl

theorem Ends.mono {P' : α → Collection → Prop} {F' : Collection → Prop} (h : Ends x c P F)
    (hP : ∀ a c', P a c' → P' a c') (hF : ∀ c', F c' → F' c') : Ends x c P' F' := by
  rw [Ends] at h ⊢
  rcases hrun : x.run.run c with ⟨e | a, c'⟩
  · rw [hrun] at h
    exact hF c' h
  · rw [hrun] at h
    exact hP a c' h

/-- What one member keeps up is there after all of them, along with their results. -/
theorem Ends.mapM {g : γ → Collect β} {l : List γ} {I : List γ → List β → Collection → Prop}
    (h : I [] [] c) (hstep : ∀ a ∈ l, ∀ before results c', I before results c' →
      Ends (g a) c' (fun b => I (before ++ [a]) (results ++ [b])) F) :
    Ends (l.mapM g) c (I l) F := by
  have hall : ∀ (rest before : List γ) (results : List β) (c : Collection), (∀ a ∈ rest, a ∈ l) →
      I before results c →
      Ends (rest.mapM g) c (fun more => I (before ++ rest) (results ++ more)) F := by
    intro rest
    induction rest with
    | nil =>
        intro before results c _ h
        rw [List.mapM_nil]
        exact .pure (by simpa using h)
    | cons a rest ih =>
        intro before results c hmem h
        rw [List.mapM_cons]
        refine .bind (hstep a (hmem a (by simp)) before results c h) fun b c' hb => ?_
        have hrest := ih (before ++ [a]) (results ++ [b]) c'
          (fun a' ha' => hmem a' (List.mem_cons_of_mem a ha')) hb
        refine .bind hrest fun more c'' hmore => .pure ?_
        simpa using hmore
  exact hall l [] [] c (fun _ h => h) h

end Collect

/-! ### What a file comes to -/

variable (s : Session) (d : Disk)

/-- The analysis of the file at a path, apart from numbers in options. -/
def Yields (path : String) (b : Analysis) : Prop :=
  ∃ text a, d.read path = .ok text ∧ s.config.analysisOf path text = .ok a ∧ a.blur = b

/-- The file at a path ends a build. -/
def Fails (path : String) : Prop :=
  (∃ e, d.read path = .error e ∧ e ≠ .notFound) ∨
    ∃ text e, d.read path = .ok text ∧ s.config.analysisOf path text = .error e

/-- The files reached in so many rounds. -/
def reached (entries : List String) : Nat → Set String
  | 0 => ∅
  | n + 1 => { p | p ∈ entries ∨ ∃ q ∈ reached entries n, ∃ b, s.Yields d q b ∧ p ∈ Collect.targets s d b }

/-- These are the fingerprints of the files `done`. -/
def FingerprintsOf (d : Disk) (done : Set String) (fingerprints : Dict Fingerprint) : Prop :=
  ∀ p f, fingerprints.get? p = some f ↔ p ∈ done ∧ ∃ text, d.read p = .ok text ∧ f = .ofText text 0

/-- These are the analyses of the files `done`. -/
def AnalysesOf (done : Set String) (analyses : Dict Analysis) : Prop :=
  ∀ p b, (analyses.get? p).map Analysis.blur = some b ↔ p ∈ done ∧ s.Yields d p b

/-- The files `done` have been taken in, and nothing else. -/
structure Collected (done : Set String) (c : Collection) : Prop where
  fine : ∀ p ∈ done, ¬s.Fails d p
  fingerprints : FingerprintsOf d done c.fingerprints
  analyses : AnalysesOf s d done c.analyses

variable {s d}

theorem Yields.unique {path : String} {b b' : Analysis} (h : s.Yields d path b)
    (h' : s.Yields d path b') : b = b' := by
  obtain ⟨text, a, htext, ha, rfl⟩ := h
  obtain ⟨text', a', htext', ha', rfl⟩ := h'
  rw [htext, Except.ok.injEq] at htext'
  subst htext'
  rw [ha, Except.ok.injEq] at ha'
  rw [ha']

theorem file_of_analysisOf {config : Config} {path text : String} {a : Analysis}
    (h : config.analysisOf path text = .ok a) : a.file = path := by
  rw [Config.analysisOf] at h
  split at h
  · cases h
    rfl
  · split at h
    · cases h
    · rename_i a' ha'
      split at h
      · cases h
      · cases h
        exact Frontend.file_of_analyze ha'

theorem Yields.file {path : String} {b : Analysis} (h : s.Yields d path b) : b.file = path := by
  obtain ⟨text, a, -, ha, rfl⟩ := h
  show a.file = path
  exact file_of_analysisOf ha

/-! ### One file -/

namespace Collect

variable {texts : String → Set String} {c : Collection}

/-- What looking at a path may find. -/
inductive Found (s : Session) (d : Disk) (path : String) : List Analysis × List Unread → Prop
  | gone (h : d.read path = .error .notFound) : Found s d path ([], [])
  | known {a : Analysis} (h : s.Yields d path a.blur) : Found s d path ([a], [])
  | unread {text : String} (htext : d.read path = .ok text)
      (h : s.config.marker.mayContribute text = true) :
      Found s d path ([], [⟨path, .ofText text 0, text⟩])

/-- The fingerprints after one more path has been looked at. -/
def fingerprinted (d : Disk) (path : String) (f : Dict Fingerprint) : Dict Fingerprint :=
  match d.read path with
  | .ok text => f.insert path (.ofText text 0)
  | .error _ => f

theorem eq_of_not_differs {known : Set String} (hinj : Set.InjOn Blake3.ofText known)
    {text text' : String} (h : text ∈ known) (h' : text' ∈ known)
    (hsame : (Fingerprint.ofText text 0).differs (.ofText text' 0) = false) : text = text' := by
  apply hinj h h'
  simp only [Fingerprint.differs, Fingerprint.ofText, Bool.or_eq_false_iff] at hsame
  exact not_not.1 (of_decide_eq_false hsame.1)

theorem honest_insert {cache : Cache} (h : cache.Honest s.config texts) {path : String}
    {e : CacheEntry} {text : String} (htext : text ∈ texts path) (he : e.fingerprint = .ofText text 0)
    {a : Analysis} (ha : s.config.analysisOf path text = .ok a) (hblur : e.analysis.blur = a.blur) :
    (cache.insert path e).Honest s.config texts := by
  refine ⟨h.key, fun {path' e'} he' => ?_⟩
  rw [Cache.insert, Dict.get?_insert] at he'
  split at he'
  · rename_i hpath
    cases he'
    exact ⟨text, hpath ▸ htext, he, a, hpath ▸ ha, hblur⟩
  · exact h.entry he'

theorem yields_of_lookup (hinj : ∀ path, Set.InjOn Blake3.ofText (texts path)) {cache : Cache}
    (h : cache.Honest s.config texts) {path text : String} (hread : d.read path = .ok text)
    (htext : text ∈ texts path) {a : Analysis} (ha : cache.lookup? path (.ofText text 0) = some a) :
    s.Yields d path a.blur := by
  obtain ⟨e, he, rfl⟩ := Option.map_eq_some_iff.1 ha
  obtain ⟨he, hsame⟩ := Option.filter_eq_some_iff.1 he
  obtain ⟨text', htext', hfingerprint, a, hanalysis, hblur⟩ := h.entry he
  rw [hfingerprint, Bool.not_eq_true'] at hsame
  obtain rfl := eq_of_not_differs (hinj path) htext' htext hsame
  exact ⟨text', a, hread, hanalysis, hblur.symm⟩

theorem look_spec (hinj : ∀ path, Set.InjOn Blake3.ofText (texts path)) (hd : d.Within texts)
    (hc : c.cache.Honest s.config texts) (path : String) :
    Ends (look s d path) c
      (fun result c' => c'.cache.Honest s.config texts ∧ c'.analyses = c.analyses ∧
        c'.seen = c.seen ∧ c'.fingerprints = fingerprinted d path c.fingerprints ∧
          Found s d path result)
      (fun c' => c'.cache.Honest s.config texts ∧ s.Fails d path) := by
  rw [look]
  cases hread : d.read path with
  | error e =>
      have hsame : fingerprinted d path c.fingerprints = c.fingerprints := by rw [fingerprinted, hread]
      cases e with
      | notFound => exact .pure ⟨hc, rfl, rfl, hsame.symm, .gone hread⟩
      | notFolder | isFolder | taken | notText =>
          exact .throw ⟨hc, .inl ⟨_, hread, by simp⟩⟩
  | ok text =>
      have hsame : fingerprinted d path c.fingerprints =
          c.fingerprints.insert path (.ofText text 0) := by rw [fingerprinted, hread]
      have htext : text ∈ texts path := hd hread
      refine .bind (.setFingerprint path _) ?_
      rintro _ _ rfl
      by_cases hmay : s.config.marker.mayContribute text = true
      · simp only [hmay, Bool.not_true, Bool.false_eq_true, if_false]
        refine .bind .get ?_
        rintro _ _ ⟨rfl, rfl⟩
        cases hlook : c.cache.lookup? path (.ofText text 0) with
        | none => exact .pure ⟨hc, rfl, rfl, hsame.symm, .unread hread hmay⟩
        | some a =>
            refine .bind (.record .hit) ?_
            rintro _ _ rfl
            exact .pure ⟨hc, rfl, rfl, hsame.symm, .known (yields_of_lookup hinj hc hread htext hlook)⟩
      · have hanalysis : s.config.analysisOf path text = .ok (.empty path) := by
          rw [Config.analysisOf]
          simp [hmay]
        simp only [hmay, Bool.not_false, if_true]
        refine .bind (.record .skip) ?_
        rintro _ _ rfl
        refine .bind (.remember path _) ?_
        rintro _ _ rfl
        refine .pure ⟨?_, rfl, rfl, hsame.symm, .known ⟨text, _, hread, hanalysis, rfl⟩⟩
        exact honest_insert hc htext rfl hanalysis rfl

theorem analyse_spec (hc : c.cache.Honest s.config texts) {u : Unread} (htext : u.text ∈ texts u.path)
    (hfingerprint : u.fingerprint = .ofText u.text 0)
    (hmay : s.config.marker.mayContribute u.text = true) :
    Ends (analyse s u) c
      (fun a c' => c'.cache.Honest s.config texts ∧ c'.analyses = c.analyses ∧ c'.seen = c.seen ∧
        c'.fingerprints = c.fingerprints ∧ s.config.analysisOf u.path u.text = .ok a)
      (fun c' => c'.cache.Honest s.config texts ∧
        ∃ e, s.config.analysisOf u.path u.text = .error e) := by
  rw [analyse, s.config.analysisOf_of_mayContribute hmay]
  cases ha : s.config.build.frontend.analyze s.config.marker u.path u.text with
  | error e => exact .throw ⟨hc, _, rfl⟩
  | ok a =>
      cases hids : a.canonicalIds s.config.idMode with
      | error e =>
          simp only [hids]
          exact .throw ⟨hc, _, rfl⟩
      | ok ids =>
          have hanalysis : s.config.analysisOf u.path u.text = .ok a := by
            rw [s.config.analysisOf_of_mayContribute hmay, ha]
            simp only [hids]
          simp only [hids]
          refine .bind (.record .miss) ?_
          rintro _ _ rfl
          refine .bind (.remember u.path _) ?_
          rintro _ _ rfl
          exact .pure ⟨honest_insert hc htext hfingerprint hanalysis rfl, rfl, rfl, rfl, rfl⟩

theorem mem_new {seen targets : List String} {p : String} (acc : List String) :
    p ∈ targets.foldl (fun l t => if t ∈ seen ++ l then l else l ++ [t]) acc ↔
      p ∈ acc ∨ p ∈ targets ∧ p ∉ seen ∧ p ∉ acc := by
  induction targets generalizing acc with
  | nil => simp
  | cons t rest ih =>
      rw [List.foldl_cons]
      by_cases ht : t ∈ seen ++ acc
      · rw [if_pos ht, ih]
        rw [List.mem_append] at ht
        constructor
        · rintro (h | ⟨h, hseen⟩)
          · exact .inl h
          · exact .inr ⟨List.mem_cons_of_mem t h, hseen⟩
        · rintro (h | ⟨h, hseen, hacc⟩)
          · exact .inl h
          · rcases List.mem_cons.1 h with rfl | h
            · exact absurd ht (not_or.2 ⟨hseen, hacc⟩)
            · exact .inr ⟨h, hseen, hacc⟩
      · rw [if_neg ht, ih]
        rw [List.mem_append, not_or] at ht
        constructor
        · rintro (h | ⟨h, hseen, hacc⟩)
          · rcases List.mem_append.1 h with h | h
            · exact .inl h
            · rw [List.mem_singleton.1 h]
              exact .inr ⟨by simp, ht⟩
          · rw [List.mem_append, not_or] at hacc
            exact .inr ⟨List.mem_cons_of_mem t h, hseen, hacc.1⟩
        · rintro (h | ⟨h, hseen, hacc⟩)
          · exact .inl (List.mem_append_left _ h)
          · by_cases hp : p = t
            · exact .inl (by simp [hp])
            · have hrest : p ∈ rest := (List.mem_cons.1 h).resolve_left hp
              exact .inr ⟨hrest, hseen, by simp [hacc, hp]⟩

theorem take_spec {F : Collection → Prop} (a : Analysis) :
    Ends (take s d a) c (fun new c' => c'.cache = c.cache ∧ c'.fingerprints = c.fingerprints ∧
      c'.analyses = c.analyses.insert a.file a ∧
        (∀ p, p ∈ c'.seen ↔ p ∈ c.seen ∨ p ∈ targets s d a) ∧
          ∀ p, p ∈ new ↔ p ∈ targets s d a ∧ p ∉ c.seen) F := by
  rw [take]
  refine .bind .get ?_
  rintro _ _ ⟨rfl, rfl⟩
  refine .bind (.set (P := fun _ c' => c' = _) rfl) ?_
  rintro _ _ rfl
  refine .pure ⟨rfl, rfl, rfl, fun p => ?_, fun p => ?_⟩
  · rw [List.mem_append, mem_new]
    simp only [List.not_mem_nil, false_or, not_false_eq_true, and_true]
    tauto
  · rw [mem_new]
    simp

/-! ### One round -/

theorem fingerprintsOf_insert {done : Set String} {f : Dict Fingerprint}
    (h : FingerprintsOf d done f) (path : String) :
    FingerprintsOf d (done ∪ {path}) (fingerprinted d path f) := by
  intro p x
  rw [fingerprinted]
  by_cases hp : path = p
  · subst hp
    cases hread : d.read path with
    | ok text => simp [Dict.get?_insert, eq_comm]
    | error e => simp [h path x, hread]
  · have hmem : p ∈ done ∪ {path} ↔ p ∈ done := by
      simp [Ne.symm hp]
    rw [hmem, ← h p x]
    cases d.read path with
    | ok text => simp [Dict.get?_insert, hp]
    | error e => rfl

theorem analysesOf_insert {done : Set String} {analyses : Dict Analysis}
    (h : AnalysesOf s d done analyses) {a : Analysis} (ha : s.Yields d a.file a.blur) :
    AnalysesOf s d (done ∪ {a.file}) (analyses.insert a.file a) := by
  intro p b
  by_cases hp : a.file = p
  · subst hp
    simp only [Dict.get?_insert, if_true, Option.map_some, Option.some.injEq, Set.mem_union,
      Set.mem_singleton_iff, or_true, true_and]
    constructor
    · rintro rfl
      exact ha
    · exact fun hb => ha.unique hb
  · have hmem : p ∈ done ∪ {a.file} ↔ p ∈ done := by
      simp [Ne.symm hp]
    rw [hmem, ← h p b, Dict.get?_insert, if_neg hp]

theorem lookAll_spec (hinj : ∀ path, Set.InjOn Blake3.ofText (texts path)) (hd : d.Within texts)
    (hc : c.cache.Honest s.config texts) {done : Set String}
    (hdone : FingerprintsOf d done c.fingerprints) (pending : List String) :
    Ends (pending.mapM (look s d)) c
      (fun found c' => c'.cache.Honest s.config texts ∧ c'.analyses = c.analyses ∧
        c'.seen = c.seen ∧ FingerprintsOf d (done ∪ { p | p ∈ pending }) c'.fingerprints ∧
          List.Forall₂ (Found s d) pending found)
      (fun c' => c'.cache.Honest s.config texts ∧ ∃ p ∈ pending, s.Fails d p) := by
  refine .mapM (I := fun before found c' => c'.cache.Honest s.config texts ∧
    c'.analyses = c.analyses ∧ c'.seen = c.seen ∧
      FingerprintsOf d (done ∪ { p | p ∈ before }) c'.fingerprints ∧
        List.Forall₂ (Found s d) before found) ⟨hc, rfl, rfl, by simpa using hdone, .nil⟩ ?_
  rintro path hpath before found c' ⟨hhonest, hanalyses, hseen, hfingerprints, hfound⟩
  refine (look_spec hinj hd hhonest path).mono ?_ ?_
  · rintro result c'' ⟨hhonest', hanalyses', hseen', hfingerprints', hresult⟩
    refine ⟨hhonest', hanalyses'.trans hanalyses, hseen'.trans hseen, ?_, ?_⟩
    · have hset : done ∪ { p | p ∈ before ++ [path] } = done ∪ { p | p ∈ before } ∪ {path} := by
        ext p
        simp only [List.mem_append, List.mem_singleton, Set.mem_union, Set.mem_ofPred_eq,
          Set.mem_singleton_iff, or_assoc]
      rw [hset, hfingerprints']
      exact fingerprintsOf_insert hfingerprints path
    · exact List.rel_append hfound (.cons hresult .nil)
  · rintro c'' ⟨hhonest', hfails⟩
    exact ⟨hhonest', path, hpath, hfails⟩

/-- A file that was read to be analysed. -/
structure IsUnread (s : Session) (d : Disk) (u : Unread) : Prop where
  read : d.read u.path = .ok u.text
  fingerprint : u.fingerprint = .ofText u.text 0
  mayContribute : s.config.marker.mayContribute u.text = true

theorem analyseAll_spec (hd : d.Within texts) (hc : c.cache.Honest s.config texts)
    {unread : List Unread} (hunread : ∀ u ∈ unread, IsUnread s d u) :
    Ends (unread.mapM (analyse s)) c
      (fun fresh c' => c'.cache.Honest s.config texts ∧ c'.analyses = c.analyses ∧
        c'.seen = c.seen ∧ c'.fingerprints = c.fingerprints ∧
          List.Forall₂ (fun u a => s.config.analysisOf u.path u.text = .ok a) unread fresh)
      (fun c' => c'.cache.Honest s.config texts ∧ ∃ u ∈ unread, s.Fails d u.path) := by
  apply Ends.mapM (I := fun (before : List Unread) (fresh : List Analysis) c' => c'.cache.Honest s.config texts ∧
    c'.analyses = c.analyses ∧ c'.seen = c.seen ∧ c'.fingerprints = c.fingerprints ∧
      List.Forall₂ (fun u a => s.config.analysisOf u.path u.text = .ok a) before fresh)
  · exact ⟨hc, rfl, rfl, rfl, .nil⟩
  rintro u hu before fresh c' ⟨hhonest, hanalyses, hseen, hfingerprints, hfresh⟩
  have hread := (hunread u hu).read
  refine (analyse_spec hhonest (hd hread) (hunread u hu).fingerprint
    (hunread u hu).mayContribute).mono ?_ ?_
  · rintro a c'' ⟨hhonest', hanalyses', hseen', hfingerprints', ha⟩
    exact ⟨hhonest', hanalyses'.trans hanalyses, hseen'.trans hseen,
      hfingerprints'.trans hfingerprints, List.rel_append hfresh (.cons ha .nil)⟩
  · rintro c'' ⟨hhonest', e, he⟩
    exact ⟨hhonest', u, hu, .inr ⟨_, e, hread, he⟩⟩

theorem analysesOf_foldl {done : Set String} {analyses : Dict Analysis} (h : AnalysesOf s d done analyses)
    {l : List Analysis} (hl : ∀ a ∈ l, s.Yields d a.file a.blur) :
    AnalysesOf s d (done ∪ { p | ∃ a ∈ l, a.file = p })
      (l.foldl (fun analyses a => analyses.insert a.file a) analyses) := by
  induction l generalizing done analyses with
  | nil => simpa using h
  | cons a rest ih =>
      obtain ⟨ha, hrest⟩ := List.forall_mem_cons.1 hl
      have hset : done ∪ { p | ∃ a' ∈ a :: rest, a'.file = p } =
          done ∪ {a.file} ∪ { p | ∃ a' ∈ rest, a'.file = p } := by
        ext p
        simp only [List.mem_cons, Set.mem_union, Set.mem_ofPred_eq, Set.mem_singleton_iff, or_assoc,
          or_and_right, exists_or, exists_eq_left, @eq_comm _ a.file]
      rw [hset]
      exact ih (analysesOf_insert h ha) hrest

/-- Analyses are taken in one after another, whatever they are of. -/
theorem takeAll_taken {F : Collection → Prop} (l : List Analysis) :
    Ends (l.mapM (take s d)) c
      (fun reached c' => c'.cache = c.cache ∧ c'.fingerprints = c.fingerprints ∧
        c'.analyses = l.foldl (fun analyses a => analyses.insert a.file a) c.analyses ∧
          (∀ p, p ∈ c'.seen ↔ p ∈ c.seen ∨ ∃ a ∈ l, p ∈ targets s d a) ∧
            ∀ p, p ∈ reached.flatten ↔ p ∈ c'.seen ∧ p ∉ c.seen) F := by
  refine .mapM (I := fun before reached c' => c'.cache = c.cache ∧
    c'.fingerprints = c.fingerprints ∧
      c'.analyses = before.foldl (fun analyses a => analyses.insert a.file a) c.analyses ∧
        (∀ p, p ∈ c'.seen ↔ p ∈ c.seen ∨ ∃ a ∈ before, p ∈ targets s d a) ∧
          ∀ p, p ∈ reached.flatten ↔ p ∈ c'.seen ∧ p ∉ c.seen)
    ⟨rfl, rfl, rfl, by simp, by simp⟩ ?_
  rintro a - before reached c' ⟨hcache, hfingerprints, hanalyses, hseen, hreached⟩
  refine (take_spec a).mono ?_ fun _ h => h
  rintro new c'' ⟨hcache', hfingerprints', hanalyses', hseen', hnew⟩
  refine ⟨hcache'.trans hcache, hfingerprints'.trans hfingerprints, ?_, fun p => ?_, fun p => ?_⟩
  · rw [hanalyses', hanalyses, List.foldl_append, List.foldl_cons, List.foldl_nil]
  · rw [hseen', hseen]
    simp only [List.mem_append, List.mem_singleton, or_assoc, or_and_right, exists_or, exists_eq_left]
  · rw [List.flatten_append, List.mem_append, hreached, hseen', List.flatten_cons, List.flatten_nil,
      List.append_nil, hnew]
    have hmono : p ∈ c.seen → p ∈ c'.seen := fun h => (hseen p).2 (.inl h)
    tauto

theorem takeAll_spec {F : Collection → Prop} {done : Set String}
    (hdone : AnalysesOf s d done c.analyses) {l : List Analysis}
    (hl : ∀ a ∈ l, s.Yields d a.file a.blur) :
    Ends (l.mapM (take s d)) c
      (fun reached c' => c'.cache = c.cache ∧ c'.fingerprints = c.fingerprints ∧
        AnalysesOf s d (done ∪ { p | ∃ a ∈ l, a.file = p }) c'.analyses ∧
          (∀ p, p ∈ c'.seen ↔ p ∈ c.seen ∨ ∃ a ∈ l, p ∈ targets s d a) ∧
            ∀ p, p ∈ reached.flatten ↔ p ∈ c'.seen ∧ p ∉ c.seen) F := by
  refine (takeAll_taken l).mono ?_ fun _ h => h
  rintro reached c' ⟨hcache, hfingerprints, hanalyses, hseen, hreached⟩
  exact ⟨hcache, hfingerprints, hanalyses ▸ analysesOf_foldl hdone hl, hseen, hreached⟩

theorem isUnread_of_found {pending : List String} {found : List (List Analysis × List Unread)}
    (h : List.Forall₂ (Found s d) pending found) {u : Unread} (hu : u ∈ found.flatMap (·.2)) :
    u.path ∈ pending ∧ IsUnread s d u := by
  obtain ⟨result, hresult, hu⟩ := List.mem_flatMap.1 hu
  obtain ⟨path, hpath, hfound⟩ := exists_of_forall₂ h.flip hresult
  cases hfound with
  | gone => cases hu
  | known => cases hu
  | unread htext hmay =>
      rw [List.mem_singleton.1 hu]
      exact ⟨hpath, htext, rfl, hmay⟩

theorem IsUnread.yields {u : Unread} (h : IsUnread s d u) {a : Analysis}
    (ha : s.config.analysisOf u.path u.text = .ok a) : s.Yields d u.path a.blur :=
  ⟨u.text, a, h.read, ha, rfl⟩

theorem not_fails_of_yields {path : String} {b : Analysis} (h : s.Yields d path b) :
    ¬s.Fails d path := by
  obtain ⟨text, a, htext, ha, -⟩ := h
  rintro (⟨e, he, -⟩ | ⟨text', e, htext', he⟩)
  · rw [htext] at he
    cases he
  · rw [htext, Except.ok.injEq] at htext'
    rw [← htext', ha] at he
    cases he

/-- The analyses that a round takes are those of the files that were pending. -/
theorem taken_spec {pending : List String} {found : List (List Analysis × List Unread)}
    {fresh : List Analysis} (hfound : List.Forall₂ (Found s d) pending found)
    (hfresh : List.Forall₂ (fun u a => s.config.analysisOf u.path u.text = .ok a)
      (found.flatMap (·.2)) fresh) :
    (∀ a ∈ found.flatMap (·.1) ++ fresh, a.file ∈ pending ∧ s.Yields d a.file a.blur) ∧
      ∀ p ∈ pending, ¬s.Fails d p ∧
        ∀ b, s.Yields d p b → ∃ a ∈ found.flatMap (·.1) ++ fresh, a.file = p := by
  constructor
  · intro a ha
    rcases List.mem_append.1 ha with ha | ha
    · obtain ⟨result, hresult, ha⟩ := List.mem_flatMap.1 ha
      obtain ⟨path, hpath, hfound⟩ := exists_of_forall₂ hfound.flip hresult
      cases hfound with
      | gone => cases ha
      | unread => cases ha
      | known hyields =>
          rw [List.mem_singleton.1 ha]
          have hfile : Analysis.file _ = path := hyields.file
          exact ⟨hfile.symm ▸ hpath, hfile.symm ▸ hyields⟩
    · obtain ⟨u, hu, hanalysis⟩ := exists_of_forall₂ hfresh.flip ha
      obtain ⟨hpath, hread⟩ := isUnread_of_found hfound hu
      have hyields := hread.yields hanalysis
      have hfile : a.file = u.path := hyields.file
      exact ⟨hfile.symm ▸ hpath, hfile.symm ▸ hyields⟩
  · intro p hp
    obtain ⟨result, hresult, h⟩ := exists_of_forall₂ hfound hp
    cases h with
    | gone hgone =>
        refine ⟨?_, ?_⟩
        · rintro (⟨e, he, hne⟩ | ⟨text, e, htext, -⟩)
          · rw [hgone, Except.error.injEq] at he
            exact hne he.symm
          · rw [hgone] at htext
            cases htext
        · rintro b ⟨text, a, htext, -⟩
          rw [hgone] at htext
          cases htext
    | @known a hyields =>
        refine ⟨not_fails_of_yields hyields, fun _ _ => ⟨a, ?_, hyields.file⟩⟩
        exact List.mem_append_left _ (List.mem_flatMap.2 ⟨_, hresult, by simp⟩)
    | @unread text htext hmay =>
        have hu : (⟨p, .ofText text 0, text⟩ : Unread) ∈ found.flatMap (·.2) :=
          List.mem_flatMap.2 ⟨_, hresult, by simp⟩
        obtain ⟨a, ha, hanalysis⟩ := exists_of_forall₂ hfresh hu
        have hyields := (isUnread_of_found hfound hu).2.yields hanalysis
        refine ⟨not_fails_of_yields hyields, fun _ _ => ⟨a, List.mem_append_right _ ha, hyields.file⟩⟩

theorem round_spec (hinj : ∀ path, Set.InjOn Blake3.ofText (texts path)) (hd : d.Within texts)
    (hc : c.cache.Honest s.config texts) {done : Set String} (hdone : s.Collected d done c)
    (pending : List String) :
    Ends (round s d pending) c
      (fun new c' => c'.cache.Honest s.config texts ∧
        s.Collected d (done ∪ { p | p ∈ pending }) c' ∧
          (∀ p, p ∈ c'.seen ↔
            p ∈ c.seen ∨ ∃ q ∈ pending, ∃ b, s.Yields d q b ∧ p ∈ targets s d b) ∧
            ∀ p, p ∈ new ↔ p ∈ c'.seen ∧ p ∉ c.seen)
      (fun c' => c'.cache.Honest s.config texts ∧ ∃ p ∈ pending, s.Fails d p) := by
  rw [round]
  refine .bind (lookAll_spec hinj hd hc hdone.fingerprints pending) ?_
  rintro found c₁ ⟨hhonest₁, hanalyses₁, hseen₁, hfingerprints₁, hfound⟩
  have hunread : ∀ u ∈ found.flatMap (·.2), IsUnread s d u :=
    fun u hu => (isUnread_of_found hfound hu).2
  refine .bind ((analyseAll_spec hd hhonest₁ hunread).mono (fun _ _ h => h) ?_) ?_
  · rintro c' ⟨hhonest, u, hu, hfails⟩
    exact ⟨hhonest, u.path, (isUnread_of_found hfound hu).1, hfails⟩
  rintro fresh c₂ ⟨hhonest₂, hanalyses₂, hseen₂, hfingerprints₂, hfresh⟩
  obtain ⟨htaken, hall⟩ := taken_spec hfound hfresh
  have hanalyses : s.AnalysesOf d done c₂.analyses := by
    rw [hanalyses₂, hanalyses₁]
    exact hdone.analyses
  refine .bind (takeAll_spec hanalyses fun a ha => (htaken a ha).2) ?_
  rintro reached c₃ ⟨hcache₃, hfingerprints₃, hanalyses₃, hseen₃, hreached⟩
  rw [hseen₂, hseen₁] at hseen₃ hreached
  refine .pure ⟨hcache₃ ▸ hhonest₂, ⟨?_, ?_, ?_⟩, fun p => ?_, hreached⟩
  · rintro p (hp | hp)
    · exact hdone.fine p hp
    · exact (hall p hp).1
  · rw [hfingerprints₃, hfingerprints₂]
    exact hfingerprints₁
  · intro p b
    rw [hanalyses₃]
    constructor
    · rintro ⟨hp | ⟨a, ha, rfl⟩, hb⟩
      · exact ⟨.inl hp, hb⟩
      · exact ⟨.inr (htaken a ha).1, hb⟩
    · rintro ⟨hp | hp, hb⟩
      · exact ⟨.inl hp, hb⟩
      · exact ⟨.inr ((hall p hp).2 b hb), hb⟩
  · rw [hseen₃]
    constructor
    · rintro (h | ⟨a, ha, h⟩)
      · exact .inl h
      · exact .inr ⟨a.file, (htaken a ha).1, a.blur, (htaken a ha).2, h⟩
    · rintro (h | ⟨q, hq, b, hb, h⟩)
      · exact .inl h
      · obtain ⟨a, ha, rfl⟩ := (hall q hq).2 b hb
        obtain rfl := (htaken a ha).2.unique hb
        exact .inr ⟨a, ha, h⟩

/-! ### All rounds -/

theorem reached_subset (entries : List String) (n : Nat) :
    s.reached d entries n ⊆ s.reached d entries (n + 1) := by
  induction n with
  | zero => exact Set.empty_subset _
  | succ n ih =>
      rintro p (hp | ⟨q, hq, hb⟩)
      · exact .inl hp
      · exact .inr ⟨q, ih hq, hb⟩

theorem reached_mono (entries : List String) (n m : Nat) :
    s.reached d entries n ⊆ s.reached d entries (n + m) := by
  induction m with
  | zero => exact subset_rfl
  | succ m ih => exact ih.trans (reached_subset entries (n + m))

theorem reached_add_of_eq {entries : List String} {n : Nat}
    (h : s.reached d entries (n + 1) = s.reached d entries n) (m : Nat) :
    s.reached d entries (n + m) = s.reached d entries n := by
  induction m with
  | zero => rfl
  | succ m ih =>
      rw [← h]
      show { p | p ∈ entries ∨ ∃ q ∈ s.reached d entries (n + m), _ } = _
      rw [ih]
      rfl

/-- A set that is closed step by step is what the rounds take in, however many there are. -/
theorem rounds_spec (hinj : ∀ path, Set.InjOn Blake3.ofText (texts path)) (hd : d.Within texts)
    (entries : List String) (fuel : Nat) {n : Nat} {pending : List String}
    (hc : c.cache.Honest s.config texts) (hdone : s.Collected d (s.reached d entries n) c)
    (hseen : ∀ p, p ∈ c.seen ↔ p ∈ s.reached d entries (n + 1))
    (hpending : ∀ p, p ∈ pending ↔ p ∈ s.reached d entries (n + 1) ∧ p ∉ s.reached d entries n) :
    Ends (rounds s d fuel pending) c
      (fun _ c' => c'.cache.Honest s.config texts ∧
        s.Collected d (s.reached d entries (n + fuel)) c')
      (fun c' => c'.cache.Honest s.config texts ∧
        ∃ p ∈ s.reached d entries (n + fuel), s.Fails d p) := by
  induction fuel generalizing n c pending with
  | zero => exact .pure ⟨hc, hdone⟩
  | succ fuel ih =>
      cases pending with
      | nil =>
          have hclosed : s.reached d entries (n + 1) = s.reached d entries n := by
            refine Set.Subset.antisymm (fun p hp => ?_) (reached_subset entries n)
            by_contra hnot
            exact List.not_mem_nil ((hpending p).2 ⟨hp, hnot⟩)
          refine .pure ⟨hc, ?_⟩
          rw [reached_add_of_eq hclosed]
          exact hdone
      | cons path rest =>
          have hrounds : rounds s d (fuel + 1) (path :: rest) =
              round s d (path :: rest) >>= rounds s d fuel := by
            rw [rounds]
            simp
          rw [hrounds]
          generalize path :: rest = pending at hpending
          have hset : s.reached d entries n ∪ { p | p ∈ pending } = s.reached d entries (n + 1) := by
            ext p
            have hmono := @reached_subset s d entries n p
            rw [Set.mem_union, Set.mem_ofPred_eq, hpending]
            by_cases hp : p ∈ s.reached d entries n
            · simp [hp, hmono hp]
            · simp [hp]
          have hround := round_spec hinj hd hc hdone pending
          rw [hset] at hround
          refine .bind (hround.mono (fun _ _ h => h) ?_) ?_
          · rintro c' ⟨hhonest, p, hp, hfails⟩
            refine ⟨hhonest, p, ?_, hfails⟩
            have := @reached_mono s d entries (n + 1) fuel p ((hpending p).1 hp).1
            rwa [Nat.add_assoc, Nat.add_comm 1] at this
          rintro new c' ⟨hhonest, hcollected, hseen', hnew⟩
          have hseen'' : ∀ p, p ∈ c'.seen ↔ p ∈ s.reached d entries (n + 1 + 1) := by
            intro p
            rw [hseen', hseen]
            constructor
            · rintro (hp | ⟨q, hq, hb⟩)
              · exact reached_subset entries (n + 1) hp
              · exact .inr ⟨q, ((hpending q).1 hq).1, hb⟩
            · rintro (hp | ⟨q, hq, hb⟩)
              · exact .inl (.inl hp)
              · rw [← hset] at hq
                rcases hq with hq | hq
                · exact .inl (.inr ⟨q, hq, hb⟩)
                · exact .inr ⟨q, hq, hb⟩
          have := ih hhonest hcollected hseen'' fun p => by rw [hnew, hseen'', hseen]
          rwa [Nat.add_assoc, Nat.add_comm 1] at this

end Collect

/-! ### Warnings -/

namespace Collect

variable {x : Collect α} {f : α → Collect β} {c : Collection}

/-- The step gives no warning. -/
def Quiet (x : Collect α) : Prop :=
  ∀ c : Collection, c.assembly.warnings = [] →
    Ends x c (fun _ c' => c'.assembly.warnings = []) fun c' => c'.assembly.warnings = []

theorem Quiet.bind (hx : Quiet x) (hf : ∀ a, Quiet (f a)) : Quiet (x >>= f) :=
  fun c hc => (hx c hc).bind fun a c' hc' => hf a c' hc'

theorem Quiet.mapM {g : γ → Collect β} (h : ∀ a, Quiet (g a)) (l : List γ) : Quiet (l.mapM g) :=
  fun _ hc => .mapM hc fun a _ _ _ c' hc' => h a c' hc'

theorem Quiet.pure (a : α) : Quiet (Pure.pure a) := fun _ hc => hc

theorem Quiet.throw (e : BuildError) : Quiet (throw e : Collect α) := fun _ hc => hc

theorem quiet_look (path : String) : Quiet (look s d path) := by
  rw [look]
  split
  · exact .pure _
  · exact .throw _
  · refine .bind (fun _ hc => hc) fun _ => ?_
    split
    · exact .bind (fun _ hc => hc) fun _ => .bind (fun _ hc => hc) fun _ => .pure _
    · refine .bind (fun _ hc => hc) fun c => ?_
      split
      · exact .bind (fun _ hc => hc) fun _ => .pure _
      · exact .pure _

theorem quiet_analyse (u : Unread) : Quiet (analyse s u) := by
  rw [analyse]
  split
  · exact .throw _
  · split
    · exact .throw _
    · exact .bind (fun _ hc => hc) fun _ => .bind (fun _ hc => hc) fun _ => .pure _

theorem quiet_take (a : Analysis) : Quiet (take s d a) := fun _ hc => hc

theorem quiet_round (pending : List String) : Quiet (round s d pending) := by
  rw [round]
  refine .bind (.mapM quiet_look pending) fun found => ?_
  refine .bind (.mapM quiet_analyse _) fun fresh => ?_
  exact .bind (.mapM quiet_take _) fun reached => .pure _

theorem quiet_rounds (fuel : Nat) (pending : List String) : Quiet (rounds s d fuel pending) := by
  induction fuel generalizing pending with
  | zero => exact .pure _
  | succ fuel ih =>
      cases pending with
      | nil => exact .pure _
      | cons path rest =>
          rw [rounds]
          · exact .bind (quiet_round _) ih
          · simp

end Collect

theorem collect_warnings (s : Session) (d : Disk) (entries : List String) :
    (s.collect d entries).2.assembly.warnings = [] := by
  have hquiet := @Collect.quiet_rounds s d (d.files.size + 1) entries
    ⟨s.cache, .start, ∅, ∅, entries⟩ rfl
  rw [Collect.Ends] at hquiet
  rw [collect]
  rcases hrun : (Collect.rounds s d (d.files.size + 1) entries).run.run
    ⟨s.cache, .start, ∅, ∅, entries⟩ with ⟨e | a, c⟩
  · rw [hrun] at hquiet
    exact hquiet
  · rw [hrun] at hquiet
    exact hquiet

/-- Collecting with a cache that holds what the frontend makes of some texts: it fails only for a file
that would fail without it, and otherwise takes in what would be taken in without it. -/
theorem collect_spec {texts : String → Set String} (hinj : ∀ path, Set.InjOn Blake3.ofText (texts path))
    (hd : d.Within texts) (hc : s.cache.Honest s.config texts) (entries : List String) :
    (s.collect d entries).2.cache.Honest s.config texts ∧
      ((s.collect d entries).1 = .ok () →
        s.Collected d (s.reached d entries (d.files.size + 1)) (s.collect d entries).2) ∧
      (∀ e, (s.collect d entries).1 = .error e →
        ∃ p ∈ s.reached d entries (d.files.size + 1), s.Fails d p) := by
  have hstart : s.Collected d (s.reached d entries 0) ⟨s.cache, .start, ∅, ∅, entries⟩ := by
    refine ⟨fun p hp => hp.elim, fun p f => ?_, fun p b => ?_⟩
    · exact ⟨nofun, fun h => h.1.elim⟩
    · exact ⟨nofun, fun h => h.1.elim⟩
  have hpending : ∀ p, p ∈ entries ↔ p ∈ s.reached d entries 1 ∧ p ∉ s.reached d entries 0 := by
    simp [reached]
  have hrounds := Collect.rounds_spec hinj hd entries (d.files.size + 1) hc hstart
    (by simp [reached]) hpending
  rw [Collect.Ends] at hrounds
  rw [collect]
  rcases hrun : (Collect.rounds s d (d.files.size + 1) entries).run.run
    ⟨s.cache, .start, ∅, ∅, entries⟩ with ⟨e | a, c⟩
  · rw [hrun] at hrounds
    refine ⟨hrounds.1, nofun, fun e' _ => ?_⟩
    simpa using hrounds.2
  · rw [hrun] at hrounds
    refine ⟨hrounds.1, fun _ => ?_, nofun⟩
    simpa using hrounds.2

end Session
end StaticGql
