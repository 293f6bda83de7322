import Mathlib.Data.Set.Function
import StaticGql.Proofs.Element.Alike
import StaticGql.Proofs.Graph.Declarations
import StaticGql.Proofs.Registry.Incremental
import StaticGql.Session.Build

/-!
Projects as registries see them: the modules of analysed files, with signatures that tell their
elements as long as no two of the texts behind them have one hash.
-/

namespace StaticGql

variable {mode : IdMode} {analyses : Dict Analysis} {onDisk : String → Bool} {g : Graph}

/-- A project at some time: its analyses, and the graph built of them, which has been checked. -/
structure Project (mode : IdMode) where
  analyses : Dict Analysis
  onDisk : String → Bool
  graph : Graph
  built : Graph.build mode analyses onDisk = .ok graph
  checked : graph.check = .ok ()

namespace Project

/-- The modules of a project, unless a path has no key. -/
def modules (p : Project mode) : Except IdError (Dict ModuleDefinition) :=
  ModuleDefinition.ofAnalyses mode p.analyses p.graph

/-- The module of one of its files. -/
def HasModule (p : Project mode) (m : ModuleDefinition) : Prop :=
  ∃ file a, p.analyses.get? file = some a ∧
    ModuleDefinition.ofAnalysis mode p.analyses p.graph file a = .ok m

/-- The texts whose hashes are the signatures of its modules. -/
def signatureTexts (p : Project mode) : Set String :=
  { text | ∃ file a imports, p.analyses.get? file = some a ∧
    ModuleDefinition.importsOf mode p.analyses file a = .ok imports ∧
      text = ModuleDefinition.signatureText imports
        (ModuleDefinition.exportsOf a (p.graph.declarationsIn file)) (p.graph.declarationsIn file) }

end Project

/-! ### Modules -/

namespace ModuleDefinition

theorem ofAnalysis_spec {file : String} {a : Analysis} {m : ModuleDefinition}
    (h : ofAnalysis mode analyses g file a = .ok m) :
    CanonicalId.fileKey mode file = .ok m.file ∧ importsOf mode analyses file a = .ok m.imports ∧
      m.elements = (g.declarationsIn file).map (·.definition) ∧
      m.signature =
        signatureOf m.imports (exportsOf a (g.declarationsIn file)) (g.declarationsIn file) := by
  obtain ⟨key, hkey, h⟩ := bind_eq_ok_iff.1 h
  obtain ⟨imports, himports, h⟩ := bind_eq_ok_iff.1 h
  cases h
  exact ⟨hkey, himports, rfl, rfl⟩

theorem get?_ofAnalyses {modules : Dict ModuleDefinition} {k : String} {m : ModuleDefinition}
    (h : ofAnalyses mode analyses g = .ok modules) (hm : modules.get? k = some m) :
    m.file = k ∧ ∃ file a, analyses.get? file = some a ∧ ofAnalysis mode analyses g file a = .ok m := by
  obtain ⟨l, hl, h⟩ := bind_eq_ok_iff.1 h
  cases h
  obtain ⟨m', hmem, he⟩ := List.mem_map.1 (Dict.mem_of_get?_ofList hm)
  cases he
  refine ⟨rfl, ?_⟩
  obtain ⟨q, hq, hqm⟩ := exists_of_forall₂ (mapM_eq_ok_iff.1 hl).flip hmem
  exact ⟨q.1, q.2, Dict.mem_toList_iff.1 hq, hqm⟩

end ModuleDefinition

namespace Project

variable {p : Project mode} {m : ModuleDefinition}

theorem HasModule.elements (h : p.HasModule m) : ∃ text ∈ p.signatureTexts,
    m.signature = Blake3.ofText text ∧ ∃ imports exports declarations,
      text = ModuleDefinition.signatureText imports exports declarations ∧
        m.elements = declarations.map (·.definition) := by
  obtain ⟨file, a, ha, h⟩ := h
  obtain ⟨-, himports, helements, hsignature⟩ := ModuleDefinition.ofAnalysis_spec h
  exact ⟨_, ⟨file, a, _, ha, himports, rfl⟩, hsignature, _, _, _, rfl, helements⟩

/-- The signatures of the modules of some projects tell their elements, if no two of the texts
behind them share a hash. -/
theorem told {projects : Set (Project mode)}
    (h : Set.InjOn Blake3.ofText { text | ∃ p ∈ projects, text ∈ p.signatureTexts }) :
    Registry.Told fun m => ∃ p ∈ projects, p.HasModule m := by
  rintro m m' ⟨p, hp, hm⟩ ⟨p', hp', hm'⟩ - hsignature
  obtain ⟨text, htext, hs, _, _, l, hl, helements⟩ := hm.elements
  obtain ⟨text', htext', hs', _, _, l', hl', helements'⟩ := hm'.elements
  have heq : text = text' := h ⟨p, hp, htext⟩ ⟨p', hp', htext'⟩ (by rw [← hs, ← hs', hsignature])
  have halike := ModuleDefinition.alike_of_signatureText (hl.symm.trans (heq.trans hl'))
  rw [helements, helements', List.forall₂_map_left_iff, List.forall₂_map_right_iff]
  exact halike.imp fun _ _ h => Declaration.definition_alike h

theorem isProject {U : ModuleDefinition → Prop} {modules : Dict ModuleDefinition} (p : Project mode)
    (hU : ∀ m, p.HasModule m → U m) (h : p.modules = .ok modules) : Registry.IsProject U modules where
  known hm := hU _ (ModuleDefinition.get?_ofAnalyses h hm).2
  file hm := (ModuleDefinition.get?_ofAnalyses h hm).1
  nodup := by
    intro k m hm
    obtain ⟨-, file, a, -, hm⟩ := ModuleDefinition.get?_ofAnalyses h hm
    obtain ⟨-, -, helements, -⟩ := ModuleDefinition.ofAnalysis_spec hm
    rw [helements, List.map_map]
    exact Graph.nodup_declarationsIn (Graph.keyed_of_build p.built) file
  apart := by
    intro k m e k' m' e' hm hm' he he' hid
    obtain ⟨rfl, file, a, ha, hm⟩ := ModuleDefinition.get?_ofAnalyses h hm
    obtain ⟨rfl, file', a', ha', hm'⟩ := ModuleDefinition.get?_ofAnalyses h hm'
    obtain ⟨hkey, -, helements, -⟩ := ModuleDefinition.ofAnalysis_spec hm
    obtain ⟨hkey', -, helements', -⟩ := ModuleDefinition.ofAnalysis_spec hm'
    rw [helements] at he
    rw [helements'] at he'
    obtain ⟨d, hd, rfl⟩ := List.mem_map.1 he
    obtain ⟨d', hd', rfl⟩ := List.mem_map.1 he'
    obtain ⟨⟨j, hj⟩, rfl⟩ := Graph.mem_declarationsIn.1 hd
    obtain ⟨⟨j', hj'⟩, rfl⟩ := Graph.mem_declarationsIn.1 hd'
    have hkeyed := Graph.keyed_of_build p.built
    have hid : d.id = d'.id := hid
    have hjj : j = j' := by rw [← hkeyed _ _ hj, ← hkeyed _ _ hj', hid]
    rw [hjj, hj', Option.some.injEq] at hj
    rw [hj, hkey, Except.ok.injEq] at hkey'
    exact hkey'

end Project

/-! ### Sessions -/

namespace Session

/-- A session's registry brought to a project and evaluated; where the modules of the project cannot
be made nothing is done. -/
def take (scheduler : Scheduler) (p : Project mode) (s : Session) : Except Failure Unit × Session :=
  match p.modules with
  | .error e => (.error (.build (.invalidId e)), s)
  | .ok modules =>
    let (result, r) := s.evaluate scheduler modules
    (result, { s with registry := r })

variable {s t : Session} {p : Project mode} {U : ModuleDefinition → Prop}

theorem evaluate_ok_iff {scheduler : Scheduler} {modules : Dict ModuleDefinition} :
    (s.evaluate scheduler modules).1 = .ok () ↔
      ∃ n, (s.registry.bring scheduler modules).1 = .ok (.ok n) := by
  rw [evaluate]
  show (match s.registry.bring scheduler modules with
    | (.ok (.ok _), r) => ((.ok (), r) : Except Failure Unit × Registry)
    | (.ok (.error e), r) => (.error (.build e), r)
    | (.error e, r) => (.error (.twice e), r)).1 = .ok () ↔ _
  rcases s.registry.bring scheduler modules with ⟨(e | (e | n)), r⟩ <;> simp

theorem evaluate_snd (s : Session) (scheduler : Scheduler) (modules : Dict ModuleDefinition) :
    (s.evaluate scheduler modules).2 = (s.registry.bring scheduler modules).2 := by
  rw [evaluate]
  show (match s.registry.bring scheduler modules with
    | (.ok (.ok _), r) => ((.ok (), r) : Except Failure Unit × Registry)
    | (.ok (.error e), r) => (.error (.build e), r)
    | (.error e, r) => (.error (.twice e), r)).2 = _
  rcases s.registry.bring scheduler modules with ⟨(e | (e | n)), r⟩ <;> rfl

/-- One project leaves a registry fit for the next, also where its evaluation fails. -/
theorem settled_take (scheduler : Scheduler) (hU : Registry.Told U) (hp : ∀ m, p.HasModule m → U m)
    (h : Registry.Settled U s.registry) : Registry.Settled U (s.take scheduler p).2.registry := by
  rw [take]
  cases hm : p.modules with
  | error e => exact h
  | ok modules =>
      have := h.bring scheduler hU (p.isProject hp hm)
      rwa [← evaluate_snd] at this

theorem settled_foldl_take (history : List (Scheduler × Project mode)) (hU : Registry.Told U)
    (hp : ∀ q ∈ history, ∀ m, q.2.HasModule m → U m) (h : Registry.Settled U s.registry) :
    Registry.Settled U (history.foldl (fun s q => (s.take q.1 q.2).2) s).registry := by
  induction history generalizing s with
  | nil => exact h
  | cons q rest ih =>
      refine ih (fun q' hq' => hp q' (List.mem_cons_of_mem q hq')) ?_
      exact settled_take q.1 hU (hp q (by simp)) h

theorem take_agree (scheduler : Scheduler) (hU : Registry.Told U) (hp : ∀ m, p.HasModule m → U m)
    (hs : Registry.Settled U s.registry) (ht : Registry.Settled U t.registry)
    (hok : (s.take scheduler p).1 = .ok ()) : (t.take scheduler p).1 = .ok () ∧
      (s.take scheduler p).2.registry.elements = (t.take scheduler p).2.registry.elements := by
  rw [take] at hok ⊢
  rw [take]
  cases hm : p.modules with
  | error e => simp [hm] at hok
  | ok modules =>
      simp only [hm] at hok ⊢
      obtain ⟨n, hn⟩ := evaluate_ok_iff.1 hok
      have hproject := p.isProject hp hm
      have hagree := Registry.bring_agree scheduler scheduler hU hproject hU hproject
        (hU.sameModules hproject) hs ht hn
      rw [evaluate_ok_iff, evaluate_snd, evaluate_snd]
      exact hagree

/-- Incremental evaluation is clean evaluation. Whatever projects a session's registry has been through,
and wherever the evaluation of any of them failed, the next project succeeds if and only if it does on
an empty registry, and then has the same elements. -/
theorem take_after_history (s : Session) (history : List (Scheduler × Project mode))
    (scheduler : Scheduler) (p : Project mode)
    (hinj : Set.InjOn Blake3.ofText
      { text | ∃ q ∈ p :: history.map (·.2), text ∈ q.signatureTexts }) :
    let fresh := { s with registry := .empty }
    let used := history.foldl (fun s q => (s.take q.1 q.2).2) fresh
    ((used.take scheduler p).1 = .ok () ↔ (fresh.take scheduler p).1 = .ok ()) ∧
      ((used.take scheduler p).1 = .ok () →
        (used.take scheduler p).2.registry.elements = (fresh.take scheduler p).2.registry.elements) := by
  intro fresh used
  generalize hprojects : p :: history.map (·.2) = projects at hinj
  have hU := @Project.told mode { q | q ∈ projects } hinj
  have hfresh : Registry.Settled (fun m => ∃ q ∈ projects, q.HasModule m) fresh.registry := .empty _
  have hp : ∀ m, p.HasModule m → ∃ q ∈ projects, q.HasModule m :=
    fun m hm => ⟨p, by simp [← hprojects], hm⟩
  have hused : Registry.Settled (fun m => ∃ q ∈ projects, q.HasModule m) used.registry := by
    refine settled_foldl_take history hU (fun q hq m hm => ⟨q.2, ?_, hm⟩) hfresh
    rw [← hprojects]
    exact List.mem_cons_of_mem p (List.mem_map_of_mem hq)
  refine ⟨⟨fun h => ?_, fun h => ?_⟩, fun h => ?_⟩
  · exact (take_agree scheduler hU hp hused hfresh h).1
  · exact (take_agree scheduler hU hp hfresh hused h).1
  · exact (take_agree scheduler hU hp hused hfresh h).2

/-- One file with one query in it. -/
def queryAnalyses : Dict Analysis :=
  .ofList [("/a.ts", ⟨"/a.ts", [], [], [⟨"q", .operation,
    ⟨["query", "operation"], none, some "query", [("name", .str "Q")]⟩, [], true, none, ⟨0, 1, 1, 1⟩⟩],
    []⟩)]

theorem eq_ok_of_isOk {x : Build Graph} (h : (x.bind Graph.check).isOk = true) :
    x = .ok (x.toOption.getD ⟨∅⟩) ∧ (x.toOption.getD ⟨∅⟩).check = .ok () := by
  cases x with
  | error e => cases h
  | ok g =>
      refine ⟨rfl, ?_⟩
      cases hc : g.check with
      | error e => simp [Except.bind, hc, Except.isOk, Except.toBool] at h
      | ok _ => simp [Except.toOption, hc]

theorem check_queryAnalyses :
    ((Graph.build .absolute queryAnalyses fun _ => false).bind Graph.check).isOk = true := by
  decide +kernel

def queryProject : Project .absolute where
  analyses := queryAnalyses
  onDisk _ := false
  graph := _
  built := (eq_ok_of_isOk check_queryAnalyses).1
  checked := (eq_ok_of_isOk check_queryAnalyses).2

def noProject : Project .absolute where
  analyses := ∅
  onDisk _ := false
  graph := ⟨∅⟩
  built := rfl
  checked := by decide +kernel

/-- A query that comes, goes and comes again. -/
theorem take_after_query_gone :
    let fresh : Session := ⟨.standard, ⟨"/", [], []⟩, .empty, .empty, .empty "", none, false⟩
    let used := ((fresh.take .sync queryProject).2.take .async noProject).2
    ((used.take .sync queryProject).1 = .ok () ↔ (fresh.take .sync queryProject).1 = .ok ()) ∧
      ((used.take .sync queryProject).1 = .ok () →
        (used.take .sync queryProject).2.registry.elements =
          (fresh.take .sync queryProject).2.registry.elements) := by
  refine take_after_history ⟨.standard, ⟨"/", [], []⟩, .empty, .empty, .empty "", none, false⟩
    [(.sync, queryProject), (.async, noProject)] .sync queryProject ?_
  have hfile : ∀ {file a}, queryProject.analyses.get? file = some a → file = "/a.ts" := by
    intro file a ha
    have hkeys : file ∈ queryProject.analyses.keys := Dict.mem_keys_iff.2 (by simp [ha])
    exact List.mem_singleton.1 hkeys
  have htext : ∀ {text}, (∃ q ∈ [queryProject, queryProject, noProject], text ∈ q.signatureTexts) →
      text ∈ queryProject.signatureTexts := by
    rintro text ⟨q, hq, htext⟩
    simp only [List.mem_cons, List.not_mem_nil, or_false, or_self_left] at hq
    rcases hq with rfl | rfl
    · exact htext
    · obtain ⟨file, a, imports, ha, -⟩ := htext
      cases ha
  intro text h text' h' _
  obtain ⟨file, a, imports, ha, himports, rfl⟩ := htext h
  obtain ⟨file', a', imports', ha', himports', rfl⟩ := htext h'
  obtain rfl := hfile ha
  obtain rfl := hfile ha'
  rw [ha, Option.some.injEq] at ha'
  subst ha'
  rw [himports, Except.ok.injEq] at himports'
  rw [himports']

end Session
end StaticGql
