import StaticGql.Cli.Run
import StaticGql.Proofs.Path.Relative
import StaticGql.Proofs.Session.Paths
import StaticGql.Proofs.Transform.Paths

/-!
How the file of a transform is spelled. By its path from the current folder the file is read as by its path from
the root, but ids and the generated file are looked for under the path as it is given. So the runs agree where
ids are seen from the root of the project, which the path leads from as it does from the current folder, or
where the file declares nothing that needs an id.
-/

namespace StaticGql

open Path (Relative Rooted normalize append startsAtRoot)
open Disk (IsPlace name)

variable {p root : String}

/-! ### The kind of a file -/

namespace Frontend

/-- The last segment alone tells the kind of a file. -/
theorem holdsElements_append (h : Relative p) (hroot : Rooted root)
    (hdown : ∀ down up : List Path.Segment, (∀ base, IsPlace base →
      (Text.splitOn '/' p.toList).foldl (Path.push true) base = down.reverse ++ base.drop up.length) → down ≠ []) :
    holdsElements (normalize (append root p)) = holdsElements (normalize p) := by
  obtain ⟨down, up, hway, hnormal, hfrom⟩ := h.exists_way
  obtain ⟨base, hbase, hname⟩ := Path.exists_place hroot.start
  have hwhole := h.normalize_append_eq hbase (hfrom base hbase) hroot hname
  obtain ⟨front, s, rfl⟩ := (List.eq_nil_or_concat down).resolve_left (hdown down up hfrom)
  have hends : ∀ ending : List Char, '/' ∉ ending →
      (ending <:+ (normalize (append root p)).toList ↔ ending <:+ (normalize p).toList) := by
    intro ending hending
    have hsteps : Path.steps (front.concat s) up = Path.steps front up ++ [s] := by simp [Path.steps]
    have htext : (normalize p).toList = Text.joinWith Path.slash (Path.steps front up ++ [s]) := by
      rw [hnormal, String.toList_ofList, Path.wayText, hsteps, if_neg (by simp)]
    have hplace : (front.concat s).reverse ++ base.drop up.length = s :: (front.reverse ++ base.drop up.length) := by
      simp
    rw [hwhole, htext, hplace, Path.suffix_name_iff hending, Path.suffix_joinWith_iff hending]
  rw [Bool.eq_iff_iff, holdsElements_iff, holdsElements_iff, hends _ (by decide), hends _ (by decide)]

end Frontend

namespace Config

variable {base : String} {c c' : Config}

theorem ready_eq_ok (h : c'.ready base = .ok c) : c = c'.resolveRoot base ∧ c.check = .ok () := by
  obtain ⟨u, hcheck, h⟩ := bind_eq_ok_iff.1 h
  cases h
  exact ⟨rfl, hcheck⟩

theorem startsAtRoot_root (h : c'.ready base = .ok c) : startsAtRoot c.project.root = true :=
  Session.startsAtRoot_of_check (ready_eq_ok h).2

/-- The generated file is at a path from the root. -/
theorem startsAtRoot_systemPath (h : c'.ready base = .ok c) : ∀ p ∈ c.marker.systemPath, startsAtRoot p = true := by
  intro p hp
  have hroot := startsAtRoot_root h
  obtain ⟨rfl, -⟩ := ready_eq_ok h
  obtain ⟨q, -, rfl⟩ := Option.map_eq_some_iff.1 hp
  exact Path.startsAtRoot_below hroot q

end Config

namespace Cli

open Transform (AgreesUnder)

variable {a : TransformArgs} {d : Disk} {c : Config} {text : String} {artifact : Artifact}

theorem ready_of_loadConfig {path : Option String} (h : loadConfig d path = .ok c) :
    ∃ base c', Config.ready base c' = .ok c := by
  have hload : ∀ {path}, Config.load d path = .ok c → ∃ base c', Config.ready base c' = .ok c := by
    intro path h
    rw [Config.load] at h
    split at h
    · cases h
    · split at h
      · cases h
      · exact ⟨_, _, h⟩
  have h := mapError_eq_ok_iff.1 h
  cases path with
  | some path => exact hload h
  | none =>
      have h : Config.discover d = .ok c := h
      rw [Config.discover] at h
      split at h
      · exact hload h
      · exact ⟨_, _, h⟩

/-! ### The two runs -/

/-- The same command with the path of the file from the root. -/
def TransformArgs.fromRoot (a : TransformArgs) (d : Disk) : TransformArgs :=
  { a with file := append d.current a.file }

/-- Commands that come to the same, but that they tell the file by another path. -/
structure Alike (a b : TransformArgs) (d : Disk) : Prop where
  exitCode : (transform a d).exitCode = (transform b d).exitCode
  results : AgreesUnder (normalize b.file) (transformFile a d) (transformFile b d)

/-- A run succeeds where it comes to code that leaves no call alone. -/
theorem exitCode_transform (a : TransformArgs) (d : Disk) : (transform a d).exitCode =
    ((transformFile a d).toOption.map fun out => if out.errors.isEmpty then 0 else 1).getD 1 := by
  rw [transform]
  cases transformFile a d <;> rfl

theorem alike_iff {b : TransformArgs} :
    Alike a b d ↔ AgreesUnder (normalize b.file) (transformFile a d) (transformFile b d) := by
  refine ⟨fun h => h.results, fun h => ⟨?_, h⟩⟩
  rw [exitCode_transform, exitCode_transform]
  cases ha : transformFile a d with
  | error e =>
      cases hb : transformFile b d with
      | error e' => rfl
      | ok out =>
          rw [ha, hb] at h
          exact h.elim
  | ok out =>
      cases hb : transformFile b d with
      | error e =>
          rw [ha, hb] at h
          exact h.elim
      | ok out' =>
          rw [ha, hb] at h
          simp only [Except.toOption, Option.map_some, h.2, List.isEmpty_map]

/-- The path leads to one file from the root of the project, from which ids are seen, and from the current
folder. -/
def TransformArgs.SeenAlike (a : TransformArgs) (c : Config) (d : Disk) : Prop :=
  c.build.relativeIds = true ∧
    normalize (append (normalize c.project.root) a.file) = normalize (append d.current a.file)

/-- Nothing hangs on how the file is spelled: it is not the generated one, or that is empty as it is, and its
declarations have the same ids, if any. -/
def TransformArgs.Indifferent (a : TransformArgs) (d : Disk) : Prop :=
  ∀ c text, loadConfig d a.config = .ok c → d.read a.file = .ok text →
    if (a.options c).systemPath = some (normalize (append d.current a.file)) then text = Transform.stub.code
    else ∀ analysis, c.build.frontend.analyze c.marker (normalize a.file) text = .ok analysis →
      ∀ s ∈ analysis.declarations, s.kind = .define ∨ a.SeenAlike c d

/-- The artifact has nothing under the ids that the path makes as it is spelled. -/
def TransformArgs.Unknown (a : TransformArgs) (artifact : Artifact) (d : Disk) : Prop :=
  ∀ c text, loadConfig d a.config = .ok c → d.read a.file = .ok text →
    Transform.Unknown c.build.frontend artifact (a.options c) (normalize a.file) text

theorem meansAlike_iff (hcurrent : Rooted d.current) (hfile : Relative a.file) (hc : loadConfig d a.config = .ok c)
    (s : Site) : Transform.MeansAlike c.idMode (normalize a.file) (normalize (append d.current a.file)) s ↔
      s.kind = .define ∨ a.SeenAlike c d := by
  obtain ⟨base, c', hready⟩ := ready_of_loadConfig hc
  have hroot := Path.startsAtRoot_iff.1 (Config.startsAtRoot_root hready)
  have hmode : ∀ root, c.idMode = .relativeTo root → ∃ rest, root.toList = '/' :: rest := by
    intro root hmode
    rw [Config.idMode] at hmode
    split at hmode
    · cases hmode
      exact hroot
    · cases hmode
  have hexists : (∃ root, c.idMode = .relativeTo root ∧
      normalize (append (normalize root) a.file) = normalize (append d.current a.file)) ↔ a.SeenAlike c d := by
    rw [Config.idMode, TransformArgs.SeenAlike]
    split
    · simp [*]
    · simp [*]
  rw [Transform.MeansAlike, eq_comm (a := CanonicalId.filePart _ _),
    CanonicalId.filePart_alike_iff hfile hcurrent hmode, hexists]

theorem systemPath_ne (hfile : Relative a.file) (hc : loadConfig d a.config = .ok c) :
    (a.options c).systemPath ≠ some (normalize a.file) := by
  intro hsystem
  obtain ⟨base, c', hready⟩ := ready_of_loadConfig hc
  obtain ⟨p, hp, heq⟩ := Option.map_eq_some_iff.1 hsystem
  obtain ⟨place, hplace, hname⟩ :=
    Path.exists_place (Path.startsAtRoot_iff.1 (Config.startsAtRoot_systemPath hready p hp))
  obtain ⟨down, up, hway, hnormal, -⟩ := hfile.exists_way
  have habsolute := Path.isAbsolute_name hplace
  rw [← hname, heq, hnormal, Path.not_isAbsolute_wayText hway] at habsolute
  cases habsolute

/-! ### When they agree -/

/-- What a run comes to once everything is read. -/
theorem transformFile_eq (hc : loadConfig d a.config = .ok c) (hartifact : readArtifact d a.artifact = .ok artifact)
    (htext : d.read a.file = .ok text) : ∃ f, transformFile a d =
      (Transform.file c.build.frontend artifact (a.options c) (normalize a.file) text).mapError f := by
  rw [transformFile, hc, hartifact, htext]
  exact ⟨_, rfl⟩

theorem toOption_transformFile (hc : loadConfig d a.config = .ok c)
    (hartifact : readArtifact d a.artifact = .ok artifact) : (transformFile a d).toOption =
      (d.read a.file).toOption.bind fun text =>
        (Transform.file c.build.frontend artifact (a.options c) (normalize a.file) text).toOption := by
  rw [transformFile, hc, hartifact]
  cases d.read a.file with
  | error e => rfl
  | ok text =>
      show (Except.mapError _ _).toOption = Except.toOption _
      cases Transform.file c.build.frontend artifact (a.options c) (normalize a.file) text <;> rfl

theorem agreesUnder_mapError {ε ε' δ δ' : Type} {file : String} {r : Except ε Transform.Output}
    {r' : Except ε' Transform.Output} (f : ε → δ) (g : ε' → δ') :
    AgreesUnder file (r.mapError f) (r'.mapError g) ↔ AgreesUnder file r r' := by
  cases r <;> cases r' <;> rfl

theorem alike_fromRoot_iff (hcurrent : Rooted d.current) (hfile : Relative a.file)
    (hc : loadConfig d a.config = .ok c) (hartifact : readArtifact d a.artifact = .ok artifact)
    (htext : d.read a.file = .ok text) : Alike a (a.fromRoot d) d ↔
      AgreesUnder (normalize (append d.current a.file))
        (Transform.file c.build.frontend artifact (a.options c) (normalize a.file) text)
        (Transform.file c.build.frontend artifact (a.options c) (normalize (append d.current a.file)) text) := by
  obtain ⟨f, hown⟩ := transformFile_eq hc hartifact htext
  obtain ⟨g, hother⟩ := transformFile_eq (a := a.fromRoot d) hc hartifact
    ((Disk.read_append_current hcurrent hfile).trans htext)
  rw [alike_iff, hown, hother, agreesUnder_mapError]
  rfl

/-- Where something is not there to be read, both runs fail. -/
theorem alike_of_failing (hcurrent : Rooted d.current) (hfile : Relative a.file)
    (h : ∀ c artifact text, loadConfig d a.config = .ok c → readArtifact d a.artifact = .ok artifact →
      d.read a.file ≠ .ok text) : Alike a (a.fromRoot d) d := by
  have hfails : ∀ {b : TransformArgs}, b.config = a.config → b.artifact = a.artifact →
      d.read b.file = d.read a.file → ∃ e, transformFile b d = .error e := by
    intro b hconfig hartifact hread
    cases hrun : transformFile b d with
    | error e => exact ⟨e, rfl⟩
    | ok out =>
        obtain ⟨c, hc, hrun⟩ := bind_eq_ok_iff.1 hrun
        obtain ⟨artifact, hart, hrun⟩ := bind_eq_ok_iff.1 hrun
        obtain ⟨text, htext, -⟩ := bind_eq_ok_iff.1 hrun
        rw [mapError_eq_ok_iff, hread] at htext
        exact absurd htext (h c artifact text (hconfig ▸ hc) (hartifact ▸ hart))
  obtain ⟨e, he⟩ := hfails (b := a) rfl rfl rfl
  obtain ⟨e', he'⟩ := hfails (b := a.fromRoot d) rfl rfl (Disk.read_append_current hcurrent hfile)
  rw [alike_iff, he, he']
  trivial

theorem holdsElements_fromRoot (hsorted : d.Sorted) (hcurrent : Rooted d.current) (hfile : Relative a.file)
    (htext : d.read a.file = .ok text) : Frontend.holdsElements (normalize (append d.current a.file)) =
      Frontend.holdsElements (normalize a.file) :=
  Frontend.holdsElements_append hfile hcurrent fun _ _ hfrom => Disk.down_ne_nil hsorted hcurrent hfile htext hfrom

theorem indifferent_iff (hcurrent : Rooted d.current) (hfile : Relative a.file)
    (hc : loadConfig d a.config = .ok c) (text : String) :
    Transform.Indifferent c.build.frontend (a.options c) (normalize a.file) (normalize (append d.current a.file)) text ↔
      if (a.options c).systemPath = some (normalize (append d.current a.file)) then text = Transform.stub.code
      else ∀ analysis, c.build.frontend.analyze c.marker (normalize a.file) text = .ok analysis →
        ∀ s ∈ analysis.declarations, s.kind = .define ∨ a.SeenAlike c d := by
  rw [Transform.Indifferent]
  split
  · rfl
  · exact forall₄_congr fun _ _ s _ => meansAlike_iff hcurrent hfile hc s

/-- By its path from the current folder a file is transformed as by its path from the root wherever nothing hangs
on how it is spelled; and over an artifact that knows nothing under the one path nowhere else. -/
theorem transform_alike (hsorted : d.Sorted) (hcurrent : Rooted d.current) (hfile : Relative a.file) :
    (a.Indifferent d → Alike a (a.fromRoot d) d) ∧
      ∀ artifact, readArtifact d a.artifact = .ok artifact → a.Unknown artifact d →
        (Alike a (a.fromRoot d) d ↔ a.Indifferent d) := by
  have halike : a.Indifferent d → Alike a (a.fromRoot d) d := by
    intro h
    by_cases hreads : ∃ c artifact text, loadConfig d a.config = .ok c ∧
        readArtifact d a.artifact = .ok artifact ∧ d.read a.file = .ok text
    · obtain ⟨c, artifact, text, hc, hartifact, htext⟩ := hreads
      rw [alike_fromRoot_iff hcurrent hfile hc hartifact htext]
      exact Transform.agreesUnder_of_indifferent (systemPath_ne hfile hc)
        (holdsElements_fromRoot hsorted hcurrent hfile htext)
        ((indifferent_iff hcurrent hfile hc text).2 (h c text hc htext))
    · exact alike_of_failing hcurrent hfile fun c artifact text hc hartifact htext =>
        hreads ⟨c, artifact, text, hc, hartifact, htext⟩
  refine ⟨halike, fun artifact hartifact hunknown => ⟨fun h c text hc htext => ?_, halike⟩⟩
  obtain ⟨place, hplace, hname⟩ := hfile.exists_place hcurrent
  have hpart : ∃ part, CanonicalId.filePart c.idMode (normalize (append d.current a.file)) = .ok part := by
    rw [hname, CanonicalId.filePart_of_name c.idMode hplace (Path.normalize_name hplace)]
    cases c.idMode with
    | absolute | relativeTo root => exact ⟨_, rfl⟩
  obtain ⟨part, hpart⟩ := hpart
  have hagrees := (alike_fromRoot_iff hcurrent hfile hc hartifact htext).1 h
  exact (indifferent_iff hcurrent hfile hc text).1
    ((Transform.agreesUnder_iff (systemPath_ne hfile hc) (holdsElements_fromRoot hsorted hcurrent hfile htext) hpart
      (hunknown c text hc htext)).1 hagrees)

/-! ### A site -/

/-- A project of one file beside the generated one, built with an artifact that knows its declaration by an id. -/
def site (relativeIds : Bool) : Disk where
  files := .ofList [
    ("/app/a.ts", .text "const q = gql.default(() => query.slice(\x7b\x7d));\n"),
    ("/app/artifact.json", .text ("\x7b\"elements\":\x7b\"" ++ (if relativeIds then "" else "/app/") ++ "a.ts::q\":" ++
      "\x7b\"type\":\"slice\",\"operationType\":\"query\",\"fields\":[],\"spreads\":[],\"document\":\"\"," ++
      "\"dependencies\":[]\x7d\x7d,\"report\":\x7b\"warnings\":[]\x7d\x7d")),
    ("/app/schema.ts", .text "export const gql = 1;\n"),
    ("/app/tessera.toml", .text ("marker.graphql_system_path = \"schema.ts\"\nbuild.frontend = \"scanner\"\n" ++
      "build.relative_ids = " ++ (if relativeIds then "true" else "false") ++ "\n"))]
  folders := ["/app", "/app/lib"]
  current := "/app"

def siteConfig (relativeIds : Bool) : Config :=
  { Config.standard with
    project := { ProjectConfig.standard with root := "/app" }
    marker := { Marker.standard with systemPath := some "/app/schema.ts" }
    build := { BuildConfig.standard with frontend := .scanner, relativeIds := relativeIds } }

def siteArtifact : Artifact :=
  ⟨.ofList [("/app/a.ts::q", .slice ⟨"query", [], [], ∅, "", []⟩)], ⟨0, [], .zero⟩⟩

def spelled (file : String) : TransformArgs := ⟨file, "artifact.json", none, none, false⟩

theorem loadConfig_site (relativeIds : Bool) (file : String) :
    loadConfig (site relativeIds) (spelled file).config = .ok (siteConfig relativeIds) := by
  refine eq_ok_of_toOption (show (loadConfig (site relativeIds) none).toOption = _ from ?_)
  revert relativeIds
  decide +kernel

theorem readArtifact_site (file : String) :
    readArtifact (site false) (spelled file).artifact = .ok siteArtifact := by
  refine eq_ok_of_toOption (show (readArtifact (site false) "artifact.json").toOption = _ from ?_)
  decide +kernel

theorem sorted_site (relativeIds : Bool) : (site relativeIds).Sorted := by
  refine Disk.sorted_of_keys ?_
  revert relativeIds
  decide

theorem rooted_site (relativeIds : Bool) : Rooted (site relativeIds).current :=
  show Rooted "/app" from ⟨⟨['a', 'p', 'p'], by decide⟩, by decide⟩

/-- From the current folder, which is the root of the project, a detour comes back to the file. -/
theorem indifferent_detour : (spelled "lib/../a.ts").Indifferent (site true) := by
  intro c text hc _
  obtain rfl := Except.ok.inj ((loadConfig_site true "lib/../a.ts").symm.trans hc)
  have hsystem : ((spelled "lib/../a.ts").options (siteConfig true)).systemPath ≠
      some (normalize (append (site true).current (spelled "lib/../a.ts").file)) := by decide
  have hsame : normalize (append (normalize (siteConfig true).project.root) (spelled "lib/../a.ts").file) =
      normalize (append (site true).current (spelled "lib/../a.ts").file) := by decide
  rw [if_neg hsystem]
  exact fun _ _ _ _ => .inr ⟨rfl, hsame⟩

theorem unknown_plain (hplain : Relative (spelled "a.ts").file) (artifact : Artifact) :
    (spelled "a.ts").Unknown artifact (site false) := by
  intro c text hc _ analysis _ s _ id hid
  obtain rfl := Except.ok.inj ((loadConfig_site false "a.ts").symm.trans hc)
  have hmode : ((spelled "a.ts").options (siteConfig false)).idMode = .absolute := rfl
  rw [hmode, CanonicalId.create, CanonicalId.filePart_absolute hplain] at hid
  cases hid

theorem plain_spec : ((site false).read (spelled "a.ts").file).toOption.any (fun text =>
    (Frontend.scanner.analyze (siteConfig false).marker (normalize (spelled "a.ts").file) text).toOption.any
      fun analysis => analysis.declarations.any (·.kind ≠ .define)) = true := by
  decide +kernel

theorem not_indifferent_plain : ¬(spelled "a.ts").Indifferent (site false) := by
  intro h
  obtain ⟨text, htext, hspec⟩ := exists_of_any_toOption plain_spec
  obtain ⟨analysis, hanalyze, hspec⟩ := exists_of_any_toOption hspec
  obtain ⟨s, hs, hkind⟩ := List.any_eq_true.1 hspec
  have hsystem : ((spelled "a.ts").options (siteConfig false)).systemPath ≠
      some (normalize (append (site false).current (spelled "a.ts").file)) := by decide
  have hcase := h (siteConfig false) text (loadConfig_site false "a.ts") htext
  rw [if_neg hsystem] at hcase
  rcases hcase analysis hanalyze s hs with hdefine | ⟨hrelative, -⟩
  · simp [hdefine] at hkind
  · cases hrelative

/-- With ids seen from the current folder even a detour through another folder is no matter; with absolute ids the
plainest path is. -/
theorem transform_alike_site :
    Alike (spelled "lib/../a.ts") ((spelled "lib/../a.ts").fromRoot (site true)) (site true) ∧
      ¬Alike (spelled "a.ts") ((spelled "a.ts").fromRoot (site false)) (site false) := by
  have hdetour : Relative (spelled "lib/../a.ts").file := ⟨by decide, by decide, by decide, by decide⟩
  have hplain : Relative (spelled "a.ts").file := ⟨by decide, by decide, by decide, by decide⟩
  refine ⟨(transform_alike (sorted_site true) (rooted_site true) hdetour).1 indifferent_detour, fun h => ?_⟩
  have hiff := (transform_alike (sorted_site false) (rooted_site false) hplain).2 _ (readArtifact_site "a.ts")
    (unknown_plain hplain _)
  exact not_indifferent_plain (hiff.1 h)

/-- What a run over the site with absolute ids comes to. -/
def outcome (file : String) : Option Transform.Output :=
  ((site false).read file).toOption.bind fun text =>
    (Transform.file .scanner siteArtifact ((spelled file).options (siteConfig false)) (normalize file) text).toOption

theorem toOption_spelled (file : String) : (transformFile (spelled file) (site false)).toOption = outcome file :=
  toOption_transformFile (loadConfig_site false file) (readArtifact_site file)

/-- With absolute ids a file that is spelled from the current folder is not transformed at all, and the generated
file is not emptied. -/
theorem not_alike_spelled :
    (transform (spelled "a.ts") (site false)).exitCode = 1 ∧
      (transform ((spelled "a.ts").fromRoot (site false)) (site false)).exitCode = 0 ∧
        (transformFile (spelled "schema.ts") (site false)).toOption.map (·.code) = some "export const gql = 1;\n" ∧
          (transformFile ((spelled "schema.ts").fromRoot (site false)) (site false)).toOption =
            some Transform.stub := by
  have hfile : (spelled "a.ts").fromRoot (site false) = spelled "/app/a.ts" := by decide
  have hschema : (spelled "schema.ts").fromRoot (site false) = spelled "/app/schema.ts" := by decide
  simp only [exitCode_transform, hfile, hschema, toOption_spelled]
  decide +kernel

end Cli
end StaticGql
