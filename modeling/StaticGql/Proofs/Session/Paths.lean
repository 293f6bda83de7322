import StaticGql.Proofs.Path
import StaticGql.Proofs.Session.Collect

/-!
The paths that a build takes in are paths from the root: those of the entry files, and those that relative
imports lead to from them.
-/

namespace StaticGql

open Path (Rooted normalize startsAtRoot)

variable {p q : String}

/-! ### From one file to another -/

namespace Path

theorem startsAtRoot_iff : startsAtRoot p = true ↔ ∃ rest, p.toList = '/' :: rest := by
  rw [startsAtRoot, decide_eq_true_iff]
  cases p.toList with
  | nil => simp
  | cons c rest => simp

theorem startsAtRoot_append (h : startsAtRoot p = true) (q : String) : startsAtRoot (p ++ q) = true := by
  obtain ⟨rest, hrest⟩ := startsAtRoot_iff.1 h
  exact startsAtRoot_iff.2 ⟨rest ++ q.toList, by simp [hrest]⟩

theorem startsAtRoot_below (h : startsAtRoot p = true) (q : String) : startsAtRoot (append p q) = true := by
  rw [append]
  split
  · assumption
  · split
    · exact startsAtRoot_append h q
    · rw [String.append_assoc]
      exact startsAtRoot_append h _

theorem joinWith_ne_nil {place : Disk.Place} (hplace : Disk.IsPlace place) (hne : place ≠ []) :
    Text.joinWith slash place.reverse ≠ [] := by
  have hnames : ∀ s ∈ place.reverse, s ≠ [] := fun s hs => (hplace s (List.mem_reverse.1 hs)).ne_nil
  cases hparts : place.reverse with
  | nil => exact absurd (List.reverse_eq_nil_iff.1 hparts) hne
  | cons s rest =>
      have hs : s ≠ [] := hnames s (by simp [hparts])
      cases rest with
      | nil => exact hs
      | cons s' rest => simp [Text.joinWith, hs]

/-- Only the root has nothing above it. -/
theorem exists_parent {place : Disk.Place} (hplace : Disk.IsPlace place) (hne : place ≠ [])
    (h : normalize p = Disk.name place) : ∃ dir, parent? p = some dir ∧ startsAtRoot dir = true := by
  have hchars : normalizeChars (unify p) = '/' :: Text.joinWith slash place.reverse := by
    have hlist := congrArg String.toList h
    rw [normalize, String.toList_ofList] at hlist
    rw [hlist, Disk.name, String.toList_ofList]
    rfl
  have hrest := joinWith_ne_nil hplace hne
  rw [parent?, hchars]
  simp only [splitRoot]
  split
  · exact ⟨_, rfl, startsAtRoot_iff.2 ⟨_, String.toList_ofList⟩⟩
  · rw [if_neg (by simpa using hrest), if_neg (by simp)]
    exact ⟨_, rfl, by decide⟩

theorem splitRoot_dot (cs : List Char) : splitRoot ('.' :: cs) = ([], '.' :: cs) := by
  have hdot : ('.').isAlpha = false := by decide
  rw [splitRoot.eq_def]
  split
  · rename_i heq
    cases heq
  · rename_i heq
    cases heq
    rw [hdot]
    rfl
  · rename_i heq
    cases heq
    rw [hdot]
    rfl
  · rfl

theorem not_isAbsolute (h : ∃ rest, p.toList = '.' :: rest) : isAbsolute p = false := by
  obtain ⟨rest, hrest⟩ := h
  have hunify : unify p = '.' :: rest.map fun c => if c = '\\' then '/' else c := by
    rw [unify, hrest]
    rfl
  rw [isAbsolute, hunify, splitRoot_dot]
  rfl

theorem Rooted.append (h : Rooted p) (hq : '\\' ∉ q.toList) : Rooted (p ++ q) where
  start := by
    obtain ⟨rest, hrest⟩ := h.start
    exact ⟨rest ++ q.toList, by simp [hrest]⟩
  plain := by
    rw [String.toList_append, List.mem_append, not_or]
    exact ⟨h.plain, hq⟩

theorem Rooted.of_append (h : Rooted (p ++ q)) (hq : q.toList.head? ≠ some '/') : Rooted p where
  start := by
    obtain ⟨rest, hrest⟩ := h.start
    rw [String.toList_append] at hrest
    cases hp : p.toList with
    | nil =>
        rw [hp, List.nil_append] at hrest
        exact absurd (by rw [hrest]; rfl) hq
    | cons c cs =>
        rw [hp, List.cons_append, List.cons.injEq] at hrest
        exact ⟨cs, by rw [hrest.1]⟩
  plain := by
    have hplain := h.plain
    rw [String.toList_append, List.mem_append, not_or] at hplain
    exact hplain.1

theorem exists_place_join (hroot : startsAtRoot p = true) (hq : ∃ rest, q.toList = '.' :: rest) :
    ∃ place, Disk.IsPlace place ∧ join p q = Disk.name place := by
  rw [join, if_neg (by simp [not_isAbsolute hq]), String.append_assoc]
  exact exists_place (startsAtRoot_iff.1 (startsAtRoot_append hroot _))

theorem rooted_join (hroot : startsAtRoot p = true) (hq : ∃ rest, q.toList = '.' :: rest) :
    Rooted (join p q) := by
  obtain ⟨place, hplace, hname⟩ := exists_place_join hroot hq
  exact hname ▸ rooted_name hplace

end Path

namespace Disk

open Path (slash)
open Text (joinWith)

/-- A segment with an extension is a name. -/
theorem isName_append {x y : Path.Segment} (hx : '/' ∉ x ∧ '\\' ∉ x) (hy : '/' ∉ y ∧ '\\' ∉ y)
    (hlength : 3 ≤ y.length) : IsName (x ++ y) := by
  have hne : ∀ s : Path.Segment, s.length < 3 → x ++ y ≠ s := by
    intro s hs heq
    have := congrArg List.length heq
    rw [List.length_append] at this
    omega
  exact ⟨hne [] (by decide), hne ['.'] (by decide), hne ['.', '.'] (by decide),
    by simp [hx.1, hy.1], by simp [hx.2, hy.2]⟩

/-- What the name of something in a folder has before its last segment. -/
def front (folder : Place) : List Char :=
  if folder = [] then slash else (name folder).toList ++ slash

theorem joinWith_concat {parts : List Path.Segment} (hne : parts ≠ []) (segment : Path.Segment) :
    joinWith slash (parts ++ [segment]) = joinWith slash parts ++ (slash ++ segment) := by
  induction parts with
  | nil => exact absurd rfl hne
  | cons s rest ih =>
      cases rest with
      | nil => simp [joinWith]
      | cons s' rest =>
          have hrest := ih (by simp)
          simp only [List.cons_append] at hrest ⊢
          simp [joinWith, hrest]

theorem name_cons (segment : Path.Segment) (folder : Place) :
    (name (segment :: folder)).toList = front folder ++ segment := by
  rw [name, String.toList_ofList, List.reverse_cons, front]
  by_cases hfolder : folder = []
  · simp [hfolder, joinWith]
  · rw [if_neg hfolder, joinWith_concat (by simpa using hfolder), name, String.toList_ofList]
    simp

theorem front_eq (folder : Place) : ∃ before, front folder = before ++ slash := by
  rw [front]
  split
  · exact ⟨[], rfl⟩
  · exact ⟨_, rfl⟩

/-- What ends in an extension ends in it within its last segment. -/
theorem exists_of_name_eq_append {segment : Path.Segment} {folder : Place} {stem ending : String}
    (hending : '/' ∉ ending.toList) (h : name (segment :: folder) = stem ++ ending) :
    ∃ x, segment = x ++ ending.toList ∧ stem.toList = front folder ++ x := by
  obtain ⟨before, hbefore⟩ := front_eq folder
  have hlist := congrArg String.toList h
  rw [name_cons, String.toList_append] at hlist
  rcases List.append_eq_append_iff.1 hlist with ⟨x, hstem, hsegment⟩ | ⟨x, hfront, hending'⟩
  · exact ⟨x, hsegment, hstem⟩
  · rcases List.eq_nil_or_concat x with rfl | ⟨y, c, rfl⟩
    · exact ⟨[], by simpa using hending'.symm, by simpa using hfront.symm⟩
    · -- The slash at the end of the front would be in the extension.
      rw [hbefore, List.concat_eq_append, ← List.append_assoc] at hfront
      have hc := (List.append_inj' hfront rfl).2
      rw [slash, List.cons.injEq] at hc
      rw [hending', ← hc.1] at hending
      simp at hending

end Disk

namespace ModuleRef

open Disk (IsPlace name)
open Path (slash)

theorem exists_of_isRelative (h : isRelative p = true) : ∃ rest, p.toList = '.' :: rest := by
  simp only [isRelative, Bool.or_eq_true, decide_eq_true_eq, String.startsWith_string_iff] at h
  rcases h with ((⟨rest, hrest⟩ | ⟨rest, hrest⟩) | rfl) | rfl
  · exact ⟨'/' :: rest, hrest.symm⟩
  · exact ⟨'.' :: '/' :: rest, hrest.symm⟩
  · exact ⟨[], rfl⟩
  · exact ⟨['.'], rfl⟩

theorem resolve_eq_some {t : String} {is : String → Bool} (h : resolve? p q is = some t) :
    isRelative q = true ∧ (candidates p q).find? is = some t := by
  rw [resolve?] at h
  split at h
  · exact ⟨‹_›, h⟩
  · cases h

theorem append_of_stem {stem ending : String} (h : stem? p ending = some stem) : p = stem ++ ending := by
  rw [stem?] at h
  split at h
  · rename_i hsuffix
    rw [List.isSuffixOf_iff_suffix] at hsuffix
    obtain ⟨front, hfront⟩ := hsuffix
    rw [Option.some.injEq] at h
    apply String.toList_inj.1
    rw [← h, String.toList_append, String.toList_ofList, ← hfront]
    simp
  · cases h

/-- The files that a specifier may mean which leads to a path. -/
def candidatesAt (base : String) : List String :=
  let sources := written.flatMap fun (compiled, replacements) =>
    match stem? base compiled with
    | some stem => replacements.map (stem ++ ·)
    | none => []
  base :: sources ++ extensions.map (base ++ ·) ++ extensions.map (base ++ "/index" ++ ·)

theorem candidates_eq (p q : String) :
    candidates p q = candidatesAt (Path.join ((Path.parent? p).getD ".") q) := rfl

/-- The ways to mean a file. -/
theorem of_mem_candidatesAt {base t : String} (h : t ∈ candidatesAt base) : t = base ∨
    (∃ e ∈ written, ∃ stem, base = stem ++ e.1 ∧ ∃ r ∈ e.2, t = stem ++ r) ∨
      (∃ e ∈ extensions, t = base ++ e) ∨ ∃ e ∈ extensions, t = base ++ "/index" ++ e := by
  simp only [candidatesAt, List.cons_append, List.mem_cons, List.mem_append, List.mem_flatMap,
    List.mem_map] at h
  rcases h with rfl | (⟨e, he, ht⟩ | ⟨e, he, rfl⟩) | ⟨e, he, rfl⟩
  · exact .inl rfl
  · cases hstem : stem? base e.1 with
    | none => simp [hstem] at ht
    | some stem =>
        simp only [hstem, List.mem_map] at ht
        obtain ⟨r, hr, rfl⟩ := ht
        exact .inr (.inl ⟨e, he, stem, append_of_stem hstem, r, hr, rfl⟩)
  · exact .inr (.inr (.inl ⟨e, he, rfl⟩))
  · exact .inr (.inr (.inr ⟨e, he, rfl⟩))

/-- An extension of a file name. -/
def IsExtension (e : String) : Prop := ('/' ∉ e.toList ∧ '\\' ∉ e.toList) ∧ 3 ≤ e.toList.length

theorem isExtension_of_mem : ∀ e ∈ extensions, IsExtension e := by
  simp only [IsExtension]
  decide

theorem isExtension_written : ∀ e ∈ written, IsExtension e.1 ∧ ∀ r ∈ e.2, IsExtension r := by
  simp only [IsExtension]
  decide

theorem rooted_candidate {place : Disk.Place} (hplace : Disk.IsPlace place) (hne : place ≠ [])
    (hfile : normalize p = Disk.name place) (hq : isRelative q = true) :
    ∀ t ∈ candidates p q, Rooted t := by
  obtain ⟨dir, hdir, hroot⟩ := Path.exists_parent hplace hne hfile
  have hbase := Path.rooted_join hroot (exists_of_isRelative hq)
  intro t ht
  rw [candidates_eq, hdir, Option.getD_some] at ht
  rcases of_mem_candidatesAt ht with rfl | ⟨e, he, stem, hstem, r, hr, rfl⟩ | ⟨e, he, rfl⟩ | ⟨e, he, rfl⟩
  · exact hbase
  · obtain ⟨hcompiled, hreplacements⟩ := isExtension_written e he
    rw [hstem] at hbase
    have hhead : e.1.toList.head? ≠ some '/' := fun h => hcompiled.1.1 (List.mem_of_head? h)
    exact (hbase.of_append hhead).append (hreplacements r hr).1.2
  · exact hbase.append (isExtension_of_mem e he).1.2
  · exact (hbase.append (by decide)).append (isExtension_of_mem e he).1.2

/-- Below the root, all that a specifier may mean are names of places. -/
theorem exists_place_of_candidate {place : Disk.Place} (hplace : IsPlace place) (hne : place ≠ [])
    {t : String} (ht : t ∈ candidatesAt (name place)) : ∃ place', IsPlace place' ∧ t = name place' := by
  obtain ⟨segment, folder, rfl⟩ := List.exists_cons_of_ne_nil hne
  obtain ⟨hsegment, hfolder⟩ := List.forall_mem_cons.1 hplace
  have hnamed : ∀ {x folder e}, IsPlace folder → '/' ∉ x ∧ '\\' ∉ x → IsExtension e →
      t.toList = Disk.front folder ++ (x ++ e.toList) → ∃ place', IsPlace place' ∧ t = name place' := by
    intro x folder e hfolder hx he ht
    refine ⟨(x ++ e.toList) :: folder, List.forall_mem_cons.2 ⟨Disk.isName_append hx he.1 he.2, hfolder⟩, ?_⟩
    rw [← String.toList_inj, Disk.name_cons, ht]
  rcases of_mem_candidatesAt ht with rfl | ⟨e, he, stem, hstem, r, hr, rfl⟩ | ⟨e, he, rfl⟩ | ⟨e, he, rfl⟩
  · exact ⟨_, hplace, rfl⟩
  · obtain ⟨hcompiled, hreplacements⟩ := isExtension_written e he
    obtain ⟨x, rfl, hfront⟩ := Disk.exists_of_name_eq_append hcompiled.1.1 hstem
    have hx : '/' ∉ x ∧ '\\' ∉ x :=
      ⟨fun h => hsegment.slash (by simp [h]), fun h => hsegment.backslash (by simp [h])⟩
    exact hnamed hfolder hx (hreplacements r hr) (by simp [hfront])
  · exact hnamed hfolder ⟨hsegment.slash, hsegment.backslash⟩ (isExtension_of_mem e he)
      (by simp [Disk.name_cons])
  · have hfront : Disk.front (segment :: folder) = (name (segment :: folder)).toList ++ slash := rfl
    have hindex : '/' ∉ "index".toList ∧ '\\' ∉ "index".toList := by decide
    exact hnamed hplace hindex (isExtension_of_mem e he) (by simp [hfront, slash])

end ModuleRef

/-! ### All that is reached -/

namespace Session

variable {s : Session} {d : Disk} {entries : List String}

/-- The paths of entry files are normal. -/
theorem exists_place_of_entryFiles (hroot : startsAtRoot s.discovery.root = true)
    (h : s.entryFiles d = .ok entries) : ∀ p ∈ entries, ∃ place, Disk.IsPlace place ∧ p = Disk.name place := by
  rw [entryFiles] at h
  split at h
  · cases h
    intro p hp
    rw [Dict.mem_sortedTexts_iff] at hp
    obtain ⟨path, hpath, rfl⟩ := List.mem_map.1 hp
    obtain ⟨below, -, rfl⟩ := List.mem_map.1 (List.mem_filter.1 hpath).1
    exact Path.exists_place (Path.startsAtRoot_iff.1 (Path.startsAtRoot_below hroot below))
  · cases h

theorem rooted_entryFiles (hroot : startsAtRoot s.discovery.root = true)
    (h : s.entryFiles d = .ok entries) : ∀ p ∈ entries, Rooted p := by
  intro p hp
  obtain ⟨place, hplace, rfl⟩ := exists_place_of_entryFiles hroot h p hp
  exact Path.rooted_name hplace

theorem exists_of_mem_targets {a : Analysis} {t : String} (h : t ∈ Collect.targets s d a) :
    ∃ source, ModuleRef.isRelative source = true ∧
      (ModuleRef.candidates a.file source).find? (Collect.mayFollow s d) = some t := by
  rw [Collect.targets] at h
  split at h
  · obtain ⟨source, -, hresolve⟩ := List.mem_filterMap.1 h
    exact ⟨source, ModuleRef.resolve_eq_some hresolve⟩
  · cases h

/-- What a file that is read leads to. -/
theorem rooted_target {a : Analysis} {text t : String} (hfile : Rooted a.file)
    (hread : d.read a.file = .ok text) (ht : t ∈ Collect.targets s d a) : Rooted t := by
  obtain ⟨source, hrelative, hfind⟩ := exists_of_mem_targets ht
  obtain ⟨place, hplace, hne, hname, -⟩ := Disk.read_spec hfile hread
  exact ModuleRef.rooted_candidate hplace hne hname hrelative t (List.mem_of_find?_eq_some hfind)

theorem rooted_reached (hentries : ∀ p ∈ entries, Rooted p) (n : Nat) :
    ∀ p ∈ s.reached d entries n, Rooted p := by
  induction n with
  | zero => exact fun p hp => hp.elim
  | succ n ih =>
      rintro p (hp | ⟨q, hq, b, hb, hp⟩)
      · exact hentries p hp
      · have hfile : b.file = q := hb.file
        obtain ⟨text, a, hread, -, -⟩ := hb
        rw [← hfile] at hread
        exact rooted_target (hfile ▸ ih q hq) hread hp

theorem startsAtRoot_of_check {c : Config} (h : c.check = .ok ()) :
    startsAtRoot c.project.root = true := by
  rw [Config.check] at h
  cases hroot : startsAtRoot c.project.root with
  | true => rfl
  | false =>
      rw [hroot] at h
      cases h

theorem root_of_ofProject {p : ProjectConfig} {discovery : Discovery}
    (h : Discovery.ofProject p = .ok discovery) : discovery.root = p.root := by
  obtain ⟨entries, -, h⟩ := bind_eq_ok_iff.1 h
  obtain ⟨exclude, -, h⟩ := bind_eq_ok_iff.1 h
  cases h
  rfl

end Session
end StaticGql
