import Mathlib.Data.List.Infix
import StaticGql.CanonicalId
import StaticGql.Disk
import StaticGql.Proofs.Except

/-!
Paths from the root. A normal one is the name of a place, so on any disk the spellings of a path lead to
one file, and the file part of an id tells the place.
-/

namespace StaticGql

open Path (push slash Segment)
open Text (splitOn joinWith)

/-! ### Splitting and joining -/

namespace Text

variable {sep : Char}

theorem splitOn_of_not_mem {cs : List Char} (h : sep ∉ cs) : splitOn sep cs = [cs] := by
  induction cs with
  | nil => rfl
  | cons c cs ih =>
      have hc : c ≠ sep := fun hc => h (by simp [hc])
      have hcs : sep ∉ cs := fun hcs => h (List.mem_cons_of_mem c hcs)
      rw [splitOn, if_neg hc, ih hcs]

theorem splitOn_append {cs : List Char} (h : sep ∉ cs) (rest : List Char) :
    splitOn sep (cs ++ sep :: rest) = cs :: splitOn sep rest := by
  induction cs with
  | nil => simp [splitOn]
  | cons c cs ih =>
      have hc : c ≠ sep := fun hc => h (by simp [hc])
      have hcs : sep ∉ cs := fun hcs => h (List.mem_cons_of_mem c hcs)
      rw [List.cons_append, splitOn, if_neg hc, ih hcs]

theorem splitOn_append_sep (cs rest : List Char) :
    splitOn sep (cs ++ sep :: rest) = splitOn sep cs ++ splitOn sep rest := by
  induction cs with
  | nil => simp [splitOn]
  | cons c cs ih =>
      by_cases hc : c = sep
      · subst hc
        simp [splitOn, ih]
      · rw [List.cons_append, splitOn, splitOn, if_neg hc, if_neg hc, ih]
        cases hs : splitOn sep cs with
        | nil => exact absurd hs (splitOn_ne_nil sep cs)
        | cons part parts => rfl

theorem splitOn_joinWith {parts : List (List Char)} (hne : parts ≠ []) (h : ∀ p ∈ parts, sep ∉ p) :
    splitOn sep (joinWith [sep] parts) = parts := by
  induction parts with
  | nil => exact absurd rfl hne
  | cons p rest ih =>
      have hp : sep ∉ p := h p (by simp)
      cases rest with
      | nil => exact splitOn_of_not_mem hp
      | cons q rest =>
          have hrest : ∀ q' ∈ q :: rest, sep ∉ q' := fun q' hq' => h q' (List.mem_cons_of_mem p hq')
          have hjoin : joinWith [sep] (p :: q :: rest) = p ++ sep :: joinWith [sep] (q :: rest) := by
            simp [joinWith]
          rw [hjoin, splitOn_append hp, ih (by simp) hrest]

theorem not_mem_of_mem_splitOn {cs part : List Char} (h : part ∈ splitOn sep cs) :
    sep ∉ part ∧ ∀ c ∈ part, c ∈ cs := by
  induction cs generalizing part with
  | nil =>
      rw [splitOn, List.mem_singleton] at h
      simp [h]
  | cons c cs ih =>
      rw [splitOn] at h
      by_cases hc : c = sep
      · rw [if_pos hc, List.mem_cons] at h
        rcases h with rfl | h
        · simp
        · obtain ⟨hsep, hmem⟩ := ih h
          exact ⟨hsep, fun c' hc' => List.mem_cons_of_mem c (hmem c' hc')⟩
      · rw [if_neg hc] at h
        cases hsplit : splitOn sep cs with
        | nil => exact absurd hsplit (splitOn_ne_nil sep cs)
        | cons first rest =>
            rw [hsplit] at h ih
            simp only [List.mem_cons] at h
            rcases h with rfl | h
            · obtain ⟨hsep, hmem⟩ := ih (List.mem_cons_self ..)
              constructor
              · simp [hsep, Ne.symm hc]
              · intro c' hc'
                rcases List.mem_cons.1 hc' with rfl | hc'
                · exact List.mem_cons_self ..
                · exact List.mem_cons_of_mem c (hmem c' hc')
            · obtain ⟨hsep, hmem⟩ := ih (List.mem_cons_of_mem first h)
              exact ⟨hsep, fun c' hc' => List.mem_cons_of_mem c (hmem c' hc')⟩

end Text

/-! ### Places -/

namespace Disk

/-- A segment that stands for something below a folder. -/
structure IsName (s : Segment) : Prop where
  ne_nil : s ≠ []
  ne_here : s ≠ ['.']
  ne_up : s ≠ ['.', '.']
  slash : '/' ∉ s
  backslash : '\\' ∉ s

/-- A place whose segments are all names. -/
def IsPlace (place : Place) : Prop := ∀ s ∈ place, IsName s

variable {place place' : Place} {segment : Segment}

theorem push_name (h : IsName segment) : push true place segment = segment :: place := by
  rw [Path.push.eq_def, if_neg (by simp [h.ne_nil, h.ne_here]), if_neg h.ne_up]

theorem push_up (h : IsPlace place) : push true place ['.', '.'] = place.tail := by
  cases place with
  | nil => rfl
  | cons last rest =>
      have hlast : last ≠ ['.', '.'] := (h last (by simp)).ne_up
      simp [push, hlast]

theorem IsPlace.push (h : IsPlace place) (hslash : '/' ∉ segment) (hbackslash : '\\' ∉ segment) :
    IsPlace (push true place segment) := by
  by_cases hhere : segment = [] ∨ segment = ['.']
  · rw [Path.push.eq_def, if_pos hhere]
    exact h
  · by_cases hup : segment = ['.', '.']
    · rw [hup, push_up h]
      exact fun s hs => h s (List.mem_of_mem_tail hs)
    · rw [not_or] at hhere
      have hname : IsName segment := ⟨hhere.1, hhere.2, hup, hslash, hbackslash⟩
      rw [push_name hname]
      intro s hs
      rcases List.mem_cons.1 hs with rfl | hs
      · exact hname
      · exact h s hs

theorem IsPlace.foldl_push (h : IsPlace place) {segments : List Segment}
    (hslash : ∀ s ∈ segments, '/' ∉ s) (hbackslash : ∀ s ∈ segments, '\\' ∉ s) :
    IsPlace (segments.foldl (Path.push true) place) := by
  induction segments generalizing place with
  | nil => exact h
  | cons s rest ih =>
      apply ih
      · exact h.push (hslash s (by simp)) (hbackslash s (by simp))
      · exact fun s' hs' => hslash s' (List.mem_cons_of_mem s hs')
      · exact fun s' hs' => hbackslash s' (List.mem_cons_of_mem s hs')

theorem foldl_push_names {segments : List Segment} (h : ∀ s ∈ segments, IsName s) :
    segments.foldl (Path.push true) place = segments.reverse ++ place := by
  induction segments generalizing place with
  | nil => rfl
  | cons s rest ih =>
      rw [List.foldl_cons, push_name (h s (by simp)), ih fun s' hs' => h s' (List.mem_cons_of_mem s hs')]
      simp

/-- The segments of a place are read back from its name. -/
theorem splitOn_name (h : IsPlace place) :
    splitOn '/' (name place).toList = [] :: splitOn '/' (joinWith slash place.reverse) ∧
      (splitOn '/' (joinWith slash place.reverse)).foldl (Path.push true) [] = place ∧
        (splitOn '/' (joinWith slash place.reverse)).filter (· ≠ []) = place.reverse := by
  have hnames : ∀ s ∈ place.reverse, IsName s := fun s hs => h s (List.mem_reverse.1 hs)
  refine ⟨by simp [name, slash, splitOn], ?_⟩
  by_cases hnil : place = []
  · subst hnil
    exact ⟨rfl, rfl⟩
  · have hsplit : splitOn '/' (joinWith slash place.reverse) = place.reverse :=
      Text.splitOn_joinWith (by simpa using hnil) fun s hs => (hnames s hs).slash
    rw [hsplit, foldl_push_names hnames]
    refine ⟨by simp, ?_⟩
    rw [List.filter_eq_self]
    intro s hs
    simpa using (hnames s hs).ne_nil

end Disk

/-! ### Normal paths -/

namespace Path

open Disk (name IsPlace IsName)

/-- A path from the root, in which no backslash is to be read as a slash. -/
structure Rooted (p : String) : Prop where
  start : ∃ rest, p.toList = '/' :: rest
  plain : '\\' ∉ p.toList

variable {p q root : String} {place place' : Disk.Place}

theorem unify_of_plain (h : '\\' ∉ p.toList) : unify p = p.toList := by
  rw [unify]
  nth_rewrite 2 [← List.map_id p.toList]
  apply List.map_congr_left
  intro c hc
  have hne : c ≠ '\\' := fun he => h (he ▸ hc)
  rw [if_neg hne]
  rfl

theorem backslash_not_mem_unify (p : String) : '\\' ∉ unify p := by
  rw [unify, List.mem_map]
  rintro ⟨c, -, hc⟩
  by_cases hne : c = '\\'
  · rw [if_pos hne] at hc
    cases hc
  · rw [if_neg hne] at hc
    exact hne hc

/-- The place that the segments behind the root lead to. -/
def placeOf (rest : List Char) : Disk.Place := (splitOn '/' rest).foldl (push true) []

theorem isPlace_placeOf {rest : List Char} (h : '\\' ∉ rest) : IsPlace (placeOf rest) := by
  refine Disk.IsPlace.foldl_push (fun _ h => absurd h List.not_mem_nil) ?_ ?_
  · exact fun s hs => (Text.not_mem_of_mem_splitOn hs).1
  · exact fun s hs hmem => h ((Text.not_mem_of_mem_splitOn hs).2 _ hmem)

theorem normalize_of_unify {rest : List Char} (h : unify p = '/' :: rest) :
    normalize p = name (placeOf rest) := by
  rw [normalize, h, normalizeChars]
  rfl

/-- A path that begins with a slash is brought to the name of a place. -/
theorem exists_place (h : ∃ rest, p.toList = '/' :: rest) :
    ∃ place, IsPlace place ∧ normalize p = name place := by
  obtain ⟨rest, h⟩ := h
  have hunify : unify p = '/' :: rest.map fun c => if c = '\\' then '/' else c := by
    rw [unify, h]
    rfl
  refine ⟨_, isPlace_placeOf ?_, normalize_of_unify hunify⟩
  have hplain := backslash_not_mem_unify p
  rw [hunify] at hplain
  exact fun hmem => hplain (List.mem_cons_of_mem _ hmem)

theorem joinWith_cons_cons (s t : Segment) (parts : List Segment) :
    joinWith slash (s :: t :: parts) = s ++ '/' :: joinWith slash (t :: parts) := by
  simp [joinWith, slash]

/-- What stands behind the first of some joined segments begins with a slash. -/
theorem exists_joinWith_cons (s : Segment) (parts : List Segment) :
    ∃ tail, joinWith slash (s :: parts) = s ++ tail ∧ ∀ c ∈ tail.head?, c = '/' := by
  cases parts with
  | nil => exact ⟨[], by simp [joinWith], by simp⟩
  | cons t parts => exact ⟨'/' :: joinWith slash (t :: parts), joinWith_cons_cons s t parts, by simp⟩

theorem not_mem_joinWith {c : Char} (hc : c ≠ '/') {parts : List Segment} (h : ∀ s ∈ parts, c ∉ s) :
    c ∉ joinWith slash parts := by
  induction parts with
  | nil => exact List.not_mem_nil
  | cons p rest ih =>
      have hp := h p (by simp)
      cases rest with
      | nil => exact hp
      | cons q rest =>
          have hrest := ih fun s hs => h s (List.mem_cons_of_mem p hs)
          simp only [joinWith, slash, List.mem_append, List.mem_singleton, not_or]
          exact ⟨⟨hp, hc⟩, hrest⟩

theorem rooted_name (h : IsPlace place) : Rooted (name place) where
  start := ⟨joinWith slash place.reverse, by simp [name, slash]⟩
  plain := by
    have hjoin : '\\' ∉ joinWith slash place.reverse :=
      not_mem_joinWith (by decide) fun s hs => (h s (List.mem_reverse.1 hs)).backslash
    simpa [name, slash] using hjoin

theorem rooted_normalize (h : ∃ rest, p.toList = '/' :: rest) : Rooted (normalize p) := by
  obtain ⟨place, hplace, hname⟩ := exists_place h
  exact hname ▸ rooted_name hplace

theorem normalize_name (h : IsPlace place) : normalize (name place) = name place := by
  obtain ⟨hsplit, hplace, -⟩ := Disk.splitOn_name h
  have hunify : unify (name place) = '/' :: joinWith slash place.reverse := by
    rw [unify_of_plain (rooted_name h).plain]
    simp [name, slash]
  rw [normalize_of_unify hunify, placeOf, hplace]

theorem Rooted.normalize_normalize (h : Rooted p) : normalize (normalize p) = normalize p := by
  obtain ⟨place, hplace, hname⟩ := exists_place h.start
  rw [hname, normalize_name hplace]

theorem segments_name (h : IsPlace place) : segments (name place) = place.reverse := by
  obtain ⟨hsplit, -, hfilter⟩ := Disk.splitOn_name h
  rw [segments, normalize_name h, hsplit, List.filter_cons, if_neg (by simp), hfilter]

theorem isAbsolute_name (h : IsPlace place) : isAbsolute (name place) = true := by
  have hunify : unify (name place) = '/' :: joinWith slash place.reverse := by
    rw [unify_of_plain (rooted_name h).plain]
    simp [name, slash]
  rw [isAbsolute, hunify]
  rfl

/-! ### Seen from a root -/

theorem dropCommon_spec (l m : List Segment) : ∃ common,
    l = common ++ (dropCommon l m).1 ∧ m = common ++ (dropCommon l m).2 := by
  induction l generalizing m with
  | nil => exact ⟨[], by simp [dropCommon], by simp [dropCommon]⟩
  | cons a as ih =>
      cases m with
      | nil => exact ⟨[], by simp [dropCommon], by simp [dropCommon]⟩
      | cons b bs =>
          by_cases hab : a = b
          · subst hab
            obtain ⟨common, hl, hm⟩ := ih bs
            refine ⟨a :: common, ?_, ?_⟩
            · simpa [dropCommon] using hl
            · simpa [dropCommon] using hm
          · exact ⟨[], by simp [dropCommon, hab], by simp [dropCommon, hab]⟩

/-- The way up from a root, then down to a place. -/
def steps (down up : List Segment) : List Segment := up.map (fun _ => ['.', '.']) ++ down

theorem steps_inj {down down' up up' : List Segment} (h : ∀ s ∈ down, IsName s)
    (h' : ∀ s ∈ down', IsName s) (heq : steps down up = steps down' up') :
    down = down' ∧ up.length = up'.length := by
  induction up generalizing up' with
  | nil =>
      cases up' with
      | nil => exact ⟨heq, rfl⟩
      | cons s rest =>
          have hmem : ['.', '.'] ∈ down := by
            have hdown : down = ['.', '.'] :: steps down' rest := heq
            rw [hdown]
            exact List.mem_cons_self ..
          exact absurd rfl (h _ hmem).ne_up
  | cons s rest ih =>
      cases up' with
      | nil =>
          have hmem : ['.', '.'] ∈ down' := by
            have hdown : ['.', '.'] :: steps down rest = down' := heq
            rw [← hdown]
            exact List.mem_cons_self ..
          exact absurd rfl (h' _ hmem).ne_up
      | cons s' rest' =>
          have htail : steps down rest = steps down' rest' := (List.cons.inj heq).2
          obtain ⟨hdown, hup⟩ := ih htail
          exact ⟨hdown, congrArg (· + 1) hup⟩

theorem joinSteps_inj {parts parts' : List Segment} (h : ∀ s ∈ parts, '/' ∉ s ∧ s ≠ [] ∧ s ≠ ['.'])
    (h' : ∀ s ∈ parts', '/' ∉ s ∧ s ≠ [] ∧ s ≠ ['.'])
    (heq : (if parts.isEmpty then "." else String.ofList (joinWith slash parts)) =
      if parts'.isEmpty then "." else String.ofList (joinWith slash parts')) : parts = parts' := by
  have hsplit : ∀ {parts : List Segment}, parts ≠ [] → (∀ s ∈ parts, '/' ∉ s ∧ s ≠ [] ∧ s ≠ ['.']) →
      splitOn '/' (if parts.isEmpty then "." else String.ofList (joinWith slash parts)).toList = parts := by
    intro parts hne hparts
    rw [if_neg (by simpa using hne), String.toList_ofList]
    exact Text.splitOn_joinWith hne fun s hs => (hparts s hs).1
  by_cases hnil : parts = []
  · by_cases hnil' : parts' = []
    · rw [hnil, hnil']
    · have hback := hsplit hnil' h'
      rw [← heq, hnil] at hback
      have hdot : ['.'] ∈ parts' := by
        rw [← hback]
        simp [splitOn]
      exact absurd rfl (h' _ hdot).2.2
  · by_cases hnil' : parts' = []
    · have hback := hsplit hnil h
      rw [heq, hnil'] at hback
      have hdot : ['.'] ∈ parts := by
        rw [← hback]
        simp [splitOn]
      exact absurd rfl (h _ hdot).2.2
    · rw [← hsplit hnil h, heq, hsplit hnil' h']

theorem relativeTo_inj (h : IsPlace place) (h' : IsPlace place') (root : String)
    (heq : relativeTo (name place) root = relativeTo (name place') root) : place = place' := by
  have hnames : ∀ s ∈ place.reverse, IsName s := fun s hs => h s (List.mem_reverse.1 hs)
  have hnames' : ∀ s ∈ place'.reverse, IsName s := fun s hs => h' s (List.mem_reverse.1 hs)
  rw [relativeTo, relativeTo, segments_name h, segments_name h'] at heq
  obtain ⟨common, hl, hm⟩ := dropCommon_spec place.reverse (segments root)
  obtain ⟨common', hl', hm'⟩ := dropCommon_spec place'.reverse (segments root)
  generalize dropCommon place.reverse (segments root) = q at heq hl hm
  generalize dropCommon place'.reverse (segments root) = q' at heq hl' hm'
  obtain ⟨down, up⟩ := q
  obtain ⟨down', up'⟩ := q'
  simp only at heq hl hm hl' hm'
  have hdown : ∀ s ∈ down, IsName s := fun s hs => hnames s (hl ▸ List.mem_append_right _ hs)
  have hdown' : ∀ s ∈ down', IsName s := fun s hs => hnames' s (hl' ▸ List.mem_append_right _ hs)
  have hparts : ∀ {down up : List Segment}, (∀ s ∈ down, IsName s) →
      ∀ s ∈ steps down up, '/' ∉ s ∧ s ≠ [] ∧ s ≠ ['.'] := by
    intro down up hdown s hs
    rcases List.mem_append.1 hs with hs | hs
    · obtain ⟨-, -, rfl⟩ := List.mem_map.1 hs
      decide
    · exact ⟨(hdown s hs).slash, (hdown s hs).ne_nil, (hdown s hs).ne_here⟩
  obtain ⟨rfl, hlength⟩ := steps_inj hdown hdown' (joinSteps_inj (hparts hdown) (hparts hdown') heq)
  have hcommon : common = common' := by
    rw [hm] at hm'
    have hlengths := congrArg List.length hm'
    rw [List.length_append, List.length_append, hlength] at hlengths
    exact (List.append_inj hm' (by omega)).1
  rw [hcommon, ← hl'] at hl
  exact List.reverse_injective hl

end Path

/-! ### Following a path -/

namespace Disk

open Path (Rooted normalize placeOf)

variable {d : Disk} {p q text text' : String} {place place' : Place} {segment : Segment}

theorem get?_of_file {content : Content} (h : d.file? place = some content) :
    d.files.get? (name place) = some content := by
  rw [file?] at h
  split at h
  · cases h
  · exact h

theorem follow_eq_push (h : IsPlace place) (hfollow : d.follow place segment = .ok place') :
    place' = Path.push true place segment := by
  rw [follow] at hfollow
  split at hfollow
  · cases hfollow
  · by_cases hhere : segment = [] ∨ segment = ['.']
    · rw [if_pos hhere, Except.ok.injEq] at hfollow
      rw [Path.push.eq_def, if_pos hhere, hfollow]
    · rw [if_neg hhere] at hfollow
      by_cases hup : segment = ['.', '.']
      · rw [if_pos hup, Except.ok.injEq] at hfollow
        rw [hup, push_up h, hfollow]
      · rw [if_neg hup, Except.ok.injEq] at hfollow
        rw [Path.push.eq_def, if_neg hhere, if_neg hup, hfollow]

theorem foldlM_follow_eq (h : IsPlace place) {segments : List Segment} (hslash : ∀ s ∈ segments, '/' ∉ s)
    (hbackslash : ∀ s ∈ segments, '\\' ∉ s) (hfollow : segments.foldlM d.follow place = .ok place') :
    place' = segments.foldl (Path.push true) place := by
  induction segments generalizing place with
  | nil =>
      cases hfollow
      rfl
  | cons s rest ih =>
      rw [List.foldlM_cons] at hfollow
      obtain ⟨next, hnext, hrest⟩ := bind_eq_ok_iff.1 hfollow
      obtain rfl := follow_eq_push h hnext
      apply ih (h.push (hslash s (by simp)) (hbackslash s (by simp)))
      · exact fun s' hs' => hslash s' (List.mem_cons_of_mem s hs')
      · exact fun s' hs' => hbackslash s' (List.mem_cons_of_mem s hs')
      · exact hrest

/-- Where a path from the root leads, its normal form names. -/
theorem locate_spec (h : Rooted p) (hlocate : d.locate p = .ok place) :
    IsPlace place ∧ name place = normalize p := by
  obtain ⟨rest, hrest⟩ := h.start
  have hplain : '\\' ∉ rest := fun hmem => h.plain (hrest ▸ List.mem_cons_of_mem _ hmem)
  have hroot : Path.startsAtRoot p = true := by simp [Path.startsAtRoot, hrest]
  have hsegments : d.segments p = [] :: splitOn '/' rest := by
    rw [Disk.segments, if_pos hroot, hrest]
    rfl
  rw [locate] at hlocate
  split at hlocate
  · cases hlocate
  · rw [hsegments, List.foldlM_cons] at hlocate
    obtain ⟨top, htop, hlocate⟩ := bind_eq_ok_iff.1 hlocate
    have htop : top = [] := by
      cases htop
      rfl
    subst htop
    have hplace : place = placeOf rest := by
      apply foldlM_follow_eq (fun _ h => absurd h List.not_mem_nil) _ _ hlocate
      · exact fun s hs => (Text.not_mem_of_mem_splitOn hs).1
      · exact fun s hs hmem => hplain ((Text.not_mem_of_mem_splitOn hs).2 _ hmem)
    have hunify : Path.unify p = '/' :: rest := by rw [Path.unify_of_plain h.plain, hrest]
    rw [hplace, Path.normalize_of_unify hunify]
    exact ⟨Path.isPlace_placeOf hplain, rfl⟩

theorem exists_of_read (h : d.read p = .ok text) :
    ∃ place, d.locate p = .ok place ∧ d.file? place = some (.text text) := by
  obtain ⟨place, hlocate, h⟩ := bind_eq_ok_iff.1 h
  refine ⟨place, hlocate, ?_⟩
  cases hfile : d.file? place with
  | none =>
      rw [hfile] at h
      cases h
  | some content =>
      rw [hfile] at h
      cases content with
      | binary => cases h
      | text text' =>
          cases h
          rfl

/-- The root is no file. -/
theorem read_spec (h : Rooted p) (hread : d.read p = .ok text) :
    ∃ place, IsPlace place ∧ place ≠ [] ∧ normalize p = name place ∧ d.file? place = some (.text text) := by
  obtain ⟨place, hlocate, hfile⟩ := exists_of_read hread
  obtain ⟨hplace, hname⟩ := locate_spec h hlocate
  refine ⟨place, hplace, ?_, hname.symm, hfile⟩
  rintro rfl
  cases hfile

/-- Spellings of one path have one text. -/
theorem read_unique (h : Rooted p) (h' : Rooted q) (hsame : normalize p = normalize q)
    (hread : d.read p = .ok text) (hread' : d.read q = .ok text') : text = text' := by
  obtain ⟨place, -, -, hname, hfile⟩ := read_spec h hread
  obtain ⟨place', -, -, hname', hfile'⟩ := read_spec h' hread'
  have hget := get?_of_file hfile
  rw [← hname, hsame, hname', get?_of_file hfile'] at hget
  cases hget
  rfl

end Disk

/-! ### Ids -/

namespace CanonicalId

open Path (Rooted normalize)
open Disk (name IsPlace)

variable {mode : IdMode} {p q : String} {place : Disk.Place}

theorem splitLast_append (cs : List Char) : splitLast (cs ++ [':', ':']) = some (cs, []) := by
  induction cs with
  | nil => rfl
  | cons c cs ih =>
      rw [List.cons_append, splitLast.eq_def]
      simp only [ih]

theorem file_ofParts (f : String) : (ofParts f "").file = f := by
  have htext : (ofParts f "").text.toList = f.toList ++ [':', ':'] := by
    simp [ofParts, separator]
  rw [file, parts, htext, splitLast_append]
  exact String.ofList_toList

theorem fileKey_eq (mode : IdMode) (p : String) : fileKey mode p = filePart mode p := by
  rw [fileKey, create]
  cases filePart mode p with
  | error e => rfl
  | ok f => exact congrArg Except.ok (file_ofParts f)

theorem filePart_of_name (mode : IdMode) (hplace : IsPlace place) (h : normalize p = name place) :
    filePart mode p = match mode with
      | .absolute => .ok (name place)
      | .relativeTo root => .ok (Path.relativeTo (name place) (normalize root)) := by
  have habsolute := Path.isAbsolute_name hplace
  rw [filePart.eq_def, h]
  cases mode with
  | absolute => simp only [habsolute, if_true]
  | relativeTo root => simp only [habsolute, if_true]

theorem filePart_normalize (mode : IdMode) (h : Rooted p) :
    filePart mode (normalize p) = filePart mode p := by
  rw [filePart.eq_def, filePart.eq_def, h.normalize_normalize]

/-- The file part of an id tells the file. -/
theorem filePart_inj (h : Rooted p) (h' : Rooted q) (heq : filePart mode p = filePart mode q) :
    normalize p = normalize q := by
  obtain ⟨place, hplace, hname⟩ := Path.exists_place h.start
  obtain ⟨place', hplace', hname'⟩ := Path.exists_place h'.start
  rw [filePart_of_name mode hplace hname, filePart_of_name mode hplace' hname'] at heq
  rw [hname, hname']
  cases mode with
  | absolute => exact Except.ok.inj heq
  | relativeTo root => rw [Path.relativeTo_inj hplace hplace' _ (Except.ok.inj heq)]

end CanonicalId
end StaticGql
