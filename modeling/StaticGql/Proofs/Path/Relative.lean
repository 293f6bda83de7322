import StaticGql.Proofs.CanonicalId
import StaticGql.Proofs.Dict
import StaticGql.Proofs.Path.Components

/-!
Paths that are seen from a folder. Such a path climbs out of some folders and goes down by names, from every
folder alike, and its normal form is the way that it goes. Ids keep the way: where they are absolute no file
is told by it, and where they are seen from a root it is gone from there.
-/

namespace StaticGql

open Path (Segment slash push placeOf Rooted normalize append startsAtRoot)
open Disk (name IsPlace IsName Place)
open Text (splitOn joinWith)

namespace Path

instance : DecidablePred IsDrive := fun s =>
  decidable_of_iff (s.length = 2 ∧ s.getLast? = some ':' ∧ s.head?.any Char.isAlpha = true) <| by
    constructor
    · rintro ⟨hlength, hlast, hfirst⟩
      obtain ⟨c, e, rfl⟩ := List.length_eq_two.1 hlength
      exact ⟨c, hfirst, by simpa using hlast⟩
    · rintro ⟨c, hc, rfl⟩
      exact ⟨rfl, rfl, hc⟩

/-- A path that is neither a root nor a drive wherever it is read, and in which no backslash is to be read as a
slash. -/
structure Relative (p : String) : Prop where
  ne_empty : p ≠ ""
  start : startsAtRoot p = false
  plain : '\\' ∉ p.toList
  noDrive : ∀ s ∈ splitOn '/' p.toList, ¬IsDrive s

variable {p root : String} {names base : Place} {s : Segment}

/-! ### The way of a path -/

/-- One segment more, behind some names that come after some steps up. -/
theorem exists_push (hnames : IsPlace names) (n : Nat) (hslash : '/' ∉ s) (hbackslash : '\\' ∉ s) :
    ∃ names' m, IsPlace names' ∧ (∀ t ∈ names', t = s ∨ t ∈ names) ∧
      push false (names ++ List.replicate n ['.', '.']) s = names' ++ List.replicate m ['.', '.'] ∧
        ∀ base, IsPlace base → push true (names ++ base.drop n) s = names' ++ base.drop m := by
  by_cases hcounts : Counts s
  · by_cases hup : s = ['.', '.']
    · subst hup
      cases names with
      | nil =>
          refine ⟨[], n + 1, hnames, fun t ht => .inr ht, ?_, fun base hbase => ?_⟩
          · cases n <;> rfl
          · have hdrop : IsPlace (base.drop n) := fun t ht => hbase t (List.mem_of_mem_drop ht)
            rw [List.nil_append, List.nil_append, Disk.push_up hdrop, List.tail_drop]
      | cons last rest =>
          have hlast : last ≠ ['.', '.'] := (hnames last List.mem_cons_self).ne_up
          have hrest : IsPlace rest := fun t ht => hnames t (List.mem_cons_of_mem last ht)
          exact ⟨rest, n, hrest, fun t ht => .inr (List.mem_cons_of_mem last ht), push_up_cons hlast ..,
            fun base _ => push_up_cons hlast ..⟩
    · have hname : IsName s := ⟨hcounts.1, hcounts.2, hup, hslash, hbackslash⟩
      exact ⟨s :: names, n, List.forall_mem_cons.2 ⟨hname, hnames⟩, fun t ht => List.mem_cons.1 ht,
        push_counts hcounts hup .., fun base _ => push_counts hcounts hup ..⟩
  · exact ⟨names, n, hnames, fun t ht => .inr ht, push_here hcounts .., fun base _ => push_here hcounts ..⟩

theorem exists_foldl_push {segments : List Segment} (hslash : ∀ s ∈ segments, '/' ∉ s)
    (hbackslash : ∀ s ∈ segments, '\\' ∉ s) (hnames : IsPlace names) (n : Nat) :
    ∃ names' m, IsPlace names' ∧ (∀ t ∈ names', t ∈ segments ∨ t ∈ names) ∧
      segments.foldl (push false) (names ++ List.replicate n ['.', '.']) = names' ++ List.replicate m ['.', '.'] ∧
        ∀ base, IsPlace base → segments.foldl (push true) (names ++ base.drop n) = names' ++ base.drop m := by
  induction segments generalizing names n with
  | nil => exact ⟨names, n, hnames, fun t ht => .inr ht, rfl, fun _ _ => rfl⟩
  | cons s rest ih =>
      obtain ⟨hs, hrest⟩ := List.forall_mem_cons.1 hslash
      obtain ⟨hs', hrest'⟩ := List.forall_mem_cons.1 hbackslash
      obtain ⟨names₁, n₁, hnames₁, hmem₁, hpush, hfrom⟩ := exists_push hnames n hs hs'
      obtain ⟨names', m, hnames', hmem, hpush', hfrom'⟩ := ih hrest hrest' hnames₁ n₁
      refine ⟨names', m, hnames', fun t ht => ?_, ?_, fun base hbase => ?_⟩
      · rcases hmem t ht with ht | ht
        · exact .inl (List.mem_cons_of_mem s ht)
        · exact (hmem₁ t ht).imp_left fun ht => List.mem_cons.2 (.inl ht)
      · rw [List.foldl_cons, hpush, hpush']
      · rw [List.foldl_cons, hfrom base hbase, hfrom' base hbase]

namespace Relative

theorem splitRoot_eq (h : Relative p) : splitRoot p.toList = ([], p.toList) := by
  have hstart : p.toList.head? ≠ some '/' := by simpa [startsAtRoot] using h.start
  have hdrive := h.noDrive
  generalize p.toList = cs at hstart hdrive
  fun_cases splitRoot cs with
  | case1 rest => exact absurd rfl hstart
  | case2 c hc halpha => exact absurd ⟨c, halpha, rfl⟩ (hdrive [c, ':'] (by simp [splitOn, mt hc]))
  | case4 c rest hc halpha => exact absurd ⟨c, halpha, rfl⟩ (hdrive [c, ':'] (by simp [splitOn, mt hc]))
  | _ => rfl

/-- The way that a path goes from every folder. -/
theorem exists_way (h : Relative p) : ∃ down up, IsWay down ∧
    normalize p = String.ofList (wayText (steps down up)) ∧
      ∀ base, IsPlace base → (splitOn '/' p.toList).foldl (push true) base = down.reverse ++ base.drop up.length := by
  have hplain : ∀ s ∈ splitOn '/' p.toList, '\\' ∉ s := fun s hs hmem =>
    h.plain ((Text.not_mem_of_mem_splitOn hs).2 _ hmem)
  obtain ⟨names, n, hnames, hmem, hway, hfrom⟩ := exists_foldl_push
    (fun s hs => (Text.not_mem_of_mem_splitOn hs).1) hplain (fun _ h => absurd h List.not_mem_nil) 0
  have hdown : IsWay names.reverse :=
    ⟨fun s hs => hnames s (List.mem_reverse.1 hs),
      fun s hs => h.noDrive s ((hmem s (List.mem_reverse.1 hs)).resolve_right List.not_mem_nil)⟩
  refine ⟨names.reverse, List.replicate n [], hdown, ?_, fun base hbase => ?_⟩
  · have hparts : resolveSegments false (splitOn '/' p.toList) = steps names.reverse (List.replicate n []) := by
      rw [resolveSegments, steps_eq, List.length_replicate]
      have hway : (splitOn '/' p.toList).foldl (push false) [] = names ++ List.replicate n ['.', '.'] := hway
      rw [hway, List.reverse_append, List.reverse_replicate]
    rw [normalize, unify_of_plain h.plain, normalizeChars, h.splitRoot_eq]
    simp only [List.isEmpty_nil, Bool.not_true, hparts, Bool.true_and, List.nil_append, ite_joinWith hdown]
  · rw [List.reverse_reverse, List.length_replicate]
    exact hfrom base hbase

/-- From a root a path leads where it goes from the place that the root is. -/
theorem normalize_append_eq {down up : List Segment} {base : Place} (h : Relative p) (hbase : IsPlace base)
    (hfrom : (splitOn '/' p.toList).foldl (push true) base = down.reverse ++ base.drop up.length)
    (hroot : Rooted root) (hname : normalize root = name base) :
    normalize (append root p) = name (down.reverse ++ base.drop up.length) := by
  rw [normalize_append hroot hname hbase h.start h.plain, hfrom]

theorem exists_place (h : Relative p) (hroot : Rooted root) :
    ∃ place, IsPlace place ∧ normalize (append root p) = name place := by
  obtain ⟨rest, hrest⟩ := hroot.start
  obtain ⟨segments, -, happend, -⟩ := exists_laid_append hrest h.start
  exact Path.exists_place ⟨_, happend⟩

end Relative

/-! ### What a path ends in -/

theorem suffix_slash_iff {ending before rest : List Char} (h : '/' ∉ ending) :
    ending <:+ before ++ '/' :: rest ↔ ending <:+ rest := by
  have hrest : rest <:+ before ++ '/' :: rest := ⟨before ++ ['/'], by simp⟩
  refine ⟨fun hending => ?_, fun hending => hending.trans hrest⟩
  rcases List.suffix_or_suffix_of_suffix hending hrest with hshort | ⟨more, rfl⟩
  · exact hshort
  rcases List.eq_nil_or_concat more with rfl | ⟨more, c, rfl⟩
  · exact List.suffix_rfl
  · -- The slash would be the last of what the ending has more.
    obtain ⟨front, heq⟩ := hending
    have heq : (front ++ more ++ [c]) ++ rest = (before ++ ['/']) ++ rest := by simpa using heq
    have hlast := (List.append_inj' (List.append_cancel_right heq) rfl).2
    rw [List.cons.injEq] at hlast
    exact absurd (by simp [hlast.1]) h

/-- What ends a path from a folder ends the last of its segments. -/
theorem suffix_joinWith_iff {ending : List Char} (h : '/' ∉ ending) (segments : List Segment) (s : Segment) :
    ending <:+ joinWith slash (segments ++ [s]) ↔ ending <:+ s := by
  rw [joinWith_append segments (by simp)]
  rcases List.eq_nil_or_concat segments with rfl | ⟨front, t, rfl⟩
  · rfl
  · have hlaid : laid (front.concat t) ++ joinWith slash [s] = (laid front ++ t) ++ '/' :: s := by
      simp [laid, slash, joinWith]
    rw [hlaid, suffix_slash_iff h]

theorem suffix_name_iff {ending : List Char} (h : '/' ∉ ending) (s : Segment) (folder : Place) :
    ending <:+ (name (s :: folder)).toList ↔ ending <:+ s := by
  rw [toList_name, List.reverse_cons, ← List.nil_append ('/' :: _), suffix_slash_iff h, suffix_joinWith_iff h]

end Path

/-! ### Following a path from the current folder -/

namespace Disk

open Path (Relative)

variable {d : Disk} {p text : String} {place place' : Place} {segments : List Segment}

/-- A component that is nothing asks for no more than the next one. -/
theorem foldlM_follow_nil (hne : segments ≠ []) (place : Place) :
    ([] :: segments).foldlM d.follow place = segments.foldlM d.follow place := by
  obtain ⟨s, rest, rfl⟩ := List.exists_cons_of_ne_nil hne
  rw [List.foldlM_cons, List.foldlM_cons]
  cases hfolder : d.hasFolder place with
  | true =>
      have hstay : d.follow place [] = .ok place := by simp [follow, hfolder]
      rw [hstay]
      exact (List.foldlM_cons (m := Except Fault)).symm
  | false =>
      have hstuck : ∀ s, d.follow place s = .error (if (d.file? place).isSome then .notFolder else .notFound) :=
        fun s => by simp [follow, hfolder]
      rw [hstuck, hstuck]
      rfl

/-- A path leads to one place by itself and behind the current folder. -/
theorem locate_append_current (hcurrent : Rooted d.current) (h : Relative p) :
    d.locate (append d.current p) = d.locate p := by
  obtain ⟨cs, hcs⟩ := hcurrent.start
  obtain ⟨segments, hslash, happend, hsegments⟩ := Path.exists_laid_append hcs h.start
  have hroot : startsAtRoot (append d.current p) = true := by simp [startsAtRoot, happend]
  have hwhole : d.segments (append d.current p) = [] :: (segments ++ splitOn '/' p.toList) := by
    rw [Disk.segments, if_pos hroot, happend, ← Path.splitOn_laid hslash]
    rfl
  have hsplit : d.segments p = [] :: (splitOn '/' cs ++ splitOn '/' p.toList) := by
    have hstart := h.start
    rw [Disk.segments, if_neg (by simp [hstart]), ← Text.splitOn_append_sep]
    simp [hcs, splitOn]
  have hempty : (append d.current p).isEmpty = false ∧ p.isEmpty = false := by
    refine ⟨?_, ?_⟩
    · rw [Bool.eq_false_iff, ne_eq, String.isEmpty_iff]
      intro hempty
      rw [hempty] at hroot
      cases hroot
    · simpa using h.ne_empty
  rw [locate, locate, hempty.1, hempty.2, hwhole, hsplit]
  rcases hsegments with rfl | hsegments
  · rfl
  · have hne : splitOn '/' p.toList ≠ [] := Text.splitOn_ne_nil '/' _
    rw [hsegments, List.append_assoc, ← List.cons_append, ← List.cons_append, List.foldlM_append,
      List.foldlM_append]
    simp only [List.singleton_append, foldlM_follow_nil hne]

theorem read_append_current (hcurrent : Rooted d.current) (h : Relative p) :
    d.read (append d.current p) = d.read p := by
  rw [read, read, locate_append_current hcurrent h]

/-- Nothing is both a file and a folder. -/
def Sorted (d : Disk) : Prop := ∀ p, (d.files.get? p).isSome = true → p ∉ d.folders

theorem sorted_of_keys (h : ∀ p ∈ d.files.keys, p ∉ d.folders) : d.Sorted := fun p hp => h p (Dict.mem_keys_iff.2 hp)

/-- All that a place lies in is there. -/
def Lies (d : Disk) (place : Place) : Prop := ∀ above, above <:+ place.tail → d.hasFolder above = true

theorem hasFolder_of_follow {s : Segment} (h : d.follow place s = .ok place') : d.hasFolder place = true := by
  rw [follow] at h
  split at h
  · cases h
  · rename_i hfolder
    simpa using hfolder

theorem Lies.hasFolder (h : d.Lies place) (hfolder : d.hasFolder place = true) {above : Place}
    (habove : above <:+ place) : d.hasFolder above = true := by
  cases place with
  | nil => exact (List.suffix_nil.1 habove) ▸ rfl
  | cons last rest =>
      rcases List.suffix_cons_iff.1 habove with rfl | habove
      · exact hfolder
      · exact h above habove

theorem Lies.follow {s : Segment} (h : d.Lies place) (hfollow : d.follow place s = .ok place') : d.Lies place' := by
  have hfolder := hasFolder_of_follow hfollow
  rw [Disk.follow, hfolder, if_neg (by simp)] at hfollow
  split at hfollow
  · cases hfollow
    exact h
  · split at hfollow
    · cases hfollow
      exact fun above habove => h above (habove.trans (List.tail_suffix _))
    · cases hfollow
      exact fun above habove => h.hasFolder hfolder habove

theorem Lies.foldlM_follow (h : d.Lies place) (hfollow : segments.foldlM d.follow place = .ok place') :
    d.Lies place' := by
  induction segments generalizing place with
  | nil =>
      cases hfollow
      exact h
  | cons s rest ih =>
      rw [List.foldlM_cons] at hfollow
      obtain ⟨next, hnext, hrest⟩ := bind_eq_ok_iff.1 hfollow
      exact ih (h.follow hnext) hrest

theorem lies_root (d : Disk) : d.Lies [] := fun _ habove => (List.suffix_nil.1 habove) ▸ rfl

/-- A path is followed from where the current folder is. -/
theorem locate_relative (hcurrent : Rooted d.current) (h : Relative p) (hlocate : d.locate p = .ok place) :
    ∃ base, IsPlace base ∧ d.Lies base ∧ d.hasFolder base = true ∧
      place = (splitOn '/' p.toList).foldl (push true) base := by
  have hplain : ∀ {cs : List Char}, '\\' ∉ cs → ∀ s ∈ splitOn '/' cs, '\\' ∉ s := fun hcs s hs hmem =>
    hcs ((Text.not_mem_of_mem_splitOn hs).2 _ hmem)
  have hslash : ∀ {cs : List Char}, ∀ s ∈ splitOn '/' cs, '/' ∉ s := fun s hs => (Text.not_mem_of_mem_splitOn hs).1
  have hsegments : d.segments p = splitOn '/' d.current.toList ++ splitOn '/' p.toList := by
    have hstart := h.start
    rw [Disk.segments, if_neg (by simp [hstart]), ← Text.splitOn_append_sep]
    simp
  have hempty : p.isEmpty = false := by simpa using h.ne_empty
  rw [locate, hempty, if_neg (by simp), hsegments, List.foldlM_append] at hlocate
  obtain ⟨base, hbase, hwalk⟩ := bind_eq_ok_iff.1 hlocate
  have hplace : IsPlace base := by
    rw [foldlM_follow_eq (fun _ h => absurd h List.not_mem_nil) hslash (hplain hcurrent.plain) hbase]
    exact IsPlace.foldl_push (fun _ h => absurd h List.not_mem_nil) hslash (hplain hcurrent.plain)
  refine ⟨base, hplace, (lies_root d).foldlM_follow hbase, ?_, foldlM_follow_eq hplace hslash (hplain h.plain) hwalk⟩
  obtain ⟨s, rest, hrest⟩ := List.exists_cons_of_ne_nil (Text.splitOn_ne_nil '/' p.toList)
  rw [hrest, List.foldlM_cons] at hwalk
  obtain ⟨next, hnext, -⟩ := bind_eq_ok_iff.1 hwalk
  exact hasFolder_of_follow hnext

/-- A path to a file goes down at its end: where it would only climb there are folders. -/
theorem down_ne_nil (hsorted : d.Sorted) (hcurrent : Rooted d.current) (h : Relative p)
    (hread : d.read p = .ok text) {down up : List Segment}
    (hfrom : ∀ base, IsPlace base →
      (splitOn '/' p.toList).foldl (push true) base = down.reverse ++ base.drop up.length) : down ≠ [] := by
  rintro rfl
  obtain ⟨place, hlocate, hfile⟩ := exists_of_read hread
  obtain ⟨base, hbase, hlies, hfolder, hplace⟩ := locate_relative hcurrent h hlocate
  rw [hfrom base hbase, List.reverse_nil, List.nil_append] at hplace
  have hthere : d.hasFolder place = true := hlies.hasFolder hfolder (hplace ▸ List.drop_suffix _ _)
  rw [hasFolder, Bool.or_eq_true] at hthere
  rcases hthere with hroot | hthere
  · rw [file?, if_pos hroot] at hfile
    cases hfile
  · refine hsorted (name place) ?_ (of_decide_eq_true hthere)
    rw [get?_of_file hfile]
    rfl

end Disk

/-! ### Ids -/

namespace CanonicalId

open Path (Relative)

variable {mode : IdMode} {p root current : String}

/-- An absolute id is not made from a path that is seen from a folder. -/
theorem filePart_absolute (h : Relative p) :
    filePart .absolute (normalize p) = .error (.requiresAbsolutePath (normalize p)) := by
  obtain ⟨down, up, hway, hnormal, -⟩ := h.exists_way
  have habsolute := @Path.not_isAbsolute_wayText down up hway
  rw [filePart.eq_def, hnormal]
  simp only [Path.normalize_wayText hway, habsolute, Bool.false_eq_true, if_false]

/-- An id that is seen from a root takes a path as it goes from the root. -/
theorem filePart_relativeTo (h : Relative p) (hroot : ∃ rest, root.toList = '/' :: rest) :
    filePart (.relativeTo root) (normalize p) =
      .ok (Path.relativeTo (normalize (append (normalize root) p)) (normalize root)) := by
  obtain ⟨down, up, hway, hnormal, hfrom⟩ := h.exists_way
  obtain ⟨base, hbase, hname⟩ := Path.exists_place hroot
  have habsolute := @Path.not_isAbsolute_wayText down up hway
  have hfrom := h.normalize_append_eq hbase (hfrom base hbase) (Path.rooted_name hbase) (Path.normalize_name hbase)
  rw [filePart.eq_def, hnormal]
  simp only [Path.normalize_wayText hway, habsolute, Bool.false_eq_true, if_false, hname, Path.join_way hway hbase,
    hfrom]

/-- A path and the one behind the current folder make the same ids exactly where ids are seen from a root
and the path leads to one place from there and from the current folder. -/
theorem filePart_alike_iff (h : Relative p) (hcurrent : Rooted current)
    (hmode : ∀ root, mode = .relativeTo root → ∃ rest, root.toList = '/' :: rest) :
    filePart mode (normalize p) = filePart mode (normalize (append current p)) ↔
      ∃ root, mode = .relativeTo root ∧ normalize (append (normalize root) p) = normalize (append current p) := by
  obtain ⟨place, hplace, hname⟩ := h.exists_place hcurrent
  have hpart := filePart_of_name mode hplace (Path.normalize_name hplace)
  rw [hname, hpart]
  cases mode with
  | absolute =>
      rw [filePart_absolute h]
      simp
  | relativeTo root =>
      have hroot := hmode root rfl
      obtain ⟨found, hfound, hfoundName⟩ := h.exists_place (Path.rooted_normalize hroot)
      rw [filePart_relativeTo h hroot, hfoundName]
      constructor
      · intro heq
        refine ⟨root, rfl, ?_⟩
        rw [hfoundName, Path.relativeTo_inj hfound hplace _ (Except.ok.inj heq)]
      · rintro ⟨root', hmode', heq⟩
        cases hmode'
        rw [hfoundName] at heq
        rw [heq]

end CanonicalId
end StaticGql
