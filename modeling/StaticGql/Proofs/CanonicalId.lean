import StaticGql.Proofs.Path

/-!
What an id tells. It is cut again into its file part and its structural path, unless the structural path
makes a separator of its own; and an id seen from a root stands for the absolute one.
-/

namespace StaticGql

open Path (push slash Segment)
open Text (splitOn joinWith)

/-! ### Cutting an id -/

namespace CanonicalId

theorem splitLast_cons_of_some {cs file structural : List Char}
    (h : splitLast cs = some (file, structural)) (c : Char) :
    splitLast (c :: cs) = some (c :: file, structural) := by
  rw [splitLast.eq_def]
  simp only [h]

theorem splitLast_cons_of_none {cs : List Char} (h : splitLast cs = none) (c : Char) :
    splitLast (c :: cs) = none ↔ ¬[':', ':'] <+: c :: cs := by
  rw [splitLast.eq_def]
  simp only [h]
  split
  · simp
  · rename_i hne
    simp only [true_iff]
    rintro ⟨rest, hrest⟩
    obtain ⟨rfl, rfl⟩ := List.cons.inj hrest
    exact hne rest rfl rfl

theorem splitLast_eq_none_iff {cs : List Char} : splitLast cs = none ↔ ¬[':', ':'] <:+: cs := by
  induction cs with
  | nil => simp [splitLast]
  | cons c cs ih =>
      rw [List.infix_cons_iff, not_or, ← ih]
      cases hsplit : splitLast cs with
      | none => simp [splitLast_cons_of_none hsplit]
      | some p => simp [splitLast_cons_of_some hsplit]

theorem splitLast_append_some {cs file structural : List Char} (h : splitLast cs = some (file, structural))
    (before : List Char) : splitLast (before ++ cs) = some (before ++ file, structural) := by
  induction before with
  | nil => exact h
  | cons c before ih => exact splitLast_cons_of_some ih c

/-- A structural path without a separator, also together with the one before it. -/
structure IsPlain (structural : String) : Prop where
  inside : ¬[':', ':'] <:+: structural.toList
  start : structural.toList.head? ≠ some ':'

theorem isPlain_iff {structural : String} :
    IsPlain structural ↔ ¬[':', ':'] <:+: ':' :: structural.toList := by
  have hprefix : [':', ':'] <+: ':' :: structural.toList ↔ structural.toList.head? = some ':' := by
    cases structural.toList <;> simp [List.cons_prefix_cons, eq_comm]
  rw [List.infix_cons_iff, hprefix, not_or]
  exact ⟨fun h => ⟨h.start, h.inside⟩, fun h => ⟨h.2, h.1⟩⟩

/-- An id gives back its parts exactly if its structural path is plain. -/
theorem parts_ofParts_iff {file structural : String} :
    (ofParts file structural).parts = ⟨file, structural⟩ ↔ IsPlain structural := by
  have htext : (ofParts file structural).text.toList =
      file.toList ++ ':' :: ':' :: structural.toList := by
    simp [ofParts, separator]
  rw [isPlain_iff, ← splitLast_eq_none_iff, parts, htext]
  cases hsplit : splitLast (':' :: structural.toList) with
  | none =>
      have hcut : splitLast (':' :: ':' :: structural.toList) = some ([], structural.toList) := by
        rw [splitLast.eq_def]
        simp only [hsplit]
      simp [splitLast_append_some hcut]
  | some p =>
      -- a later separator takes the whole of this one into the file part
      obtain ⟨before, after⟩ := p
      have hcut : splitLast (':' :: ':' :: structural.toList) = some (':' :: before, after) :=
        splitLast_cons_of_some hsplit ':'
      simp [splitLast_append_some hcut, ← String.toList_inj]

theorem IsPlain.file_ofParts {structural : String} (h : IsPlain structural) (file : String) :
    (ofParts file structural).file = file := by
  rw [CanonicalId.file, parts_ofParts_iff.2 h]

theorem IsPlain.structural_ofParts {structural : String} (h : IsPlain structural) (file : String) :
    (ofParts file structural).structural = structural := by
  rw [CanonicalId.structural, parts_ofParts_iff.2 h]

end CanonicalId

/-! ### Ids with absolute paths -/

namespace Path

/-- A root stays one whatever comes behind it; behind a bare drive nothing may come. -/
theorem splitRoot_append {cs : List Char} (h : (splitRoot cs).1 ≠ []) :
    cs = (splitRoot cs).1 ++ (splitRoot cs).2 ∧ ∀ behind : List Char,
      ((splitRoot cs).2 = [] → behind = []) →
        (splitRoot ((splitRoot cs).1 ++ behind)).1 = (splitRoot cs).1 := by
  fun_cases splitRoot cs with
  | case1 rest => exact ⟨rfl, fun _ _ => rfl⟩
  | case2 c _ halpha =>
      refine ⟨rfl, fun behind hbehind => ?_⟩
      rw [hbehind rfl]
      simp [splitRoot, halpha]
  | case4 c rest _ halpha => exact ⟨rfl, fun behind _ => by simp [splitRoot, halpha]⟩
  | _ => simp_all [splitRoot]

theorem isAbsolute_normalize {p : String} (h : isAbsolute p = true) : isAbsolute (normalize p) = true := by
  have hroot : (splitRoot (unify p)).1 ≠ [] := by simpa [isAbsolute] using h
  obtain ⟨hcs, hstays⟩ := splitRoot_append hroot
  have hplain := backslash_not_mem_unify p
  have hnormal : normalize p = String.ofList ((splitRoot (unify p)).1 ++
      joinWith slash (placeOf (splitRoot (unify p)).2).reverse) := by
    have hrooted : (splitRoot (unify p)).1.isEmpty = false := by simpa using hroot
    rw [normalize, normalizeChars]
    simp only [hrooted, Bool.not_false, Bool.false_and, Bool.false_eq_true, if_false]
    rfl
  generalize (splitRoot (unify p)).1 = root, (splitRoot (unify p)).2 = rest at *
  rw [hcs, List.mem_append, not_or] at hplain
  have hjoin : '\\' ∉ joinWith slash (placeOf rest).reverse :=
    not_mem_joinWith (by decide) fun s hs =>
      (isPlace_placeOf hplain.2 s (List.mem_reverse.1 hs)).backslash
  have hunify : unify (normalize p) = root ++ joinWith slash (placeOf rest).reverse := by
    rw [hnormal, unify_of_plain (by simp [hplain.1, hjoin]), String.toList_ofList]
  rw [isAbsolute, hunify, hstays]
  · simpa using hroot
  · rintro rfl
    rfl

end Path

theorem CanonicalId.create_absolute {path : String} (h : Path.isAbsolute path = true) (structural : String) :
    create .absolute path structural = .ok (ofParts (Path.normalize path) structural) := by
  rw [create, filePart.eq_def]
  simp only [Path.isAbsolute_normalize h, if_true]
  rfl

namespace CanonicalId

open Path (normalize isAbsolute)

variable {file file' path other structural : String} {id : CanonicalId}

theorem ofParts_inj : ofParts file structural = ofParts file' structural ↔ file = file' := by
  refine ⟨fun h => ?_, fun h => by rw [h]⟩
  have htext := congrArg (fun id : CanonicalId => id.text.toList) h
  simp only [ofParts, String.toList_append] at htext
  exact String.toList_inj.1 (List.append_cancel_right (List.append_cancel_right htext))

/-- Only the normal form of a path gets into its absolute ids. -/
theorem create_absolute_eq_ok_iff : create .absolute other structural = .ok id ↔
    isAbsolute (normalize other) = true ∧ id = ofParts (normalize other) structural := by
  rw [create, filePart.eq_def]
  cases h : isAbsolute (normalize other) with
  | false => simp [Except.map, h]
  | true =>
      simp only [h, if_true, true_and, Except.map, Except.ok.injEq]
      exact eq_comm

/-- An absolute id gives back the file and the structural path that it was made of exactly if the structural
path has no separator in it and does not begin with half of one. Two paths get the same id exactly if they
are spellings of one. -/
theorem absolute_exact (h : isAbsolute path = true) (structural : String) : ∃ id,
    create .absolute path structural = .ok id ∧
      (id.parts = ⟨normalize path, structural⟩ ↔
        ¬[':', ':'] <:+: structural.toList ∧ structural.toList.head? ≠ some ':') ∧
        ∀ other, create .absolute other structural = .ok id ↔ normalize path = normalize other := by
  refine ⟨ofParts (normalize path) structural, create_absolute h structural, ?_, fun other => ?_⟩
  · rw [parts_ofParts_iff]
    exact ⟨fun hplain => ⟨hplain.inside, hplain.start⟩, fun hplain => ⟨hplain.1, hplain.2⟩⟩
  · rw [create_absolute_eq_ok_iff, ofParts_inj]
    refine ⟨fun heq => heq.2, fun heq => ⟨?_, heq⟩⟩
    rw [← heq]
    exact Path.isAbsolute_normalize h

/-- A file whose name has a separator in it and ends with half of one more. -/
theorem absolute_exact_colons : isAbsolute "C:\\app\\..\\a::b:" = true ∧ ∃ id,
    create .absolute "C:\\app\\..\\a::b:" "queries.q$1" = .ok id ∧ id.parts = ⟨"C:/a::b:", "queries.q$1"⟩ ∧
      create .absolute "C:/./a::b:" "queries.q$1" = .ok id ∧ create .absolute "C:/a::b" "queries.q$1" ≠ .ok id := by
  have habsolute : isAbsolute "C:\\app\\..\\a::b:" = true := by decide
  have hnormal : normalize "C:\\app\\..\\a::b:" = "C:/a::b:" := by decide +kernel
  obtain ⟨id, hid, hparts, hsame⟩ := absolute_exact habsolute "queries.q$1"
  rw [hnormal] at hparts hsame
  refine ⟨habsolute, id, hid, hparts.2 ⟨by decide, by decide⟩, (hsame _).2 (by decide +kernel), fun heq => ?_⟩
  exact absurd ((hsame _).1 heq) (by decide +kernel)

end CanonicalId

/-! ### The way from one place to another -/

namespace Path

open Disk (name IsPlace IsName Place)

/-- A segment that is read as a drive where a path begins with it. -/
def IsDrive (s : Segment) : Prop := ∃ c : Char, c.isAlpha = true ∧ s = [c, ':']

/-- What a way leads down: names, none of which is a drive. -/
structure IsWay (down : List Segment) : Prop where
  names : ∀ s ∈ down, IsName s
  noDrive : ∀ s ∈ down, ¬IsDrive s

variable {down up : List Segment} {place root : Place}

/-- A way as a path. -/
def wayText (parts : List Segment) : List Char := if parts.isEmpty then ['.'] else joinWith slash parts

theorem mem_steps {s : Segment} (h : s ∈ steps down up) : s = ['.', '.'] ∨ s ∈ down := by
  rcases List.mem_append.1 h with h | h
  · obtain ⟨-, -, rfl⟩ := List.mem_map.1 h
    exact .inl rfl
  · exact .inr h

theorem slash_not_mem_steps (h : IsWay down) {s : Segment} (hs : s ∈ steps down up) : '/' ∉ s := by
  rcases mem_steps hs with rfl | hs
  · decide
  · exact (h.names s hs).slash

theorem splitOn_wayText (h : IsWay down) :
    splitOn '/' (wayText (steps down up)) =
      if (steps down up).isEmpty then [['.']] else steps down up := by
  by_cases hnil : steps down up = []
  · rw [hnil]
    rfl
  · rw [wayText, if_neg (by simpa using hnil), if_neg (by simpa using hnil)]
    exact Text.splitOn_joinWith hnil fun s hs => slash_not_mem_steps h hs

theorem wayText_plain (h : IsWay down) : '\\' ∉ wayText (steps down up) := by
  by_cases hnil : steps down up = []
  · rw [hnil]
    decide
  · rw [wayText, if_neg (by simpa using hnil)]
    refine not_mem_joinWith (by decide) fun s hs => ?_
    rcases mem_steps hs with rfl | hs
    · decide
    · exact (h.names s hs).backslash

theorem unify_wayText (h : IsWay down) :
    unify (String.ofList (wayText (steps down up))) = wayText (steps down up) := by
  have hplain : '\\' ∉ (String.ofList (wayText (steps down up))).toList := by
    rw [String.toList_ofList]
    exact wayText_plain h
  rw [unify_of_plain hplain, String.toList_ofList]

theorem splitRoot_segment {s tail : List Char} (hne : s ≠ []) (hslash : '/' ∉ s) (hdrive : ¬IsDrive s)
    (htail : ∀ c ∈ tail.head?, c = '/') : splitRoot (s ++ tail) = ([], s ++ tail) := by
  obtain ⟨c, s, rfl⟩ := List.exists_cons_of_ne_nil hne
  have hc : c ≠ '/' := fun hc => hslash (hc ▸ List.mem_cons_self ..)
  cases s with
  | nil =>
      cases tail with
      | nil => simp [splitRoot, hc]
      | cons d tail =>
          obtain rfl : d = '/' := htail d rfl
          simp [splitRoot, hc]
  | cons d s =>
      have hd : d ≠ '/' := fun hd => hslash (hd ▸ by simp)
      by_cases hcolon : d = ':'
      · subst hcolon
        cases s with
        | nil =>
            have halpha : c.isAlpha = false := by
              by_contra halpha
              exact hdrive ⟨c, by simpa using halpha, rfl⟩
            cases tail with
            | nil => simp [splitRoot, halpha]
            | cons e tail =>
                obtain rfl : e = '/' := htail e rfl
                simp [splitRoot, halpha]
        | cons e s =>
            have he : e ≠ '/' := fun he => hslash (he ▸ by simp)
            simp [splitRoot, hc, he]
      · simp [splitRoot, hc, hcolon]

theorem splitRoot_joinWith {s : Segment} {parts : List Segment} (hne : s ≠ []) (hslash : '/' ∉ s)
    (hdrive : ¬IsDrive s) : splitRoot (joinWith slash (s :: parts)) = ([], joinWith slash (s :: parts)) := by
  obtain ⟨tail, hjoin, htail⟩ := exists_joinWith_cons s parts
  rw [hjoin, splitRoot_segment hne hslash hdrive htail]

theorem splitRoot_wayText (h : IsWay down) :
    splitRoot (wayText (steps down up)) = ([], wayText (steps down up)) := by
  cases hsteps : steps down up with
  | nil => rfl
  | cons s rest =>
      have hs : s ∈ steps down up := hsteps ▸ List.mem_cons_self ..
      have hne : s ≠ [] ∧ ¬IsDrive s := by
        rcases mem_steps hs with rfl | hs
        · refine ⟨by simp, ?_⟩
          rintro ⟨c, -, hc⟩
          simp at hc
        · exact ⟨(h.names s hs).ne_nil, h.noDrive s hs⟩
      exact splitRoot_joinWith hne.1 (slash_not_mem_steps h hs) hne.2

theorem not_isAbsolute_wayText (h : IsWay down) :
    isAbsolute (String.ofList (wayText (steps down up))) = false := by
  rw [isAbsolute, unify_wayText h, splitRoot_wayText h]
  rfl

theorem foldl_push_ups (n : Nat) (h : IsPlace place) :
    (List.replicate n ['.', '.']).foldl (push true) place = place.drop n := by
  induction n generalizing place with
  | zero => rfl
  | succ n ih =>
      rw [List.replicate_succ, List.foldl_cons, Disk.push_up h,
        ih fun s hs => h s (List.mem_of_mem_tail hs), List.drop_tail]

theorem steps_eq (down up : List Segment) :
    steps down up = List.replicate up.length ['.', '.'] ++ down := by
  rw [steps, List.map_const']

/-- Climbing up from a place and down again. -/
theorem foldl_push_steps (h : IsWay down) (hroot : IsPlace root) :
    (splitOn '/' (wayText (steps down up))).foldl (push true) root =
      down.reverse ++ root.drop up.length := by
  rw [splitOn_wayText h]
  by_cases hnil : steps down up = []
  · have hempty : up = [] ∧ down = [] := by simpa [steps] using hnil
    rw [hnil, hempty.1, hempty.2]
    rfl
  · rw [if_neg (by simpa using hnil), steps_eq, List.foldl_append, foldl_push_ups _ hroot,
      Disk.foldl_push_names h.names]

theorem foldl_push_false_ups (n m : Nat) :
    (List.replicate n ['.', '.']).foldl (push false) (List.replicate m ['.', '.']) =
      List.replicate (n + m) ['.', '.'] := by
  induction n generalizing m with
  | zero => simp
  | succ n ih =>
      have hpush : push false (List.replicate m ['.', '.']) ['.', '.'] =
          List.replicate (m + 1) ['.', '.'] := by
        cases m <;> rfl
      rw [List.replicate_succ, List.foldl_cons, hpush, ih, Nat.add_right_comm, Nat.add_assoc]

theorem foldl_push_false_names {segments kept : List Segment} (h : ∀ s ∈ segments, IsName s) :
    segments.foldl (push false) kept = segments.reverse ++ kept := by
  induction segments generalizing kept with
  | nil => rfl
  | cons s rest ih =>
      have hs := h s (by simp)
      have hpush : push false kept s = s :: kept := by
        rw [push.eq_def, if_neg (by simp [hs.ne_nil, hs.ne_here]), if_neg hs.ne_up]
      rw [List.foldl_cons, hpush, ih fun t ht => h t (List.mem_cons_of_mem s ht)]
      simp

/-- Steps up and names behind them are kept as they are. -/
theorem resolveSegments_climb (h : ∀ s ∈ down, IsName s) (n : Nat) :
    resolveSegments false (List.replicate n ['.', '.'] ++ down) = List.replicate n ['.', '.'] ++ down := by
  rw [resolveSegments, List.foldl_append, ← List.replicate_zero, foldl_push_false_ups, foldl_push_false_names h]
  simp

theorem ite_joinWith (h : IsWay down) :
    (if (joinWith slash (steps down up)).isEmpty then ['.'] else joinWith slash (steps down up)) =
      wayText (steps down up) := by
  cases hsteps : steps down up with
  | nil => rfl
  | cons s rest =>
      have hne : s ≠ [] := by
        rcases mem_steps (hsteps ▸ List.mem_cons_self : s ∈ steps down up) with rfl | hs
        · simp
        · exact (h.names s hs).ne_nil
      have hjoin : (joinWith slash (s :: rest)).isEmpty = false := by cases rest <;> simp [joinWith, hne]
      rw [hjoin, wayText, if_neg (by simp), if_neg (by simp)]

/-- A way is normal as it is. -/
theorem normalize_wayText (h : IsWay down) :
    normalize (String.ofList (wayText (steps down up))) = String.ofList (wayText (steps down up)) := by
  have hsegments : resolveSegments false (splitOn '/' (wayText (steps down up))) = steps down up := by
    rw [splitOn_wayText h]
    by_cases hnil : steps down up = []
    · rw [hnil]
      rfl
    · rw [if_neg (by simpa using hnil), steps_eq, resolveSegments_climb h.names]
  rw [normalize, unify_wayText h, normalizeChars, splitRoot_wayText h]
  simp only [List.isEmpty_nil, Bool.not_true, hsegments, Bool.true_and, List.nil_append, ite_joinWith h]

/-- The way from a root to a place. -/
theorem exists_way (hplace : IsPlace place) (hroot : IsPlace root)
    (hdrive : ∀ s ∈ place, ¬IsDrive s) : ∃ down up, IsWay down ∧
      relativeTo (name place) (name root) = String.ofList (wayText (steps down up)) ∧
        down.reverse ++ root.drop up.length = place := by
  obtain ⟨common, hl, hm⟩ := dropCommon_spec place.reverse root.reverse
  have hrelative : relativeTo (name place) (name root) =
      String.ofList (wayText (steps (dropCommon place.reverse root.reverse).1
        (dropCommon place.reverse root.reverse).2)) := by
    rw [relativeTo, segments_name hplace, segments_name hroot, wayText, apply_ite String.ofList]
    rfl
  generalize dropCommon place.reverse root.reverse = q at hl hm hrelative
  obtain ⟨down, up⟩ := q
  have hmem : ∀ s ∈ down, s ∈ place := fun s hs =>
    List.mem_reverse.1 (hl ▸ List.mem_append_right _ hs)
  refine ⟨down, up, ⟨fun s hs => hplace s (hmem s hs), fun s hs => hdrive s (hmem s hs)⟩, hrelative, ?_⟩
  have hplace' := congrArg List.reverse hl
  have hroot' := congrArg List.reverse hm
  rw [List.reverse_reverse, List.reverse_append] at hplace' hroot'
  rw [hroot', ← List.length_reverse, List.drop_left, hplace']

/-- The way from a root to a place, followed from the root, leads to the place. -/
theorem join_way (h : IsWay down) (hroot : IsPlace root) :
    join (name root) (String.ofList (wayText (steps down up))) =
      name (down.reverse ++ root.drop up.length) := by
  have hunify : unify (name root ++ "/" ++ String.ofList (wayText (steps down up))) =
      '/' :: (joinWith slash root.reverse ++ '/' :: wayText (steps down up)) := by
    have hplain : '\\' ∉ (name root ++ "/" ++ String.ofList (wayText (steps down up))).toList := by
      simpa [(rooted_name hroot).plain] using wayText_plain h
    rw [unify_of_plain hplain]
    simp [name, slash]
  rw [join, not_isAbsolute_wayText h, if_neg (by simp), normalize_of_unify hunify, placeOf,
    Text.splitOn_append_sep, List.foldl_append, (Disk.splitOn_name hroot).2.1, foldl_push_steps h hroot]

end Path

/-! ### Ids seen from a root -/

namespace CanonicalId

open Path (normalize IsDrive)
open Disk (name IsPlace)

variable {root path structural : String}

/-- The id of a file as seen from a root: it is relative and stands for the absolute id, its file part
leads to it again, and the file parts of two files differ unless the files are the same. -/
theorem relative_portable (hroot : ∃ rest, root.toList = '/' :: rest)
    (hpath : ∃ rest, path.toList = '/' :: rest) (hdrive : ∀ s ∈ Path.segments path, ¬IsDrive s)
    (hstructural : IsPlain structural) : ∃ relative absolute,
      create (.relativeTo root) path structural = .ok relative ∧
        create .absolute path structural = .ok absolute ∧
          relative.isRelative = true ∧ relative.resolve root = absolute ∧
            create (.relativeTo root) relative.file structural = .ok relative ∧
              ∀ other, (∃ rest, other.toList = '/' :: rest) →
                (fileKey (.relativeTo root) path = fileKey (.relativeTo root) other ↔
                  normalize path = normalize other) := by
  obtain ⟨place, hplace, hname⟩ := Path.exists_place hpath
  obtain ⟨rootPlace, hrootPlace, hrootName⟩ := Path.exists_place hroot
  have hdrive' : ∀ s ∈ place, ¬IsDrive s := by
    intro s hs
    refine hdrive s ?_
    have hsame : Path.segments path = Path.segments (name place) := by
      rw [Path.segments, Path.segments, hname, Path.normalize_name hplace]
    rw [hsame, Path.segments_name hplace]
    exact List.mem_reverse.2 hs
  obtain ⟨down, up, hway, hrelative, hback⟩ := Path.exists_way hplace hrootPlace hdrive'
  have hseen := filePart_of_name (.relativeTo root) hplace hname
  have hwhole := filePart_of_name .absolute hplace hname
  simp only [hrootName, hrelative] at hseen
  have hjoin := @Path.join_way down up _ hway hrootPlace
  rw [hback] at hjoin
  generalize hw : String.ofList (Path.wayText (Path.steps down up)) = way at hrelative hseen hjoin
  have habsolute : Path.isAbsolute way = false := hw ▸ Path.not_isAbsolute_wayText hway
  have hnormal : normalize way = way := hw ▸ Path.normalize_wayText hway
  have hfile : (ofParts way structural).file = way := hstructural.file_ofParts way
  refine ⟨ofParts way structural, ofParts (name place) structural, ?_, ?_, ?_, ?_, ?_, ?_⟩
  · rw [create, hseen]
    rfl
  · rw [create, hwhole]
    rfl
  · rw [isRelative, hfile, habsolute]
    rfl
  · rw [resolve, isRelative, hfile, habsolute, hrootName, hjoin, hstructural.structural_ofParts]
    rfl
  · have hagain : filePart (.relativeTo root) way = .ok way := by
      rw [filePart.eq_def]
      simp only [hnormal, habsolute, hrootName, hjoin, hrelative, Bool.false_eq_true, if_false]
    rw [hfile, create, hagain]
    rfl
  · intro other hother
    obtain ⟨place', hplace', hname'⟩ := Path.exists_place hother
    rw [fileKey_eq, fileKey_eq, filePart_of_name _ hplace hname, filePart_of_name _ hplace' hname',
      hname, hname']
    constructor
    · intro heq
      rw [Path.relativeTo_inj hplace hplace' _ (Except.ok.inj heq)]
    · intro heq
      rw [heq]

/-- A file beside the root, on whose way a folder is left. -/
theorem relative_portable_beside : ∃ relative absolute,
    create (.relativeTo "/app/web") "/app/./lib//C:x/a.ts" "queries.a$1" = .ok relative ∧
      create .absolute "/app/./lib//C:x/a.ts" "queries.a$1" = .ok absolute ∧
        relative.isRelative = true ∧ relative.resolve "/app/web" = absolute ∧
          create (.relativeTo "/app/web") relative.file "queries.a$1" = .ok relative ∧
            ∀ other, (∃ rest, other.toList = '/' :: rest) →
              (fileKey (.relativeTo "/app/web") "/app/./lib//C:x/a.ts" =
                  fileKey (.relativeTo "/app/web") other ↔
                normalize "/app/./lib//C:x/a.ts" = normalize other) := by
  refine relative_portable ⟨_, rfl⟩ ⟨_, rfl⟩ ?_ ⟨by decide, by decide⟩
  have hsegments : Path.segments "/app/./lib//C:x/a.ts" =
      [['a', 'p', 'p'], ['l', 'i', 'b'], ['C', ':', 'x'], ['a', '.', 't', 's']] := by decide +kernel
  rw [hsegments]
  rintro s hs ⟨c, -, rfl⟩
  simp at hs

end CanonicalId
end StaticGql
