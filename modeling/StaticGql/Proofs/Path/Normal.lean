import Mathlib.Logic.Relation
import StaticGql.Proofs.Path.Relative

/-!
The normal form of paths, by its shape. What has the shape is normal as it is, and every path is brought to it,
also one that is seen from a folder and whose first name is then read as a drive. Below a root paths are normal
by parts, and the way up from one leaves its last name each time, so it ends at the root.
-/

namespace StaticGql.Path

open Disk (IsPlace IsName Place)
open Text (splitOn joinWith)

variable {p q : String} {cs root rest : List Char} {place above : Place}
  {parts down segments kept : List Segment} {s segment : Segment}

/-! ### Roots -/

/-- A root by itself. -/
inductive IsRoot : List Char → Prop
  | slash : IsRoot ['/']
  | drive {c : Char} (h : c.isAlpha = true) : IsRoot [c, ':']
  | driveSlash {c : Char} (h : c.isAlpha = true) : IsRoot [c, ':', '/']

/-- A root behind which a path goes on. -/
inductive IsTop : List Char → Prop
  | slash : IsTop ['/']
  | drive {c : Char} (h : c.isAlpha = true) : IsTop [c, ':', '/']

theorem IsTop.isRoot (h : IsTop root) : IsRoot root := by
  cases h with
  | slash => exact .slash
  | drive h => exact .driveSlash h

theorem ne_slash_of_isAlpha {c : Char} (h : c.isAlpha = true) : c ≠ '/' := by
  rintro rfl
  cases h

theorem IsRoot.plain (h : IsRoot root) : '\\' ∉ root := by
  have hletter : ∀ {c : Char}, c.isAlpha = true → '\\' ≠ c := by
    rintro _ h rfl
    cases h
  cases h with
  | slash => decide
  | drive h => simp [hletter h]
  | driveSlash h => simp [hletter h]

theorem IsTop.splitRoot_append (h : IsTop root) (rest : List Char) : splitRoot (root ++ rest) = (root, rest) := by
  cases h with
  | slash => rfl
  | drive h => simp [splitRoot, h, ne_slash_of_isAlpha h]

theorem splitRoot_drive {c : Char} (h : c.isAlpha = true) : splitRoot [c, ':'] = ([c, ':'], []) := by
  simp [splitRoot, h, ne_slash_of_isAlpha h]

/-- A path has no root, or is a drive by itself, or goes on behind its root. -/
theorem splitRoot_cases (cs : List Char) : splitRoot cs = ([], cs) ∨
    (∃ c : Char, c.isAlpha = true ∧ cs = [c, ':']) ∨ ∃ root rest, IsTop root ∧ cs = root ++ rest := by
  fun_cases splitRoot cs with
  | case1 rest => exact .inr (.inr ⟨_, rest, .slash, rfl⟩)
  | case2 c _ halpha => exact .inr (.inl ⟨c, halpha, rfl⟩)
  | case4 c rest _ halpha => exact .inr (.inr ⟨_, rest, .drive halpha, rfl⟩)
  | _ => exact .inl rfl

/-! ### The shape of a normal path -/

/-- A path with names behind its root. Without a root some steps up may come in front of them, and a dot stands
where there would be nothing. -/
structure IsNormal (cs : List Char) : Prop where
  ne_nil : cs ≠ []
  plain : '\\' ∉ cs
  shape : cs = ['.'] ∨ ∃ up down, (splitRoot cs).2 = joinWith slash (List.replicate up ['.', '.'] ++ down) ∧
    (∀ s ∈ down, IsName s) ∧ ((splitRoot cs).1 ≠ [] → up = 0)

theorem climb_cases {up : Nat} (h : s ∈ List.replicate up ['.', '.'] ++ down) : s = ['.', '.'] ∨ s ∈ down :=
  (List.mem_append.1 h).imp_left fun h => (List.mem_replicate.1 h).2

/-- No segment of a climb is cut by a slash, stands for one, or is empty. -/
theorem climb_spec (h : ∀ s ∈ down, IsName s) (up : Nat) :
    ∀ s ∈ List.replicate up ['.', '.'] ++ down, s ≠ [] ∧ '/' ∉ s ∧ '\\' ∉ s := by
  intro s hs
  rcases climb_cases hs with rfl | hs
  · decide
  · exact ⟨(h s hs).ne_nil, (h s hs).slash, (h s hs).backslash⟩

theorem normalizeChars_of_splitRoot (h : splitRoot cs = ([], cs)) :
    normalizeChars cs =
      let joined := joinWith slash (resolveSegments false (splitOn '/' cs))
      if joined.isEmpty then ['.'] else joined := by
  rw [normalizeChars, h]
  rfl

theorem normalizeChars_top (h : IsTop root) (rest : List Char) :
    normalizeChars (root ++ rest) = root ++ joinWith slash (placeOf rest).reverse := by
  rw [normalizeChars, h.splitRoot_append]
  cases h <;> rfl

theorem normalizeChars_drive {c : Char} (h : c.isAlpha = true) : normalizeChars [c, ':'] = [c, ':'] := by
  rw [normalizeChars, splitRoot_drive h]
  rfl

theorem placeOf_name (h : IsPlace place) : placeOf (joinWith slash place.reverse) = place :=
  (Disk.splitOn_name h).2.1

/-- What has the shape of a normal path is left as it is. -/
theorem IsNormal.normalizeChars_eq (h : IsNormal cs) : normalizeChars cs = cs := by
  rcases h.shape with rfl | ⟨up, down, hrest, hdown, hup⟩
  · rfl
  rcases splitRoot_cases cs with hroot | ⟨c, hc, rfl⟩ | ⟨root, rest, htop, rfl⟩
  · have hrest : cs = joinWith slash (List.replicate up ['.', '.'] ++ down) := by simpa only [hroot] using hrest
    have hparts : List.replicate up ['.', '.'] ++ down ≠ [] := by
      intro hnil
      apply h.ne_nil
      rw [hrest, hnil]
      rfl
    have hsplit : splitOn '/' cs = List.replicate up ['.', '.'] ++ down := by
      rw [hrest]
      exact Text.splitOn_joinWith hparts fun s hs => (climb_spec hdown up s hs).2.1
    rw [normalizeChars_of_splitRoot hroot, hsplit, resolveSegments_climb hdown, ← hrest]
    exact if_neg (by simpa using h.ne_nil)
  · exact normalizeChars_drive hc
  · simp only [htop.splitRoot_append] at hrest hup
    have hroot : root ≠ [] := by cases htop <;> simp
    have hplace : IsPlace down.reverse := fun s hs => hdown s (List.mem_reverse.1 hs)
    rw [hup hroot, List.replicate_zero, List.nil_append, ← List.reverse_reverse down] at hrest
    rw [normalizeChars_top htop, hrest, placeOf_name hplace]

/-! ### Every path is brought to that shape -/

theorem isNormal_top (htop : IsTop root) (h : IsPlace place) :
    IsNormal (root ++ joinWith slash place.reverse) where
  ne_nil := by cases htop <;> simp
  plain := by
    rw [List.mem_append, not_or]
    exact ⟨htop.isRoot.plain, not_mem_joinWith (by decide) fun s hs => (h s (List.mem_reverse.1 hs)).backslash⟩
  shape := by
    rw [htop.splitRoot_append]
    exact .inr ⟨0, place.reverse, rfl, fun s hs => h s (List.mem_reverse.1 hs), fun _ => rfl⟩

theorem joinWith_eq_nil_iff (h : ∀ s ∈ parts, s ≠ []) : joinWith slash parts = [] ↔ parts = [] := by
  cases parts with
  | nil => simp [joinWith]
  | cons s parts =>
      obtain ⟨tail, hjoin, -⟩ := exists_joinWith_cons s parts
      simp [hjoin, h s List.mem_cons_self]

/-- What a path without a root leads to has no root either, unless its first name is a drive. -/
theorem isNormal_climb (hdown : ∀ s ∈ down, IsName s) (up : Nat)
    (hne : List.replicate up ['.', '.'] ++ down ≠ []) :
    IsNormal (joinWith slash (List.replicate up ['.', '.'] ++ down)) := by
  have hplain : '\\' ∉ joinWith slash (List.replicate up ['.', '.'] ++ down) :=
    not_mem_joinWith (by decide) fun s hs => (climb_spec hdown up s hs).2.2
  have hfilled : joinWith slash (List.replicate up ['.', '.'] ++ down) ≠ [] :=
    mt (joinWith_eq_nil_iff fun s hs => (climb_spec hdown up s hs).1).1 hne
  refine ⟨hfilled, hplain, .inr ?_⟩
  cases up with
  | succ up =>
      have hdrive : ¬IsDrive ['.', '.'] := by
        rintro ⟨c, -, hc⟩
        simp at hc
      rw [List.replicate_succ, List.cons_append, splitRoot_joinWith (by simp) (by decide) hdrive]
      exact ⟨up + 1, down, rfl, hdown, fun h => absurd rfl h⟩
  | zero =>
      rw [List.replicate_zero, List.nil_append] at hne ⊢
      obtain ⟨s, parts, rfl⟩ := List.exists_cons_of_ne_nil hne
      obtain ⟨hs, hparts⟩ := List.forall_mem_cons.1 hdown
      by_cases hdrive : IsDrive s
      · obtain ⟨c, hc, rfl⟩ := hdrive
        refine ⟨0, parts, ?_, hparts, fun _ => rfl⟩
        cases parts with
        | nil => exact congrArg Prod.snd (splitRoot_drive hc)
        | cons t parts =>
            exact congrArg Prod.snd ((IsTop.drive hc).splitRoot_append (joinWith slash (t :: parts)))
      · rw [splitRoot_joinWith hs.ne_nil hs.slash hdrive]
        exact ⟨0, s :: parts, rfl, hdown, fun h => absurd rfl h⟩

theorem mem_push {rooted : Bool} (h : s ∈ push rooted kept segment) : s ∈ kept ∨ s = segment ∧ segment ≠ [] := by
  rw [push.eq_def] at h
  split at h
  · exact .inl h
  · rename_i hkeep
    have hsegment : ∀ {l}, s ∈ segment :: l → l ⊆ kept → s ∈ kept ∨ s = segment ∧ segment ≠ [] := by
      intro l hs hl
      rcases List.mem_cons.1 hs with rfl | hs
      · exact .inr ⟨rfl, fun hnil => hkeep (.inl hnil)⟩
      · exact .inl (hl hs)
    split at h
    · cases kept with
      | nil =>
          cases rooted with
          | true => exact absurd h List.not_mem_nil
          | false => exact hsegment h (List.Subset.refl _)
      | cons last rest =>
          dsimp only at h
          split at h
          · cases rooted with
            | true => exact .inl h
            | false => exact hsegment h (List.Subset.refl _)
          · exact .inl (List.mem_cons_of_mem last h)
    · exact hsegment h (List.Subset.refl _)

theorem mem_resolveSegments {rooted : Bool} (h : s ∈ resolveSegments rooted segments) : s ∈ segments ∧ s ≠ [] := by
  rw [resolveSegments, List.mem_reverse] at h
  have hall : ∀ (segments kept : List Segment), s ∈ segments.foldl (push rooted) kept →
      s ∈ kept ∨ s ∈ segments ∧ s ≠ [] := by
    intro segments
    induction segments with
    | nil => exact fun _ h => .inl h
    | cons segment rest ih =>
        intro kept h
        rcases ih _ h with h | ⟨h, hne⟩
        · rcases mem_push h with h | ⟨rfl, hne⟩
          · exact .inl h
          · exact .inr ⟨List.mem_cons_self, hne⟩
        · exact .inr ⟨List.mem_cons_of_mem segment h, hne⟩
  exact (hall segments [] h).resolve_left List.not_mem_nil

theorem isNormal_normalizeChars (hplain : '\\' ∉ cs) : IsNormal (normalizeChars cs) := by
  have hsegments : ∀ {cs : List Char}, '\\' ∉ cs → ∀ s ∈ splitOn '/' cs, '\\' ∉ s := fun hcs s hs hmem =>
    hcs ((Text.not_mem_of_mem_splitOn hs).2 _ hmem)
  rcases splitRoot_cases cs with hroot | ⟨c, hc, rfl⟩ | ⟨root, rest, htop, rfl⟩
  · have hnowhere : IsPlace [] := fun _ h => absurd h List.not_mem_nil
    obtain ⟨names, up, hnames, -, hfold, -⟩ :=
      exists_foldl_push (fun s hs => (Text.not_mem_of_mem_splitOn hs).1) (hsegments hplain) hnowhere 0
    have hresolve : resolveSegments false (splitOn '/' cs) = List.replicate up ['.', '.'] ++ names.reverse := by
      rw [List.replicate_zero, List.append_nil] at hfold
      rw [resolveSegments, hfold, List.reverse_append, List.reverse_replicate]
    rw [normalizeChars_of_splitRoot hroot, hresolve]
    by_cases hne : List.replicate up ['.', '.'] ++ names.reverse = []
    · rw [hne]
      exact ⟨by decide, by decide, .inl rfl⟩
    · have hnormal := isNormal_climb (fun s hs => hnames s (List.mem_reverse.1 hs)) up hne
      have hfilled : (joinWith slash (List.replicate up ['.', '.'] ++ names.reverse)).isEmpty = false := by
        simpa using hnormal.ne_nil
      simpa only [hfilled, Bool.false_eq_true, if_false] using hnormal
  · rw [normalizeChars_drive hc]
    refine ⟨by simp, hplain, .inr ⟨0, [], ?_, by simp, fun _ => rfl⟩⟩
    rw [splitRoot_drive hc]
    rfl
  · rw [List.mem_append, not_or] at hplain
    rw [normalizeChars_top htop]
    exact isNormal_top htop (isPlace_placeOf hplain.2)

theorem toList_normalize (p : String) : (normalize p).toList = normalizeChars (unify p) := by
  rw [normalize, String.toList_ofList]

theorem unify_normalize (p : String) : unify (normalize p) = normalizeChars (unify p) := by
  have hplain := (isNormal_normalizeChars (backslash_not_mem_unify p)).plain
  rw [← toList_normalize] at hplain ⊢
  exact unify_of_plain hplain

theorem normalize_normalize (p : String) : normalize (normalize p) = normalize p := by
  rw [normalize, unify_normalize, (isNormal_normalizeChars (backslash_not_mem_unify p)).normalizeChars_eq, normalize]

/-! ### Going on behind a root -/

/-- What an absolute path is brought to: a drive by itself, or a place behind a root. -/
inductive IsAt : List Char → List Char → Place → Prop
  | drive {c : Char} (h : c.isAlpha = true) : IsAt [c, ':'] [c, ':'] []
  | top {root rest : List Char} (h : IsTop root) (hrest : '\\' ∉ rest) : IsAt (root ++ rest) root (placeOf rest)

theorem exists_isAt (h : isAbsolute p = true) : ∃ root place, IsAt (unify p) root place := by
  have hplain := backslash_not_mem_unify p
  rw [isAbsolute] at h
  rcases splitRoot_cases (unify p) with hroot | ⟨c, hc, heq⟩ | ⟨root, rest, htop, heq⟩
  · rw [hroot] at h
    cases h
  · rw [heq]
    exact ⟨_, _, .drive hc⟩
  · rw [heq, List.mem_append, not_or] at hplain
    rw [heq]
    exact ⟨_, _, .top htop hplain.2⟩

namespace IsAt

theorem isRoot (h : IsAt cs root place) : IsRoot root := by
  cases h with
  | drive h => exact .drive h
  | top h => exact h.isRoot

theorem isPlace (h : IsAt cs root place) : IsPlace place := by
  cases h with
  | drive => exact fun _ hs => absurd hs List.not_mem_nil
  | top _ hrest => exact isPlace_placeOf hrest

theorem normalizeChars_eq (h : IsAt cs root place) : normalizeChars cs = root ++ joinWith slash place.reverse := by
  cases h with
  | drive h => exact normalizeChars_drive h
  | top h => exact normalizeChars_top h _

/-- Its root is where a path is split. -/
theorem splitRoot_eq (h : IsAt cs root place) :
    splitRoot (root ++ joinWith slash place.reverse) = (root, joinWith slash place.reverse) := by
  cases h with
  | drive h => exact splitRoot_drive h
  | top h => exact h.splitRoot_append _

theorem toList_normalize (h : IsAt (unify p) root place) :
    (normalize p).toList = root ++ joinWith slash place.reverse := by
  rw [Path.toList_normalize, h.normalizeChars_eq]

end IsAt

theorem placeOf_append (cs more : List Char) :
    placeOf (cs ++ '/' :: more) = (splitOn '/' more).foldl (push true) (placeOf cs) := by
  rw [placeOf, Text.splitOn_append_sep, List.foldl_append, ← placeOf]

theorem normalizeChars_top_append (h : IsTop root) (rest more : List Char) :
    normalizeChars (root ++ rest ++ '/' :: more) =
      root ++ joinWith slash ((splitOn '/' more).foldl (push true) (placeOf rest)).reverse := by
  rw [List.append_assoc, normalizeChars_top h, placeOf_append]

/-- From an absolute path a path goes on where it goes on from its normal form. -/
theorem IsAt.normalizeChars_append (h : IsAt cs root place) (more : List Char) :
    normalizeChars (normalizeChars cs ++ '/' :: more) = normalizeChars (cs ++ '/' :: more) := by
  cases h with
  | drive h => rw [normalizeChars_drive h]
  | top h hrest =>
      rw [normalizeChars_top h, normalizeChars_top_append h, normalizeChars_top_append h,
        placeOf_name (isPlace_placeOf hrest)]

theorem unify_append (p q : String) : unify (p ++ q) = unify p ++ unify q := by
  rw [unify, String.toList_append, List.map_append]
  rfl

theorem unify_below (p q : String) : unify (p ++ "/" ++ q) = unify p ++ '/' :: unify q := by
  rw [unify_append, unify_append, List.append_assoc]
  rfl

theorem normalize_below (h : isAbsolute p = true) (q : String) :
    normalize (normalize p ++ "/" ++ q) = normalize (p ++ "/" ++ q) := by
  obtain ⟨root, place, hat⟩ := exists_isAt h
  rw [← String.toList_inj, toList_normalize, toList_normalize, unify_below, unify_below, unify_normalize,
    hat.normalizeChars_append]

/-! ### The way up -/

theorem IsRoot.splitRoot_eq (h : IsRoot root) : splitRoot root = (root, []) := by
  cases h with
  | slash => rfl
  | drive h => exact splitRoot_drive h
  | driveSlash h => exact (IsTop.drive h).splitRoot_append []

theorem length_joinWith_le (parts : List Segment) : (joinWith slash parts).length ≤ (laid parts).length := by
  induction parts with
  | nil => exact Nat.le_refl _
  | cons s parts ih =>
      rw [laid_cons, List.length_append, List.length_cons]
      cases parts with
      | nil => simp [joinWith]
      | cons t parts =>
          rw [joinWith_cons_cons, List.length_append, List.length_cons]
          omega

theorem length_joinWith_lt (h : s ≠ []) (place : Place) :
    (joinWith slash place.reverse).length < (joinWith slash (s :: place).reverse).length := by
  have hpos := List.length_pos_iff.2 h
  have hle := length_joinWith_le place.reverse
  rw [List.reverse_cons, joinWith_append place.reverse (by simp), List.length_append, joinWith]
  omega

namespace IsAt

theorem isRoot_iff (h : IsAt cs root place) : IsRoot (root ++ joinWith slash place.reverse) ↔ place = [] := by
  constructor
  · intro hroot
    have hsplit := hroot.splitRoot_eq
    rw [h.splitRoot_eq, Prod.mk.injEq] at hsplit
    simpa using (joinWith_eq_nil_iff fun s hs => (h.isPlace s (List.mem_reverse.1 hs)).ne_nil).1 hsplit.2
  · rintro rfl
    simpa [joinWith] using h.isRoot

/-- The way up leaves the last name. -/
theorem parent?_eq (h : IsAt (unify p) root place) :
    parent? p = if place = [] then none else some (String.ofList (root ++ joinWith slash place.tail.reverse)) := by
  have hname := fun s hs => h.isPlace s hs
  rw [parent?, h.normalizeChars_eq, h.splitRoot_eq]
  match place with
  | [] => rfl
  | [s] =>
      have hs := hname s List.mem_cons_self
      have hsplit : splitOn '/' s = [s] := Text.splitOn_of_not_mem hs.slash
      have hroot : root.isEmpty = false := by cases h.isRoot <;> rfl
      simp [joinWith, hsplit, hs.ne_nil, hroot]
  | s :: t :: above =>
      have hsplit : splitOn '/' (joinWith slash (s :: t :: above).reverse) = (s :: t :: above).reverse :=
        Text.splitOn_joinWith (by simp) fun u hu => (hname u (List.mem_reverse.1 hu)).slash
      rw [if_neg (by simp)]
      simp only [hsplit, List.reverse_reverse, List.tail_cons]

/-- Where there is a name behind it, a root is one behind which a path goes on. -/
theorem exists_rest (h : IsAt cs root (s :: above)) :
    IsTop root ∧ ∃ rest, cs = root ++ rest ∧ placeOf rest = s :: above := by
  generalize hplace : s :: above = place at h
  cases h with
  | drive => cases hplace
  | top h => exact ⟨h, _, rfl, rfl⟩

theorem toList_normalize_up (h : IsAt (unify p) root (s :: above)) :
    (normalize (p ++ "/..")).toList = root ++ joinWith slash above.reverse := by
  obtain ⟨htop, rest, hrest, hplace⟩ := h.exists_rest
  have hunify : unify (p ++ "/..") = root ++ rest ++ '/' :: ['.', '.'] := by
    rw [← hrest]
    exact unify_append p "/.."
  have hsplit : splitOn '/' ['.', '.'] = [['.', '.']] := rfl
  rw [Path.toList_normalize, hunify, normalizeChars_top_append htop, hplace, hsplit, List.foldl_cons, List.foldl_nil,
    Disk.push_up h.isPlace, List.tail_cons]

theorem parent?_cons (h : IsAt (unify p) root (s :: above)) : parent? p = some (normalize (p ++ "/..")) := by
  rw [h.parent?_eq, if_neg (by simp), List.tail_cons, ← h.toList_normalize_up, String.ofList_toList]

theorem length_up_lt (h : IsAt (unify p) root (s :: above)) :
    (normalize (p ++ "/..")).length < (normalize p).length := by
  have hlt := length_joinWith_lt (h.isPlace s List.mem_cons_self).ne_nil above
  rw [← String.length_toList, ← String.length_toList, h.toList_normalize_up, h.toList_normalize, List.length_append,
    List.length_append]
  omega

end IsAt

/-- One step on the way up. -/
def Up (p q : String) : Prop := parent? p = some q

theorem unify_ofList (h : '\\' ∉ cs) : unify (String.ofList cs) = cs := by
  rw [unify_of_plain (by rwa [String.toList_ofList]), String.toList_ofList]

theorem isAt_top (htop : IsTop root) (h : IsPlace place) : IsAt (root ++ joinWith slash place.reverse) root place := by
  have hjoin : '\\' ∉ joinWith slash place.reverse :=
    not_mem_joinWith (by decide) fun s hs => (h s (List.mem_reverse.1 hs)).backslash
  have hat := IsAt.top htop hjoin
  rwa [placeOf_name h] at hat

/-- From a place the way up ends at the root, by one step a name. -/
theorem reaches_root (htop : IsTop root) (h : IsPlace place) :
    Relation.ReflTransGen Up (String.ofList (root ++ joinWith slash place.reverse)) (String.ofList root) := by
  induction place with
  | nil => rw [List.reverse_nil, joinWith, List.append_nil]
  | cons s above ih =>
      have habove : IsPlace above := fun t ht => h t (List.mem_cons_of_mem s ht)
      have hat := isAt_top htop h
      rw [← unify_ofList (isNormal_top htop h).plain] at hat
      apply Relation.ReflTransGen.head _ (ih habove)
      exact hat.parent?_eq

theorem IsAt.reaches_root (h : IsAt (unify p) root place) :
    Relation.ReflTransGen Up (normalize p) (String.ofList root) := by
  rw [← String.ofList_toList (s := normalize p), h.toList_normalize]
  cases place with
  | nil => rw [List.reverse_nil, joinWith, List.append_nil]
  | cons s above => exact Path.reaches_root h.exists_rest.1 h.isPlace

theorem IsRoot.parent?_eq_none (h : IsRoot root) : parent? (String.ofList root) = none := by
  have hnormal : normalizeChars root = root := by
    cases h with
    | slash => rfl
    | drive h => exact normalizeChars_drive h
    | driveSlash h => exact normalizeChars_top (.drive h) []
  rw [parent?, unify_ofList h.plain, hnormal, h.splitRoot_eq]
  rfl

/-- Every path has one normal form, and it has the shape of one. An absolute path goes on from where its normal
form goes on. Unless it is a root, its parent is where one step up from it leads, and shorter; so the way up
ends at a root, which has no parent. -/
theorem normal_form (p : String) : normalize (normalize p) = normalize p ∧ IsNormal (normalize p).toList ∧
    (isAbsolute p = true → (∀ q, normalize (normalize p ++ "/" ++ q) = normalize (p ++ "/" ++ q)) ∧
      (parent? p = none ↔ IsRoot (normalize p).toList) ∧
      (¬IsRoot (normalize p).toList → parent? p = some (normalize (p ++ "/..")) ∧
        (normalize (p ++ "/..")).length < (normalize p).length) ∧
      ∃ root, (splitRoot (normalize p).toList).1 = root ∧ IsRoot root ∧
        Relation.ReflTransGen Up (normalize p) (String.ofList root) ∧ parent? (String.ofList root) = none) := by
  have hnormal : IsNormal (normalize p).toList := by
    rw [toList_normalize]
    exact isNormal_normalizeChars (backslash_not_mem_unify p)
  refine ⟨normalize_normalize p, hnormal, fun habsolute => ?_⟩
  obtain ⟨root, place, hat⟩ := exists_isAt habsolute
  have hisRoot : IsRoot (normalize p).toList ↔ place = [] := by rw [hat.toList_normalize, hat.isRoot_iff]
  have hsplit : (splitRoot (normalize p).toList).1 = root := by rw [hat.toList_normalize, hat.splitRoot_eq]
  refine ⟨normalize_below habsolute, ?_, fun hnot => ?_, root, hsplit, hat.isRoot, hat.reaches_root,
    hat.isRoot.parent?_eq_none⟩
  · rw [hisRoot, hat.parent?_eq]
    split <;> simp_all
  · obtain ⟨s, above, rfl⟩ := List.exists_cons_of_ne_nil (mt hisRoot.2 hnot)
    exact ⟨hat.parent?_cons, hat.length_up_lt⟩

theorem normal_form_drive : isAbsolute "C:\\..\\app\\.\\lib//a.ts" = true ∧
    normalize "C:\\..\\app\\.\\lib//a.ts" = "C:/app/lib/a.ts" ∧
      (∀ q, normalize ("C:/app/lib/a.ts" ++ "/" ++ q) = normalize ("C:\\..\\app\\.\\lib//a.ts" ++ "/" ++ q)) ∧
        parent? "C:\\..\\app\\.\\lib//a.ts" = some "C:/app/lib" ∧ Relation.ReflTransGen Up "C:/app/lib/a.ts" "C:/" := by
  have habsolute : isAbsolute "C:\\..\\app\\.\\lib//a.ts" = true := by decide
  have hnormal : normalize "C:\\..\\app\\.\\lib//a.ts" = "C:/app/lib/a.ts" := by decide +kernel
  have hup : normalize ("C:\\..\\app\\.\\lib//a.ts" ++ "/..") = "C:/app/lib" := by decide +kernel
  obtain ⟨hbelow, -, hparent, root, rfl, -, hreaches, -⟩ := (normal_form "C:\\..\\app\\.\\lib//a.ts").2.2 habsolute
  rw [hnormal] at hbelow hparent hreaches
  rw [hup] at hparent
  have hnot : ¬IsRoot "C:/app/lib/a.ts".toList := fun h => by
    have hsplit := h.splitRoot_eq
    revert hsplit
    decide
  exact ⟨habsolute, hnormal, hbelow, (hparent hnot).1, hreaches⟩

end StaticGql.Path
