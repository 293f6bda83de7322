import StaticGql.Proofs.Path.Normal

/-!
Which paths are absolute once they are normal. The absolute ones stay so. Of the others the normal form begins
with the first name that is left of them, and where this name is a drive it is read as a root. Absolute ids are
made from exactly these paths.
-/

namespace StaticGql.Path

open Text (splitOn joinWith)

variable {p : String} {segments above below kept parts : List Segment} {s last : Segment} {rooted : Bool}

/-! ### One segment on the stack -/

theorem push_up_up (kept : List Segment) :
    push false (['.', '.'] :: kept) ['.', '.'] = ['.', '.'] :: ['.', '.'] :: kept := rfl

/-- A step up out of a path without a root is never taken back. -/
theorem up_mem_push (h : ['.', '.'] ∈ kept) (s : Segment) : ['.', '.'] ∈ push false kept s := by
  by_cases hs : Counts s
  · by_cases hup : s = ['.', '.']
    · subst hup
      obtain ⟨last, rest, rfl⟩ := List.exists_cons_of_ne_nil (List.ne_nil_of_mem h)
      by_cases hlast : last = ['.', '.']
      · rw [hlast, push_up_up]
        exact List.mem_cons_self
      · rw [push_up_cons hlast]
        exact (List.mem_cons.1 h).resolve_left (Ne.symm hlast)
    · rw [push_counts hs hup]
      exact List.mem_cons_of_mem s h
  · rwa [push_here hs]

theorem up_mem_foldl_push (h : ['.', '.'] ∈ kept) (segments : List Segment) :
    ['.', '.'] ∈ segments.foldl (push false) kept := by
  induction segments generalizing kept with
  | nil => exact h
  | cons s rest ih => exact ih (up_mem_push h s)

theorem push_append (h : ['.', '.'] ∉ push false kept s) (below : List Segment) :
    push false (kept ++ below) s = push false kept s ++ below := by
  by_cases hs : Counts s
  · by_cases hup : s = ['.', '.']
    · subst hup
      cases kept with
      | nil => exact absurd List.mem_cons_self h
      | cons last rest =>
          by_cases hlast : last = ['.', '.']
          · rw [hlast, push_up_up] at h
            exact absurd List.mem_cons_self h
          · rw [List.cons_append, push_up_cons hlast, push_up_cons hlast]
    · rw [push_counts hs hup, push_counts hs hup, List.cons_append]
  · rw [push_here hs, push_here hs]

/-- What never climbs out of the segments that are kept leaves those below them alone. -/
theorem foldl_push_append (h : ['.', '.'] ∉ segments.foldl (push false) kept) (below : List Segment) :
    segments.foldl (push false) (kept ++ below) = segments.foldl (push false) kept ++ below := by
  induction segments generalizing kept with
  | nil => rfl
  | cons s rest ih =>
      have hpush : ['.', '.'] ∉ push false kept s := fun hmem => h (up_mem_foldl_push hmem rest)
      rw [List.foldl_cons, List.foldl_cons, push_append hpush, ih h]

/-! ### What comes to the front -/

/-- What stands before the segment is gone in the end, and what comes behind it does not climb over it. -/
def Surfaces (s : Segment) (segments : List Segment) : Prop :=
  ∃ before after, segments = before ++ s :: after ∧ resolveSegments false before = [] ∧
    ['.', '.'] ∉ resolveSegments false after

theorem foldl_push_eq_of_surfaces (hs : Counts s) (hup : s ≠ ['.', '.']) (h : Surfaces s segments) :
    ∃ above, segments.foldl (push false) [] = above ++ [s] := by
  obtain ⟨before, after, rfl, hbefore, hafter⟩ := h
  rw [resolveSegments, List.reverse_eq_nil_iff] at hbefore
  rw [resolveSegments, List.mem_reverse] at hafter
  refine ⟨after.foldl (push false) [], ?_⟩
  rw [List.foldl_append, hbefore, List.foldl_cons, push_counts hs hup]
  exact foldl_push_append hafter [s]

/-- Below a step up there are only steps up. -/
theorem pairwise_push (h : kept.Pairwise fun upper lower => upper = ['.', '.'] → lower = ['.', '.']) (s : Segment) :
    (push false kept s).Pairwise fun upper lower => upper = ['.', '.'] → lower = ['.', '.'] := by
  by_cases hs : Counts s
  · by_cases hup : s = ['.', '.']
    · subst hup
      cases kept with
      | nil => exact List.pairwise_singleton ..
      | cons last rest =>
          by_cases hlast : last = ['.', '.']
          · subst hlast
            rw [push_up_up]
            refine List.pairwise_cons.2 ⟨fun t ht _ => ?_, h⟩
            rcases List.mem_cons.1 ht with rfl | ht
            · rfl
            · exact List.rel_of_pairwise_cons h ht rfl
          · rw [push_up_cons hlast]
            exact h.of_cons
    · rw [push_counts hs hup]
      exact List.pairwise_cons.2 ⟨fun _ _ heq => absurd heq hup, h⟩
  · rwa [push_here hs]

theorem up_not_mem_of_foldl_push (hup : s ≠ ['.', '.']) (h : segments.foldl (push false) [] = above ++ [s]) :
    ['.', '.'] ∉ above := by
  have hpairwise := List.foldlRecOn (motive := fun kept : List Segment =>
    kept.Pairwise fun upper lower => upper = ['.', '.'] → lower = ['.', '.']) segments (push false) .nil
      fun kept hkept s _ => pairwise_push hkept s
  rw [h, List.pairwise_append] at hpairwise
  exact fun hmem => hup (hpairwise.2.2 _ hmem s List.mem_cons_self rfl)

/-- The lowest segment on the stack, if it is no step up, came to lie there when the stack was empty. -/
theorem exists_of_foldl_push (hup : s ≠ ['.', '.']) (h : segments.foldl (push false) [] = above ++ [s]) :
    Counts s ∧ ∃ before after, segments = before ++ s :: after ∧ before.foldl (push false) [] = [] ∧
      after.foldl (push false) [] = above := by
  induction segments using List.reverseRecOn generalizing above with
  | nil => simp at h
  | append_singleton init t ih =>
      rw [List.foldl_append, List.foldl_cons, List.foldl_nil] at h
      -- If the stack ended in `s` before `t` came, `t` is one more of the segments behind it.
      have hlater : ∀ {above'}, init.foldl (push false) [] = above' ++ [s] → push false above' t = above →
          Counts s ∧ ∃ before after, init ++ [t] = before ++ s :: after ∧ before.foldl (push false) [] = [] ∧
            after.foldl (push false) [] = above := by
        intro above' hinit hpush
        obtain ⟨hs, before, after, rfl, hbefore, hafter⟩ := ih hinit
        refine ⟨hs, before, after ++ [t], by simp, hbefore, ?_⟩
        rw [List.foldl_append, hafter, List.foldl_cons, List.foldl_nil, hpush]
      by_cases ht : Counts t
      · by_cases htup : t = ['.', '.']
        · subst htup
          cases hinit : init.foldl (push false) [] with
          | nil =>
              rw [hinit] at h
              obtain ⟨-, heq⟩ := List.append_inj' (show [] ++ [['.', '.']] = above ++ [s] from h) rfl
              exact absurd (List.cons.inj heq).1.symm hup
          | cons last rest =>
              rw [hinit] at h
              by_cases hlast : last = ['.', '.']
              · -- A step up would stand above `s`.
                have hall : (init ++ [['.', '.']]).foldl (push false) [] = above ++ [s] := by
                  rwa [List.foldl_append, hinit]
                have hnot := up_not_mem_of_foldl_push hup hall
                rw [hlast, push_up_up] at h
                cases above with
                | nil => cases h
                | cons top above' => exact absurd ((List.cons.inj h).1 ▸ List.mem_cons_self) hnot
              · rw [push_up_cons hlast] at h
                exact hlater (hinit.trans (congrArg (last :: ·) h)) (push_up_cons hlast false above)
        · rw [push_counts ht htup] at h
          cases above with
          | nil =>
              obtain ⟨rfl, hinit⟩ := List.cons.inj h
              exact ⟨ht, init, [], rfl, hinit, rfl⟩
          | cons top above' =>
              obtain ⟨rfl, hinit⟩ := List.cons.inj h
              exact hlater hinit (push_counts ht htup false above')
      · rw [push_here ht] at h
        exact hlater h (push_here ht false above)

theorem head?_resolveSegments_iff (hup : s ≠ ['.', '.']) :
    (resolveSegments false segments).head? = some s ↔ Counts s ∧ Surfaces s segments := by
  rw [resolveSegments, List.head?_reverse, List.getLast?_eq_some_iff]
  constructor
  · rintro ⟨above, h⟩
    obtain ⟨hs, before, after, hsegments, hbefore, hafter⟩ := exists_of_foldl_push hup h
    refine ⟨hs, before, after, hsegments, by rw [resolveSegments, hbefore, List.reverse_nil], ?_⟩
    rw [resolveSegments, hafter, List.mem_reverse]
    exact up_not_mem_of_foldl_push hup h
  · rintro ⟨hs, hsurfaces⟩
    exact foldl_push_eq_of_surfaces hs hup hsurfaces

/-! ### What is read as a root -/

theorem IsDrive.counts (h : IsDrive s) : Counts s := by
  obtain ⟨c, -, rfl⟩ := h
  exact ⟨by simp, by simp⟩

theorem IsDrive.ne_up (h : IsDrive s) : s ≠ ['.', '.'] := by
  obtain ⟨c, -, rfl⟩ := h
  simp

/-- Of joined segments the first one is read as a root, if it is a drive. -/
theorem splitRoot_joinWith_eq_nil_iff (hne : s ≠ []) (hslash : '/' ∉ s) :
    (splitRoot (joinWith slash (s :: parts))).1 = [] ↔ ¬IsDrive s := by
  constructor
  · rintro hroot ⟨c, hc, rfl⟩
    cases parts with
    | nil =>
        rw [joinWith, splitRoot_drive hc] at hroot
        cases hroot
    | cons t parts =>
        have hjoin : joinWith slash ([c, ':'] :: t :: parts) = [c, ':', '/'] ++ joinWith slash (t :: parts) := by
          rw [joinWith_cons_cons]
          rfl
        rw [hjoin, (IsTop.drive hc).splitRoot_append] at hroot
        cases hroot
  · intro hdrive
    rw [splitRoot_joinWith hne hslash hdrive]

/-- A drive comes to the front of the path. -/
def Uncovers (p : String) : Prop := ∃ drive, IsDrive drive ∧ Surfaces drive (splitOn '/' (unify p))

theorem isAbsolute_normalize_iff (p : String) :
    isAbsolute (normalize p) = true ↔ isAbsolute p = true ∨ Uncovers p := by
  by_cases habsolute : isAbsolute p = true
  · exact iff_of_true (isAbsolute_normalize habsolute) (.inl habsolute)
  rw [or_iff_right habsolute]
  have hroot : splitRoot (unify p) = ([], unify p) := by
    rcases splitRoot_cases (unify p) with hroot | ⟨c, hc, heq⟩ | ⟨root, rest, htop, heq⟩
    · exact hroot
    · simp [isAbsolute, heq, splitRoot_drive hc] at habsolute
    · rw [isAbsolute, heq, htop.splitRoot_append] at habsolute
      cases htop <;> simp at habsolute
  have hfront : Uncovers p ↔ ∃ s ∈ (resolveSegments false (splitOn '/' (unify p))).head?, IsDrive s := by
    constructor
    · rintro ⟨drive, hdrive, hsurfaces⟩
      exact ⟨drive, (head?_resolveSegments_iff hdrive.ne_up).2 ⟨hdrive.counts, hsurfaces⟩, hdrive⟩
    · rintro ⟨s, hs, hdrive⟩
      exact ⟨s, hdrive, ((head?_resolveSegments_iff hdrive.ne_up).1 hs).2⟩
  have hparts : ∀ s ∈ resolveSegments false (splitOn '/' (unify p)), s ≠ [] ∧ '/' ∉ s := fun s hs =>
    ⟨(mem_resolveSegments hs).2, (Text.not_mem_of_mem_splitOn (mem_resolveSegments hs).1).1⟩
  rw [hfront, isAbsolute, unify_normalize, normalizeChars_of_splitRoot hroot]
  cases hresolve : resolveSegments false (splitOn '/' (unify p)) with
  | nil => simp [joinWith, splitRoot]
  | cons s parts =>
      rw [hresolve] at hparts
      obtain ⟨hne, hslash⟩ := hparts s List.mem_cons_self
      have hfilled : joinWith slash (s :: parts) ≠ [] :=
        mt (joinWith_eq_nil_iff fun t ht => (hparts t ht).1).1 (List.cons_ne_nil s parts)
      have hjoin : (splitRoot (joinWith slash (s :: parts))).1 = [] ↔ ¬IsDrive s :=
        splitRoot_joinWith_eq_nil_iff hne hslash
      simp [hfilled, hjoin]

end StaticGql.Path

namespace StaticGql.CanonicalId

open Path (normalize isAbsolute Uncovers)

/-- An absolute path stays one. A path without a root gets one exactly if a drive comes to its front, and absolute
ids are made from these as from absolute paths; every other path is refused. -/
theorem create_absolute_exact (path structural : String) :
    (isAbsolute (normalize path) = true ↔ isAbsolute path = true ∨ Uncovers path) ∧
      (create .absolute path structural = .ok (ofParts (normalize path) structural) ↔
        isAbsolute path = true ∨ Uncovers path) ∧
      ((∃ e, create .absolute path structural = .error e ∧ e = .requiresAbsolutePath (normalize path) ∧
          e.code = "REQUIRES_ABSOLUTE_PATH") ↔ isAbsolute path = false ∧ ¬Uncovers path) := by
  have hrefused : isAbsolute path = false ∧ ¬Uncovers path ↔ ¬isAbsolute (normalize path) = true := by
    rw [Path.isAbsolute_normalize_iff, not_or, Bool.not_eq_true]
  rw [hrefused, ← Path.isAbsolute_normalize_iff]
  refine ⟨Iff.rfl, ?_, ?_⟩
  · rw [create_absolute_eq_ok_iff]
    exact and_iff_left rfl
  · rw [create, filePart.eq_def]
    cases habsolute : isAbsolute (normalize path) with
    | true => simp [Except.map, habsolute]
    | false => simp [Except.map, habsolute, IdError.code]

/-- Behind a dot a folder is named like a drive: the path has no root, and an id is made from it. -/
theorem create_absolute_drive : isAbsolute "./C:/a.ts" = false ∧ isAbsolute (normalize "./C:/a.ts") = true ∧
    create .absolute "./C:/a.ts" "a" = .ok ⟨"C:/a.ts::a"⟩ := by
  decide +kernel

end StaticGql.CanonicalId
