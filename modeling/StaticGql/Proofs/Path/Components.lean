import Mathlib.Data.List.TakeWhile
import StaticGql.Proofs.Path

/-!
Paths by their components. What a path has below a base depends on the components of the base alone; a
path from the root has those of its normal form unless it climbs.
-/

namespace StaticGql

open Path (Segment slash)

namespace Disk

instance : DecidablePred IsName := fun s =>
  decidable_of_iff (s ≠ [] ∧ s ≠ ['.'] ∧ s ≠ ['.', '.'] ∧ '/' ∉ s ∧ '\\' ∉ s)
    ⟨fun h => ⟨h.1, h.2.1, h.2.2.1, h.2.2.2.1, h.2.2.2.2⟩,
      fun h => ⟨h.ne_nil, h.ne_here, h.ne_up, h.slash, h.backslash⟩⟩

instance : DecidablePred IsPlace := fun _ => inferInstanceAs (Decidable (∀ _ ∈ _, _))

end Disk

namespace Path

open Disk (name IsPlace IsName)
open Text (splitOn joinWith)

variable {root root' p : String} {place base : Disk.Place} {s : Segment} {segments parts : List Segment}
  {cs rest : List Char}

/-! ### Segments written out -/

/-- Every segment with a slash behind it. -/
def laid (segments : List Segment) : List Char := segments.flatMap (· ++ slash)

theorem laid_cons (s : Segment) (segments : List Segment) : laid (s :: segments) = s ++ '/' :: laid segments := by
  simp [laid, slash]

theorem laid_splitOn (cs rest : List Char) : laid (splitOn '/' cs) ++ rest = cs ++ '/' :: rest := by
  induction cs with
  | nil => rfl
  | cons c cs ih =>
      rw [splitOn]
      by_cases hc : c = '/'
      · rw [if_pos hc, laid_cons, List.nil_append, List.cons_append, ih, hc, List.cons_append]
      · rw [if_neg hc]
        cases hsplit : splitOn '/' cs with
        | nil => exact absurd hsplit (Text.splitOn_ne_nil '/' cs)
        | cons first more =>
            rw [hsplit, laid_cons] at ih
            rw [laid_cons, List.cons_append, List.cons_append, ih, List.cons_append]

theorem joinWith_append (segments : List Segment) (hparts : parts ≠ []) :
    joinWith slash (segments ++ parts) = laid segments ++ joinWith slash parts := by
  induction segments with
  | nil => rfl
  | cons s more ih =>
      obtain ⟨s', more', heq⟩ : ∃ s' more', more ++ parts = s' :: more' :=
        List.exists_cons_of_ne_nil (by simp [hparts])
      rw [List.cons_append, heq, joinWith_cons_cons, ← heq, ih, laid_cons, List.append_assoc, List.cons_append]

theorem splitOn_laid (h : ∀ s ∈ segments, '/' ∉ s) (rest : List Char) :
    splitOn '/' (laid segments ++ rest) = segments ++ splitOn '/' rest := by
  induction segments with
  | nil => rfl
  | cons s more ih =>
      obtain ⟨hs, hmore⟩ := List.forall_mem_cons.1 h
      rw [laid_cons, List.append_assoc, List.cons_append, Text.splitOn_append hs, ih hmore, List.cons_append]

/-! ### Components -/

/-- The segment makes a component. -/
def Counts (s : Segment) : Prop := s ≠ [] ∧ s ≠ ['.']

instance : DecidablePred Counts := fun _ => inferInstanceAs (Decidable (_ ∧ _))

theorem Counts.of_isName (h : IsName s) : Counts s := ⟨h.ne_nil, h.ne_here⟩

theorem bodySegments_eq (cs : List Char) : bodySegments cs = (splitOn '/' cs).filter Counts := rfl

theorem bodySegments_laid (h : ∀ s ∈ segments, '/' ∉ s) (rest : List Char) :
    bodySegments (laid segments ++ rest) = segments.filter Counts ++ bodySegments rest := by
  rw [bodySegments_eq, splitOn_laid h, List.filter_append, bodySegments_eq]

theorem bodySegments_joinWith (h : ∀ s ∈ parts, IsName s) : bodySegments (joinWith slash parts) = parts := by
  cases parts with
  | nil => rfl
  | cons s more =>
      rw [bodySegments_eq]
      have hsplit : splitOn '/' (joinWith slash (s :: more)) = s :: more :=
        Text.splitOn_joinWith (by simp) fun s' hs' => (h s' hs').slash
      rw [hsplit, List.filter_eq_self]
      exact fun s' hs' => decide_eq_true (Counts.of_isName (h s' hs'))

theorem toList_name (place : Disk.Place) : (name place).toList = '/' :: joinWith slash place.reverse := by
  rw [name, String.toList_ofList]
  rfl

theorem components_name (h : IsPlace place) : components (name place).toList = slash :: place.reverse := by
  rw [toList_name, components, bodySegments_joinWith fun s hs => h s (List.mem_reverse.1 hs)]

theorem name_inj (h : IsPlace place) (h' : IsPlace base) (heq : name place = name base) : place = base := by
  have hcomponents := components_name h
  rw [heq, components_name h', List.cons.injEq] at hcomponents
  exact List.reverse_injective hcomponents.2.symm

theorem push_here (h : ¬Counts s) (rooted : Bool) (kept : List Segment) : push rooted kept s = kept := by
  rw [push.eq_def, if_pos]
  rwa [Counts, not_and_or, not_not, not_not] at h

theorem push_counts (h : Counts s) (hup : s ≠ ['.', '.']) (rooted : Bool) (kept : List Segment) :
    push rooted kept s = s :: kept := by
  rw [push.eq_def, if_neg (not_or.2 h), if_neg hup]

theorem push_up_cons {last : Segment} (h : last ≠ ['.', '.']) (rooted : Bool) (kept : List Segment) :
    push rooted (last :: kept) ['.', '.'] = kept := by
  simp [push, h]

/-- Segments that do not climb are kept, those that count. -/
theorem foldl_push_level (h : ['.', '.'] ∉ segments.filter Counts) (kept : List Segment) :
    segments.foldl (push true) kept = (segments.filter Counts).reverse ++ kept := by
  induction segments generalizing kept with
  | nil => rfl
  | cons s more ih =>
      rw [List.foldl_cons]
      by_cases hs : Counts s
      · rw [List.filter_cons, if_pos (decide_eq_true hs)] at h ⊢
        rw [List.mem_cons, not_or] at h
        rw [push_counts hs (Ne.symm h.1), ih h.2]
        simp
      · rw [List.filter_cons, if_neg (by simpa using hs)] at h ⊢
        rw [push_here hs, ih h]

/-- The path has no component that climbs. -/
def Level (p : String) : Prop := ['.', '.'] ∉ components p.toList

instance : DecidablePred Level := fun _ => inferInstanceAs (Decidable (_ ∉ _))

theorem components_normalize (h : Rooted p) (hlevel : Level p) :
    components (normalize p).toList = components p.toList := by
  obtain ⟨rest, hrest⟩ := h.start
  have hunify : unify p = '/' :: rest := by rw [unify_of_plain h.plain, hrest]
  have hplain : '\\' ∉ rest := fun hmem => h.plain (hrest ▸ List.mem_cons_of_mem _ hmem)
  have hcomponents : components p.toList = slash :: bodySegments rest := by rw [hrest, components]
  have hnot : ['.', '.'] ∉ bodySegments rest := by
    rw [Level, hcomponents] at hlevel
    exact fun hmem => hlevel (List.mem_cons_of_mem _ hmem)
  have hplace : placeOf rest = (bodySegments rest).reverse := by
    rw [placeOf, foldl_push_level hnot, List.append_nil, bodySegments_eq]
  rw [normalize_of_unify hunify, components_name (isPlace_placeOf hplain), hplace, List.reverse_reverse, hcomponents]

/-! ### Below a base -/

theorem below?_congr (h : components root.toList = components root'.toList) (p : String) :
    below? root p = below? root' p := by
  rw [below?, below?, belowChars?.eq_def, belowChars?.eq_def, h]

theorem below?_rooted {cs' : List Char} (hroot : root.toList = '/' :: cs) (hp : p.toList = '/' :: cs') :
    below? root p = if (bodySegments cs).isPrefixOf (bodySegments cs') then
      some (String.ofList (trimEnd (dropComponents (bodySegments cs).length cs'))) else none := by
  rw [below?, belowChars?.eq_def, hroot, hp]
  simp only [components, List.isPrefixOf, beq_self_eq_true, Bool.true_and]
  split <;> rfl

theorem trimFront_counts (hs : Counts s) (hslash : '/' ∉ s) (rest : List Char) :
    trimFront (s ++ rest) = s ++ rest := by
  obtain ⟨c, s, rfl⟩ := List.exists_cons_of_ne_nil hs.1
  have hc : c ≠ '/' := fun hc => hslash (hc ▸ List.mem_cons_self)
  rw [List.cons_append, trimFront.eq_def]
  split
  · rename_i heq
    exact absurd (List.cons.inj heq).1 hc
  · rename_i heq
    obtain ⟨rfl, htail⟩ := List.cons.inj heq
    cases s with
    | nil => exact absurd rfl hs.2
    | cons c' s =>
        have hc' : c' = '/' := (List.cons.inj htail).1
        exact absurd (by simp [hc']) hslash
  · rename_i heq
    obtain ⟨rfl, htail⟩ := List.cons.inj heq
    exact absurd (by rw [(List.append_eq_nil_iff.1 htail).1]) hs.2
  · rfl

theorem trimBack_counts (hs : Counts s) (hslash : '/' ∉ s) (rest : List Char) : trimBack (s ++ rest) = s ++ rest := by
  obtain ⟨c, s, rfl⟩ := List.exists_cons_of_ne_nil hs.1
  have hc : c ≠ '/' := fun hc => hslash (hc ▸ List.mem_cons_self)
  rw [List.cons_append, trimBack.eq_def]
  split
  · rename_i heq
    exact absurd (List.cons.inj heq).1 hc
  · rename_i heq
    obtain ⟨rfl, htail⟩ := List.cons.inj heq
    cases s with
    | nil => exact absurd rfl hs.2
    | cons c' s =>
        have hc' : c' = '/' := (List.cons.inj htail).1
        exact absurd (by simp [hc']) hslash
  · rfl

theorem dropComponents_nil (n : Nat) : dropComponents n [] = [] := by
  induction n with
  | zero => rfl
  | succ n ih => exact ih

theorem dropComponents_slash (n : Nat) (cs : List Char) : dropComponents n ('/' :: cs) = dropComponents n cs := by
  cases n <;> rfl

theorem dropComponents_dot (n : Nat) (cs : List Char) :
    dropComponents n ('.' :: '/' :: cs) = dropComponents n cs := by
  cases n <;> rfl

theorem dropComponents_counts (hs : Counts s) (hslash : '/' ∉ s) (n : Nat) (cs : List Char) :
    dropComponents (n + 1) (s ++ '/' :: cs) = dropComponents n cs := by
  have hdrop : (s ++ '/' :: cs).dropWhile (· ≠ '/') = '/' :: cs := by
    rw [List.dropWhile_append_of_pos]
    · rfl
    · intro c hc
      have hne : c ≠ '/' := fun heq => hslash (heq ▸ hc)
      simpa using hne
  rw [dropComponents, trimFront_counts hs hslash, hdrop, dropComponents_slash]

theorem dropComponents_laid (h : ∀ s ∈ segments, '/' ∉ s) (rest : List Char) :
    dropComponents (segments.filter Counts).length (laid segments ++ rest) = trimFront rest := by
  induction segments with
  | nil => rfl
  | cons s more ih =>
      obtain ⟨hs, hmore⟩ := List.forall_mem_cons.1 h
      rw [laid_cons, List.append_assoc, List.cons_append]
      by_cases hcounts : Counts s
      · rw [List.filter_cons, if_pos (decide_eq_true hcounts), List.length_cons, dropComponents_counts hcounts hs,
          ih hmore]
      · rw [List.filter_cons, if_neg (by simpa using hcounts)]
        rw [Counts, not_and_or, not_not, not_not] at hcounts
        rcases hcounts with rfl | rfl
        · rw [List.nil_append, dropComponents_slash, ih hmore]
        · rw [List.cons_append, List.nil_append, dropComponents_dot, ih hmore]

/-- Names joined have nothing to trim. -/
theorem trim_joinWith (h : ∀ s ∈ parts, IsName s) :
    trimFront (joinWith slash parts) = joinWith slash parts ∧
      trimEnd (joinWith slash parts) = joinWith slash parts := by
  cases parts with
  | nil => exact ⟨rfl, rfl⟩
  | cons s more =>
      constructor
      · obtain ⟨rest, hjoin, -⟩ := exists_joinWith_cons s more
        rw [hjoin, trimFront_counts (.of_isName (h s (by simp))) (h s (by simp)).slash]
      · obtain ⟨front, last, hlast⟩ := List.eq_nil_or_concat (s :: more) |>.resolve_left (by simp)
        rw [hlast, List.concat_eq_append] at h ⊢
        have hname := h last (by simp)
        have hcounts : Counts last.reverse :=
          ⟨by simpa using hname.ne_nil, fun heq => hname.ne_here (by rw [← List.reverse_reverse last, heq]; rfl)⟩
        rw [joinWith_append front (by simp), joinWith, trimEnd, List.reverse_append,
          trimBack_counts hcounts (by simpa using hname.slash), ← List.reverse_append, List.reverse_reverse]

theorem dropComponents_joinWith (h : ∀ s ∈ parts, IsName s) (n : Nat) :
    dropComponents n (joinWith slash parts) = joinWith slash (parts.drop n) := by
  induction n generalizing parts with
  | zero => exact (trim_joinWith h).1
  | succ n ih =>
      cases parts with
      | nil => exact dropComponents_nil (n + 1)
      | cons s more =>
          obtain ⟨hs, hmore⟩ := List.forall_mem_cons.1 h
          cases more with
          | nil =>
              have hdrop : s.dropWhile (· ≠ '/') = [] := by
                rw [List.dropWhile_eq_nil_iff]
                intro c hc
                have hne : c ≠ '/' := fun heq => hs.slash (heq ▸ hc)
                simpa using hne
              rw [dropComponents, (trim_joinWith h).1]
              show dropComponents n (s.dropWhile (· ≠ '/')) = joinWith slash ([].drop n)
              rw [hdrop, dropComponents_nil, List.drop_nil]
              rfl
          | cons s' more =>
              rw [joinWith_cons_cons, dropComponents_counts (.of_isName hs) hs.slash, ih hmore, List.drop_succ_cons]

/-- Below the name of a place there are the names of the places in it. -/
theorem below?_name (hbase : IsPlace base) {found : Disk.Place} (hfound : IsPlace found) {rel : String} :
    below? (name base) (name found) = some rel ↔
      ∃ place, found = place ++ base ∧ rel = String.ofList (joinWith slash place.reverse) := by
  have hnames : ∀ {place : Disk.Place}, IsPlace place → ∀ s ∈ place.reverse, IsName s :=
    fun h s hs => h s (List.mem_reverse.1 hs)
  rw [below?_rooted (toList_name base) (toList_name found), bodySegments_joinWith (hnames hbase),
    bodySegments_joinWith (hnames hfound)]
  have hrel : ∀ place, found = place ++ base →
      trimEnd (dropComponents base.reverse.length (joinWith slash found.reverse)) = joinWith slash place.reverse := by
    rintro place rfl
    have hplace : IsPlace place := fun s hs => hfound s (List.mem_append_left base hs)
    rw [dropComponents_joinWith (hnames hfound), List.reverse_append, List.drop_left, (trim_joinWith (hnames hplace)).2]
  constructor
  · intro h
    split at h
    · rename_i hprefix
      obtain ⟨parts, hparts⟩ := List.isPrefixOf_iff_prefix.1 hprefix
      have heq : found = parts.reverse ++ base := by
        rw [← List.reverse_reverse found, ← hparts]
        simp
      rw [hrel _ heq] at h
      exact ⟨parts.reverse, heq, (Option.some.inj h).symm⟩
    · cases h
  · rintro ⟨place, rfl, rfl⟩
    have hprefix : base.reverse.isPrefixOf (place ++ base).reverse = true := by
      rw [List.isPrefixOf_iff_prefix, List.reverse_append]
      exact List.prefix_append _ _
    rw [if_pos hprefix, hrel place rfl]

/-- No normal path is below a base that climbs. -/
theorem below?_of_not_level (hroot : Rooted root) (hclimbs : ¬Level root) (h : IsPlace place) :
    below? root (name place) = none := by
  obtain ⟨rest, hrest⟩ := hroot.start
  rw [below?_rooted hrest (toList_name place), if_neg]
  intro hprefix
  rw [Level, not_not, hrest, components, List.mem_cons] at hclimbs
  have hup := (List.isPrefixOf_iff_prefix.1 hprefix).subset (hclimbs.resolve_left (by decide))
  rw [bodySegments_joinWith fun s hs => h s (List.mem_reverse.1 hs), List.mem_reverse] at hup
  exact (h _ hup).ne_up rfl

/-! ### Walking down from a base -/

/-- A base and what is put below it, as segments written out. -/
theorem exists_laid_append (hroot : root.toList = '/' :: cs) {rel : String} (hrel : startsAtRoot rel = false) :
    ∃ segments, (∀ s ∈ segments, '/' ∉ s) ∧ (append root rel).toList = '/' :: (laid segments ++ rel.toList) ∧
      (splitOn '/' cs = segments ∨ splitOn '/' cs = segments ++ [[]]) := by
  have hslash : ∀ {cs}, ∀ s ∈ splitOn '/' cs, '/' ∉ s := fun s hs => (Text.not_mem_of_mem_splitOn hs).1
  have hne : root.isEmpty = false := by
    rw [Bool.eq_false_iff, ne_eq, String.isEmpty_iff]
    rintro rfl
    cases hroot
  rw [append, if_neg (by simp [hrel]), hne, Bool.false_or]
  by_cases hlast : root.toList.getLast? = some '/'
  · rw [if_pos (by simpa using hlast), String.toList_append, hroot]
    rcases List.eq_nil_or_concat cs with rfl | ⟨front, c, rfl⟩
    · exact ⟨[], by simp, rfl, .inr rfl⟩
    · rw [hroot, List.concat_eq_append, ← List.cons_append, List.getLast?_concat, Option.some.injEq] at hlast
      subst hlast
      refine ⟨splitOn '/' front, hslash, ?_, .inr ?_⟩
      · rw [laid_splitOn]
        simp
      · rw [List.concat_eq_append, Text.splitOn_append_sep]
        rfl
  · rw [if_neg (by simpa using hlast), String.toList_append, String.toList_append, hroot]
    refine ⟨splitOn '/' cs, hslash, ?_, .inl rfl⟩
    rw [laid_splitOn]
    simp

theorem startsAtRoot_joinWith (h : ∀ s ∈ parts, IsName s) :
    startsAtRoot (String.ofList (joinWith slash parts)) = false := by
  rw [startsAtRoot, String.toList_ofList, decide_eq_false_iff_not]
  intro hhead
  cases parts with
  | nil => cases hhead
  | cons s more =>
      have hs := h s List.mem_cons_self
      obtain ⟨tail, hjoin, -⟩ := exists_joinWith_cons s more
      rw [hjoin] at hhead
      obtain ⟨c, s, rfl⟩ := List.exists_cons_of_ne_nil hs.ne_nil
      obtain rfl : c = '/' := Option.some.inj hhead
      exact hs.slash List.mem_cons_self

/-- A base that is put in front is taken off again, however it is spelled. -/
theorem below?_append (hroot : ∃ cs, root.toList = '/' :: cs) (hplace : IsPlace place) :
    below? root (append root (String.ofList (joinWith slash place.reverse))) =
      some (String.ofList (joinWith slash place.reverse)) := by
  have hnames : ∀ s ∈ place.reverse, IsName s := fun s hs => hplace s (List.mem_reverse.1 hs)
  obtain ⟨cs, hcs⟩ := hroot
  obtain ⟨segments, hslash, happend, hsegments⟩ := exists_laid_append hcs (startsAtRoot_joinWith hnames)
  have hbody : bodySegments cs = segments.filter Counts := by
    rw [bodySegments_eq]
    rcases hsegments with h | h
    · rw [h]
    · rw [h, List.filter_append]
      exact List.append_nil _
  rw [String.toList_ofList] at happend
  rw [below?_rooted hcs happend, bodySegments_laid hslash, hbody, if_pos, dropComponents_laid hslash,
    (trim_joinWith hnames).1, (trim_joinWith hnames).2]
  rw [List.isPrefixOf_iff_prefix]
  exact List.prefix_append _ _

theorem foldl_push_joinWith (h : ∀ s ∈ parts, IsName s) (base : Disk.Place) :
    (splitOn '/' (joinWith slash parts)).foldl (push true) base = parts.reverse ++ base := by
  cases parts with
  | nil => rfl
  | cons s more =>
      have hsplit : splitOn '/' (joinWith slash (s :: more)) = s :: more :=
        Text.splitOn_joinWith (by simp) fun s' hs' => (h s' hs').slash
      rw [hsplit, Disk.foldl_push_names h]

theorem plain_append {q : String} (hp : '\\' ∉ p.toList) (hq : '\\' ∉ q.toList) : '\\' ∉ (append p q).toList := by
  rw [append]
  split
  · exact hq
  · split
    · rw [String.toList_append, List.mem_append, not_or]
      exact ⟨hp, hq⟩
    · rw [String.toList_append, String.toList_append, List.mem_append, List.mem_append, not_or, not_or]
      exact ⟨⟨hp, by decide⟩, hq⟩

/-- A path behind a root is followed from the place that the root is. -/
theorem normalize_append (hroot : Rooted root) (hbase : normalize root = name base) (hb : IsPlace base)
    {rel : String} (hrel : startsAtRoot rel = false) (hplain : '\\' ∉ rel.toList) :
    normalize (append root rel) = name ((splitOn '/' rel.toList).foldl (push true) base) := by
  obtain ⟨cs, hcs⟩ := hroot.start
  obtain ⟨segments, hslash, happend, hsegments⟩ := exists_laid_append hcs hrel
  have hcsPlain : '\\' ∉ cs := fun hmem => hroot.plain (hcs ▸ List.mem_cons_of_mem _ hmem)
  have hfold : segments.foldl (push true) [] = base := by
    have hunify : unify root = '/' :: cs := by rw [unify_of_plain hroot.plain, hcs]
    have hplaceOf : placeOf cs = base :=
      name_inj (isPlace_placeOf hcsPlain) hb (by rw [← normalize_of_unify hunify, hbase])
    rw [← hplaceOf, placeOf]
    rcases hsegments with h | h
    · rw [h]
    · rw [h, List.foldl_append]
      rfl
  have hunify : unify (append root rel) = '/' :: (laid segments ++ rel.toList) := by
    rw [unify_of_plain (plain_append hroot.plain hplain), happend]
  rw [normalize_of_unify hunify, placeOf, splitOn_laid hslash, List.foldl_append, hfold]

theorem normalize_append_joinWith (hroot : Rooted root) (hbase : normalize root = name base) (hb : IsPlace base)
    (hplace : IsPlace place) :
    normalize (append root (String.ofList (joinWith slash place.reverse))) = name (place ++ base) := by
  have hnames : ∀ s ∈ place.reverse, IsName s := fun s hs => hplace s (List.mem_reverse.1 hs)
  rw [normalize_append hroot hbase hb (startsAtRoot_joinWith hnames), String.toList_ofList,
    foldl_push_joinWith hnames, List.reverse_reverse]
  rw [String.toList_ofList]
  exact not_mem_joinWith (by decide) fun s hs => (hnames s hs).backslash

end Path
end StaticGql
