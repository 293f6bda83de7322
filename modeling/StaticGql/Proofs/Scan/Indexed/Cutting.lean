import StaticGql.Proofs.Scan.Indexed.Table
import StaticGql.Proofs.Scan.Munch
import StaticGql.Proofs.Scan.Order
import StaticGql.Proofs.Text.Edits

/-!
Cutting a text by offsets. Every cut lies between two characters, and what is cut off are the tokens
of the text.
-/

namespace StaticGql.Scan

open Text

variable {text before pre cs rest : List Char} {previous : Option Token} {t u : Token} {n start index : Nat}
  {broken : Bool}

def Token.mark (t : Token) : Indexed.Mark := ⟨t.kind, t.start, t.stop⟩

@[simp] theorem Token.kind_mark (t : Token) : t.mark.kind = t.kind := rfl

namespace Indexed

theorem ok_bind {α β : Type} (a : α) (f : α → Checked β) : (Except.ok a >>= f) = f a := rfl

theorem pure_eq {α : Type} (a : α) : (pure a : Checked α) = .ok a := rfl

theorem given_ok {α : Type} (b : Bool) {m : Checked α} {a : α} (h : b = true → m = .ok a) (a' : α) :
    given b m a' = .ok (if b then a else a') := by
  rw [given]
  split
  · exact h ‹_›
  · rfl

theorem sliceFrom_append (before cs : List Char) : sliceFrom (before ++ cs) (byteSize before) = .ok cs := by
  rw [sliceFrom, dropBytes?_eq_some_iff.2 ⟨before, rfl, rfl⟩]

theorem sliceFrom_cons (c : Char) (cs : List Char) : sliceFrom (c :: cs) c.utf8Size = .ok cs :=
  sliceFrom_append [c] cs

theorem slice_append (before cs rest : List Char) :
    slice (before ++ (cs ++ rest)) (byteSize before) (byteSize before + byteSize cs) = .ok cs := by
  rw [slice, slice?_append]

theorem byteSize_take_run (p : Char → Bool) (cs : List Char) :
    byteSize (cs.take (run p cs)) = byteSize (cs.takeWhile p) := by
  rw [run, ← List.prefix_iff_eq_take.1 (List.takeWhile_prefix p)]

/-! ### What begins with a slash -/

theorem byteSize_take_toCommentEnd (cs : List Char) : byteSize (cs.take (toCommentEnd cs)) =
    match commentEnd? cs with
    | some n => n + 2
    | none => byteSize cs := by
  fun_induction toCommentEnd cs with
  | case1 cs => rfl
  | case2 c cs hend ih =>
      rw [commentEnd?.eq_2 _ _ hend, List.take_succ_cons, byteSize, ih]
      cases commentEnd? cs with
      | none => rfl
      | some n => exact (Nat.add_assoc _ _ _).symm
  | case3 => rfl

/-- The length in bytes of what is left of a regular expression behind `pre`. -/
def RegexLeft (inClass : Bool) (cs : List Char) : Prop :=
  ∀ pre, regexEnd? (pre ++ cs) (byteSize pre) inClass cs =
    .ok ((regexLength inClass cs).map fun n => byteSize pre + byteSize (cs.take n))

theorem RegexLeft.behind {inClass : Bool} (h : RegexLeft inClass cs) (pre w : List Char) :
    regexEnd? (pre ++ (w ++ cs)) (byteSize pre + byteSize w) inClass cs =
      .ok (((regexLength inClass cs).map (· + w.length)).map fun n =>
        byteSize pre + byteSize ((w ++ cs).take n)) := by
  have hw (n : Nat) : byteSize ((w ++ cs).take (n + w.length)) = byteSize w + byteSize (cs.take n) := by
    rw [Nat.add_comm n, List.take_length_add_append, byteSize_append]
  rw [← List.append_assoc, ← byteSize_append, h, Option.map_map]
  simp only [Function.comp_def, hw, byteSize_append, Nat.add_assoc]

theorem regexLeft (inClass : Bool) (cs : List Char) : RegexLeft inClass cs := by
  intro pre
  fun_induction regexLength inClass cs generalizing pre with
  | case1 => rfl
  | case2 inClass c cs hbreak => rw [regexEnd?, if_pos hbreak]; rfl
  | case3 inClass c cs hbreak ih =>
      rw [regexEnd?, if_neg hbreak, Nat.add_assoc]
      exact RegexLeft.behind ih pre ['\\', c]
  | case4 inClass c cs hescape hbreak => rw [regexEnd?.eq_3 _ _ _ _ _ hescape, if_pos hbreak]; rfl
  | case5 inClass c cs hescape hbreak hend =>
      obtain ⟨rfl, -⟩ : c = '/' ∧ inClass = false := by simpa using hend
      have hflags : sliceFrom (pre ++ '/' :: cs) (byteSize pre + 1) = .ok cs := by
        have h := sliceFrom_append (pre ++ ['/']) cs
        rwa [List.append_assoc, byteSize_append] at h
      rw [regexEnd?.eq_3 _ _ _ _ _ hescape, if_neg hbreak, if_pos hend, hflags, ok_bind, Nat.add_assoc,
        ← byteSize_take_run, Nat.add_comm 1 (run isWordPart cs)]
      rfl
  | case6 inClass c cs hescape hbreak hend ih =>
      rw [regexEnd?.eq_3 _ _ _ _ _ hescape, if_neg hbreak, if_neg hend]
      exact RegexLeft.behind ih pre [c]

/-- The text of the token before, if there is one, stands where that token says. -/
def Stands (text : List Char) (previous : Option Token) : Prop :=
  ∀ t ∈ previous, slice text t.start t.stop = .ok t.text.toList

theorem opensRegex_eq (h : Stands text previous) :
    opensRegex text (previous.map Token.mark) = .ok (regexAllowed previous) := by
  cases previous with
  | none => rfl
  | some t =>
      have ht := h t rfl
      rw [Option.map_some, opensRegex, regexAllowed, show t.mark = ⟨t.kind, t.start, t.stop⟩ from rfl]
      cases hk : t.kind <;> simp only [ht, ok_bind, pure_eq, String.ofList_toList]

theorem cutSlash_eq (h : Stands text previous) :
    cutSlash text cs (previous.map Token.mark) =
      .ok ((afterSlash previous cs).1, byteSize (cs.take (afterSlash previous cs).2)) := by
  rw [cutSlash]
  by_cases hline : cs.head? = some '/'
  · obtain ⟨rest, rfl⟩ : ∃ rest, cs = '/' :: rest := List.head?_eq_some_iff.1 hline
    rw [if_pos hline, afterSlash, toLineEnd, byteSize_take_run]
    rfl
  by_cases hblock : cs.head? = some '*'
  · obtain ⟨rest, rfl⟩ : ∃ rest, cs = '*' :: rest := List.head?_eq_some_iff.1 hblock
    have hinner : sliceFrom ('*' :: rest) 1 = .ok rest := sliceFrom_cons '*' rest
    rw [if_neg hline, if_pos hblock, hinner, ok_bind, afterSlash, Nat.add_comm 1]
    have hend := byteSize_take_toCommentEnd rest
    rw [pure_eq]
    refine congrArg (fun n => Except.ok (none, n)) ?_
    rw [List.take_succ_cons, show byteSize ('*' :: rest.take _) = 1 + byteSize (rest.take _) from rfl, hend]
    cases commentEnd? rest with
    | none => rfl
    | some n => exact Nat.add_comm (n + 2) 1
  · have hregex : given (regexAllowed previous) (regexEnd? cs 0 false cs) none =
        .ok ((if regexAllowed previous = true then regexLength false cs else none).map fun n => byteSize (cs.take n)) := by
      have hleft := regexLeft false cs []
      simp only [List.nil_append, byteSize, Nat.zero_add] at hleft
      rw [given_ok _ (fun _ => hleft), apply_ite (Option.map _)]
      rfl
    rw [if_neg hline, if_neg hblock, opensRegex_eq h, ok_bind, hregex, ok_bind, afterSlash.eq_3]
    · cases (if regexAllowed previous = true then regexLength false cs else none) with
      | some n => rfl
      | none =>
          by_cases hequals : cs.head? = some '='
          · obtain ⟨rest, rfl⟩ : ∃ rest, cs = '=' :: rest := List.head?_eq_some_iff.1 hequals
            rfl
          · simp only [Option.map_none, hequals, if_false, List.take_zero, byteSize]
            rfl
    · rintro rest rfl
      exact hline rfl
    · rintro rest rfl
      exact hblock rfl

/-! ### All tokens -/

theorem munch_slash (previous : Option Token) (cs : List Char) : munch previous '/' cs = afterSlash previous cs := by
  rw [munch, if_neg (by decide), if_neg (by decide +kernel), if_neg (by decide), if_neg (by decide)]
  simp

theorem munch_congr {c : Char} (hc : c ≠ '/') (previous previous' : Option Token) (cs : List Char) :
    munch previous c cs = munch previous' c cs := by
  simp only [munch, hc, if_false]

theorem cutOne_eq (h : Stands text previous) {c : Char} (htext : text = pre ++ c :: cs) :
    cutOne text (byteSize pre) (previous.map Token.mark) c cs =
      .ok ((munch previous c cs).1, byteSize (cs.take (munch previous c cs).2)) := by
  rw [cutOne]
  by_cases hc : c = '/'
  · subst hc
    have hrest : sliceFrom text (byteSize pre + 1) = .ok cs := by
      have hcut := sliceFrom_append (pre ++ ['/']) cs
      rwa [List.append_assoc, List.singleton_append, byteSize_append, ← htext] at hcut
    rw [if_pos rfl, hrest, ok_bind, cutSlash_eq h, munch_slash]
  · rw [if_neg hc, munch_congr hc previous none]

theorem cutFrom_cons (h : Stands text previous) {c : Char} {kind? : Option TokenKind}
    (htext : text = pre ++ c :: cs) (hmunch : munch previous c cs = (kind?, n)) (fuel : Nat) :
    cutFrom text (fuel + 1) (byteSize pre) (previous.map Token.mark) =
      let stop := byteSize pre + byteSize (c :: cs.take n)
      match kind? with
      | none => cutFrom text fuel stop (previous.map Token.mark)
      | some kind => do return ⟨kind, byteSize pre, stop⟩ :: (← cutFrom text fuel stop (some ⟨kind, byteSize pre, stop⟩)) := by
  have hrest : sliceFrom text (byteSize pre) = .ok (c :: cs) := htext ▸ sliceFrom_append pre (c :: cs)
  have hone := cutOne_eq h htext
  rw [hmunch] at hone
  rw [cutFrom, hrest, ok_bind]
  refine (congrArg (· >>= _) hone).trans ?_
  rw [ok_bind, byteSize, ← Nat.add_assoc]
  cases kind? <;> rfl

/-- The tokens behind `pre` are cut off as the text has them. -/
theorem cutFrom_eq {fuel : Nat} (htext : text = pre ++ cs) (hstart : start = byteSize pre)
    (h : Stands text previous) (hfuel : cs.length < fuel) :
    cutFrom text fuel start (previous.map Token.mark) =
      .ok ((tokensFrom start index previous broken cs).map Token.mark) := by
  obtain ⟨fuel, rfl⟩ : ∃ n, fuel = n + 1 := Nat.exists_eq_add_one.2 (by omega)
  fun_induction tokensFrom start index previous broken cs generalizing pre fuel with
  | case1 =>
      have hrest : sliceFrom text (byteSize pre) = .ok [] := htext ▸ sliceFrom_append pre []
      rw [cutFrom, hstart, hrest]
      rfl
  | case2 start _ _ _ c cs n w stop hmunch =>
      rename_i ih
      subst hstart
      have htake : text = (pre ++ w) ++ cs.drop n := by
        rw [List.append_assoc, ← take_append_drop_cons, htext]
      rw [cutFrom_cons h htext hmunch]
      obtain ⟨fuel, rfl⟩ : ∃ n, fuel = n + 1 := Nat.exists_eq_add_one.2 (by simp at hfuel; omega)
      refine ih htake (byteSize_append pre w).symm h fuel ?_
      rw [List.length_drop]
      simp only [List.length_cons] at hfuel
      omega
  | case3 start _ _ _ c cs n w stop kind t hmunch =>
      rename_i ih
      subst hstart
      have htake : text = (pre ++ w) ++ cs.drop n := by
        rw [List.append_assoc, ← take_append_drop_cons, htext]
      have hstands : Stands text (some t) := by
        rintro _ ⟨⟩
        rw [htake, List.append_assoc]
        have hslice := slice_append pre w (cs.drop n)
        simpa [t, stop] using hslice
      obtain ⟨fuel, rfl⟩ : ∃ n, fuel = n + 1 := Nat.exists_eq_add_one.2 (by simp at hfuel; omega)
      have hnext := ih htake (byteSize_append pre w).symm hstands fuel (by
        rw [List.length_drop]
        simp only [List.length_cons] at hfuel
        omega)
      rw [cutFrom_cons h htext hmunch]
      refine (congrArg (· >>= _) hnext).trans ?_
      rfl

/-! ### What tokens know of each other -/

/-- What a token knows of the one before it. -/
def Behind (text : List Char) : Option Token → Token → Prop
  | none, u => u.previousKind = none ∧ u.startsLine = true
  | some t, u => u.previousKind = some t.kind ∧ u.previousText = t.text ∧
      ∃ gap, slice text t.stop u.start = .ok gap ∧ u.startsLine = gap.any (· = '\n')

/-- Each token stands where it says and knows the one before it. -/
def Linked (text : List Char) (previous : Option Token) : List Token → Prop
  | [] => True
  | u :: us => Stands text (some u) ∧ Behind text previous u ∧ Linked text (some u) us

/-- What stands in `pre` behind the token before has a line break if it is `broken`. -/
def Since (pre : List Char) (broken : Bool) (previous : Option Token) : Prop :=
  ∀ t ∈ previous, ∃ before gap, pre = before ++ gap ∧ t.stop = byteSize before ∧ broken = gap.any (· = '\n')

theorem Since.skip (h : Since pre broken previous) (w : List Char) :
    Since (pre ++ w) (broken || w.any (· = '\n')) previous := by
  intro t ht
  obtain ⟨before, gap, rfl, hstop, rfl⟩ := h t ht
  exact ⟨before, gap ++ w, List.append_assoc .., hstop, List.any_append.symm⟩

theorem linked_tokensFrom (htext : text = pre ++ cs) (hstart : start = byteSize pre)
    (h : Since pre broken previous) : Linked text previous (tokensFrom start index previous broken cs) := by
  fun_induction tokensFrom start index previous broken cs generalizing pre with
  | case1 => trivial
  | case2 start _ _ _ c cs n w stop hmunch =>
      rename_i ih
      subst hstart
      refine ih ?_ (byteSize_append pre w).symm (h.skip w)
      rw [List.append_assoc, ← take_append_drop_cons, htext]
  | case3 start _ previous broken c cs n w stop kind t hmunch =>
      rename_i ih
      subst hstart
      have htake : text = pre ++ (w ++ cs.drop n) := by rw [← take_append_drop_cons, htext]
      refine ⟨?_, ?_, ?_⟩
      · rintro _ ⟨⟩
        rw [htake]
        simpa [t, stop] using slice_append pre w (cs.drop n)
      · cases previous with
        | none => exact ⟨rfl, rfl⟩
        | some p =>
            obtain ⟨before, gap, rfl, hstop, hbroken⟩ := h p rfl
            refine ⟨rfl, rfl, gap, ?_, hbroken⟩
            have hslice := slice_append before gap (w ++ cs.drop n)
            rwa [← List.append_assoc, ← htake, ← byteSize_append, ← hstop] at hslice
      · refine ih ?_ (byteSize_append pre w).symm ?_
        · rw [htake, List.append_assoc]
        · rintro _ ⟨⟩
          exact ⟨pre ++ w, [], (List.append_nil _).symm, (byteSize_append pre w).symm, rfl⟩

end Indexed
end StaticGql.Scan
