import Mathlib.Data.List.TakeWhile
import Mathlib.Tactic.Tauto
import StaticGql.Scan.Forest

/-!
The tokens of a text: how each is cut off, and that a forest holds them all in their order. A text has a forest
exactly if its brackets are well nested, and then groups stand between brackets that belong together.
-/

namespace StaticGql.Scan

variable {start index : Nat} {previous : Option Token} {broken : Bool} {cs : List Char} {t : Token}
  {kind : TokenKind} {n : Nat}

/-! ### Cutting tokens off -/

/-- Every token is what some place of the text begins with. -/
theorem exists_munch (h : t ∈ tokensFrom start index previous broken cs) : ∃ previous c rest n,
    munch previous c rest = (some t.kind, n) ∧ t.text = String.ofList (c :: rest.take n) := by
  fun_induction tokensFrom start index previous broken cs with
  | case1 => cases h
  | case2 _ _ _ _ _ _ _ _ _ _ ih => exact ih h
  | case3 _ _ previous _ c cs n _ _ _ _ hmunch ih =>
      rcases List.mem_cons.1 h with rfl | h
      · exact ⟨previous, c, cs, n, hmunch, rfl⟩
      · exact ih h

theorem afterSlash_ne_word : (afterSlash previous cs).1 ≠ some .word := by
  rw [afterSlash.eq_def]
  split
  · simp
  · simp
  · generalize (if regexAllowed previous then regexLength false cs else none) = regex
    cases regex <;> simp

theorem afterDot_mem (cs : List Char) : (afterDot cs).1 ∈ [TokenKind.ellipsis, .number, .dot] := by
  rw [afterDot.eq_def]
  repeat' split
  all_goals simp

theorem afterOperator_mem (c : Char) (cs : List Char) :
    (afterOperator c cs).1 ∈ [some TokenKind.assign, some .optionalDot, some .question, some .operator, some .arrow] := by
  rw [afterOperator.eq_def]
  simp only
  repeat' split
  all_goals simp

theorem ite_ne {α : Type} {p : Prop} [Decidable p] {a b x : α} (ha : a ≠ x) (hb : b ≠ x) :
    (if p then a else b) ≠ x := by
  split
  · exact ha
  · exact hb

theorem munch_ne_word {c : Char} (hc : isWordStart c = false) :
    (munch previous c cs).1 ≠ some .word := by
  have hdot : (afterDot cs).1 ≠ .word := fun hk => by simpa [hk] using afterDot_mem cs
  have hoperator : (afterOperator c cs).1 ≠ some .word := fun hk => by simpa [hk] using afterOperator_mem c cs
  simp only [munch.eq_def, hc, apply_ite Prod.fst, Bool.false_eq_true, if_false]
  repeat' apply ite_ne
  all_goals simp [afterSlash_ne_word, hdot, hoperator]

theorem isWordPart_of_isWordStart {c : Char} (h : isWordStart c = true) : isWordPart c = true := by
  simp only [isWordStart, isWordPart, Char.isAlphanum, Bool.or_eq_true] at h ⊢
  tauto

theorem isBlank_eq_false {c : Char} (h : isWordPart c = true) : isBlank c = false := by
  by_contra hblank
  simp only [Bool.not_eq_false, isBlank, Bool.or_eq_true, decide_eq_true_eq] at hblank
  rcases hblank with (((rfl | rfl) | rfl) | rfl) | rfl <;> cases h

/-- A word begins as words do and goes on to the last character that may be in one. -/
theorem isWordStart_of_munch {c : Char} (h : munch previous c cs = (some .word, n)) :
    isWordStart c = true ∧ n = run isWordPart cs := by
  by_cases hstart : isWordStart c = true
  · refine ⟨hstart, ?_⟩
    rw [munch, isBlank_eq_false (isWordPart_of_isWordStart hstart), if_neg (by simp), if_pos hstart] at h
    cases h
    rfl
  · exact absurd (congrArg Prod.fst h) (munch_ne_word (by simpa using hstart))

theorem isWordPart_of_mem {text : String} (h : t ∈ tokens text) (hword : t.kind = .word) :
    ∀ c ∈ t.text.toList, isWordPart c = true := by
  obtain ⟨previous, c, rest, n, hmunch, htext⟩ := exists_munch h
  rw [hword] at hmunch
  obtain ⟨hstart, rfl⟩ := isWordStart_of_munch hmunch
  have htake : rest.take (run isWordPart rest) = rest.takeWhile isWordPart :=
    (List.prefix_iff_eq_take.1 (List.takeWhile_prefix _)).symm
  rw [htext, String.toList_ofList, htake]
  intro d hd
  rcases List.mem_cons.1 hd with rfl | hd
  · exact isWordPart_of_isWordStart hstart
  · exact List.mem_takeWhile_imp hd

/-! ### The tokens of a forest -/

namespace Piece

variable {p : Piece} {ps qs : List Piece}

theorem allTokens_append (ps qs : List Piece) : allTokens (ps ++ qs) = allTokens ps ++ allTokens qs := by
  induction ps with
  | nil => rfl
  | cons p ps ih => rw [List.cons_append, allTokens, allTokens, ih, List.append_assoc]

theorem exists_tokens (p : Piece) : ∃ rest, tokens p = p.head :: rest := by
  cases p with
  | token t => exact ⟨[], rfl⟩
  | group o c inner => exact ⟨allTokens inner ++ [c], rfl⟩

end Piece

/-- The tokens before the present level, which the open brackets keep. -/
def tokensBefore : List (Token × List Piece) → List Token
  | [] => []
  | (o, outer) :: stack => tokensBefore stack ++ Piece.allTokens outer.reverse ++ [o]

theorem allTokens_nest {ts : List Token} {stack : List (Token × List Piece)} {level f : List Piece}
    (h : nest ts stack level = .ok f) :
    Piece.allTokens f = tokensBefore stack ++ Piece.allTokens level.reverse ++ ts := by
  fun_induction nest ts stack level with
  | case1 level =>
      cases h
      simp [tokensBefore]
  | case2 | case4 | case6 => cases h
  | case3 t ts stack level hopen ih => simpa [tokensBefore, Piece.allTokens] using ih h
  | case5 t ts level hopen hclose o outer stack hpair ih =>
      simpa [tokensBefore, Piece.allTokens_append, Piece.allTokens, Piece.tokens] using ih h
  | case7 t ts stack level hopen hclose ih =>
      simpa [Piece.allTokens_append, Piece.allTokens, Piece.tokens] using ih h

/-- A forest is its tokens in their order. -/
theorem allTokens_forest {text : String} {f : List Piece} (h : forest text = .ok f) :
    Piece.allTokens f = tokens text := by
  simpa [tokensBefore, Piece.allTokens] using allTokens_nest h

end StaticGql.Scan

/-! ### Brackets -/

namespace StaticGql.Scan

variable {k : TokenKind} {ks ls stack : List TokenKind} {ts : List Token} {f : List Piece}

/-- The brackets still open after some more kinds, innermost first. -/
def unclosed (stack : List TokenKind) : List TokenKind → Option (List TokenKind)
  | [] => some stack
  | k :: ks =>
    if k.isOpen then unclosed (k :: stack) ks
    else if k.isClose then
      match stack with
      | [] => none
      | o :: stack => if o.closer? = some k then unclosed stack ks else none
    else unclosed stack ks

theorem unclosed_append (stack ks ls : List TokenKind) :
    unclosed stack (ks ++ ls) = (unclosed stack ks).bind (unclosed · ls) := by
  fun_induction unclosed stack ks with
  | case1 => rfl
  | case2 stack k ks hopen ih => simp [unclosed, hopen, ih]
  | case3 k ks hopen hclose => simp [unclosed, hopen, hclose]
  | case4 k ks hopen hclose o stack hpair ih => simp [unclosed, hopen, hclose, hpair, ih]
  | case5 k ks hopen hclose o stack hpair => simp [unclosed, hopen, hclose, hpair]
  | case6 stack k ks hopen hclose ih => simp [unclosed, hopen, hclose, ih]

/-- What is open on top of other brackets does not reach them. -/
theorem unclosed_on {s s' : List TokenKind} (h : unclosed s ks = some s') (stack : List TokenKind) :
    unclosed (s ++ stack) ks = some (s' ++ stack) := by
  fun_induction unclosed s ks with
  | case1 => cases h; rfl
  | case2 s k ks hopen ih => simpa [unclosed, hopen] using ih h
  | case3 | case5 => cases h
  | case4 k ks hopen hclose o s hpair ih => simpa [unclosed, hopen, hclose, hpair] using ih h
  | case6 s k ks hopen hclose ih => simpa [unclosed, hopen, hclose] using ih h

/-- The brackets close among themselves: whatever is open stays open as it is. -/
def WellNested (ks : List TokenKind) : Prop := ∀ stack, unclosed stack ks = some stack

theorem wellNested_iff : WellNested ks ↔ unclosed [] ks = some [] :=
  ⟨fun h => h [], fun h stack => unclosed_on h stack⟩

namespace WellNested

theorem nil : WellNested [] := fun _ => rfl

theorem plain (hopen : k.isOpen = false) (hclose : k.isClose = false) : WellNested [k] :=
  fun _ => by simp [unclosed, hopen, hclose]

theorem append (h : WellNested ks) (h' : WellNested ls) : WellNested (ks ++ ls) :=
  fun stack => by rw [unclosed_append, h, Option.bind_some, h']

theorem enclose {o c : TokenKind} (hpair : o.closer? = some c) (h : WellNested ks) :
    WellNested (o :: ks ++ [c]) := by
  intro stack
  have hopen : o.isOpen = true := by simp [TokenKind.isOpen, hpair]
  have hc : c.isOpen = false ∧ c.isClose = true := by
    cases o <;> simp [TokenKind.closer?] at hpair <;> subst hpair <;> decide
  rw [List.cons_append, unclosed.eq_def]
  simp only [hopen, if_true, unclosed_append, h (o :: stack), Option.bind_some]
  simp [unclosed, hc, hpair]

end WellNested

/-- The kinds that brackets and what stands between them make up. -/
inductive Balanced : List TokenKind → Prop where
  | nil : Balanced []
  | plain {k : TokenKind} (hopen : k.isOpen = false) (hclose : k.isClose = false) : Balanced [k]
  | enclose {o c : TokenKind} {ks : List TokenKind} (hpair : o.closer? = some c) (h : Balanced ks) :
      Balanced (o :: ks ++ [c])
  | append {ks ls : List TokenKind} (h : Balanced ks) (h' : Balanced ls) : Balanced (ks ++ ls)

theorem Balanced.wellNested (h : Balanced ks) : WellNested ks := by
  induction h with
  | nil => exact .nil
  | plain hopen hclose => exact .plain hopen hclose
  | enclose hpair _ ih => exact .enclose hpair ih
  | append _ _ ih ih' => exact .append ih ih'

theorem nest_eq_ok_iff {stack : List (Token × List Piece)} {level : List Piece} :
    (∃ f, nest ts stack level = .ok f) ↔
      unclosed (stack.map (·.1.kind)) (ts.map (·.kind)) = some [] := by
  fun_induction nest ts stack level with
  | case1 => simp [unclosed]
  | case2 => simp [unclosed]
  | case3 t ts stack level hopen ih => simpa [unclosed, hopen] using ih
  | case4 t ts level hopen hclose => simp [unclosed, hopen, hclose]
  | case5 t ts level hopen hclose o outer stack hpair ih => simpa [unclosed, hopen, hclose, hpair] using ih
  | case6 t ts level hopen hclose o outer stack hpair => simp [unclosed, hopen, hclose, hpair]
  | case7 t ts stack level hopen hclose ih => simpa [unclosed, hopen, hclose] using ih

theorem exists_forest_iff {text : String} :
    (∃ f, forest text = .ok f) ↔ unclosed [] ((tokens text).map (·.kind)) = some [] :=
  nest_eq_ok_iff

/-! ### Groups -/

namespace Piece

mutual

/-- A group stands between brackets that belong together, and a bracket stands nowhere else. -/
def Nested : Piece → Prop
  | token t => t.kind.isOpen = false ∧ t.kind.isClose = false
  | group o c inner => o.kind.closer? = some c.kind ∧ AllNested inner

def AllNested : List Piece → Prop
  | [] => True
  | p :: ps => Nested p ∧ AllNested ps

end

theorem allNested_iff {ps : List Piece} : AllNested ps ↔ ∀ p ∈ ps, p.Nested := by
  induction ps with
  | nil => simp [AllNested]
  | cons p ps ih => simp [AllNested, ih]

mutual

theorem balanced {p : Piece} (h : p.Nested) : Balanced (p.tokens.map (·.kind)) := by
  cases p with
  | token t => exact .plain h.1 h.2
  | group o c inner =>
      rw [tokens, List.cons_append, List.map_cons, List.map_append]
      exact .enclose h.1 (balanced_all h.2)

theorem balanced_all {ps : List Piece} (h : AllNested ps) : Balanced ((allTokens ps).map (·.kind)) := by
  cases ps with
  | nil => exact .nil
  | cons p ps =>
      rw [allTokens, List.map_append]
      exact .append (balanced h.1) (balanced_all h.2)

end

theorem wellNested_all {ps : List Piece} (h : AllNested ps) : WellNested ((allTokens ps).map (·.kind)) :=
  (balanced_all h).wellNested

end Piece

theorem nested_of_nest {ts : List Token} {stack : List (Token × List Piece)} {level f : List Piece}
    (h : nest ts stack level = .ok f) (hstack : ∀ o ∈ stack, ∀ p ∈ o.2, p.Nested)
    (hlevel : ∀ p ∈ level, p.Nested) : ∀ p ∈ f, p.Nested := by
  fun_induction nest ts stack level with
  | case1 level =>
      cases h
      simpa using hlevel
  | case2 | case4 | case6 => cases h
  | case3 t ts stack level hopen ih => exact ih h (List.forall_mem_cons.2 ⟨hlevel, hstack⟩) (by simp)
  | case5 t ts level hopen hclose o outer stack hpair ih =>
      have hgroup : (Piece.group o t level.reverse).Nested :=
        ⟨hpair, Piece.allNested_iff.2 (by simpa using hlevel)⟩
      exact ih h (fun o ho => hstack o (List.mem_cons_of_mem _ ho))
        (List.forall_mem_cons.2 ⟨hgroup, hstack _ List.mem_cons_self⟩)
  | case7 t ts stack level hopen hclose ih =>
      refine ih h hstack (List.forall_mem_cons.2 ⟨?_, hlevel⟩)
      exact ⟨by simpa using hopen, by simpa using hclose⟩

theorem nested_of_forest {text : String} (h : forest text = .ok f) : ∀ p ∈ f, p.Nested :=
  nested_of_nest h (by simp) (by simp)

theorem exists_forest_iff_balanced {text : String} :
    (∃ f, forest text = .ok f) ↔ Balanced ((tokens text).map (·.kind)) := by
  constructor
  · rintro ⟨f, h⟩
    rw [← allTokens_forest h]
    exact Piece.balanced_all (Piece.allNested_iff.2 (nested_of_forest h))
  · intro h
    exact exists_forest_iff.2 (wellNested_iff.1 h.wellNested)

end StaticGql.Scan
