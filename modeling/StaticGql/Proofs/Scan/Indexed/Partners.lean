import StaticGql.Proofs.Scan.Indexed.Levels

/-!
Which brackets are partners. A text has a table exactly if its brackets make up a word in which each is closed by
one of its own kind. Then every bracket is an end of a group of the forest, so that brackets come in pairs, and
of what stands between two partners nothing has its partner elsewhere.
-/

namespace StaticGql.Scan

open Text (byteSize IsCut)

variable {ts vs : List Token} {t o c : Token} {i k : Nat} {ks stack : List TokenKind} {ps inner : List Piece} {p : Piece}
  {text : String}

/-! ### Words of brackets -/

def TokenKind.isBracket (k : TokenKind) : Bool := k.isOpen || k.isClose

theorem TokenKind.isClose_eq_false {k : TokenKind} (h : k.isOpen = true) : k.isClose = false := by
  revert h
  cases k <;> decide

def brackets (ts : List Token) : List TokenKind := (ts.map (·.kind)).filter TokenKind.isBracket

/-- Words over the three kinds of brackets in which each bracket is closed by its own kind. -/
inductive Word : List TokenKind → Prop
  | nil : Word []
  | enclose {o c : TokenKind} {inside behind : List TokenKind} (hpair : o.closer? = some c) (h : Word inside)
      (h' : Word behind) : Word (o :: inside ++ c :: behind)

theorem Word.append {ls : List TokenKind} (h : Word ks) (h' : Word ls) : Word (ks ++ ls) := by
  induction h with
  | nil => exact h'
  | enclose hpair hinside _ _ ih =>
      rw [List.append_assoc, List.cons_append]
      exact .enclose hpair hinside ih

theorem Word.balanced (h : Word ks) : Balanced ks := by
  induction h with
  | nil => exact .nil
  | @enclose o c inside behind hpair _ _ ih ih' =>
      have hsplit : o :: inside ++ c :: behind = o :: inside ++ [c] ++ behind := by simp
      rw [hsplit]
      exact .append (.enclose hpair ih) ih'

/-- What is no bracket can be left out. -/
theorem Balanced.word (h : Balanced ks) : Word (ks.filter TokenKind.isBracket) := by
  induction h with
  | nil => exact .nil
  | plain hopen hclose => simpa [TokenKind.isBracket, hopen, hclose] using Word.nil
  | append _ _ ih ih' =>
      rw [List.filter_append]
      exact ih.append ih'
  | enclose hpair _ ih =>
      obtain ⟨hopen, -, hclose⟩ := Indexed.isClose_of_closer hpair
      rw [List.filter_append, List.filter_cons_of_pos (by simp [TokenKind.isBracket, hopen]),
        List.filter_cons_of_pos (by simp [TokenKind.isBracket, hclose])]
      exact .enclose hpair ih .nil

theorem unclosed_filter (stack ks : List TokenKind) :
    unclosed stack (ks.filter TokenKind.isBracket) = unclosed stack ks := by
  fun_induction unclosed stack ks with
  | case1 => rfl
  | case2 stack k ks hopen ih => simp [TokenKind.isBracket, unclosed, hopen, ih]
  | case3 k ks hopen hclose => simp [TokenKind.isBracket, unclosed, hopen, hclose]
  | case4 k ks hopen hclose o stack hpair ih => simp [TokenKind.isBracket, unclosed, hopen, hclose, hpair, ih]
  | case5 k ks hopen hclose o stack hpair => simp [TokenKind.isBracket, unclosed, hopen, hclose, hpair]
  | case6 stack k ks hopen hclose ih => simpa [TokenKind.isBracket, hopen, hclose] using ih

theorem exists_forest_iff_word : (∃ f, forest text = .ok f) ↔ Word (brackets (tokens text)) := by
  constructor
  · intro h
    exact (exists_forest_iff_balanced.1 h).word
  · intro h
    have hnone : unclosed [] (brackets (tokens text)) = some [] := h.balanced.wellNested []
    rw [brackets, unclosed_filter] at hnone
    exact exists_forest_iff.2 hnone

/-! ### The ends of groups -/

/-- A group stands at a number among all tokens. -/
structure IsGroup (ts : List Token) (i : Nat) (o c : Token) (inner : List Piece) : Prop where
  drop : ∃ vs, ts.drop i = (Piece.group o c inner).tokens ++ vs
  nested : (Piece.group o c inner).Nested

namespace IsGroup

theorem drop_inner (h : IsGroup ts i o c inner) : ∃ vs, ts.drop (i + 1) = Piece.allTokens inner ++ c :: vs := by
  obtain ⟨vs, hdrop⟩ := h.drop
  refine ⟨vs, ?_⟩
  rw [← List.drop_drop, hdrop]
  simp [Piece.tokens]

theorem opening (h : IsGroup ts i o c inner) : ts[i]? = some o := by
  obtain ⟨vs, hdrop⟩ := h.drop
  rw [← List.head?_drop, hdrop]
  rfl

theorem closing (h : IsGroup ts i o c inner) : ts[i + Piece.sizes inner + 1]? = some c := by
  obtain ⟨vs, hdrop⟩ := h.drop_inner
  have hbehind : ts.drop (i + 1 + Piece.sizes inner) = c :: vs := by
    rw [← List.drop_drop, hdrop, List.drop_left' (Piece.length_allTokens inner)]
  have hindex : i + Piece.sizes inner + 1 = i + 1 + Piece.sizes inner := by omega
  rw [hindex, ← List.head?_drop, hbehind, List.head?_cons]

theorem isOpen (h : IsGroup ts i o c inner) : o.kind.isOpen = true := (Indexed.isClose_of_closer h.nested.1).1

end IsGroup

/-- The number is that of an end of a group which lies between two numbers. -/
def EndsGroup (ts : List Token) (start stop k : Nat) : Prop :=
  ∃ i o c inner, IsGroup ts i o c inner ∧ start ≤ i ∧ i + Piece.sizes inner + 1 < stop ∧
    (k = i ∨ k = i + Piece.sizes inner + 1)

theorem EndsGroup.mono {start start' stop stop' : Nat} (h : EndsGroup ts start stop k) (hstart : start' ≤ start)
    (hstop : stop ≤ stop') : EndsGroup ts start' stop' k := by
  obtain ⟨i, o, c, inner, hgroup, hfrom, hto, hend⟩ := h
  exact ⟨i, o, c, inner, hgroup, by omega, by omega, hend⟩

mutual

/-- Every bracket of a piece is an end of a group in it. -/
theorem endsGroup_tokens {p : Piece} {i : Nat} {vs : List Token} (h : p.Nested) (hdrop : ts.drop i = p.tokens ++ vs)
    (ht : ts[k]? = some t) (hbracket : t.kind.isBracket = true) (hik : i ≤ k) (hk : k < i + p.size) :
    EndsGroup ts i (i + p.size) k := by
  cases p with
  | token u =>
      have hfirst : ts[i]? = some u := by rw [← List.head?_drop, hdrop]; rfl
      obtain rfl : k = i := by simp only [Piece.size] at hk; omega
      obtain rfl : u = t := Option.some.inj (hfirst.symm.trans ht)
      rw [TokenKind.isBracket, h.1, h.2] at hbracket
      cases hbracket
  | group o c inner =>
      have hgroup : IsGroup ts i o c inner := ⟨⟨vs, hdrop⟩, h⟩
      rw [Piece.size] at hk ⊢
      by_cases hends : k = i ∨ k = i + Piece.sizes inner + 1
      · exact ⟨i, o, c, inner, hgroup, Nat.le_refl i, by omega, hends⟩
      · obtain ⟨vs, hinner⟩ := hgroup.drop_inner
        apply (endsGroup_allTokens h.2 hinner ht hbracket (by omega) (by omega)).mono <;> omega

theorem endsGroup_allTokens {ps : List Piece} {i : Nat} {vs : List Token} (h : Piece.AllNested ps)
    (hdrop : ts.drop i = Piece.allTokens ps ++ vs) (ht : ts[k]? = some t) (hbracket : t.kind.isBracket = true)
    (hik : i ≤ k) (hk : k < i + Piece.sizes ps) : EndsGroup ts i (i + Piece.sizes ps) k := by
  cases ps with
  | nil => exact absurd hk (Nat.not_lt.2 hik)
  | cons p ps =>
      rw [Piece.sizes] at hk ⊢
      rw [Piece.allTokens, List.append_assoc] at hdrop
      by_cases hp : k < i + p.size
      · apply (endsGroup_tokens h.1 hdrop ht hbracket hik hp).mono <;> omega
      · have hdrop' : ts.drop (i + p.size) = Piece.allTokens ps ++ vs := by
          rw [← List.drop_drop, hdrop, List.drop_left' (Piece.length_tokens p)]
        apply (endsGroup_allTokens h.2 hdrop' ht hbracket (by omega) (by omega)).mono <;> omega

end

/-! ### Partners -/

namespace Indexed

variable {s : Table}

/-- A table holds the tokens of its text, and its partners come from pairing them up. -/
theorem Table.exists_of_ofText (h : Table.ofText text = .ok (.ok s)) : (∃ f, forest text = .ok f) ∧
    s.marks = (tokens text).map Token.mark ∧
      pairFrom s.marks 0 (.replicate s.marks.length none) [] s.marks = .ok (.ok s.partners) := by
  obtain ⟨s', hs', -⟩ := Table.exists_ofText text
  have hforest : ∃ f, forest text = .ok f := by
    cases hf : forest text with
    | ok f => exact ⟨f, rfl⟩
    | error offset =>
        rw [hs', hf] at h
        cases h
  rw [ofText, cutFrom_text, ok_bind] at h
  obtain ⟨paired, hpaired, h⟩ := bind_eq_ok_iff.1 h
  cases paired with
  | error offset => cases h
  | ok partners =>
      cases h
      exact ⟨hforest, rfl, hpaired⟩

def Table.isBracket (s : Table) (i : Nat) : Bool := (s.kind? i).any TokenKind.isBracket

/-- Two brackets of a kind, one behind the other, with each other for partners. What stands between them has no
partner elsewhere. -/
structure Table.Pairs (s : Table) (i j : Nat) : Prop where
  lt : i < j
  partner : s.partner i = .ok j
  back : s.partner j = .ok i
  kinds : ∃ k l, s.kind? i = some k ∧ s.kind? j = some l ∧ k.closer? = some l
  inside : ∀ k, i < k → k < j → s.isBracket k = true → ∃ l, s.partner k = .ok l ∧ i < l ∧ l < j

section

variable (h : Table.ofText text = .ok (.ok s))
include h

theorem Table.kind?_eq (i : Nat) : s.kind? i = (tokens text)[i]?.map (·.kind) := by
  rw [kind?, (Table.exists_of_ofText h).2.1, List.getElem?_map, Option.map_map]
  rfl

theorem Table.exists_token {i : Nat} {q : TokenKind → Bool} (hq : (s.kind? i).any q = true) :
    ∃ t, (tokens text)[i]? = some t ∧ q t.kind = true := by
  rw [Table.kind?_eq h, Option.any_map] at hq
  exact (Option.any_eq_true _ _).1 hq

theorem Table.partner_of_isGroup (hgroup : IsGroup (tokens text) i o c inner) :
    s.partner i = .ok (i + Piece.sizes inner + 1) ∧ s.partner (i + Piece.sizes inner + 1) = .ok i := by
  obtain ⟨-, hmarks, hpair⟩ := Table.exists_of_ofText h
  obtain ⟨vs, hdrop⟩ := hgroup.drop
  obtain ⟨hpartner, hback⟩ := partner_of_group hpair hmarks hdrop hgroup.nested
  exact ⟨by rw [Table.partner, hpartner], by rw [Table.partner, hback]⟩

/-- The brackets of a group are a pair. -/
theorem Table.pairs_of_isGroup (hgroup : IsGroup (tokens text) i o c inner) :
    s.Pairs i (i + Piece.sizes inner + 1) where
  lt := by omega
  partner := (Table.partner_of_isGroup h hgroup).1
  back := (Table.partner_of_isGroup h hgroup).2
  kinds := by
    refine ⟨o.kind, c.kind, ?_, ?_, hgroup.nested.1⟩
    · rw [Table.kind?_eq h, hgroup.opening, Option.map_some]
    · rw [Table.kind?_eq h, hgroup.closing, Option.map_some]
  inside := by
    intro k hik hkj hbracket
    obtain ⟨t, ht, hbracket⟩ := Table.exists_token h hbracket
    obtain ⟨vs, hinner⟩ := hgroup.drop_inner
    obtain ⟨i', o', c', inner', hgroup', hfrom, hto, hend⟩ :=
      endsGroup_allTokens hgroup.nested.2 hinner ht hbracket (by omega) (by omega)
    obtain ⟨hpartner, hback⟩ := Table.partner_of_isGroup h hgroup'
    rcases hend with rfl | rfl
    · exact ⟨_, hpartner, by omega, by omega⟩
    · exact ⟨_, hback, by omega, by omega⟩

/-- Every bracket has a partner. -/
theorem Table.exists_group {i : Nat} (hbracket : s.isBracket i = true) :
    EndsGroup (tokens text) 0 (tokens text).length i := by
  obtain ⟨t, ht, hbracket⟩ := Table.exists_token h hbracket
  obtain ⟨f, hf⟩ := (Table.exists_of_ofText h).1
  have htokens := allTokens_forest hf
  have hlength : (tokens text).length = Piece.sizes f := by rw [← htokens, Piece.length_allTokens]
  have hdrop : (tokens text).drop 0 = Piece.allTokens f ++ [] := by rw [htokens, List.append_nil, List.drop_zero]
  have hi := (List.getElem?_eq_some_iff.1 ht).1
  have hends := endsGroup_allTokens (Piece.allNested_iff.2 (nested_of_forest hf)) hdrop ht hbracket (Nat.zero_le i)
    (by omega)
  rwa [Nat.zero_add, ← hlength] at hends

/-- An opening bracket is the first of a pair, since the ends of groups differ in their kinds. -/
theorem Table.exists_pairs_of_isOpen {i : Nat} (hopen : s.isOpen i = true) : ∃ j, s.Pairs i j := by
  obtain ⟨t, ht, hkind⟩ := Table.exists_token h hopen
  have hbracket : s.isBracket i = true := by simp [Table.isBracket, Table.kind?_eq h, ht, TokenKind.isBracket, hkind]
  obtain ⟨a, o, c, inner, hgroup, -, -, rfl | rfl⟩ := Table.exists_group h hbracket
  · exact ⟨_, Table.pairs_of_isGroup h hgroup⟩
  · obtain rfl : c = t := Option.some.inj (hgroup.closing.symm.trans ht)
    rw [(isClose_of_closer hgroup.nested.1).2.1] at hkind
    cases hkind

theorem Table.exists_pairs_of_isClose {j : Nat} (hclose : (s.kind? j).any TokenKind.isClose = true) :
    ∃ i, s.Pairs i j := by
  obtain ⟨t, ht, hkind⟩ := Table.exists_token h hclose
  have hbracket : s.isBracket j = true := by simp [Table.isBracket, Table.kind?_eq h, ht, TokenKind.isBracket, hkind]
  obtain ⟨a, o, c, inner, hgroup, -, -, rfl | rfl⟩ := Table.exists_group h hbracket
  · obtain rfl : o = t := Option.some.inj (hgroup.opening.symm.trans ht)
    rw [TokenKind.isClose_eq_false hgroup.isOpen] at hkind
    cases hkind
  · exact ⟨_, Table.pairs_of_isGroup h hgroup⟩

end

/-! ### Where the tokens stand -/

/-- The token takes a part of the text that is cut out between two characters. -/
structure Mark.Carved (text : List Char) (m : Mark) : Prop where
  nonempty : m.start < m.stop
  inside : m.stop ≤ byteSize text
  start : IsCut text m.start
  stop : IsCut text m.stop

theorem carved_of_mem (ht : t ∈ tokens text) : t.mark.Carved text.toList := by
  obtain ⟨i, hi⟩ := List.getElem?_of_mem ht
  have hslice := ((linked_tokens text).getElem? hi).1 t rfl
  rw [slice] at hslice
  split at hslice
  · rename_i ys hys
    obtain ⟨xs, zs, htext, hstart, hstop⟩ := Text.exists_of_slice? hys
    have hcut : IsCut text.toList t.stop := by
      refine ⟨xs ++ ys, zs, by rw [htext, List.append_assoc], ?_⟩
      rw [Text.byteSize_append, hstop]
    exact ⟨(ordered_tokens text).wide t ht, hcut.le, ⟨xs, ys ++ zs, htext, hstart.symm⟩, hcut⟩
  · cases hslice

/-- A text has a table exactly if its brackets are well nested, and there is an answer in any case. In a table
the brackets are paired up by their kinds, and pairs lie in each other or apart. The tokens are parts of the
text, one behind the other. -/
theorem brackets_paired (text : String) :
    ((∃ s, Table.ofText text = .ok (.ok s)) ↔ Word (brackets (tokens text))) ∧
      ((∃ offset, Table.ofText text = .ok (.error offset)) ↔ ¬Word (brackets (tokens text))) ∧
        ∀ s, Table.ofText text = .ok (.ok s) → s.marks = (tokens text).map Token.mark ∧
          (∀ i, s.isOpen i = true → ∃ j, s.Pairs i j) ∧
          (∀ j, (s.kind? j).any TokenKind.isClose = true → ∃ i, s.Pairs i j) ∧
          (∀ m ∈ s.marks, m.Carved text.toList) ∧ s.marks.Pairwise fun m n => m.stop ≤ n.start := by
  obtain ⟨s, hs, -⟩ := Table.exists_ofText text
  refine ⟨?_, ?_, fun s h => ?_⟩
  · rw [← exists_forest_iff_word, hs]
    cases forest text <;> simp [Except.map]
  · rw [← exists_forest_iff_word, hs]
    cases forest text <;> simp [Except.map]
  · have hmarks := (Table.exists_of_ofText h).2.1
    refine ⟨hmarks, fun i => Table.exists_pairs_of_isOpen h, fun j => Table.exists_pairs_of_isClose h, ?_, ?_⟩
    · rw [hmarks, List.forall_mem_map]
      exact fun t ht => carved_of_mem ht
    · rw [hmarks, List.pairwise_map]
      exact (ordered_tokens text).apart

/-- Three brackets, each in the one before. -/
theorem brackets_paired_nested : ∃ s, Table.ofText "f([{}])" = .ok (.ok s) ∧ s.isOpen 2 = true ∧
    (∃ j, s.Pairs 2 j) ∧ s.marks.length = 7 := by
  obtain ⟨hword, -, htable⟩ := brackets_paired "f([{}])"
  have hbrackets : Word (brackets (tokens "f([{}])")) := by
    have hkinds : brackets (tokens "f([{}])") =
        [.openParen, .openBracket, .openBrace, .closeBrace, .closeBracket, .closeParen] := by decide +kernel
    rw [hkinds]
    exact .enclose rfl (.enclose rfl (.enclose rfl .nil .nil) .nil) .nil
  obtain ⟨s, hs⟩ := hword.2 hbrackets
  obtain ⟨hmarks, hpairs, -⟩ := htable s hs
  have hkinds : (tokens "f([{}])").map (·.kind) =
      [.word, .openParen, .openBracket, .openBrace, .closeBrace, .closeBracket, .closeParen] := by decide +kernel
  have hopen : s.isOpen 2 = true := by
    have hkind : ((tokens "f([{}])").map (·.kind))[2]? = some .openBracket := by rw [hkinds]; rfl
    rw [List.getElem?_map] at hkind
    rw [Table.isOpen, Table.kind?_eq hs, hkind]
    rfl
  refine ⟨s, hs, hopen, hpairs 2 hopen, ?_⟩
  have hlength := congrArg List.length hkinds
  rwa [List.length_map, ← List.length_map Token.mark, ← hmarks] at hlength

end Indexed
end StaticGql.Scan
