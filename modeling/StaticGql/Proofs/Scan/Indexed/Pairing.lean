import StaticGql.Proofs.Except
import StaticGql.Proofs.Scan.Indexed.Cutting
import StaticGql.Proofs.Scan.Shares

/-!
Brackets paired up by their numbers. Pairing fails where a text has no forest, and otherwise every group of tokens
has its closing bracket for the partner of its opening one.
-/

namespace StaticGql.Scan

variable {ts us vs : List Token} {t o c : Token} {i j : Nat} {ps inner : List Piece} {p : Piece} {text : String}

namespace Indexed

variable {marks ms rest : List Mark} {m : Mark} {partners final : List (Option Nat)} {opened : List Nat}

theorem markAt_of_drop (h : marks.drop i = m :: ms) : markAt marks i = .ok m := by
  rw [markAt, ← List.head?_drop, h]
  rfl

theorem lt_length_of_drop {α : Type} {l rest : List α} {a : α} (h : l.drop i = a :: rest) : i < l.length := by
  by_contra hle
  rw [List.drop_eq_nil_of_le (by omega)] at h
  cases h

theorem drop_succ_of_drop {α : Type} {l rest : List α} {a : α} (h : l.drop i = a :: rest) : l.drop (i + 1) = rest := by
  rw [← List.tail_drop, h, List.tail_cons]

theorem pairUp_of_lt (h : i < partners.length) (j : Nat) : pairUp partners i j = .ok (partners.set i (some j)) :=
  if_pos h

/-! ### One run of the pairing -/

theorem pairFrom_opening (hopen : m.kind.isOpen = true) :
    pairFrom marks i partners opened (m :: ms) = pairFrom marks (i + 1) partners (i :: opened) ms := by
  rw [pairFrom.eq_def]
  exact if_pos hopen

theorem pairFrom_plain (hopen : m.kind.isOpen = false) (hclose : m.kind.isClose = false) :
    pairFrom marks i partners opened (m :: ms) = pairFrom marks (i + 1) partners opened ms := by
  rw [pairFrom.eq_def]
  simp only [hopen, hclose, Bool.false_eq_true, if_false]

theorem isClose_of_closer {k l : TokenKind} (h : k.closer? = some l) :
    k.isOpen = true ∧ l.isOpen = false ∧ l.isClose = true := by
  cases k <;> simp [TokenKind.closer?] at h <;> subst h <;> decide

theorem pairFrom_closing {om : Mark} (hom : markAt marks j = .ok om) (hpair : om.kind.closer? = some m.kind)
    (hj : j < partners.length) (hi : i < partners.length) :
    pairFrom marks i partners (j :: opened) (m :: ms) =
      pairFrom marks (i + 1) ((partners.set j (some i)).set i (some j)) opened ms := by
  obtain ⟨-, hopen, hclose⟩ := isClose_of_closer hpair
  rw [pairFrom.eq_def]
  simp only [hopen, hclose, Bool.false_eq_true, if_false, if_true, hom, ok_bind, hpair, pairUp_of_lt hj]
  rw [pairUp_of_lt (by rwa [List.length_set]), ok_bind]

/-- What a run that succeeds does with its first token. -/
theorem pairFrom_cases (h : pairFrom marks i partners opened (m :: ms) = .ok (.ok final)) :
    pairFrom marks (i + 1) partners (i :: opened) ms = .ok (.ok final) ∨
      pairFrom marks (i + 1) partners opened ms = .ok (.ok final) ∨
        ∃ j rest, opened = j :: rest ∧
          pairFrom marks (i + 1) ((partners.set j (some i)).set i (some j)) rest ms = .ok (.ok final) := by
  rw [pairFrom.eq_def] at h
  simp only at h
  split at h
  · exact .inl h
  · split at h
    · split at h
      · cases h
      · rename_i j rest
        obtain ⟨om, -, h⟩ := bind_eq_ok_iff.1 h
        split at h
        · obtain ⟨first, hfirst, h⟩ := bind_eq_ok_iff.1 h
          obtain ⟨second, hsecond, h⟩ := bind_eq_ok_iff.1 h
          rw [pairUp] at hfirst hsecond
          split at hfirst
          · split at hsecond
            · cases hfirst
              cases hsecond
              exact .inr (.inr ⟨j, rest, rfl, h⟩)
            · cases hsecond
          · cases hfirst
        · cases h
    · exact .inr (.inl h)

/-- A run that succeeds leaves the partners of what is behind it alone, but for brackets still open. -/
theorem final_of_lt (h : pairFrom marks i partners opened ms = .ok (.ok final)) (hj : j < i)
    (hfree : j ∉ opened) : final[j]? = partners[j]? := by
  induction ms generalizing i partners opened with
  | nil =>
      cases opened with
      | nil => cases h; rfl
      | cons o opened =>
          obtain ⟨om, -, h⟩ := bind_eq_ok_iff.1 h
          cases h
  | cons m ms ih =>
      obtain hnext | hnext | ⟨o, opened, rfl, hnext⟩ := pairFrom_cases h
      · exact ih hnext (by omega) (List.not_mem_cons_of_ne_of_not_mem (by omega) hfree)
      · exact ih hnext (by omega) hfree
      · obtain ⟨ho, hfree⟩ := List.ne_and_not_mem_of_not_mem_cons hfree
        rw [ih hnext (by omega) hfree, List.getElem?_set_ne (by omega), List.getElem?_set_ne (by omega)]

/-- A run that succeeds comes through everything before its end. -/
theorem exists_run (h : pairFrom marks i partners opened (ms ++ rest) = .ok (.ok final))
    (hopened : ∀ o ∈ opened, o < i) : ∃ partners' opened', partners'.length = partners.length ∧
      (∀ o ∈ opened', o < i + ms.length) ∧
        pairFrom marks (i + ms.length) partners' opened' rest = .ok (.ok final) := by
  induction ms generalizing i partners opened with
  | nil => exact ⟨partners, opened, rfl, hopened, h⟩
  | cons m ms ih =>
      have hlater : ∀ o ∈ opened, o < i + 1 := fun o ho => Nat.lt_succ_of_lt (hopened o ho)
      have hlength : i + (m :: ms).length = i + 1 + ms.length := by
        rw [List.length_cons]
        omega
      rw [List.cons_append] at h
      rw [hlength]
      obtain hnext | hnext | ⟨o, opened, rfl, hnext⟩ := pairFrom_cases h
      · exact ih hnext (List.forall_mem_cons.2 ⟨by omega, hlater⟩)
      · exact ih hnext hlater
      · obtain ⟨partners', opened', hkept, hbefore, hrun⟩ := ih hnext (List.forall_mem_cons.1 hlater).2
        exact ⟨partners', opened', by simpa using hkept, hbefore, hrun⟩

/-! ### Groups -/

/-- Going over tokens that nest among themselves pairs them up and leaves what is behind them alone. -/
def Passes (marks : List Mark) (us : List Token) : Prop :=
  ∀ (i : Nat) (partners : List (Option Nat)) (opened : List Nat) (rest : List Mark),
    marks.drop i = us.map Token.mark ++ rest → partners.length = marks.length →
      ∃ partners', partners'.length = marks.length ∧ (∀ j < i, partners'[j]? = partners[j]?) ∧
        pairFrom marks i partners opened (us.map Token.mark ++ rest) =
          pairFrom marks (i + us.length) partners' opened rest

theorem Passes.nil (marks : List Mark) : Passes marks [] :=
  fun _ _ _ _ _ hlength => ⟨_, hlength, fun _ _ => rfl, rfl⟩

theorem Passes.plain (hopen : t.kind.isOpen = false) (hclose : t.kind.isClose = false) : Passes marks [t] :=
  fun _ _ _ _ _ hlength => ⟨_, hlength, fun _ _ => rfl, pairFrom_plain hopen hclose⟩

theorem Passes.append (h : Passes marks us) (h' : Passes marks vs) : Passes marks (us ++ vs) := by
  intro i partners opened rest hdrop hlength
  rw [List.map_append, List.append_assoc] at hdrop ⊢
  obtain ⟨first, hfirst, hkept, hrun⟩ := h i partners opened _ hdrop hlength
  have hnext : marks.drop (i + us.length) = vs.map Token.mark ++ rest := by
    rw [← List.drop_drop, hdrop, List.drop_left' (List.length_map ..)]
  obtain ⟨second, hsecond, hkept', hrun'⟩ := h' _ first opened _ hnext hfirst
  refine ⟨second, hsecond, fun j hj => (hkept' j (by omega)).trans (hkept j hj), ?_⟩
  rw [hrun, hrun', List.length_append, Nat.add_assoc]

/-- The brackets of a group are partners. -/
theorem Passes.enclose {rest : List Mark} (h : Passes marks us) (hpair : o.kind.closer? = some c.kind)
    (hdrop : marks.drop i = (o :: us ++ [c]).map Token.mark ++ rest) (hlength : partners.length = marks.length) :
    ∃ partners', partners'.length = marks.length ∧ partners'[i]? = some (some (i + us.length + 1)) ∧
      partners'[i + us.length + 1]? = some (some i) ∧ (∀ j < i, partners'[j]? = partners[j]?) ∧
        pairFrom marks i partners opened ((o :: us ++ [c]).map Token.mark ++ rest) =
          pairFrom marks (i + us.length + 2) partners' opened rest := by
  have hopen := (isClose_of_closer hpair).1
  simp only [List.cons_append, List.map_cons, List.map_append, List.map_nil, List.append_assoc,
    List.nil_append] at hdrop ⊢
  obtain ⟨inside, hinside, hkept, hrun⟩ := h _ partners (i :: opened) _ (drop_succ_of_drop hdrop) hlength
  have hi : i < marks.length := lt_length_of_drop hdrop
  have hclose : marks.drop (i + 1 + us.length) = c.mark :: rest := by
    rw [← List.drop_drop, drop_succ_of_drop hdrop, List.drop_left' (List.length_map ..)]
  have hj : i + 1 + us.length < marks.length := lt_length_of_drop hclose
  have hnext : i + 1 + us.length = i + us.length + 1 := by omega
  have hclosing : pairFrom marks (i + 1 + us.length) inside (i :: opened) (c.mark :: rest) = _ :=
    pairFrom_closing (markAt_of_drop hdrop) hpair (hinside ▸ hi) (hinside ▸ hj)
  rw [pairFrom_opening hopen, hrun, hclosing, hnext]
  refine ⟨_, by simpa using hinside, ?_, ?_, fun j hj => ?_, rfl⟩
  · rw [List.getElem?_set_ne (by omega), List.getElem?_set_self (by omega)]
  · rw [List.getElem?_set_self (by rw [List.length_set]; omega)]
  · rw [List.getElem?_set_ne (by omega), List.getElem?_set_ne (by omega), hkept j (by omega)]

mutual

theorem passes_tokens (marks : List Mark) {p : Piece} (h : p.Nested) : Passes marks p.tokens := by
  cases p with
  | token t => exact .plain h.1 h.2
  | group o c inner =>
      intro i partners opened rest hdrop hlength
      obtain ⟨partners', hlength', -, -, hkept, hrun⟩ :=
        (passes_allTokens marks h.2).enclose h.1 hdrop hlength
      refine ⟨partners', hlength', hkept, hrun.trans ?_⟩
      rw [Piece.tokens]
      simp [Nat.add_assoc]

theorem passes_allTokens (marks : List Mark) {ps : List Piece} (h : Piece.AllNested ps) :
    Passes marks (Piece.allTokens ps) := by
  cases ps with
  | nil => exact .nil marks
  | cons p ps => exact (passes_tokens marks h.1).append (passes_allTokens marks h.2)

end

/-- Wherever a group stands among all tokens, its brackets are partners in the end. -/
theorem partner_of_group (h : pairFrom marks 0 (.replicate marks.length none) [] marks = .ok (.ok final))
    (hmarks : marks = ts.map Token.mark) (hdrop : ts.drop i = (Piece.group o c inner).tokens ++ vs)
    (hnested : (Piece.group o c inner).Nested) : final[i]? = some (some (i + Piece.sizes inner + 1)) ∧
      final[i + Piece.sizes inner + 1]? = some (some i) := by
  have hdrop' : marks.drop i = (o :: Piece.allTokens inner ++ [c]).map Token.mark ++ vs.map Token.mark := by
    rw [hmarks, ← List.map_drop, hdrop, Piece.tokens, List.map_append]
  have hlength : (marks.take i).length = i :=
    List.length_take_of_le (Nat.le_of_lt (lt_length_of_drop hdrop'))
  have hsplit : pairFrom marks 0 (.replicate marks.length none) [] (marks.take i ++ marks.drop i) = .ok (.ok final) := by
    rwa [List.take_append_drop]
  obtain ⟨partners, opened, hpartners, hopened, hrun⟩ := exists_run hsplit (by simp)
  rw [Nat.zero_add, hlength] at hrun hopened
  rw [hdrop'] at hrun
  obtain ⟨partners', -, hpartner, hback, -, hgroup⟩ := (passes_allTokens marks hnested.2).enclose hnested.1 hdrop'
    (hpartners.trans List.length_replicate)
  rw [hgroup] at hrun
  rw [Piece.length_allTokens] at hpartner hback hrun
  -- brackets still open stand before the group, so that later ones leave its partners alone
  have hkept : ∀ j, i ≤ j → j < i + Piece.sizes inner + 2 → final[j]? = partners'[j]? := fun j hij hj =>
    final_of_lt hrun hj fun hmem => Nat.not_lt.2 hij (hopened j hmem)
  rw [hkept i (by omega) (by omega), hkept _ (by omega) (by omega)]
  exact ⟨hpartner, hback⟩

/-! ### Pairing and nesting -/

theorem markAt_of_getElem? (hmarks : marks = ts.map Token.mark) (h : ts[i]? = some t) : markAt marks i = .ok t.mark := by
  rw [markAt, hmarks, List.getElem?_map, h]
  rfl

/-- Pairing stops at the bracket at which nesting stops. -/
theorem exists_pairFrom {stack : List (Token × List Piece)} {level : List Piece} (hmarks : marks = ts.map Token.mark)
    (hdrop : ts.drop i = us) (hlength : partners.length = marks.length)
    (hopened : List.Forall₂ (fun j o => ts[j]? = some o.1) opened stack) : ∃ final,
      pairFrom marks i partners opened (us.map Token.mark) = .ok ((nest us stack level).map fun _ => final) := by
  have hfirst {t : Token} {us : List Token} {i : Nat} (h : ts.drop i = t :: us) : ts[i]? = some t := by
    rw [← List.head?_drop, h, List.head?_cons]
  have hwithin {j : Nat} {t : Token} (h : ts[j]? = some t) : j < marks.length := by
    rw [hmarks, List.length_map]
    exact (List.getElem?_eq_some_iff.1 h).1
  fun_induction nest us stack level generalizing i partners opened with
  | case1 level =>
      cases hopened
      exact ⟨partners, rfl⟩
  | case2 o outer stack level =>
      cases hopened with
      | cons ho _ =>
          refine ⟨partners, ?_⟩
          rw [List.map_nil, pairFrom, markAt_of_getElem? hmarks ho]
          rfl
  | case3 t us stack level hopen ih =>
      rw [List.map_cons, pairFrom_opening (show t.mark.kind.isOpen = true from hopen)]
      exact ih (drop_succ_of_drop hdrop) hlength (.cons (hfirst hdrop) hopened)
  | case4 t us level hopen hclose =>
      cases hopened
      refine ⟨partners, ?_⟩
      rw [List.map_cons, pairFrom.eq_def]
      simp only [Token.kind_mark, hopen, hclose, Bool.false_eq_true, if_false, if_true]
      rfl
  | case5 t us level hopen hclose o outer stack hpair ih =>
      cases hopened with
      | cons ho hopened =>
          have hpair : o.mark.kind.closer? = some t.mark.kind := hpair
          rw [List.map_cons, pairFrom_closing (markAt_of_getElem? hmarks ho) hpair (hlength ▸ hwithin ho)
            (hlength ▸ hwithin (hfirst hdrop))]
          exact ih (drop_succ_of_drop hdrop) (by simpa using hlength) hopened
  | case6 t us level hopen hclose o outer stack hpair =>
      cases hopened with
      | cons ho hopened =>
          refine ⟨partners, ?_⟩
          rw [List.map_cons, pairFrom.eq_def]
          simp only [Token.kind_mark, hopen, hclose, Bool.false_eq_true, if_false, if_true,
            markAt_of_getElem? hmarks ho, ok_bind, hpair]
          rfl
  | case7 t us stack level hopen hclose ih =>
      rw [List.map_cons, pairFrom_plain (by simpa using hopen) (by simpa using hclose)]
      exact ih (drop_succ_of_drop hdrop) hlength hopened

end Indexed

def beginsWord (text : String) : Bool := text.toList.head?.any isWordStart

theorem isWord_of_begins (h : t ∈ tokens text) (hw : beginsWord t.text = true) : t.kind = .word := by
  obtain ⟨previous, c, rest, n, hmunch, htext⟩ := exists_munch h
  have hc : isWordStart c = true := by simpa [beginsWord, htext] using hw
  rw [munch, isBlank_eq_false (isWordPart_of_isWordStart hc), if_neg Bool.false_ne_true, if_pos hc] at hmunch
  exact (Option.some.inj (congrArg Prod.fst hmunch)).symm

open Indexed in
/-- A table that tells of these tokens: what they are, what they know of each other, and their groups. -/
structure Indexed.Table.Tells (s : Table) (ts : List Token) : Prop where
  marks : s.marks = ts.map Token.mark
  linked : Linked s.text none ts
  words : ∀ t ∈ ts, beginsWord t.text = true → t.kind = .word
  partner : ∀ {i o c inner vs}, ts.drop i = (Piece.group o c inner).tokens ++ vs → (Piece.group o c inner).Nested →
    s.partner i = .ok (i + Piece.sizes inner + 1)

namespace Indexed

theorem length_le_byteSize (cs : List Char) : cs.length ≤ Text.byteSize cs := by
  induction cs with
  | nil => exact Nat.le_refl _
  | cons c cs ih =>
      have := c.utf8Size_pos
      rw [List.length_cons, Text.byteSize]
      omega

theorem cutFrom_text (text : String) :
    cutFrom text.toList (Text.byteSize text.toList + 1) 0 none = .ok ((tokens text).map Token.mark) := by
  have hnone : Stands text.toList none := by rintro _ ⟨⟩
  exact cutFrom_eq (List.nil_append _).symm rfl hnone (Nat.lt_succ_of_le (length_le_byteSize _))

theorem linked_tokens (text : String) : Linked text.toList none (tokens text) := by
  have hnone : Since [] false none := by rintro _ ⟨⟩
  exact linked_tokensFrom (List.nil_append _).symm rfl hnone

/-- There is a table exactly if there is a forest, and then it tells of the tokens of the text. -/
theorem Table.exists_ofText (text : String) : ∃ s : Table,
    Table.ofText text = .ok ((forest text).map fun _ => s) ∧ ∀ f, forest text = .ok f → s.Tells (tokens text) := by
  have hpaired : ∃ final, pairFrom ((tokens text).map Token.mark) 0 (.replicate ((tokens text).map Token.mark).length none)
      [] ((tokens text).map Token.mark) = .ok ((nest (tokens text) [] []).map fun _ => final) :=
    exists_pairFrom rfl rfl List.length_replicate .nil
  obtain ⟨final, hpair⟩ := hpaired
  refine ⟨⟨text.toList, (tokens text).map Token.mark, final⟩, ?_, fun f hf => ⟨rfl, linked_tokens text, fun _ => isWord_of_begins,
    fun hdrop hnested => ?_⟩⟩
  · rw [ofText, cutFrom_text, ok_bind, hpair, ok_bind]
    cases hf : nest (tokens text) [] [] <;> rw [forest, hf] <;> rfl
  · rw [show nest (tokens text) [] [] = .ok f from hf] at hpair
    rw [partner, (partner_of_group hpair rfl hdrop hnested).1]

end Indexed
end StaticGql.Scan
