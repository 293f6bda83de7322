import StaticGql.Proofs.Scan.Stretches

/-!
Words that begin no declaration, whatever the marker goes by: what follows them is no call, or a call to
which an object or a string is passed and no function.
-/

namespace StaticGql.Scan

variable {ks ls : List TokenKind} {ts after : List Token} {place inner next : Place} {t o c : Token}
  {p : Piece} {r : Range}

/-- Behind a word, these kinds keep it from being the callee of a call with a function. -/
def Inert : List TokenKind → Bool
  | .dot :: .word :: ks => Inert ks
  | .openParen :: k :: _ => k = .openBrace || k = .str
  | k :: _ => k ≠ .dot && k ≠ .openParen && k ≠ .operator
  | [] => false

/-- Every word is followed by what keeps it inert. -/
def Quiet : List TokenKind → Bool
  | [] => true
  | k :: ks => (k ≠ .word || Inert ks) && Quiet ks

theorem Inert.append (h : Inert ks = true) (ls : List TokenKind) : Inert (ks ++ ls) = true := by
  fun_induction Inert ks with
  | case1 ks ih => exact ih h
  | case2 k ks => exact h
  | case3 k ks _ _ =>
      have hk : (k ≠ .dot ∧ k ≠ .openParen) ∧ k ≠ .operator := by simpa using h
      rw [List.cons_append, Inert.eq_def]
      split
      · rename_i heq
        exact absurd (List.cons.inj heq).1 hk.1.1
      · rename_i heq
        exact absurd (List.cons.inj heq).1 hk.1.2
      · rename_i heq
        cases heq
        exact h
      · rename_i heq
        cases heq
  | case4 => cases h

namespace Quiet

theorem append (h : Quiet ks = true) (h' : Quiet ls = true) : Quiet (ks ++ ls) = true := by
  induction ks with
  | nil => exact h'
  | cons k ks ih =>
      simp only [Quiet, Bool.and_eq_true, Bool.or_eq_true] at h
      simp only [List.cons_append, Quiet, Bool.and_eq_true, Bool.or_eq_true]
      exact ⟨h.1.imp_right fun hinert => Inert.append hinert ls, ih h.2⟩

theorem of_not_mem (h : .word ∉ ks) : Quiet ks = true := by
  induction ks with
  | nil => rfl
  | cons k ks ih =>
      rw [List.mem_cons, not_or] at h
      simp [Quiet, Ne.symm h.1, ih h.2]

theorem inert (h : Quiet ks = true) (hsuffix : .word :: ls <:+ ks) : Inert ls = true := by
  induction ks with
  | nil => exact absurd (List.suffix_nil.1 hsuffix) (by simp)
  | cons k ks ih =>
      simp only [Quiet, Bool.and_eq_true, Bool.or_eq_true] at h
      rcases List.suffix_cons_iff.1 hsuffix with heq | hsuffix
      · obtain ⟨rfl, rfl⟩ := List.cons.inj heq
        simpa using h.1
      · exact ih h.2 hsuffix

end Quiet

/-! ### Calls without a function -/

/-- The first part of a stretch begins where the stretch does. -/
theorem Place.place_of_cut {after : Nat} {start place : Place} {rs : List Range}
    (h : cut after start place = r :: rs) : r.place = start := by
  induction place generalizing r rs with
  | nil =>
      rw [cut] at h
      split at h
      · cases h
        rfl
      · cases h
  | cons p rest ih =>
      rw [cut] at h
      split at h
      · split at h
        · cases h
          rfl
        · cases h
      · split at h
        · cases h
          rfl
        · exact ih h

theorem Call.body?_of_head (hplace : r.place = p :: next)
    (hp : p.head.kind = .openBrace ∨ p.head.kind = .str) : Call.body? r = none := by
  have hword : Place.word? r.place = none := by
    rw [hplace]
    cases p with
    | token t => rcases hp with hp | hp <;> simp [Place.word?, show t.kind = _ from hp]
    | group o c inner => rfl
  have hnot : ∀ w, Place.atWord w r.place = false := fun w => by simp [Place.atWord, hword]
  have hoperator : Place.at? .operator r.place = false := by
    rcases hp with hp | hp <;> simp [hplace, Place.at?, Place.kind?, hp]
  have hskip : Place.skipTypeArguments r.place = r.place := by
    simp [Place.skipTypeArguments, Place.typeArguments?, hoperator]
  simp only [Call.body?, hnot, Bool.false_and, Bool.false_eq_true, if_false, hskip]
  rw [hplace]
  cases p with
  | token t => rcases hp with hp | hp <;> simp [show t.kind = _ from hp]
  | group o c inner => rcases hp with hp | hp <;> simp [show o.kind = _ from hp]

/-- To begin with an object or a string is to pass no function. -/
theorem Call.shape_of_head (hp : p.head.kind = .openBrace ∨ p.head.kind = .str) :
    Call.shape (p :: next) = .notAFunction := by
  rw [Call.shape]
  split
  · rename_i r hparts
    rw [Call.body?_of_head (Place.place_of_cut hparts) hp]
  · rfl

theorem Inert.head_ne {k : TokenKind} (h : Inert (k :: ks) = true) : k ≠ .operator := by
  rintro rfl
  cases h

theorem skipTypeArguments_of_inert (h : Inert ((Piece.allTokens place ++ after).map (·.kind)) = true) :
    Place.skipTypeArguments place = place := by
  cases place with
  | nil => rfl
  | cons p rest =>
      obtain ⟨more, hp⟩ := p.exists_tokens
      rw [Piece.allTokens, hp] at h
      have hoperator : Place.at? .operator (p :: rest) = false := by
        simpa [Place.at?, Place.kind?] using Inert.head_ne h
      rw [Place.skipTypeArguments, Place.typeArguments?, hoperator, Bool.false_and, if_neg (by simp)]
      rfl

theorem shape_of_inert_group (hnested : (Piece.group o c inner).Nested) (hparen : o.kind = .openParen)
    (h : Inert ((Piece.allTokens (.group o c inner :: next) ++ after).map (·.kind)) = true) :
    Call.shape inner = .notAFunction := by
  cases inner with
  | nil =>
      have hclose : c.kind = .closeParen := by
        have hpair := hnested.1
        rw [hparen] at hpair
        exact (Option.some.inj hpair).symm
      simp [Piece.allTokens, Piece.tokens, hparen, hclose, Inert] at h
  | cons p rest =>
      obtain ⟨more, hp⟩ := p.exists_tokens
      refine Call.shape_of_head ?_
      simpa [Piece.allTokens, Piece.tokens, hp, hparen, Inert] using h

/-- Behind an inert word stands no call, or a call without a function. -/
theorem shape_of_inert (hplace : place.Within ts)
    (hgroup : Place.skipTypeArguments (Place.chain place).2 = .group o c inner :: next)
    (hparen : o.kind = .openParen)
    (h : Inert ((Piece.allTokens place ++ after).map (·.kind)) = true) : Call.shape inner = .notAFunction := by
  fun_induction Place.chain place with
  | case1 d w rest hchain names place hnext ih =>
      rw [hnext] at ih
      refine ih hplace.behind.behind hgroup ?_
      simpa [Piece.allTokens, Piece.tokens, hchain.1, hchain.2, Inert] using h
  | case2 | case3 =>
      rw [skipTypeArguments_of_inert h] at hgroup
      rw [hgroup] at hplace h
      exact shape_of_inert_group hplace.nested hparen h

/-- A declaration begins with a word, and what follows it does not make the word inert. -/
theorem exists_word_of_site {marker : Marker} {file text : String} {analysis : Analysis} {site : Site}
    (h : analyze marker file text = .ok analysis) (hsite : site ∈ analysis.declarations) :
    ∃ before t after, tokens text = before ++ t :: after ∧ t.start = site.span.start ∧ t.kind = .word ∧
      Inert (after.map (·.kind)) = false := by
  obtain ⟨f, hf, rfl⟩ := map_eq_ok_iff.1 h
  obtain ⟨scope, e, he, callee, builder, options, names, rfl⟩ := Analysis.exists_makes hsite
  cases Walk.reports_of_mem_events (within_forest hf) he with
  | marker hplace hword _ hcall =>
      obtain ⟨t, rest, o, c, inner, rfl, hgroup, hparen, ⟨he, -⟩ | ⟨he, -⟩⟩ := Call.exists_of_marker hcall
      · cases he
      obtain ⟨before, after, htokens⟩ := hplace.tokens
      rw [Piece.allTokens, Piece.tokens] at htokens
      have hstart : site.span.start = t.start := by injection he
      refine ⟨before, t, Piece.allTokens rest ++ after, by simp [← htokens], hstart.symm,
        Place.kind_of_word hword, ?_⟩
      by_contra hinert
      have hshape := shape_of_inert hplace.behind hgroup hparen (by simpa using hinert)
      rw [hshape] at he
      injection he with _ hcase
      cases hcase

end StaticGql.Scan
