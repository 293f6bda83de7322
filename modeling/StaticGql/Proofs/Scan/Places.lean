import StaticGql.Proofs.Scan.Brackets
import StaticGql.Scan.Clause
import StaticGql.Scan.Names

/-!
Where a reading of a forest may look next. Every place it comes to holds tokens that stand side by side in
the text, in their order.
-/

namespace StaticGql.Scan

variable {ts : List Token} {place next ps qs : Place} {t o c : Token} {p : Piece} {r : Range}
  {after : Nat}

namespace Place

/-! ### What stands first -/

@[simp] theorem at?_nil (k : TokenKind) : at? k [] = false := rfl

theorem at?_cons (k : TokenKind) (p : Piece) (ps : Place) : at? k (p :: ps) = decide (p.head.kind = k) :=
  decide_eq_decide.2 Option.some_inj

@[simp] theorem at?_token (k : TokenKind) (t : Token) (ps : Place) : at? k (.token t :: ps) = decide (t.kind = k) :=
  at?_cons k (.token t) ps

@[simp] theorem at?_group (k : TokenKind) (o c : Token) (inner : List Piece) (ps : Place) :
    at? k (.group o c inner :: ps) = decide (o.kind = k) :=
  at?_cons k (.group o c inner) ps

theorem group?_eq_none {k : TokenKind} (hat : at? k place = false) : group? k place = none := by
  cases place with
  | nil => rfl
  | cons p ps =>
      cases p with
      | token t => rfl
      | group o c inner => exact if_neg (by simpa using hat)

theorem word?_eq_none (h : at? .word place = false) : word? place = none := by
  cases place with
  | nil => rfl
  | cons p ps =>
      cases p with
      | token t => exact if_neg (by simpa using h)
      | group o c inner => rfl

/-! ### How many tokens there are -/

theorem size_pos (p : Piece) : 0 < p.size := by
  cases p with
  | token t => exact Nat.one_pos
  | group o c inner => exact Nat.succ_pos _

theorem length_le_sizes (ps : List Piece) : ps.length ≤ Piece.sizes ps := by
  induction ps with
  | nil => exact Nat.le_refl _
  | cons p ps ih =>
      have hpos := size_pos p
      rw [List.length_cons, Piece.sizes]
      omega

theorem sizes_append (ps qs : List Piece) : Piece.sizes (ps ++ qs) = Piece.sizes ps + Piece.sizes qs := by
  induction ps with
  | nil => exact (Nat.zero_add _).symm
  | cons p ps ih => rw [List.cons_append, Piece.sizes, Piece.sizes, ih, Nat.add_assoc]

theorem sizes_le_of_suffix (h : next <:+ place) : Piece.sizes next ≤ Piece.sizes place := by
  obtain ⟨used, rfl⟩ := h
  rw [sizes_append]
  exact Nat.le_add_left ..

/-! ### Ways along a level -/

theorem ite_suffix {p : Prop} [Decidable p] {a b : Place} (ha : a <:+ place) (hb : b <:+ place) :
    (if p then a else b) <:+ place := by
  split
  · exact ha
  · exact hb

theorem tail_or_self_suffix (p : Prop) [Decidable p] (place : Place) :
    (if p then place.tail else place) <:+ place :=
  ite_suffix (List.tail_suffix place) List.suffix_rfl

theorem find_suffix (after : Nat) (p : Place → Bool) (place : Place) : find after p place <:+ place := by
  induction place with
  | nil => exact List.suffix_rfl
  | cons q rest ih =>
      rw [find]
      exact ite_suffix List.suffix_rfl (ite_suffix List.suffix_rfl (ih.trans (List.suffix_cons q rest)))

theorem suffix_of_typeArgumentsFrom {depth : Int} (h : typeArgumentsFrom depth place = some next) :
    next <:+ place := by
  induction place generalizing depth with
  | nil => cases h
  | cons p rest ih =>
      have hrest := List.suffix_cons p rest
      cases p with
      | group o c inner => exact (ih h).trans hrest
      | token t =>
          rw [typeArgumentsFrom.eq_def] at h
          simp only at h
          repeat' split at h
          all_goals first
            | exact (ih h).trans hrest
            | exact Option.some.inj h ▸ hrest
            | cases h

theorem skipTypeArguments_suffix (place : Place) : skipTypeArguments place <:+ place := by
  rw [skipTypeArguments, typeArguments?]
  split
  · cases h : typeArgumentsFrom 0 place with
    | none => exact List.suffix_rfl
    | some next => exact suffix_of_typeArgumentsFrom h
  · exact List.suffix_rfl

theorem chain_suffix (place : Place) : (chain place).2 <:+ place := by
  fun_induction chain place with
  | case1 d w rest hchain names place hnext ih =>
      rw [hnext] at ih
      exact ih.trans ((List.suffix_cons _ _).trans (List.suffix_cons _ _))
  | case2 => exact List.suffix_rfl
  | case3 => exact List.suffix_rfl

theorem suffix_of_cut {start : Place} (hplace : place <:+ start) (hr : r ∈ cut after start place) :
    r.place <:+ start := by
  induction place generalizing start with
  | nil =>
      rw [cut] at hr
      split at hr
      · exact List.mem_singleton.1 hr ▸ List.suffix_rfl
      · cases hr
  | cons p rest ih =>
      have hrest : rest <:+ start := (List.suffix_cons p rest).trans hplace
      rw [cut] at hr
      split at hr
      · split at hr
        · exact List.mem_singleton.1 hr ▸ List.suffix_rfl
        · cases hr
      · split at hr
        · rcases List.mem_cons.1 hr with rfl | hr
          · exact List.suffix_rfl
          · exact (ih List.suffix_rfl hr).trans hrest
        · exact ih hrest hr

theorem suffix_of_parts {q : Range} (hr : r ∈ q.parts) : r.place <:+ q.place :=
  suffix_of_cut List.suffix_rfl hr

end Place

theorem statementEnd_suffix (after : Nat) (stopAtComma : Bool) (place : Place) :
    statementEnd after stopAtComma place <:+ place := by
  cases place with
  | nil => exact List.suffix_rfl
  | cons p rest =>
      rw [statementEnd]
      exact Place.ite_suffix List.suffix_rfl (Place.ite_suffix List.suffix_rfl
        ((Place.find_suffix ..).trans (List.suffix_cons p rest)))

theorem Names.skipStar_suffix (place : Place) : Names.skipStar place <:+ place :=
  Place.tail_or_self_suffix _ place

theorem Names.skipWord_suffix (place : Place) : Names.skipWord place <:+ place :=
  Place.tail_or_self_suffix _ place

/-! ### Places among the tokens of a text -/

/-- A token, or a group whose brackets belong together. -/
def Piece.Whole (p : Piece) : Prop := (∃ t, p = .token t) ∨ p.Nested

/-- The tokens of a place stand side by side among all, and its groups are whole. -/
structure Place.Within (ts : List Token) (place : Place) : Prop where
  tokens : Piece.allTokens place <:+: ts
  pieces : ∀ p ∈ place, p.Whole

namespace Place.Within

theorem of_suffix (h : Within ts place) (hnext : next <:+ place) : Within ts next := by
  refine ⟨?_, fun p hp => h.pieces p (hnext.subset hp)⟩
  obtain ⟨before, rfl⟩ := hnext
  have htokens := h.tokens
  rw [Piece.allTokens_append] at htokens
  exact (List.suffix_append _ _).isInfix.trans htokens

theorem before (h : Within ts (ps ++ qs)) : Piece.allTokens ps <:+: ts := by
  refine List.IsInfix.trans ?_ h.tokens
  rw [Piece.allTokens_append]
  exact (List.prefix_append _ _).isInfix

theorem tail (h : Within ts place) : Within ts place.tail := h.of_suffix (List.tail_suffix place)

theorem behind (h : Within ts (p :: ps)) : Within ts ps := h.tail

theorem nested (h : Within ts (.group o c qs :: ps)) : (Piece.group o c qs).Nested := by
  rcases h.pieces _ List.mem_cons_self with ⟨t, ht⟩ | hnested
  · cases ht
  · exact hnested

theorem inside (h : Within ts (.group o c qs :: ps)) : Within ts qs := by
  refine ⟨?_, fun p hp => .inr (Piece.allNested_iff.1 h.nested.2 p hp)⟩
  have htokens := h.tokens
  rw [Piece.allTokens, Piece.tokens] at htokens
  refine List.IsInfix.trans ⟨[o], [c] ++ Piece.allTokens ps, ?_⟩ htokens
  simp

theorem mem_head (h : Within ts (.token t :: ps)) : t ∈ ts := by
  have htokens := h.tokens
  rw [Piece.allTokens, Piece.tokens] at htokens
  exact htokens.subset (by simp)

theorem group {k : TokenKind} (h : Within ts place) (hgroup : group? k place = some (qs, next)) :
    Within ts qs ∧ Within ts next := by
  rw [group?.eq_def] at hgroup
  split at hgroup
  · split at hgroup
    · cases hgroup
      exact ⟨h.inside, h.behind⟩
    · cases hgroup
  · cases hgroup

theorem part (h : Within ts qs) (hr : r ∈ (Range.whole qs).parts) : Within ts r.place :=
  h.of_suffix (suffix_of_parts hr)

end Place.Within

theorem within_forest {text : String} {f : List Piece} (h : forest text = .ok f) :
    Place.Within (tokens text) f where
  tokens := allTokens_forest h ▸ List.infix_rfl
  pieces p hp := .inr (nested_of_forest h p hp)

end StaticGql.Scan
