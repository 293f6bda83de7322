import StaticGql.Proofs.Scan.Capture
import StaticGql.Proofs.Scan.Indexed.Clauses

/-!
Literal values by numbers. A value is read from a part of a level; where the key of a field is none, its value may
be read from elsewhere, and comes to nothing there.
-/

namespace StaticGql.Scan.Indexed

open Place

variable {s : Table} {ts : List Token} {place part used rest inner : Place} {o c t : Token} {p : Piece} {r : Range}
  {i j level stop fuel : Nat}

/-! ### Parts as items -/

theorem isComma_item (h : p.Entire) : p.item.isComma = decide (p.head.kind = .comma) := by
  cases p with
  | token t => rfl
  | group o c inner =>
      have hpair : o.kind.closer? = some c.kind := h.1
      have hcomma : o.kind ≠ .comma := fun hkind => by
        rw [hkind] at hpair
        cases hpair
      rw [Piece.item, Piece.head, decide_eq_false hcomma]
      cases o.kind <;> rfl

/-- The parts of a level are those between the commas of its items. -/
theorem items_cut (hplace : ∀ p ∈ place, p.Entire) (hused : ∀ i ∈ Piece.items used, i.isComma = false) :
    (cut 0 (used ++ place) place).map (fun r => Piece.items r.pieces) = Item.cut (Piece.items (used ++ place)) := by
  induction place generalizing used with
  | nil =>
      rw [cut, List.append_nil]
      cases used with
      | nil => rfl
      | cons p ps =>
          rw [if_pos (by simp), List.map_singleton, Item.cut_part hused (by rw [Piece.items]; simp)]
          exact congrArg (fun ps => [Piece.items ps]) (Range.pieces_whole _)
  | cons p rest ih =>
      obtain ⟨hp, hrest⟩ := List.forall_mem_cons.1 hplace
      have hcomma := isComma_item hp
      rw [cut, if_neg (Nat.not_lt_zero _)]
      by_cases hkind : p.head.kind = .comma
      · rw [decide_eq_true hkind] at hcomma
        have hpieces : (Range.mk (used ++ p :: rest) (rest.length + 1)).pieces = used := Range.pieces_between used (p :: rest)
        have hnext := @ih [] hrest (by simp [Piece.items])
        rw [if_pos hkind, List.map_cons, hpieces, Piece.items_append, Piece.items, Item.cut_comma hused hcomma]
        exact congrArg _ hnext
      · rw [decide_eq_false hkind] at hcomma
        have hlonger : ∀ i ∈ Piece.items (used ++ [p]), i.isComma = false := by
          rw [Piece.items_append]
          exact List.forall_mem_append.2 ⟨hused, by simpa [Piece.items] using hcomma⟩
        rw [if_neg hkind]
        simpa using ih hrest hlonger

theorem items_parts (h : ∀ p ∈ inner, p.Entire) :
    (Range.whole inner).parts.map (fun r => Piece.items r.pieces) = Item.cut (Piece.items inner) := by
  have hcut := @items_cut inner [] h (by simp [Piece.items])
  exact hcut

/-! ### Values -/

theorem tokenValue?_eq (h : Covers s ts i (.token t :: rest) stop) : s.tokenValue? i = .ok (Item.tokenValue? t) := by
  rw [Table.tokenValue?, h.told.is_eq h.head, h.told.is_eq h.head, h.told.is_eq h.head, h.textAt, Piece.head]
  cases hkind : t.kind <;> simp [Item.tokenValue?, hkind, ok_bind, pure_eq]

theorem tokenValue?_total (hs : s.Tells ts) (i : Nat) : ∃ v, s.tokenValue? i = .ok v := by
  rw [Table.tokenValue?, hs.textAt_eq]
  split
  · exact ⟨_, rfl⟩
  · split
    · exact ⟨_, rfl⟩
    · split <;> exact ⟨_, rfl⟩

theorem key?_eq (h : Covers s ts i (.token t :: rest) stop) : s.key? i = .ok (Item.key? t) := by
  rw [Table.key?, h.told.is_eq h.head, h.told.is_eq h.head, h.textAt, Piece.head]
  cases hkind : t.kind <;> simp [Item.key?, hkind, ok_bind, pure_eq]

/-- A group spans a range if its closing bracket is the last token of the range. -/
theorem spans_group {k : TokenKind} (h : Covers s ts i (.group o c inner :: rest) stop) (j : Nat) :
    s.spans k i j = .ok (decide (o.kind = k) && decide (i + Piece.sizes inner + 2 = j)) := by
  rw [Table.spans, h.told.is_eq h.head, h.past, Piece.head]
  cases decide (o.kind = k) <;> rfl

theorem spans_other {k : TokenKind} (h : s.is k i = false) (j : Nat) : s.spans k i j = .ok false := by
  rw [Table.spans, h]
  rfl

/-- Outside a part nothing is a value, but it does no harm to look. -/
theorem literal?_outside (h : At s ts i place level) (hstop : level < stop ∨ stop ≤ i) (hfuel : 0 < fuel) :
    ∃ v, s.literal? fuel i stop = .ok v := by
  obtain ⟨fuel, rfl⟩ := Nat.exists_eq_add_one.2 hfuel
  have hspans (k : TokenKind) (hk : k.isOpen = true) (hclose : k.isClose = false) : s.spans k i stop = .ok false := by
    cases hat : at? k place with
    | false => exact spans_other (by rw [h.is k hclose, hat]) stop
    | true =>
        obtain ⟨o, c, inner, rest, rfl, -⟩ := h.exists_group hk hat
        have hlevel := h.group.index_le
        rw [spans_group h.toCovers, decide_eq_false (show i + Piece.sizes inner + 2 ≠ stop by omega), Bool.and_false]
  obtain ⟨v, hv⟩ := tokenValue?_total h.told i
  rw [Table.literal?, hspans .openBrace rfl rfl, hspans .openBracket rfl rfl, h.isOperator, ok_bind, h.told.textAt_eq]
  split
  · exact ⟨v, hv⟩
  · split <;> exact ⟨_, rfl⟩

theorem key?_group (h : Covers s ts i (.group o c inner :: rest) stop) : s.key? i = .ok none := by
  rw [Table.key?, h.is .word rfl, h.is .str rfl, h.at?_group (k := .word) rfl, h.at?_group (k := .str) rfl]
  rfl

/-- Values of parts are read as such, and looking elsewhere does no harm. -/
structure ReadsValues (s : Table) (ts : List Token) (value : Nat → Nat → Checked (Option Json)) (size : Nat) : Prop where
  inside : ∀ {part i stop}, Covers s ts i part stop → Piece.sizes part ≤ size →
    value i stop = .ok (Item.value? (Piece.items part))
  outside : ∀ {place i level stop}, At s ts i place level → level < stop ∨ stop ≤ i → ∃ v, value i stop = .ok v

variable {value : Nat → Nat → Checked (Option Json)}

/-- Where there is no key there is no field, wherever its value would be read. -/
theorem field?_none {v : Option Json} (hkey : s.key? i = .ok none) (hvalue : s.is .colon (i + 1) = true → value (i + 2) j = .ok v) :
    s.field? value i j = .ok none := by
  rw [Table.field?]
  split
  · rw [hkey, ok_bind, hvalue ‹_›]
    rfl
  · rfl

theorem sizes_pieces_le (hr : r ∈ (Range.whole inner).parts) : Piece.sizes r.pieces ≤ Piece.sizes inner := by
  have hsub : r.pieces.Sublist inner := (List.take_sublist _ _).trans (suffix_of_parts hr).sublist
  rw [← Piece.length_allTokens, ← Piece.length_allTokens]
  exact (Piece.allTokens_sublist hsub).length_le

/-- A part in which there is nothing stands before a comma. -/
theorem exists_comma (h : At s ts i r.place level) (hr : r ∈ (Range.whole inner).parts) (hpieces : r.pieces = []) :
    ∃ t rest, r.place = .token t :: rest ∧ t.kind = .comma := by
  refine h.exists_token rfl ((comma_of_cut List.suffix_rfl hr).resolve_left fun hlt => ?_)
  have hlength := congrArg List.length hpieces
  rw [Range.pieces, List.length_take, List.length_nil] at hlength
  omega

theorem field?_eq {part : Nat × Nat} (h : IsPart s ts level part r) (hr : r ∈ (Range.whole inner).parts)
    (hvalue : ReadsValues s ts value (Piece.sizes inner)) :
    s.field? value part.1 part.2 = .ok (Item.field? (Piece.items r.pieces)) := by
  have hcovers := h.covers
  cases hpieces : r.pieces with
  | nil =>
      obtain ⟨t, rest, hplace, hkind⟩ := exists_comma h.first hr hpieces
      have hfirst := h.first
      rw [hpieces] at hcovers
      rw [hplace] at hfirst
      have hkey := key?_eq hfirst.toCovers
      rw [Item.key?, hkind] at hkey
      by_cases hcolon : s.is .colon (part.1 + 1) = true
      · rw [hfirst.token.is .colon rfl] at hcolon
        obtain ⟨u, vs, rfl, -⟩ := hfirst.token.exists_token rfl hcolon
        have hlast := hcovers.eq_stop
        obtain ⟨v, hv⟩ := @hvalue.outside _ _ _ part.2 hfirst.token.token (.inr (by omega))
        exact field?_none hkey fun _ => hv
      · exact if_neg hcolon
  | cons p ps =>
      rw [hpieces] at hcovers
      have hsize := sizes_pieces_le hr
      rw [hpieces] at hsize
      cases p with
      | group o c inner' =>
          have hnone : Item.field? (Piece.items (.group o c inner' :: ps)) = none := by
            rw [Piece.items, Piece.item]
            cases o.kind <;> rfl
          rw [hnone]
          by_cases hcolon : s.is .colon (part.1 + 1) = true
          · rw [hcovers.inside.is .colon rfl] at hcolon
            obtain ⟨u, vs, rfl, -⟩ := hcovers.inside.exists_token rfl hcolon
            have hlast := hcovers.behind.index_le
            rw [Piece.size] at hlast
            obtain ⟨v, hv⟩ := @hvalue.outside _ _ _ part.2 hcovers.inside.token (.inl (by omega))
            exact field?_none (key?_group hcovers) fun _ => hv
          · exact if_neg hcolon
      | token t =>
          rw [Table.field?, hcovers.token.is .colon rfl, key?_eq hcovers, Piece.items, Piece.item]
          cases ps with
          | nil => rfl
          | cons q vs =>
              cases q with
              | group o c inner' =>
                  rw [hcovers.token.at?_group rfl, Piece.items, Piece.item]
                  cases o.kind <;> rfl
              | token u =>
                  have hv := hvalue.inside hcovers.token.token (by simp only [Piece.sizes] at hsize; omega)
                  rw [at?_token, Piece.items, Piece.item, Item.field?, ok_bind, hv]
                  by_cases hkind : u.kind = .colon
                  · rw [if_pos (by simpa using hkind), if_pos hkind]
                    cases Item.key? t <;> cases Item.value? (Piece.items vs) <;> rfl
                  · rw [if_neg (by simpa using hkind), if_neg hkind]

theorem objectWith_eq (h : Covers s ts i (.group o c inner :: rest) stop) (hvalue : ReadsValues s ts value (Piece.sizes inner)) :
    s.objectWith value i = .ok (Piece.objectFields inner) := by
  obtain ⟨parts, hparts, hsame⟩ := split_yields h.inside
  rw [Table.objectWith, h.partner, ok_bind, hparts, ok_bind, mapM_eq hsame fun part r hr hpart => field?_eq hpart hr hvalue,
    ok_bind, List.filterMap_map, Function.id_comp, Piece.objectFields, Item.fields, ← items_parts h.inside.entire,
    List.filterMap_map]
  rfl

/-! ### Literals of any shape -/

theorem value?_group_cons (o c : Token) (inner : List Piece) (p : Piece) (ps : List Piece) :
    Item.value? (Piece.items (.group o c inner :: p :: ps)) = none := by
  rw [Piece.items, Piece.items, Piece.item]
  cases o.kind <;> rfl

theorem value?_token_group (t o c : Token) (inner ps : List Piece) :
    Item.value? (Piece.items (.token t :: .group o c inner :: ps)) = none := by
  rw [Piece.items, Piece.items, Piece.item, Piece.item]
  cases o.kind <;> cases Piece.items ps <;> rfl

theorem value?_token_more (t : Token) (p q : Piece) (ps : List Piece) :
    Item.value? (Piece.items (.token t :: p :: q :: ps)) = none := by
  rw [Piece.items, Piece.items, Piece.items, Piece.item]
  cases p.item <;> rfl

/-- A value that does not begin with a bracket: one token, or a number behind a minus. -/
theorem literal?_token (h : Covers s ts i (.token t :: rest) stop) :
    s.literal? (fuel + 1) i stop = .ok (Item.value? (Piece.items (.token t :: rest))) := by
  have hstop := h.stop_eq
  rw [Table.literal?, spans_other (h.is_opening rfl), spans_other (h.is_opening rfl), h.isOperator, ok_bind]
  cases rest with
  | nil => 
      rw [if_pos (by simpa [Piece.sizes, Piece.size] using hstop), tokenValue?_eq h]
      rfl
  | cons p ps =>
      have hpos := size_pos p
      simp only [Piece.sizes, Piece.size] at hstop
      rw [if_neg (by omega)]
      by_cases htwo : p.size + Piece.sizes ps = 1
      · cases p with
        | group o c inner => simp only [Piece.size] at htwo; omega
        | token u =>
            obtain rfl : ps = [] := List.length_eq_zero_iff.1 (by
              have := length_le_sizes ps
              simp only [Piece.size] at htwo
              omega)
            have hvalue : Item.value? (Piece.items [.token t, .token u]) =
                if t.kind = .operator ∧ t.text = "-" ∧ u.kind = .number then
                  (Literal.number? u.text).bind fun x => Literal.numberJson? x.neg
                else none := rfl
            rw [hvalue, h.told.is_eq h.token.head, atOperator, at?_token, text, h.token.textAt,
              decide_eq_true (show stop = i + 2 by omega)]
            by_cases hminus : t.kind = .operator ∧ t.text = "-" ∧ u.kind = .number
            · rw [if_pos hminus, if_pos (by simp [Piece.head, hminus])]
              rfl
            · rw [if_neg hminus, if_neg fun hcond => hminus ?_]
              · rfl
              obtain ⟨hnumber, hsign⟩ := Bool.and_eq_true_iff.1 hcond
              obtain ⟨hoperator, htext⟩ := Bool.and_eq_true_iff.1 hsign
              exact ⟨of_decide_eq_true hoperator, of_decide_eq_true htext,
                of_decide_eq_true (Bool.and_eq_true_iff.1 hnumber).2⟩
      · have hnone : Item.value? (Piece.items (.token t :: p :: ps)) = none := by
          cases ps with
          | cons q ps => exact value?_token_more t p q ps
          | nil =>
              cases p with
              | token u => simp [Piece.size, Piece.sizes] at htwo
              | group o c inner => exact value?_token_group t o c inner []
        rw [hnone, decide_eq_false (show stop ≠ i + 2 by omega)]
        rfl

theorem literal?_eq (h : Covers s ts i part stop) (hfuel : Piece.sizes part < fuel) :
    s.literal? fuel i stop = .ok (Item.value? (Piece.items part)) := by
  induction fuel generalizing i part stop with
  | zero => omega
  | succ fuel ih =>
      have hstop := h.stop_eq
      cases part with
      | nil =>
          have hnone (k : TokenKind) (hk : k.ends = false) : s.is k i = false := h.is k hk
          rw [Table.literal?, spans_other (hnone .openBrace rfl), spans_other (hnone .openBracket rfl), h.isOperator,
            ok_bind, if_neg (by rw [h.eq_stop]; omega), decide_eq_false (show stop ≠ i + 2 by rw [h.eq_stop]; omega)]
          rfl
      | cons p ps =>
          cases p with
          | token t => exact literal?_token h
          | group o c inner =>
              simp only [Piece.sizes, Piece.size] at hstop hfuel
              have hreads : ReadsValues s ts (s.literal? fuel) (Piece.sizes inner) :=
                ⟨fun hpart hle => ih hpart (by omega), fun hplace hout => literal?_outside hplace hout (by omega)⟩
              have hnumber : (decide (stop = i + 2) && s.is .number (i + 1)) = false := by
                rw [h.inside.is .number rfl]
                cases inner with
                | nil => exact Bool.and_false _
                | cons q qs =>
                    have := length_le_sizes (q :: qs)
                    rw [List.length_cons] at this
                    rw [decide_eq_false (by omega), Bool.false_and]
              rw [Table.literal?, spans_group h, spans_group h, h.isOperator, ok_bind, if_neg (by omega), hnumber]
              cases ps with
              | cons q qs =>
                  have hlonger : i + Piece.sizes inner + 2 ≠ stop := by
                    have := length_le_sizes (q :: qs)
                    rw [List.length_cons] at this
                    omega
                  rw [value?_group_cons, decide_eq_false hlonger, Bool.and_false, Bool.and_false]
                  rfl
              | nil =>
                  rw [Piece.sizes] at hstop
                  rw [decide_eq_true (show i + Piece.sizes inner + 2 = stop by omega), Bool.and_true, Bool.and_true]
                  by_cases hbrace : o.kind = .openBrace
                  · have hvalue : Item.value? (Piece.items [.group o c inner]) = some (.obj (Piece.objectFields inner)) := by
                      rw [Piece.items, Piece.item, hbrace]
                      rfl
                    rw [hvalue, decide_eq_true hbrace, objectWith_eq h hreads]
                    rfl
                  · rw [decide_eq_false hbrace]
                    by_cases hbracket : o.kind = .openBracket
                    · have hvalue : Item.value? (Piece.items [.group o c inner]) =
                          ((Item.cut (Piece.items inner)).mapM Item.value?).map .arr := by
                        rw [Piece.items, Piece.item, hbracket]
                        rfl
                      obtain ⟨parts, hparts, hsame⟩ := split_yields h.inside
                      have hitems := mapM_eq hsame fun part r hr hpart =>
                        hreads.inside hpart.covers (sizes_pieces_le hr)
                      rw [hvalue, decide_eq_true hbracket, show stop - 1 = i + Piece.sizes inner + 1 by omega, hparts]
                      simp only [ok_bind, Bool.false_and, Bool.false_eq_true, if_false, if_true, hitems, pure_eq]
                      rw [← items_parts h.inside.entire]
                      simp [List.mapM_map, Function.comp_def]
                    · have hvalue : Item.value? (Piece.items [.group o c inner]) = none := by
                        rw [Piece.items, Piece.item]
                        cases hkind : o.kind <;> first | rfl | exact absurd hkind hbrace | exact absurd hkind hbracket
                      rw [hvalue, decide_eq_false hbracket]
                      rfl

theorem objectFields_eq (h : Covers s ts i (.group o c inner :: rest) stop) :
    s.objectWith (s.literal? s.fuel) i = .ok (Piece.objectFields inner) := by
  have hsize := h.sizes_le
  simp only [Piece.sizes, Piece.size] at hsize
  refine objectWith_eq h ⟨fun hpart hle => literal?_eq hpart ?_, fun hplace hout => literal?_outside hplace hout ?_⟩
  · rw [Table.fuel]
    omega
  · exact Nat.succ_pos _

end StaticGql.Scan.Indexed
