import StaticGql.Proofs.Scan.Events
import StaticGql.Proofs.Scan.Indexed.Loops
import StaticGql.Proofs.Scan.Indexed.Walk

/-!
Import statements and the clauses of exports by numbers, with the parts of a clause between its commas.
-/

namespace StaticGql.Scan.Indexed

open Place

variable {s : Table} {ts : List Token} {place next part rest behind : Place} {i j e after stop fuel : Nat} {b : Bool}

/-! ### Steps over one token -/

theorem given_yields {α β : Type} {R : α → β → Prop} {m : Checked α} {a : α} {d : β} (h : b = true → Yields R m d)
    (h' : b = false → R a d) : Yields R (given b m a) d := by
  cases b with
  | true => exact h rfl
  | false => exact .ok (h' rfl)

theorem At.over (h : At s ts i place stop) (hb : b = true → At s ts (i + 1) place.tail stop) :
    At s ts (if b then i + 1 else i) (if b then place.tail else place) stop := by
  cases b with
  | true => exact hb rfl
  | false => exact h

theorem At.overToken {k : TokenKind} (h : At s ts i place stop) (hopen : k.isOpen = false) (hclose : k.isClose = false) :
    At s ts (if s.is k i then i + 1 else i) (if at? k place then place.tail else place) stop := by
  rw [h.is k hclose]
  exact h.over (h.tail hopen)

/-! ### Names and tails -/

theorem bindingName?_eq (h : Covers s ts i place stop) : s.bindingName? i = .ok (Clause.bindingName? place) := by
  rw [Table.bindingName?, Clause.bindingName?, h.is .word rfl, h.is .str rfl]
  cases place with
  | nil => rfl
  | cons p ps =>
      rw [h.textAt]
      cases at? .word (p :: ps) <;> cases at? .str (p :: ps) <;> rfl

theorem clauseTail_yields (h : At s ts i place stop) : Yields (At s ts · · stop) (s.clauseTail i) (Clause.tail place) := by
  refine .bind_ok (h.isWord _) (.bind_ok (h.isWord _) ?_)
  rw [Clause.tail]
  cases hmarked : atWord "with" place || atWord "assert" place with
  | false => exact .ok (h.overToken rfl rfl)
  | true =>
      obtain ⟨t, ps, rfl, -⟩ : ∃ t ps, place = .token t :: ps ∧ t.kind = .word := by
        rcases Bool.or_eq_true_iff.1 hmarked with hword | hword
        all_goals
          obtain ⟨t, ps, rfl, hkind, -⟩ := h.exists_word hword
          exact ⟨t, ps, rfl, hkind⟩
      rw [h.token.is .openBrace rfl, h.told.startsLine_eq h.head, List.tail_cons, startsLine]
      cases hbrace : at? .openBrace ps with
      | false =>
          rw [group?_eq_none hbrace, ite_self]
          exact .ok (h.overToken rfl rfl)
      | true =>
          obtain ⟨o, c, inner, ps, rfl, hkind⟩ := h.token.exists_group rfl hbrace
          rw [group?, if_pos hkind, Piece.head]
          cases t.startsLine with
          | true => exact .ok (h.overToken rfl rfl)
          | false => exact .bind_ok rfl (.bind_ok h.token.past (.ok (h.token.group.overToken (k := .semicolon) rfl rfl)))

/-! ### Specifiers -/

theorem Covers.lt_iff (h : Covers s ts i place stop) : i < stop ↔ 0 < place.length := by
  have hstop := h.stop_eq
  have hlength := length_le_sizes place
  cases place with
  | nil => simp [Piece.sizes] at *; omega
  | cons p ps => simp at *; omega

theorem Covers.exists_word {w : String} (h : Covers s ts i place stop) (hword : atWord w place = true) :
    ∃ t ps, place = .token t :: ps := by
  cases place with
  | nil => cases hword
  | cons p ps =>
      cases p with
      | token t => exact ⟨t, ps, rfl⟩
      | group o c inner => cases hword

theorem Covers.token {t : Token} (h : Covers s ts i (.token t :: rest) stop) : Covers s ts (i + 1) rest stop := h.behind

/-- Over the keyword of a type, but not where it is the name itself. -/
theorem Covers.overType (h : Covers s ts i part stop) :
    Covers s ts (if atWord "type" part && decide (i + 1 < stop) then i + 1 else i)
      (if atWord "type" part && decide (1 < part.length) then part.tail else part) stop := by
  cases hword : atWord "type" part with
  | false => exact h
  | true =>
      obtain ⟨t, ps, rfl⟩ := h.exists_word hword
      have hiff : i + 1 < stop ↔ 1 < (Piece.token t :: ps).length := by
        rw [h.token.lt_iff, List.length_cons]
        omega
      by_cases hlt : i + 1 < stop
      · simp only [hlt, hiff.1 hlt, decide_true, Bool.and_self, if_true]
        exact h.token
      · simp only [hlt, hiff.not.1 hlt, decide_false, Bool.and_false, Bool.false_eq_true, if_false]
        exact h

theorem exists_of_bindingName {name : String} (h : Covers s ts i part stop) (hname : Clause.bindingName? part = some name) :
    ∃ t ps, part = .token t :: ps := by
  cases part with
  | nil => cases hname
  | cons p ps =>
      cases p with
      | token t => exact ⟨t, ps, rfl⟩
      | group o c inner =>
          rw [Clause.bindingName?, h.at?_group (k := .word) rfl, h.at?_group (k := .str) rfl] at hname
          cases hname

/-- What is read behind `as`, if that follows a name. -/
theorem given_renamed {α : Type} {t : Token} (h : Covers s ts i (.token t :: rest) stop) {m : Checked α} {g : Place → α}
    (hm : ∀ place, place ≠ [] → Covers s ts (i + 2) place stop → m = .ok (g place)) (a : α) :
    given (atWord "as" rest && decide (i + 2 < stop)) m a =
      .ok (if atWord "as" rest && decide (2 < (Piece.token t :: rest).length) then g (List.drop 2 (.token t :: rest)) else a) := by
  cases hword : atWord "as" rest with
  | false => rfl
  | true =>
      obtain ⟨u, ps, rfl⟩ := h.token.exists_word hword
      have hiff : i + 2 < stop ↔ 2 < (Piece.token t :: .token u :: ps).length := by
        rw [h.token.token.lt_iff, List.length_cons, List.length_cons]
        omega
      by_cases hlt : i + 2 < stop
      · have hne : ps ≠ [] := List.length_pos_iff.1 (h.token.token.lt_iff.1 hlt)
        simp only [hlt, hiff.1 hlt, decide_true, Bool.and_self, given, if_true]
        exact hm ps hne h.token.token
      · simp only [hlt, hiff.not.1 hlt, decide_false, Bool.and_false, given, Bool.false_eq_true, if_false]

theorem specifier?_eq (h : Covers s ts i part stop) : s.specifier? i stop = .ok (Clause.specifier? part) := by
  have hpart := h.overType
  rw [Clause.specifier?]
  refine Yields.eq (.bind_ok (h.isWord _) ?_)
  generalize (if atWord "type" part && decide (i + 1 < stop) then i + 1 else i) = j at hpart ⊢
  generalize (if atWord "type" part && decide (1 < part.length) then part.tail else part) = named at hpart ⊢
  refine .bind_ok (bindingName?_eq hpart) ?_
  cases hname : Clause.bindingName? named with
  | none => exact .ok rfl
  | some imported =>
      obtain ⟨t, rest, rfl⟩ := exists_of_bindingName hpart hname
      refine .bind_ok (hpart.token.isWord _) (.bind_ok (given_renamed (g := text) hpart (fun place hne hplace => ?_) imported) (.ok rfl))
      cases place with
      | nil => exact absurd rfl hne
      | cons p ps => exact hplace.textAt

theorem exportOf?_eq (source : Option String) (h : Covers s ts i part stop) :
    s.exportOf? source i stop = .ok (Clause.exportOf? source part) := by
  have hpart := h.overType
  rw [Clause.exportOf?]
  refine Yields.eq (.bind_ok (h.isWord _) ?_)
  generalize (if atWord "type" part && decide (i + 1 < stop) then i + 1 else i) = j at hpart ⊢
  generalize (if atWord "type" part && decide (1 < part.length) then part.tail else part) = named at hpart ⊢
  refine .bind_ok (bindingName?_eq hpart) ?_
  cases hname : Clause.bindingName? named with
  | none => exact .ok rfl
  | some localName =>
      obtain ⟨t, rest, rfl⟩ := exists_of_bindingName hpart hname
      refine .bind_ok (hpart.token.isWord _) 
        (.bind_ok (given_renamed (g := fun place => (Clause.bindingName? place).getD localName) hpart
          (fun place _ hplace => ?_) localName) (.ok rfl))
      rw [bindingName?_eq hplace]
      rfl

theorem mapM_parts {α β : Type} {R : α → β → Prop} {parts : List (Nat × Nat)} {rs : List Range}
    {f : Nat → Nat → Checked α} {g : Range → β} (h : List.Forall₂ (IsPart s ts stop) parts rs)
    (hf : ∀ part, ∀ r ∈ rs, IsPart s ts stop part r → Yields R (f part.1 part.2) (g r)) :
    Yields (List.Forall₂ R) (parts.mapM fun part => f part.1 part.2) (rs.map g) := by
  induction h with
  | nil => exact .ok .nil
  | cons hpart _ ih =>
      rw [List.mapM_cons]
      have hrest := ih fun part r hr => hf part r (List.mem_cons_of_mem _ hr)
      exact (hf _ _ List.mem_cons_self hpart).bind fun a ha => hrest.bind fun as has => .ok (.cons ha has)

theorem mapM_eq {α : Type} {parts : List (Nat × Nat)} {rs : List Range} {f : Nat → Nat → Checked α} {g : Range → α}
    (h : List.Forall₂ (IsPart s ts stop) parts rs)
    (hf : ∀ part, ∀ r ∈ rs, IsPart s ts stop part r → f part.1 part.2 = .ok (g r)) :
    (parts.mapM fun part => f part.1 part.2) = .ok (rs.map g) := by
  have hparts : Yields (List.Forall₂ Eq) (parts.mapM fun part => f part.1 part.2) (rs.map g) :=
    mapM_parts h fun part r hr hpart => ⟨_, hf part r hr hpart, rfl⟩
  exact (hparts.mono fun as h => by rwa [List.forall₂_eq_eq_eq] at h).eq

/-! ### Imports -/

/-- Names and the number behind them. -/
def Named (s : Table) (ts : List Token) (stop : Nat) : List Specifier × Nat → List Specifier × Place → Prop :=
  fun a b => a.1 = b.1 ∧ At s ts a.2 b.2 stop

theorem isImport_eq (h : At s ts i place stop) : s.isImport i = .ok (Clause.isImport place) := by
  rw [Table.isImport, h.isWord, ok_bind, Clause.isImport]
  cases hword : atWord "import" place with
  | false => rfl
  | true =>
      obtain ⟨t, ps, rfl, -⟩ := h.exists_word hword
      rw [h.told.isMember_eq h.head, h.token.is .openParen rfl, h.token.is .dot rfl]
      rfl

theorem skipType_yields (h : At s ts i place stop) : Yields (At s ts · · stop) (s.skipType i) (Clause.skipType place) := by
  refine .bind_ok (h.told.isWord_eq _ _) (.bind_ok (h.isWord _) ?_)
  rw [Clause.skipType]
  cases hword : atWord "type" place with
  | false => exact .ok h
  | true =>
      obtain ⟨t, ps, rfl, -⟩ := h.exists_word hword
      have hfrom := h.token.isWord "from"
      rw [h.told.isWord_eq] at hfrom
      rw [Except.ok.inj hfrom, h.token.word_and rfl, h.token.is .word rfl, h.token.is .openBrace rfl,
        h.token.is .operator rfl, List.tail_cons, List.drop_succ_cons, List.drop_one]
      exact .ok (h.over fun _ => h.token)

theorem defaultName?_yields (h : At s ts i place stop) :
    Yields (Option.Rel (Named s ts stop)) (s.defaultName? i) (Clause.defaultName? place) := by
  rw [Clause.defaultName?]
  refine .bind_ok (h.isWord _) ?_
  rw [h.is .word rfl]
  refine .ite Iff.rfl (fun hname => ?_) fun _ => .ok (.some ⟨rfl, h⟩)
  obtain ⟨t, ps, rfl, -⟩ := h.exists_token (k := .word) rfl (Bool.and_eq_true_iff.1 hname).1
  rw [h.token.is .assign rfl, List.tail_cons]
  refine .ite Iff.rfl (fun _ => Yields.ok Option.Rel.none) fun _ => .bind_ok h.textAt (.ok (.some ⟨rfl, ?_⟩))
  rw [h.token.is .comma rfl]
  exact h.token.over (h.token.tail rfl)

theorem otherNames?_yields (h : At s ts i place stop) :
    Yields (Option.Rel (Named s ts stop)) (s.otherNames? i) (Clause.otherNames? place) := by
  rw [Clause.otherNames?]
  refine .bind_ok (h.isOperator _) (.ite Iff.rfl (fun hstar => ?star) fun _ => ?names)
  case star =>
    obtain ⟨t, ps, rfl, -⟩ := h.exists_token (k := .operator) rfl (Bool.and_eq_true_iff.1 hstar).1
    refine .bind_ok (h.token.isWord _) ?_
    rw [h.token.word_and rfl, List.tail_cons, List.drop_succ_cons, List.drop_one]
    refine .ite Iff.rfl (fun has => ?_) fun _ => Yields.ok Option.Rel.none
    obtain ⟨hword, hname⟩ := Bool.and_eq_true_iff.1 has
    obtain ⟨u, ps, rfl, -⟩ := h.token.exists_word hword
    obtain ⟨v, ps, rfl, -⟩ := h.token.token.exists_token rfl hname
    exact .bind_ok h.token.token.textAt (.ok (.some ⟨rfl, h.token.token.token⟩))
  case names =>
    rw [h.is .openBrace rfl]
    cases hbrace : at? .openBrace place with
    | false =>
        rw [group?_eq_none hbrace]
        exact .ok (.some ⟨rfl, h⟩)
    | true =>
        obtain ⟨o, c, inner, ps, rfl, hkind⟩ := h.exists_group rfl hbrace
        rw [group?, if_pos hkind]
        refine .bind_ok h.partner ((split_yields h.inside).bind fun parts hparts => ?_)
        refine .bind_ok (mapM_eq hparts fun part r _ hpart => specifier?_eq hpart.covers) (.ok (.some ⟨?_, h.group⟩))
        exact List.filterMap_map ..

theorem textAt_eq (h : At s ts i place stop) (hstr : at? .str place = true) : s.textAt i = .ok (text place) := by
  obtain ⟨t, ps, rfl, -⟩ := h.exists_token rfl hstr
  exact h.textAt

/-- An import as it is read, and the number behind it. -/
def Imported (s : Table) (ts : List Token) (stop : Nat) :
    String × List Specifier × Nat → String × List Specifier × Place → Prop :=
  fun a b => a.1 = b.1 ∧ a.2.1 = b.2.1 ∧ At s ts a.2.2 b.2.2 stop

theorem import?_yields {p : Piece} (h : At s ts (i + 1) rest stop) :
    Yields (Option.Rel (Imported s ts stop)) (s.import? i) (Clause.import? (p :: rest)) := by
  rw [Clause.import?, Table.import?]
  simp only [h.is .str rfl, List.tail_cons, Option.bind_eq_bind]
  refine .ite Iff.rfl (fun hstr => ?_) fun _ => ?_
  · refine .bind_ok (textAt_eq h hstr) ?_
    cases Literal.string? (text rest) with
    | none => exact Yields.ok Option.Rel.none
    | some source =>
        have hnext := h.tail (show TokenKind.str.isOpen = false from rfl) hstr
        exact (clauseTail_yields hnext).bind fun j hj => .ok (.some ⟨rfl, rfl, hj⟩)
  · refine (skipType_yields h).bind fun j hj => (defaultName?_yields hj).bind fun a ha => ?_
    generalize Clause.defaultName? (Clause.skipType rest) = d at ha ⊢
    cases ha with
    | none => exact Yields.ok Option.Rel.none
    | @some a b hab =>
        refine (otherNames?_yields hab.2).bind fun a' ha' => ?_
        rw [Option.bind_some]
        generalize Clause.otherNames? b.2 = d' at ha' ⊢
        cases ha' with
        | none => exact Yields.ok Option.Rel.none
        | @some a' b' hab' =>
            refine .bind_ok (hab'.2.isWord _) ?_
            rw [Option.bind_some, hab'.2.word_and rfl]
            refine .ite Iff.rfl (fun hfrom => ?_) fun _ => Yields.ok Option.Rel.none
            obtain ⟨hword, hstr⟩ := Bool.and_eq_true_iff.1 hfrom
            have hbehind := hab'.2.behindWord hword
            refine .bind_ok (textAt_eq hbehind hstr) ?_
            cases Literal.string? (text b'.2.tail) with
            | none => exact Yields.ok Option.Rel.none
            | some source =>
                have hnext := hbehind.tail (show TokenKind.str.isOpen = false from rfl) hstr
                rw [← List.drop_one, ← List.drop_one, List.drop_drop] at hnext
                rw [hab.1, hab'.1]
                exact (clauseTail_yields hnext).bind fun j hj => .ok (.some ⟨rfl, rfl, hj⟩)

/-! ### All imports -/

theorem At.last {used : Place} {q : Piece} (h : At s ts i (used ++ next) stop) (hj : At s ts j next stop)
    (hq : used.getLast? = some q) : ts[j - 1]? = some q.last := by
  obtain ⟨before, rfl⟩ := List.getLast?_eq_some_iff.1 hq
  have hlast : (Piece.allTokens (before ++ [q])).getLast? = some q.last := by
    have hone : Piece.allTokens [q] = q.tokens := by simp [Piece.allTokens]
    rw [Piece.allTokens_append, hone, List.getLast?_append, q.getLast?_tokens]
    rfl
  have hi := h.stop_eq
  have hj' := hj.stop_eq
  have hpos : 0 < Piece.sizes (before ++ [q]) := Nat.lt_of_lt_of_le (by simp) (length_le_sizes _)
  rw [sizes_append] at hi
  rw [show j - 1 = i + (Piece.sizes (before ++ [q]) - 1) by omega, ← List.getElem?_drop, h.tokens,
    Piece.allTokens_append, List.append_assoc, ← Piece.length_allTokens, List.getElem?_append_left,
    ← List.getLast?_eq_getElem?, hlast]
  rw [Piece.length_allTokens]
  omega

theorem importsFrom_eq {fuel' : Nat} (h : At s ts i place s.marks.length) (hfuel : place.length < fuel)
    (hfuel' : place.length < fuel') : s.importsFrom fuel i = .ok (Clause.imports fuel' place) := by
  induction fuel generalizing i place fuel' with
  | zero => omega
  | succ fuel ih =>
      obtain ⟨fuel', rfl⟩ := Nat.exists_eq_add_one.2 (Nat.zero_lt_of_lt hfuel')
      rw [Table.importsFrom]
      cases place with
      | nil =>
          rw [if_neg (by rw [h.eq_stop]; omega)]
          rfl
      | cons p rest =>
          have hless : rest.length < fuel := by simpa using hfuel
          have hless' : rest.length < fuel' := by simpa using hfuel'
          have hi : i < s.marks.length := h.toCovers.lt_iff.2 (Nat.zero_lt_succ _)
          rw [if_pos hi, Clause.imports, h.told.isOpen_eq h.head]
          cases p with
          | group o c inner =>
              have himport : ¬Clause.isImport (.group o c inner :: rest) = true := by simp [Clause.isImport, atWord, word?]
              rw [Piece.head, h.isOpen_group, if_pos rfl, h.past, ok_bind, ih h.group hless hless', if_neg himport]
          | token t =>
              rw [Piece.head, h.isOpen_token, if_neg Bool.false_ne_true, isImport_eq h, ok_bind]
              by_cases himport : Clause.isImport (.token t :: rest) = true
              · rw [if_pos himport, if_pos himport]
                obtain ⟨a, ha, hab⟩ := import?_yields (p := .token t) h.token
                rw [ha, ok_bind]
                cases hplace : Clause.import? (.token t :: rest) with
                | none =>
                    rw [hplace] at hab
                    cases hab
                    exact ih h.token hless hless'
                | some b =>
                    rw [hplace] at hab
                    obtain ⟨source, specifiers, next⟩ := b
                    cases hab with
                    | @some a b hab =>
                        obtain ⟨hsource, hnames, hnext⟩ := hab
                        simp only at hsource hnames hnext
                        obtain ⟨used, hused⟩ := Clause.suffix_of_import hplace
                        rw [List.tail_cons] at hused
                        subst hused
                        have hq := List.getLast?_eq_some_getLast (List.cons_ne_nil (.token t) used)
                        generalize (Piece.token t :: used).getLast _ = q at hq
                        have hlast := h.last hnext hq
                        have hstop : Clause.stopBefore (.token t :: (used ++ next)) next = q.last.stop := by
                          have htake : (.token t :: (used ++ next)).take
                              ((.token t :: (used ++ next) : Place).length - next.length) = .token t :: used := by
                            rw [← List.cons_append, List.length_append, Nat.add_sub_cancel, List.take_left]
                          rw [Clause.stopBefore, htake, hq]
                        have hshorter : next.length ≤ (used ++ next).length := by simp
                        have hrest : s.importsFrom fuel a.2.2 = .ok (Clause.imports fuel' next) :=
                          ih hnext (by omega) (by omega)
                        simp only [h.told.mark_eq h.head, h.told.mark_eq hlast, ok_bind, hrest, pure_eq, hstop,
                          hsource, hnames, Token.mark, Piece.head]
              · rw [if_neg himport, if_neg himport]
                exact ih h.token hless hless'

theorem imports_eq (h : At s ts 0 place s.marks.length) : s.imports = .ok (Clause.imports (place.length + 1) place) :=
  importsFrom_eq h h.length_lt_fuel (Nat.lt_succ_self _)

/-! ### Exports -/

theorem exports_yields {o c : Token} {inner : List Piece} (h : At s ts i (.group o c inner :: rest) stop) :
    Yields (fun a b => a.1 = b.1 ∧ At s ts a.2 b.2 stop) (s.exports i) (Clause.exports inner rest) := by
  refine .bind_ok h.partner (.bind_ok (h.group.isWord _) ?_)
  rw [Clause.exports]
  have hsourced := h.group.word_and (w := "from") (k := .str) rfl
  simp only at hsourced ⊢
  rw [hsourced]
  generalize hb : (atWord "from" rest && at? .str rest.tail) = sourced
  have hnext : sourced = true → At s ts (i + Piece.sizes inner + 3) rest.tail stop ∧ at? .str rest.tail = true := by
    rintro rfl
    obtain ⟨hword, hstr⟩ := Bool.and_eq_true_iff.1 hb
    exact ⟨h.group.behindWord hword, hstr⟩
  have hsource : given sourced (do return Literal.string? (← s.textAt (i + Piece.sizes inner + 1 + 2))) none =
      .ok (if sourced then Literal.string? (text rest.tail) else none) := by
    refine given_ok sourced (fun hs => ?_) none
    obtain ⟨hat, hstr⟩ := hnext hs
    obtain ⟨t, ps, hps, -⟩ := hat.exists_token rfl hstr
    rw [hps] at hat ⊢
    rw [hat.textAt]
    rfl
  refine .bind_ok hsource ((split_yields h.inside).bind fun parts hparts => ?_)
  refine .bind_ok (mapM_eq hparts fun part r _ hpart => exportOf?_eq _ hpart.covers) ?_
  have htail : At s ts (if sourced then i + Piece.sizes inner + 1 + 3 else i + Piece.sizes inner + 1 + 1)
      (if sourced then rest.drop 2 else rest) stop := by
    cases sourced with
    | false => exact h.group
    | true =>
        obtain ⟨hat, hstr⟩ := hnext rfl
        rw [← List.drop_one] at hat hstr
        have := hat.tail rfl hstr
        rwa [← List.drop_one, List.drop_drop] at this
  exact (clauseTail_yields htail).bind fun j hj => .ok ⟨List.filterMap_map .., hj⟩

/-- Over `as` and another token: into a group, or out of the level. -/
theorem behindAs_at (h : At s ts i place stop) (behind : Place) :
    (∃ next, Clause.behindAs place behind = next ∧ Clause.behindAs place [] = next ∧
      At s ts (if atWord "as" place then i + 2 else i) next stop) ∨
    (atWord "as" place = true ∧ i + 1 = stop ∧ Clause.behindAs place behind = behind ∧ Clause.behindAs place [] = []) := by
  simp only [Clause.behindAs]
  cases hword : atWord "as" place with
  | false => exact .inl ⟨place, rfl, rfl, h⟩
  | true =>
      obtain ⟨t, ps, rfl, -⟩ := h.exists_word hword
      cases ps with
      | nil => exact .inr ⟨rfl, h.token.eq_stop, rfl, rfl⟩
      | cons p ps =>
          cases p with
          | token u => exact .inl ⟨ps, rfl, rfl, h.token.token⟩
          | group o c inner => exact .inl ⟨inner ++ .token c :: ps, rfl, rfl, h.token.flatten⟩

/-- What the export of everything comes to, by numbers and by places. -/
inductive AllExported (s : Table) (ts : List Token) (stop i : Nat) :
    Nat ⊕ (List Export × Nat) → Option (List Export × Place) → Prop
  | exported {es : List Export} {j : Nat} {next : Place} (h : Reaches s ts stop stop 0 j next) :
      AllExported s ts stop i (.inr (es, j)) (some (es, next))
  | other : AllExported s ts stop i (.inl i) none

theorem exportFrom?_yields {stop' : Nat} (name : Option String) (h : At s ts i place stop')
    (hnext : ∀ j, At s ts j (Clause.tail (place.drop 2)) stop' → Reaches s ts stop stop 0 j next) :
    Yields (AllExported s ts stop i) (s.exportFrom? name i)
      (if atWord "from" place && at? .str place.tail then
        let e := (Literal.string? (text place.tail)).map fun source =>
          match name with
          | some exported => Export.reExport exported "*" source
          | none => .reExportAll source
        some (e.toList, next)
      else none) := by
  refine .bind_ok (h.isWord _) ?_
  rw [h.word_and rfl]
  refine .ite Iff.rfl (fun hfrom => ?_) fun _ => .ok .other
  obtain ⟨hword, hstr⟩ := Bool.and_eq_true_iff.1 hfrom
  obtain ⟨t, ps, rfl, -⟩ := h.exists_word hword
  obtain ⟨u, ps, rfl, -⟩ := h.token.exists_token rfl hstr
  exact .bind_ok h.token.textAt ((clauseTail_yields h.token.token).bind fun j hj => .ok (.exported (hnext j hj)))

theorem exportAll?_yields (h : At s ts i place stop) (hbehind : Outside s ts stop behind) :
    Yields (fun a b => ∃ j, Reaches s ts stop stop 0 j (Clause.behindAs place []) ∧ AllExported s ts stop j a b)
      (s.exportAll? i) (Clause.exportAll? place behind) := by
  have hname : given (atWord "as" place) (s.bindingName? (i + 1)) none =
      .ok (if atWord "as" place then Clause.bindingName? place.tail else none) :=
    given_ok _ (fun hword => bindingName?_eq (h.behindWord hword).toCovers) none
  refine .bind_ok (h.isWord _) (.bind_ok hname ?_)
  rw [Clause.exportAll?]
  obtain ⟨next, hnext, hnext', hat⟩ | ⟨hword, hi, hnext, hnext'⟩ := behindAs_at h behind
  · rw [hnext, hnext']
    exact (exportFrom?_yields _ hat fun j hj => .inl hj).mono fun a hab => ⟨_, .inl hat, hab⟩
  · have hpast : Reaches s ts stop stop 0 (i + 2) [] := .inr ⟨by omega, Nat.le_refl 0⟩
    rw [hnext, hnext', hword]
    obtain ⟨stop', hat⟩ | ⟨rfl, hlength⟩ := hbehind
    · rw [← hi] at hat
      refine (exportFrom?_yields _ hat fun j hj => ?_).mono fun a hab => ⟨i + 2, hpast, hab⟩
      obtain ⟨k, hk, hat'⟩ := hat.of_suffix ((Clause.tail_suffix _).trans (List.drop_suffix 2 behind))
      have := hj.stop_eq
      have := hat'.stop_eq
      exact .inr ⟨by omega, Nat.le_refl 0⟩
    · have hnone : wordAt ts "from" (i + 2) = false := by
        rw [wordAt, List.getElem?_eq_none (by omega)]
        rfl
      have hother (name : Option String) : s.exportFrom? name (i + 2) = .ok (.inl (i + 2)) := by
        rw [Table.exportFrom?, h.told.isWord_eq, hnone]
        rfl
      exact ⟨_, hother _, i + 2, hpast, .other⟩

end StaticGql.Scan.Indexed
