import StaticGql.Proofs.Scan.Indexed.Statements

/-!
Expressions by numbers, and with them the whole walk: by numbers and by places it reports the same, and so the scan by
numbers never goes astray.
-/

namespace StaticGql.Scan

open Place

theorem Place.le_length_find {place : Place} {after : Nat} {p : Place → Bool} (h : after ≤ place.length) :
    after ≤ (find after p place).length := by
  induction place with
  | nil => exact h
  | cons q rest ih =>
      rw [find]
      split
      · exact h
      · split
        · exact h
        · exact ih (by omega)

theorem le_length_statementEnd {place : Place} {after : Nat} (stopAtComma : Bool) (h : after ≤ place.length) :
    after ≤ (statementEnd after stopAtComma place).length := by
  cases place with
  | nil => exact h
  | cons p rest =>
      rw [statementEnd]
      split
      · exact h
      · split
        · exact h
        · exact Place.le_length_find (by omega)

theorem statementEnd_eq_self {place : Place} {after : Nat} (stopAtComma : Bool) (h : place.length ≤ after) :
    statementEnd after stopAtComma place = place := by
  cases place with
  | nil => rfl
  | cons p rest => rw [statementEnd, if_pos (Nat.lt_of_succ_le h)]

namespace Indexed

variable {s : Table} {ts : List Token} {place rest inner next behind : Place} {o c t : Token} {p : Piece} {r : Range}
  {i j e after stop size n fuel : Nat} {top : Bool}

theorem statementEnd_range (stopAtComma : Bool) (h : At s ts i place stop) (hstop : StopsAt s ts place stop e after) :
    Yields (fun j next => SameRange s ts i j ⟨place, next.length⟩ ∧ Reaches s ts stop e after j next)
      (s.statementEnd stopAtComma e i) (statementEnd after stopAtComma place) := by
  by_cases hi : i < e
  · have hlevel := (hstop.lt_iff h).1 hi
    obtain ⟨j, hj, hat⟩ := statementEnd_yields stopAtComma h hstop
    refine ⟨j, hj, ?_⟩
    rcases hat with hat | ⟨rfl, hnext⟩
    · exact ⟨.stretch h (.upTo hat (statementEnd_suffix ..)), .inl hat⟩
    · have hlength := Nat.le_antisymm hnext (le_length_statementEnd stopAtComma (Nat.le_of_lt hlevel))
      rw [hlength]
      exact ⟨.stretch h hstop, .inr ⟨Nat.le_refl j, Nat.le_of_eq hlength⟩⟩
  · have hnone := Nat.not_lt.1 ((hstop.lt_iff h).not.1 hi)
    rw [statementEnd_past stopAtComma (Nat.not_lt.1 hi), statementEnd_eq_self stopAtComma hnone]
    exact .ok ⟨.nothing (Nat.not_lt.1 hi) (decide_eq_true (Nat.le_refl _)), .inr ⟨Nat.le_refl e, hnone⟩⟩

namespace Table.Walk

/-! ### Words -/

/-- The same parts are left, and the walk goes on among the pieces of `rest`. -/
def Proceeds (s : Table) (ts : List Token) (n stop e after : Nat) (rest : Place) : List Part × Nat → Scan.Walk.Step → Prop :=
  fun a b => Ends s ts n stop e after a b ∧ b.2 <:+ rest

theorem assignedExport?_eq (t : Token) (rest : Place) : Scan.Walk.assignedExport? t rest =
    if at? .assign (Place.chain rest).2 then (assignedName? (t.text :: (Place.chain rest).1)).map (·, (Place.chain rest).2)
    else none := by
  rw [Scan.Walk.assignedExport?]
  simp only
  split
  · generalize t.text :: (Place.chain rest).1 = names
    rw [assignedName?.eq_def]
    split <;> simp_all
  · rfl

theorem assignedExport?_yields (h : At s ts i (.token t :: rest) stop) (hstop : StopsAt s ts (.token t :: rest) stop e after)
    (hn : 2 * Piece.sizes rest < n) : Yields (Option.Rel fun a b => Proceeds s ts n stop e after rest a
      (.inl (.assignedExport b.1) :: Scan.Walk.entering b.1
        [Scan.Walk.expr ⟨b.2.tail, (Scan.statementEnd after true b.2.tail).length⟩], Scan.statementEnd after true b.2.tail))
      (assignedExport? s e i) (Scan.Walk.assignedExport? t rest) := by
  rw [assignedExport?_eq]
  refine (chain_yields h).bind fun a ha => ?_
  obtain ⟨names, j⟩ := a
  obtain ⟨rfl, hj⟩ : names = _ ∧ At s ts j (Place.chain rest).2 stop := ha
  have hsuffix := chain_suffix rest
  generalize (Place.chain rest).1 = names
  generalize (Place.chain rest).2 = next at hj hsuffix
  simp only
  rw [hj.is .assign rfl]
  cases assignedName? (t.text :: names) with
  | none =>
      rw [Option.map_none, ite_self]
      exact .ok .none
  | some name =>
      refine .ite Iff.rfl (fun hassign => ?_) fun _ => .ok .none
      have hvalue := (List.tail_suffix next).trans hsuffix
      have hlevel := hstop.of_suffix (hvalue.trans (List.suffix_cons ..))
      refine (statementEnd_range true (hj.tail rfl hassign) hlevel).bind fun e he => .ok (.some ⟨⟨?_, he.2⟩, ?_⟩)
      · exact .event _ (.entering name (.expr he.1 (small_of_suffix hvalue hn)))
      · exact (statementEnd_suffix ..).trans hvalue

theorem wordExpression_yields (scope : Marker.Scope) (h : At s ts i (.token t :: rest) stop)
    (hstop : StopsAt s ts (.token t :: rest) stop e after) (hn : 2 * Piece.sizes rest < n) :
    Yields (Proceeds s ts n stop e after rest) (wordExpression s scope e i)
      (Scan.Walk.wordExpression scope ⟨.token t :: rest, after⟩ t rest) := by
  have hskip : Yields (Proceeds s ts n stop e after rest) (.ok ([], i + 1)) ([], rest) :=
    .ok ⟨⟨.nil, .inl h.token⟩, List.suffix_rfl⟩
  have hrest := hstop.of_suffix (List.suffix_cons (.token t) rest)
  rw [wordExpression, Scan.Walk.wordExpression, h.told.isMember_eq h.head]
  refine .ite Iff.rfl (fun _ => hskip) fun _ => (Call.marker?_yields scope h).bind fun a ha => ?_
  simp only
  generalize Scan.Call.marker? scope (.token t :: rest) = b at ha
  cases ha with
  | some hab =>
      obtain ⟨hevent, hat, hnext⟩ := hab
      exact .ok ⟨⟨hevent ▸ .event _ .nil, .inl hat⟩, hnext⟩
  | none =>
      refine (assignedExport?_yields h hstop hn).bind fun a ha => ?_
      generalize Scan.Walk.assignedExport? t rest = b at ha
      cases ha with
      | some hab => exact .ok hab
      | none =>
          refine .bind_ok h.textAt (.ite Iff.rfl (fun _ => ?function) fun _ => .ite Iff.rfl (fun _ => ?classes) fun _ => hskip)
          case function =>
            have hname := (Scan.Names.skipWord_suffix _).trans (Scan.Names.skipStar_suffix rest)
            refine (Names.skipStar_yields h.token).bind fun j hj => ?_
            refine (functionRest_yields (Names.at_skipWord hj) (hrest.of_suffix hname) (small_of_suffix hname hn)).mono ?_
            exact fun _ ha => ⟨ha.ends, (Scan.Walk.takes_functionRest [] after _).suffix.trans hname⟩
          case classes =>
            refine (classDeclaration_yields h.token hrest hn false).mono fun _ ha => ⟨ha, ?_⟩
            exact (Scan.Walk.takes_classDeclaration [] after false rest).suffix

/-! ### Fields of objects -/

theorem keyedField_eq (r v : Range) (t : Token) : Scan.Walk.keyedField r t v =
    if t.kind = .word ∨ t.kind = .str ∨ t.kind = .number then
      match Item.key? t with
      | some key => Scan.Walk.entering key [Scan.Walk.expr v]
      | none => [Scan.Walk.expr v]
    else [Scan.Walk.expr r] := by
  rw [Scan.Walk.keyedField, Item.key?]
  cases t.kind <;> rfl

theorem field_yields (h : At s ts i r.place stop) (hstop : StopsAt s ts r.place stop e r.after)
    (hr : r ∈ (Range.whole inner).parts) (hn : 2 * Piece.sizes r.place < n) :
    Yields (Leads s ts n) (field s i e) (Scan.Walk.field r) := by
  have hself : Leads s ts n [expr i e] [Scan.Walk.expr r] := .expr (.stretch h hstop) hn
  have hne : r.place ≠ [] := by
    rintro hnil
    rcases comma_of_cut List.suffix_rfl hr with hlt | hcomma
    · rw [hnil] at hlt
      exact Nat.not_lt_zero _ hlt
    · rw [hnil] at hcomma
      cases hcomma
  obtain ⟨place, after⟩ := r
  rw [field, Scan.Walk.field, h.is .ellipsis rfl, h.is .word rfl, h.is .str rfl, h.is .number rfl, h.is .openBracket rfl]
  cases place with
  | nil => exact absurd rfl hne
  | cons p rest =>
      have hsuffix := List.suffix_cons p rest
      have hrest := hstop.of_suffix hsuffix
      have hsmall := small_of_suffix hsuffix hn
      have hvalue (j : Nat) (h : At s ts j rest stop) (hcolon : at? .colon rest = true) :
          Leads s ts n [expr (j + 1) e] [Scan.Walk.expr ⟨rest.tail, after⟩] :=
        .expr (.stretch (h.tail rfl hcolon) (hrest.of_suffix (List.tail_suffix rest))) (small_of_suffix (List.tail_suffix rest) hsmall)
      cases p with
      | group o c inner =>
          have hcolon : given (at? .openBracket (.group o c inner :: rest)) (do return s.is .colon (← s.past i)) false =
              .ok (decide (o.kind = .openBracket) && at? .colon rest) := by
            rw [at?_group, h.past, ok_bind, h.group.is .colon rfl, pure_eq, given_ok _ fun _ => rfl]
            cases decide (o.kind = .openBracket) <;> rfl
          rw [h.at?_group (k := .ellipsis) rfl, h.at?_group (k := .word) rfl, h.at?_group (k := .str) rfl,
            h.at?_group (k := .number) rfl, hcolon]
          refine .bind_ok rfl (.ite (by simp) (fun hcomputed => ?_) fun _ => .ok hself)
          exact .bind_ok h.partner (.ok ((Leads.inside h (Nat.lt_succ_of_lt hn)).cons (hvalue _ h.group hcomputed.2)))
      | token t =>
          have hopening : at? .openBracket (.token t :: rest) = false := by
            rw [← h.is .openBracket rfl, h.is_opening rfl]
          rw [h.token.is .colon rfl, hopening, at?_token, at?_token, at?_token, at?_token, key?_eq h.toCovers]
          refine .ite decide_eq_true_iff (fun _ => .ok (.expr (.stretch h.token hrest) hsmall)) fun _ => ?_
          cases hcolon : at? .colon rest with
          | false =>
              rw [Bool.and_false]
              exact .bind_ok rfl (.ok hself)
          | true =>
              rw [Bool.and_true, if_pos rfl, keyedField_eq]
              refine .ite (by simp [or_assoc]) (fun _ => .bind_ok rfl ?_) fun _ => .bind_ok rfl (.ok hself)
              have hvalue := hvalue _ h.token hcolon
              cases Item.key? t with
              | some key => exact .ok (.entering key hvalue)
              | none => exact .ok hvalue

/-! ### Steps -/

theorem piece_yields (scope : Marker.Scope) (h : At s ts i (p :: rest) stop) (hstop : StopsAt s ts (p :: rest) stop e after)
    (hn : 2 * Piece.sizes (p :: rest) < n + 1) : Yields (Proceeds s ts n stop e after rest) (piece s scope e i)
      (Scan.Walk.construct scope ⟨p :: rest, after⟩) := by
  rw [piece, Scan.Walk.construct, h.is .word rfl, h.is .openBrace rfl, h.is .openParen rfl, h.is .openBracket rfl]
  cases p with
  | token t =>
      have hopening {k : TokenKind} (hk : k.isOpen = true) (hclose : k.isClose = false) : at? k (.token t :: rest) = false := by
        rw [← h.is k hclose, h.is_opening hk]
      simp only [Piece.sizes, Piece.size] at hn
      rw [hopening (k := .openBrace) rfl rfl, hopening (k := .openParen) rfl rfl, hopening (k := .openBracket) rfl rfl, at?_token]
      refine .ite decide_eq_true_iff (fun _ => wordExpression_yields scope h hstop (by omega)) fun _ => ?_
      exact .ok ⟨⟨.nil, .inl h.token⟩, List.suffix_rfl⟩
  | group o c inner =>
      have hbehind {parts : List Part} {parts' : List Scan.Walk.Part} (hparts : Leads s ts n parts parts') :
          Proceeds s ts n stop e after rest (parts, i + Piece.sizes inner + 2) (parts', rest) :=
        ⟨⟨hparts, .inl h.group⟩, List.suffix_rfl⟩
      have hopen := Names.opening_cases h.isOpen_group
      have hobject : s.opensObject i = .ok o.opensObject := h.told.opensObject_eq h.head
      rw [h.at?_group (k := .word) rfl, if_neg Bool.false_ne_true, at?_group, at?_group, at?_group]
      refine .ite decide_eq_true_iff (fun _ => ?braces) fun hkind => ?others
      case others =>
        rw [if_pos (by simpa [hkind] using hopen)]
        exact .bind_ok h.partner (.ok (hbehind (.inside h hn)))
      case braces =>
        refine .bind_ok h.partner (.bind_ok hobject (.ite Iff.rfl (fun _ => ?object) fun _ => .ok (hbehind (.body h hn))))
        case object =>
          refine (split_yields h.inside).bind fun parts hparts => ?_
          have hfields : Yields (List.Forall₂ (Leads s ts n)) (parts.mapM fun part => field s part.1 part.2)
              ((Range.whole inner).parts.map Scan.Walk.field) := by
            refine mapM_parts hparts fun part r hr hpart => field_yields hpart.first hpart.stops hr ?_
            have hsize : Piece.sizes r.place ≤ Piece.sizes inner := sizes_le_of_suffix (suffix_of_parts hr)
            simp only [Piece.sizes, Piece.size] at hn
            omega
          rw [List.flatMap_def]
          exact hfields.bind fun steps hsteps => .ok (hbehind (List.rel_flatten hsteps))

theorem expressionStep_yields (scope : Marker.Scope) (h : SameRange s ts i e r) (hn : 2 * Piece.sizes r.place < n + 1) :
    Yields (Leads s ts n) (expressionStep s scope i e) (Scan.Walk.expressionStep scope r) := by
  rw [expressionStep, Scan.Walk.expressionStep_eq]
  cases h with
  | nothing hends hempty =>
      rw [if_neg (Nat.not_lt.2 hends), if_pos hempty]
      exact .ok .nil
  | @stretch stop h hstop =>
      obtain ⟨place, after⟩ := r
      by_cases hi : i < e
      · cases place with
        | nil => exact absurd ((hstop.lt_iff h).1 hi) (Nat.not_lt_zero after)
        | cons p rest =>
            rw [if_pos hi, if_neg (Bool.eq_false_iff.1 (Names.isEmpty_eq_false h hstop hi))]
            refine (piece_yields scope h hstop hn).bind fun a ha => ?_
            obtain ⟨⟨hparts, hnext⟩, hsuffix⟩ := ha
            refine .ok (hparts.append (.expr ?_ ?_))
            · rcases hnext with hat | ⟨hpast, hnone⟩
              · exact .stretch hat (hstop.of_suffix (hsuffix.trans (List.suffix_cons p rest)))
              · exact .nothing hpast (decide_eq_true hnone)
            · have hsize := sizes_le_of_suffix hsuffix
              have hpos := size_pos p
              rw [Piece.sizes] at hn
              dsimp only at hsize ⊢
              omega
      · have hempty : (Range.mk place after).isEmpty = true := decide_eq_true (Nat.not_lt.1 ((hstop.lt_iff h).not.1 hi))
        rw [if_neg hi, if_pos hempty]
        exact .ok .nil

theorem tail_suffix_of_cons {α : Type} {l rest : List α} {a : α} (h : l <:+ a :: rest) : l.tail <:+ rest := by
  rcases List.suffix_cons_iff.1 h with rfl | h
  · exact List.suffix_rfl
  · exact (List.tail_suffix l).trans h

theorem sizes_statement_group (top : Bool) (behind : Place) (o c : Token) (inner rest : List Piece) :
    Piece.sizes (Scan.Walk.statement top behind (.group o c inner :: rest)).2 ≤ Piece.sizes rest := by
  rw [Scan.Walk.statement]
  split
  · exact Nat.le_refl _
  · exact sizes_le_of_suffix (tail_suffix_of_cons (statementEnd_suffix 0 false _))

theorem sizes_statement (top : Bool) (behind place : Place) :
    Piece.sizes (Scan.Walk.statement top behind place).2 ≤ Piece.sizes place := by
  have hlength := (Scan.Walk.once_statement [] top behind place).length_le
  rw [List.length_append, Piece.length_allTokens, Piece.length_allTokens] at hlength
  omega

theorem fits_behind (h : At s ts i (p :: rest) stop) (hbehind : Outside s ts stop behind)
    (hn : 2 * Piece.sizes (p :: rest) < n) (hj : Reaches s ts stop stop 0 j next)
    (hsize : Piece.sizes next ≤ Piece.sizes (p :: rest))
    (hgroup : ∀ o c inner, p = .group o c inner → Piece.sizes next ≤ Piece.sizes rest) :
    Fits s ts n (.statements (max j (i + 1)) stop top)
      (.statements (if Piece.sizes next < Piece.sizes (p :: rest) then next else rest) top behind) := by
  have hpos := size_pos p
  rw [Piece.sizes] at hn hsize ⊢
  rcases hj with hat | ⟨hpast, hnone⟩
  · have hi := h.stop_eq
    have hj := hat.stop_eq
    rw [Piece.sizes] at hi
    by_cases hless : Piece.sizes next < p.size + Piece.sizes rest
    · rw [if_pos hless, Nat.max_eq_left (by omega)]
      exact .statements hat hbehind (by omega)
    · rw [if_neg hless, Nat.max_eq_right (by omega)]
      cases p with
      | token t => exact .statements h.token hbehind (by omega)
      | group o c inner =>
          have hinside := hgroup o c inner rfl
          omega
  · obtain rfl := List.length_eq_zero_iff.1 (Nat.le_zero.1 hnone)
    rw [if_pos (by rw [Piece.sizes]; omega)]
    exact .ended (by omega) (by omega)

theorem statementsStep_yields (h : At s ts i place stop) (hbehind : Outside s ts stop behind)
    (hn : 2 * Piece.sizes place < n) :
    Yields (Leads s ts n) (statementsStep s i stop top) (Scan.Walk.statementsStep place top behind) := by
  rw [statementsStep]
  cases place with
  | nil =>
      rw [h.eq_stop, if_neg (Nat.lt_irrefl stop)]
      exact .ok .nil
  | cons p rest =>
      rw [if_pos (h.toCovers.lt_iff.2 (Nat.zero_lt_succ _)), Scan.Walk.statementsStep]
      refine (statement_yields h hbehind hn h.length_lt_fuel).bind fun a ha => ?_
      obtain ⟨parts, j⟩ := a
      obtain ⟨hparts, hj⟩ := ha
      refine .ok (hparts.append (List.Forall₂.cons (.inr ?_) .nil))
      exact fits_behind h hbehind hn hj (sizes_statement top behind _)
        (fun o c inner hp => hp ▸ sizes_statement_group top behind o c inner rest)

theorem step_yields {scope : Marker.Scope} {job : Job} {task : Scan.Walk.Task} (h : Fits s ts (n + 1) job task) :
    Yields (Leads s ts n) (step s scope job) (Scan.Walk.step scope task) := by
  cases h with
  | expression same small => exact expressionStep_yields scope same small
  | statements h hbehind small => exact statementsStep_yields h hbehind (Nat.lt_of_succ_lt_succ small)
  | ended h small =>
      rw [step, statementsStep, if_neg (Nat.not_lt.2 h)]
      exact .ok .nil

theorem not_fits_zero (job : Job) (task : Scan.Walk.Task) : ¬Fits s ts 0 job task := by
  rintro (⟨-, h⟩ | ⟨-, -, h⟩ | ⟨-, h⟩) <;> exact Nat.not_lt_zero _ h

theorem events_eq (scope : Marker.Scope) (h : At s ts 0 place s.marks.length) :
    events s scope = .ok (Scan.Walk.events place scope) := by
  have hlength : ts.length ≤ s.marks.length := by rw [h.told.marks, List.length_map]
  have hsize := h.sizes_le
  have hfits : Fits s ts (2 * Piece.sizes place + 2) (.statements 0 s.marks.length true) (.statements place true []) :=
    .statements h (.inr ⟨rfl, hlength⟩) (by omega)
  exact unfold_eq (R := Fits s ts) (fun _ _ _ => step_yields) not_fits_zero hfits (by omega)

end Table.Walk

/-! ### Whole texts -/

variable {text : String} {f : List Piece}

/-- The table of a text covers its forest from the first token to the last. -/
theorem at_forest (hforest : forest text = .ok f) (htold : s.Tells (tokens text)) :
    At s (tokens text) 0 f s.marks.length := by
  have htokens := allTokens_forest hforest
  have hlength : s.marks.length = (tokens text).length := by rw [htold.marks, List.length_map]
  have hnone : (tokens text)[s.marks.length]? = none := List.getElem?_eq_none (Nat.le_of_eq hlength.symm)
  refine ⟨⟨htold, ?_, ?_, fun p hp => (nested_of_forest hforest p hp).entire, ?_⟩, ?_⟩
  · rw [hlength, List.drop_length, List.append_nil, htokens]
    rfl
  · rw [hlength, ← htokens, Piece.length_allTokens, Nat.zero_add]
  · simp [hnone]
  · simp [hnone]

theorem ofEvents_scope (marker : Marker) (file text : String) (imports : List ImportEvent)
    (events : Marker.Scope → List Event) :
    Analysis.ofEvents marker file text imports
      (fun _ => events (marker.scope (imports.map fun i => (i.source, i.specifiers)))) =
    Analysis.ofEvents marker file text imports events := by
  rw [Analysis.ofEvents, Analysis.ofEvents]

/-- Counting tokens and jumping over partners comes to the same as going through the forest. -/
theorem analyze_eq (marker : Marker) (file text : String) :
    analyze marker file text = .ok (Scan.analyze marker file text) := by
  obtain ⟨s, htable, htold⟩ := Table.exists_ofText text
  rw [analyze, htable, ok_bind, Scan.analyze]
  cases hforest : forest text with
  | error offset => rfl
  | ok f =>
      have hat := at_forest hforest (htold f hforest)
      simp only [Except.map, imports_eq hat, Table.Walk.events_eq _ hat, ok_bind, pure_eq]
      rw [ofEvents_scope marker file text (Clause.imports (f.length + 1) f) (Walk.events f)]

theorem exists_analyze_iff {marker : Marker} {file : String} :
    (∃ a, Scan.analyze marker file text = .ok a) ↔ Balanced ((tokens text).map (·.kind)) := by
  rw [← exists_forest_iff_balanced, Scan.analyze]
  cases forest text <;> simp [Except.map]

/-- Whatever the text, the scan by numbers comes to an end without a fault, and answers with an analysis if
the brackets of the text balance and with an error if they do not. -/
theorem analyze_total (marker : Marker) (file text : String) :
    analyze marker file text = .ok (Scan.analyze marker file text) ∧
      ((∃ a, Scan.analyze marker file text = .ok a) ↔ Balanced ((tokens text).map (·.kind))) ∧
      ((∃ offset, Scan.analyze marker file text = .error offset) ↔ ¬Balanced ((tokens text).map (·.kind))) := by
  refine ⟨analyze_eq marker file text, exists_analyze_iff, ?_⟩
  rw [← @exists_analyze_iff text marker file]
  cases Scan.analyze marker file text <;> simp

end Indexed
end StaticGql.Scan
