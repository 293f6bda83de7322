import StaticGql.Proofs.Scan.Indexed.Constructs

/-!
Statements by numbers: the walk goes on at the same place or past the end of the level, also where the names of an
export reach into a group or out of one.
-/

namespace StaticGql.Scan.Indexed

open Place

variable {s : Table} {ts : List Token} {place rest inner next behind : Place} {o c t : Token} {p : Piece} {r : Range}
  {i j e after stop size n fuel : Nat} {top : Bool}

theorem At.textIs {w : String} (h : At s ts i place stop) (hw : beginsWord w = true) :
    ∃ text, s.textAt i = .ok text ∧ (text = w ↔ atWord w place = true) := by
  refine ⟨_, h.told.textAt_eq i, fun htext => ?_, fun hword => ?_⟩
  · cases ht : ts[i]? with
    | none =>
        rw [ht] at htext
        rw [← htext] at hw
        cases hw
    | some t =>
        rw [ht] at htext
        have hkind := h.told.isWord_of_text ht hw htext
        have hat : at? .word place = true := by rw [← h.is .word rfl, h.told.is_eq ht, hkind]; rfl
        obtain ⟨u, rest, rfl, hu⟩ := h.exists_token rfl hat
        rw [h.head] at ht
        cases ht
        exact decide_eq_true ((if_pos hu).trans (congrArg some htext))
  · obtain ⟨t, rest, rfl, -, htext⟩ := h.exists_word hword
    rw [h.head]
    exact htext

namespace Table.Walk

/-! ### Exports -/

theorem withName_yields {step : Step} {b : Scan.Walk.Step} (name : Option String)
    (h : Yields (Ends s ts n stop e after) step b) :
    Yields (Ends s ts n stop e after) (withName name step) (Scan.Walk.withName name b) :=
  h.bind fun _ ha => .ok ⟨(Leads.namedIf name).append ha.1, ha.2⟩

theorem overBody_yields (h : At s ts i place stop) :
    Yields (Ends s ts n stop stop 0) (do return ([], ← skipBody s stop i)) ([], Scan.Walk.skipBody place) :=
  (skipBody_yields h).bind fun _ hj => .ok ⟨.nil, .inl hj⟩

theorem names_lead (name : Option String) : Leads s ts n (exportsDefault name :: name.toList.flatMap (bindingIf true))
    (Scan.Walk.exportsDefault name :: name.toList.flatMap (Scan.Walk.bindingIf true)) := by
  cases name with
  | none => exact .event _ .nil
  | some name => exact .event _ (.event _ .nil)

theorem overFirst (first second : String) (h : At s ts i place stop) :
    At s ts (if atWord first place && atWord second place.tail then i + 1 else i)
      (if atWord first place && atWord second place.tail then place.tail else place) stop :=
  h.over fun hwords => h.behindWord (Bool.and_eq_true_iff.1 hwords).1

/-- An expression that is exported under the name `default`: its own name, if it is one. -/
theorem defaultExpression_yields (h : At s ts i place stop) (hn : 2 * Piece.sizes place < n) :
    Yields (Ends s ts n stop stop 0) (do
      let e ← s.statementEnd false stop i
      if e = i + 1 && s.is .word i then return ([exportsDefault (some (← s.textAt i))], e + 1)
      else return ([exportsDefault none, expr i e], e + 1))
      (if at? .word place && (Scan.statementEnd 0 false place).length + 1 = place.length then
        ([Scan.Walk.exportsDefault (some (Place.text place))], (Scan.statementEnd 0 false place).tail)
      else ([Scan.Walk.exportsDefault none, Scan.Walk.expr ⟨place, (Scan.statementEnd 0 false place).length⟩],
        (Scan.statementEnd 0 false place).tail)) := by
  refine (behindEnd_yields false h).bind fun e he => ?_
  obtain ⟨hend, hbehind⟩ := he
  have hvalue := Leads.upTo h hend (statementEnd_suffix 0 false place) hn
  have hstop : StopsAt s ts place stop e (Scan.statementEnd 0 false place).length := .upTo hend (statementEnd_suffix 0 false place)
  generalize Scan.statementEnd 0 false place = next at hbehind hvalue hstop
  rw [h.is .word rfl]
  cases hword : at? .word place with
  | false =>
      rw [Bool.and_false, Bool.false_and]
      exact .ok ⟨.event _ hvalue, hbehind⟩
  | true =>
      obtain ⟨t, rest, rfl, -⟩ := h.exists_token rfl hword
      have hone : e = i + 1 ↔ next.length + 1 = (Piece.token t :: rest).length := by
        rw [(hstop.of_suffix (List.suffix_cons ..)).eq_iff h.token, List.length_cons, eq_comm, Nat.add_right_cancel_iff]
      refine .ite (by simp [hone]) (fun _ => ?_) fun _ => .ok ⟨.event _ hvalue, hbehind⟩
      exact .bind_ok h.textAt (.ok ⟨.event _ .nil, hbehind⟩)

theorem defaultValue_yields (h : At s ts i place stop) (hn : 2 * Piece.sizes place < n) :
    Yields (Ends s ts n stop stop 0) (defaultValue s stop i) (Scan.Walk.defaultValue place) := by
  have hasync := overFirst "async" "function" h
  have hsuffix := tail_or_self_suffix ((atWord "async" place && atWord "function" place.tail) = true) place
  refine .bind_ok (h.isWord _) (.bind_ok (h.told.isWord_eq _ _) ?_)
  rw [h.word_and_word, Scan.Walk.defaultValue]
  generalize (if atWord "async" place && atWord "function" place.tail then i + 1 else i) = j at hasync
  generalize (if atWord "async" place && atWord "function" place.tail then place.tail else place) = next at hasync hsuffix
  have hvalue := overFirst "abstract" "class" hasync
  have hsuffix := (tail_or_self_suffix ((atWord "abstract" next && atWord "class" next.tail) = true) next).trans hsuffix
  refine .bind_ok (hasync.isWord _) (.bind_ok (hasync.told.isWord_eq _ _) ?_)
  rw [hasync.word_and_word]
  simp only
  generalize (if atWord "abstract" next && atWord "class" next.tail then j + 1 else j) = i at hvalue
  generalize (if atWord "abstract" next && atWord "class" next.tail then next.tail else next) = value at hvalue hsuffix
  have hn := small_of_suffix hsuffix hn
  refine .bind_ok (hvalue.isWord _) (.ite Iff.rfl (fun hfunction => ?function) fun _ => ?_)
  case function =>
    have hbehind := hvalue.behindWord hfunction
    have hn := small_of_suffix (List.tail_suffix value) hn
    refine .bind_ok (functionName?_eq hbehind) ((function_yields hbehind (.level hbehind) hn false).bind fun a ha => ?_)
    exact .ok ⟨(names_lead _).append ha.1, .inl ha.2⟩
  refine .bind_ok (hvalue.isWord _) (.ite Iff.rfl (fun hclass => ?classes) fun _ => ?_)
  case classes =>
    have hbehind := hvalue.behindWord hclass
    refine .bind_ok (className?_eq hbehind) ?_
    have hrest : At s ts (if (Scan.Walk.className? value.tail).isSome then i + 2 else i + 1)
        (if (Scan.Walk.className? value.tail).isSome then value.drop 2 else value.tail) stop := by
      cases hname : Scan.Walk.className? value.tail with
      | none => exact hbehind
      | some name =>
          have htail := At.behindClassName hbehind hname
          rwa [← List.drop_one, ← List.drop_one, List.drop_drop] at htail
    have hplace : (if (Scan.Walk.className? value.tail).isSome then value.drop 2 else value.tail) <:+ value :=
      ite_suffix (List.drop_suffix 2 value) (List.tail_suffix value)
    refine (classRest_yields hrest (.level hrest) (small_of_suffix hplace hn)).bind fun a ha => ?_
    exact .ok ⟨(names_lead _).append ha.1, ha.2⟩
  obtain ⟨text, htext, hinterface⟩ := hvalue.textIs (w := "interface") rfl
  have hboth : (decide (text = "interface") && s.is .word (i + 1)) = true ↔
      (atWord "interface" value && at? .word value.tail) = true := by
    rw [Bool.and_eq_true, decide_eq_true_iff, hinterface, ← Bool.and_eq_true, hvalue.word_and rfl]
  refine .bind_ok htext (.ite hboth (fun hboth => ?interface) fun _ => defaultExpression_yields hvalue hn)
  case interface =>
    obtain ⟨hword, hnamed⟩ := Bool.and_eq_true_iff.1 hboth
    obtain ⟨t, rest, rfl, -⟩ := hvalue.exists_word hword
    obtain ⟨u, rest, rfl, -⟩ := hvalue.token.exists_token rfl hnamed
    exact .bind_ok hvalue.token.textAt ((skipBody_yields hvalue).bind fun j hj => .ok ⟨.event _ .nil, .inl hj⟩)

/-- Behind the end of a statement that begins at a place of the level or past its end. -/
theorem skipReached_yields (h : Reaches s ts stop stop 0 i place) :
    Yields (Ends s ts n stop stop 0) (skipStatement s stop i) ([], (Scan.statementEnd 0 false place).tail) := by
  rcases h with h | ⟨hpast, hnone⟩
  · exact skipStatement_yields h
  · obtain rfl := List.length_eq_zero_iff.1 (Nat.le_zero.1 hnone)
    rw [skipStatement, statementEnd_past false hpast]
    exact .ok ⟨.nil, .inr ⟨Nat.le_succ stop, Nat.le_refl 0⟩⟩

theorem Yields.ite_getD {α β : Type} {R : α → β → Prop} {m m' : Checked α} {o o' : Option β} {d : β} {p q : Prop}
    [Decidable p] [Decidable q] (hpq : p ↔ q) (h : q → Yields R m (o.getD d)) (h' : ¬q → Yields R m' (o'.getD d)) :
    Yields R (if p then m else m') ((if q then o else o').getD d) := by
  rw [apply_ite (Option.getD · d)]
  exact .ite hpq h h'

theorem exportAll_yields {d : Scan.Walk.Step} (h : At s ts i (.token t :: rest) stop) (hbehind : Outside s ts stop behind) :
    Yields (Ends s ts n stop stop 0) (do
      match ← s.exportAll? (i + 1) with
      | .inr (es, next) => return (es.map fun e => .inl (.exported e), next)
      | .inl i => skipStatement s stop i)
      (Option.getD (match Clause.exportAll? rest behind with
        | some (es, next) => some (es.map fun e => .inl (.exported e), next)
        | none => some ([], (Scan.statementEnd 0 false (Clause.behindAs rest [])).tail)) d) := by
  refine (exportAll?_yields h.token hbehind).bind fun a ha => ?_
  obtain ⟨j, hj, ha⟩ := ha
  generalize Clause.exportAll? rest behind = b at ha
  cases ha with
  | exported hnext => exact .ok ⟨.exports _, hnext⟩
  | other => exact skipReached_yields hj

/-- What follows the word `export`; a statement of another kind is left to `statement`. -/
theorem exported_yields {statement : Nat → Step} {d : Scan.Walk.Step} (h : At s ts i place stop)
    (hbehind : Outside s ts stop behind) (hn : 2 * Piece.sizes place < n)
    (hd : ∀ j t rest, At s ts j (.token t :: rest) stop → Scan.Walk.afterExport place = .token t :: rest →
      Yields (Ends s ts n stop stop 0) (statement j) d) :
    Yields (Ends s ts n stop stop 0) (exported s statement top stop i) ((Scan.Walk.exported? top behind place).getD d) := by
  have htyped := h.over fun hb : (atWord "type" place && at? .openBrace place.tail) = true =>
    h.behindWord (Bool.and_eq_true_iff.1 hb).1
  have hsuffix := tail_or_self_suffix ((atWord "type" place && at? .openBrace place.tail) = true) place
  refine .bind_ok (h.isWord _) ?_
  rw [h.word_and rfl, Scan.Walk.exported?]
  rw [Scan.Walk.afterExport] at hd
  generalize (if atWord "type" place && at? .openBrace place.tail then i + 1 else i) = j at htyped
  generalize (if atWord "type" place && at? .openBrace place.tail then place.tail else place) = typed at htyped hsuffix hd
  have hplace := htyped.over fun hb : atWord "declare" typed = true => htyped.behindWord hb
  have hsuffix := (tail_or_self_suffix (atWord "declare" typed = true) typed).trans hsuffix
  refine .bind_ok (htyped.isWord _) ?_
  simp only at hd ⊢
  generalize (if atWord "declare" typed then j + 1 else j) = i at hplace
  generalize (if atWord "declare" typed then typed.tail else typed) = place at hplace hsuffix hd
  have hn := small_of_suffix hsuffix hn
  have hskip : Yields (Ends s ts n stop stop 0) (skipStatement s stop i) ([], (Scan.statementEnd 0 false place).tail) :=
    skipStatement_yields hplace
  cases place with
  | nil =>
      rw [hplace.is .openBrace rfl, hplace.is .word rfl]
      exact .bind_ok (hplace.isOperator _) hskip
  | cons p rest =>
      cases p with
      | group o c inner =>
          rw [hplace.is .openBrace rfl, at?_group, hplace.is .word rfl, hplace.at?_group (k := .word) rfl]
          refine Yields.ite_getD decide_eq_true_iff (fun _ => ?_) fun _ => ?_
          · exact (exports_yields hplace).bind fun a ha => .ok ⟨ha.1 ▸ .exports _, .inl ha.2⟩
          · refine .bind_ok (hplace.isOperator _) ?_
            rw [atOperator, hplace.at?_group (k := .operator) rfl]
            exact hskip
      | token t =>
          rw [hplace.is_opening (k := .openBrace) rfl, if_neg Bool.false_ne_true, hplace.is .word rfl, at?_token]
          have htext : s.textAt i = .ok t.text := hplace.textAt
          have hstar : atOperator "*" (.token t :: rest) = true ↔ t.kind = .operator ∧ t.text = "*" := by
            rw [atOperator, at?_token, Bool.and_eq_true, decide_eq_true_iff, decide_eq_true_iff]
            rfl
          refine .bind_ok (hplace.isOperator _) (Yields.ite_getD hstar (fun _ => ?_) fun _ => ?_)
          · exact exportAll_yields hplace hbehind
          by_cases hword : t.kind = .word
          · rw [if_pos (decide_eq_true hword), if_neg (not_not.2 hword)]
            have hrest := hplace.token
            have hlevel := StopsAt.level hrest
            have hn' := small_of_suffix (List.suffix_cons (.token t) rest) hn
            have htail := small_of_suffix (List.tail_suffix rest) hn'
            refine .bind_ok htext (Yields.ite_getD Iff.rfl (fun _ => ?default) fun _ => ?_)
            case default =>
              exact (defaultValue_yields hrest hn').bind fun a ha => .ok ⟨ha.1.entering _, ha.2⟩
            refine .bind_ok (hrest.isWord _) (Yields.ite_getD (by simp) (fun henum => ?enum) fun _ => ?_)
            case enum => exact .bind_ok (hrest.behindWord henum.2).word? (withName_yields _ (overBody_yields hplace))
            refine Yields.ite_getD (by simp [or_assoc]) (fun _ => ?bindings) fun _ => ?_
            case bindings => exact (variableStatement_yields hrest hn' top true).mono fun _ => Goes.ends
            refine .bind_ok (hrest.isWord _) (Yields.ite_getD (by simp) (fun hasync => ?async) fun _ => ?_)
            case async =>
              have hbehind := hrest.behindWord hasync.2
              refine .bind_ok (functionName?_eq hbehind) (withName_yields _ ?_)
              exact (function_yields hbehind (.level hbehind) htail top).mono fun _ => Goes.ends
            refine Yields.ite_getD Iff.rfl (fun _ => ?function) fun _ => ?_
            case function =>
              refine .bind_ok (functionName?_eq hrest) (withName_yields _ ?_)
              exact (function_yields hrest hlevel hn' top).mono fun _ => Goes.ends
            refine .bind_ok (hrest.isWord _) (Yields.ite_getD (by simp) (fun habstract => ?abstract) fun _ => ?_)
            case abstract =>
              have hbehind := hrest.behindWord habstract.2
              exact .bind_ok hbehind.word? (withName_yields _ (classDeclaration_yields hbehind (.level hbehind) htail top))
            refine Yields.ite_getD Iff.rfl (fun _ => ?classes) fun _ => ?_
            case classes => exact .bind_ok hrest.word? (withName_yields _ (classDeclaration_yields hrest hlevel hn' top))
            refine Yields.ite_getD (by simp) (fun _ => ?bodies) fun _ => ?_
            case bodies => exact .bind_ok hrest.word? (withName_yields _ (overBody_yields hplace))
            refine Yields.ite_getD Iff.rfl (fun _ => ?synonym) fun _ => hd _ _ _ hplace rfl
            case synonym => exact .bind_ok hrest.word? (withName_yields _ hskip)
          · rw [if_neg (by simpa using hword), if_pos hword]
            exact hskip

/-! ### Blocks of namespaces -/

theorem firstBlock?_append (ps qs : List Piece) : Scan.Walk.firstBlock? (ps ++ qs) =
    match Scan.Walk.firstBlock? ps with
    | some (block, left) => some (block, left ++ qs)
    | none => Scan.Walk.firstBlock? qs := by
  fun_induction Scan.Walk.firstBlock? ps with
  | case1 => rfl
  | case2 t rest ih => rw [List.cons_append, Scan.Walk.firstBlock?, ih]
  | case3 o c inner rest hbrace => rw [List.cons_append, Scan.Walk.firstBlock?, if_pos hbrace]
  | case4 o c inner rest hbrace block left hinner ih => simp [Scan.Walk.firstBlock?, hbrace, hinner]
  | case5 o c inner rest hbrace hinner ih ih' => rw [List.cons_append, Scan.Walk.firstBlock?, if_neg hbrace, hinner, ← ih']

theorem firstBlock?_group (hkind : o.kind ≠ .openBrace) : Scan.Walk.firstBlock? (.group o c inner :: rest) =
    Scan.Walk.firstBlock? (inner ++ .token c :: rest) := by
  cases hinner : Scan.Walk.firstBlock? inner with
  | none => simp only [firstBlock?_append, Scan.Walk.firstBlock?, if_neg hkind, hinner]
  | some block => simp only [firstBlock?_append, Scan.Walk.firstBlock?, if_neg hkind, hinner]

/-- The first block of a place by numbers and by pieces, if there is one. -/
inductive SameBlock (s : Table) (ts : List Token) (stop size : Nat) : Nat → Option (List Piece × Place) → Prop
  | block {i : Nat} {o c : Token} {inner rest : List Piece} (h : At s ts i (.group o c inner :: rest) stop)
      (hsize : Piece.sizes (.group o c inner :: rest) ≤ size) : SameBlock s ts stop size i (some (inner, rest))
  | none {i : Nat} (h : stop ≤ i) : SameBlock s ts stop size i none

theorem seekBrace_yields (h : At s ts i place stop) (hsize : Piece.sizes place ≤ size) (hfuel : Piece.sizes place < fuel) :
    Yields (SameBlock s ts stop size) (seekBrace s stop fuel i) (Scan.Walk.firstBlock? place) := by
  induction fuel generalizing i place with
  | zero => exact absurd hfuel (Nat.not_lt_zero _)
  | succ fuel ih =>
      rw [seekBrace]
      cases place with
      | nil =>
          rw [h.eq_stop, decide_eq_false (Nat.lt_irrefl stop), Scan.Walk.firstBlock?]
          exact .ok (.none (Nat.le_refl stop))
      | cons p rest =>
          rw [decide_eq_true (h.toCovers.lt_iff.2 (Nat.zero_lt_succ _)), Bool.true_and]
          cases p with
          | token t =>
              simp only [Piece.sizes, Piece.size] at hsize hfuel
              rw [h.is_opening rfl, Scan.Walk.firstBlock?]
              exact ih h.token (by omega) (by omega)
          | group o c inner =>
              rw [h.is .openBrace rfl, at?_group]
              by_cases hkind : o.kind = .openBrace
              · rw [decide_eq_true hkind, Scan.Walk.firstBlock?, if_pos hkind]
                exact .ok (.block h hsize)
              · have hsizes : Piece.sizes (inner ++ .token c :: rest) + 1 = Piece.sizes (.group o c inner :: rest) := by
                  rw [sizes_append, Piece.sizes, Piece.sizes, Piece.size, Piece.size]
                  omega
                rw [decide_eq_false hkind, firstBlock?_group hkind]
                exact ih h.flatten (by omega) (by omega)

/-! ### Statements -/

theorem reaches_behind {k : TokenKind} (h : At s ts j (Place.find 0 (at? k) place) stop) (hk : k.isOpen = false) :
    Reaches s ts stop stop 0 (j + 1) (Place.find 0 (at? k) place).tail := by
  by_cases hfound : 0 < (Place.find 0 (at? k) place).length
  · exact .inl (h.tail hk (holds_of_find hfound))
  · rw [List.length_eq_zero_iff.1 (Nat.eq_zero_of_not_pos hfound)] at h ⊢
    exact .inr ⟨h.eq_stop ▸ Nat.le_succ j, Nat.le_refl 0⟩

theorem condition_yields {d : Scan.Walk.Step} (h : At s ts i place stop) (hparen : at? .openParen place = true)
    (hn : 2 * Piece.sizes place < n) : Yields (Ends s ts n stop stop 0) (condition s i)
      (match group? .openParen place with
        | some (inner, next) => ([Scan.Walk.expr (.whole inner)], next)
        | none => d) := by
  obtain ⟨o, c, inner, rest, rfl, hkind⟩ := h.exists_group rfl hparen
  rw [group?, if_pos hkind]
  exact .bind_ok h.partner (.ok ⟨.inside h (Nat.lt_succ_of_lt hn), .inl h.group⟩)

theorem block_yields (h : At s ts i place stop) (hn : 2 * Piece.sizes place < n) :
    Yields (Ends s ts n stop stop 0) (do
      let brace ← seekBrace s stop s.fuel i
      if stop ≤ brace then return ([], brace)
      else
        let close ← s.partner brace
        return ([block (brace + 1) close], close + 1))
      (match Scan.Walk.firstBlock? place with
        | some (inner, next) => ([Scan.Walk.block inner next], next)
        | none => ([], [])) := by
  refine (seekBrace_yields h (Nat.le_refl _) (Nat.lt_succ_of_le h.sizes_le)).bind fun brace hbrace => ?_
  generalize Scan.Walk.firstBlock? place = b at hbrace
  cases hbrace with
  | none hpast =>
      rw [if_pos hpast]
      exact .ok ⟨.nil, .inr ⟨hpast, Nat.le_refl 0⟩⟩
  | block h hsize =>
      rw [if_neg (Nat.not_le.2 (h.toCovers.lt_iff.2 (Nat.zero_lt_succ _)))]
      exact .bind_ok h.partner (.ok ⟨.body h (by omega), .inl h.group⟩)

theorem wordStatement_yields (h : At s ts i (.token t :: rest) stop) (hn : 2 * Piece.sizes (.token t :: rest) < n)
    (top : Bool) (w : String) : Yields (Ends s ts n stop stop 0) (wordStatement s top w stop i)
      (Scan.Walk.wordStatement top w (.token t :: rest) rest) := by
  have hrest := h.token
  have hlevel := StopsAt.level hrest
  have hn' := small_of_suffix (List.suffix_cons (.token t) rest) hn
  have htail := small_of_suffix (List.tail_suffix rest) hn'
  have hskip : Yields (Ends s ts n stop stop 0) (skipStatement s stop i)
      ([], (Scan.statementEnd 0 false (.token t :: rest)).tail) := skipStatement_yields h
  rw [wordStatement, Scan.Walk.wordStatement, hrest.isSome_word?, hrest.is .word rfl, hrest.is .openBrace rfl,
    hrest.is .openBracket rfl, hrest.is .str rfl, hrest.is .openParen rfl, hrest.is .colon rfl]
  refine .bind_ok (isImport_eq h) (.ite (by simp) (fun _ => ?imports) fun _ => ?_)
  case imports =>
    refine (import?_yields (p := .token t) hrest).bind fun a ha => ?_
    generalize Clause.import? (.token t :: rest) = b at ha
    cases ha with
    | none => exact hskip
    | some hab => exact .ok ⟨.nil, .inl hab.2.2⟩
  refine .ite (by simp [or_assoc]) (fun _ => ?bindings) fun _ => ?_
  case bindings => exact (variableStatement_yields hrest hn' top false).mono fun _ => Goes.ends
  refine .bind_ok (hrest.isWord _) (.ite (by simp) (fun hasync => ?async) fun _ => ?_)
  case async =>
    have hbehind := hrest.behindWord hasync.2
    exact (function_yields hbehind (.level hbehind) htail top).mono fun _ => Goes.ends
  refine .ite Iff.rfl (fun _ => (function_yields hrest hlevel hn' top).mono fun _ => Goes.ends) fun _ => ?_
  refine .ite Iff.rfl (fun _ => classDeclaration_yields hrest hlevel hn' top) fun _ => ?_
  refine .ite (by simp) (fun _ => .ok ⟨.nil, .inl hrest⟩) fun _ => ?_
  refine .ite (by simp) (fun _ => overBody_yields h) fun _ => ?_
  refine .ite (by simp) (fun _ => hskip) fun _ => ?_
  refine .ite (by simp) (fun _ => block_yields hrest hn') fun _ => ?_
  refine .ite (by simp) (fun hcondition => condition_yields hrest hcondition.2 hn') fun _ => ?_
  refine .bind_ok (hrest.isWord _) (.ite ?await (fun hawait => ?loop) fun _ => ?_)
  case await => rw [Bool.and_assoc, hrest.word_and rfl]; simp
  case loop => exact condition_yields (hrest.behindWord hawait.2.1) hawait.2.2 htail
  refine .ite Iff.rfl (fun _ => .ok ⟨.nil, .inl hrest⟩) fun _ => ?_
  refine .ite (by simp) (fun _ => expressionStatement_yields hrest hn') fun _ => ?_
  refine .ite Iff.rfl (fun _ => ?value) fun _ => ?_
  case value =>
    exact (findOne_yields hrest hlevel rfl).bind fun j hj => .ok ⟨.upTo hrest hj (find_suffix ..) hn', reaches_behind hj rfl⟩
  refine .ite Iff.rfl (fun hcolon => .ok ⟨.nil, .inl (hrest.tail rfl hcolon)⟩) fun _ => ?_
  exact expressionStatement_yields h hn

theorem statement_yields (h : At s ts i (p :: rest) stop) (hbehind : Outside s ts stop behind)
    (hn : 2 * Piece.sizes (p :: rest) < n) (hfuel : (p :: rest).length < fuel) :
    Yields (Ends s ts n stop stop 0) (statement s top stop fuel i) (Scan.Walk.statement top behind (p :: rest)) := by
  induction fuel generalizing i p rest top with
  | zero => exact absurd hfuel (Nat.not_lt_zero _)
  | succ fuel ih =>
      rw [statement, h.is .semicolon rfl]
      cases p with
      | group o c inner =>
          rw [h.at?_group (k := .semicolon) rfl, h.is .openBrace rfl, h.is .word rfl, h.at?_group (k := .word) rfl, at?_group,
            Scan.Walk.statement, if_neg Bool.false_ne_true, if_neg Bool.false_ne_true]
          refine .ite decide_eq_true_iff (fun _ => ?_) fun _ => expressionStatement_yields h hn
          exact .bind_ok h.partner (.ok ⟨.body h (Nat.lt_succ_of_lt hn), .inl h.group⟩)
      | token t =>
          have htext : s.textAt i = .ok t.text := h.textAt
          rw [h.is_opening rfl, h.is .word rfl, at?_token, at?_token, Scan.Walk.statement]
          refine .ite decide_eq_true_iff (fun _ => .ok ⟨.nil, .inl h.token⟩) fun _ => ?_
          rw [if_neg Bool.false_ne_true]
          by_cases hword : t.kind = .word
          · rw [if_pos (decide_eq_true hword), if_neg (not_not.2 hword)]
            refine .bind_ok htext (.ite Iff.rfl (fun _ => ?_) fun _ => wordStatement_yields h hn top _)
            have hn' := small_of_suffix (List.suffix_cons (.token t) rest) hn
            have hagain : ∀ j u more, At s ts j (.token u :: more) stop → Scan.Walk.afterExport rest = .token u :: more →
                Yields (Ends s ts n stop stop 0) (statement s false stop fuel j)
                  (if (Scan.Walk.afterExport rest).length < rest.length + 1 then
                    Scan.Walk.statement false behind (Scan.Walk.afterExport rest)
                  else ([], rest)) := by
              intro j u more hj hafter
              have hsuffix := Scan.Walk.afterExport_suffix rest
              have hlength := hsuffix.length_le
              rw [if_pos (Nat.lt_succ_of_le hlength), hafter]
              rw [hafter] at hsuffix hlength
              exact ih hj (small_of_suffix hsuffix hn') (by simp only [List.length_cons] at hfuel hlength ⊢; omega)
            have hexported := @exported_yields s ts rest behind (i + 1) stop n top _ _ h.token hbehind hn' hagain
            generalize Scan.Walk.exported? top behind rest = o at hexported
            cases o with
            | none => exact hexported
            | some step => exact hexported
          · rw [if_neg (by simpa using hword), if_pos hword]
            exact expressionStatement_yields h hn

end Table.Walk
end StaticGql.Scan.Indexed
