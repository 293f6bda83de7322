import StaticGql.Proofs.Scan.Indexed.Calls

/-!
Functions, classes and declarators by numbers. What is left of them to be walked through is the same by numbers and by
places, and so is the place behind them.
-/

namespace StaticGql.Scan.Indexed

open Place

variable {s : Table} {ts : List Token} {place rest inner next behind : Place} {o c t : Token} {p : Piece} {r : Range}
  {i j e after stop n fuel : Nat} {top exported : Bool}

/-! ### Ends of statements -/

/-- A statement ends at a token, if not with its level. -/
theorem statementEnd_ne_group (h : At s ts j (.group o c inner :: rest) stop) (stopAtComma : Bool) (place : Place) :
    statementEnd 0 stopAtComma place ≠ .group o c inner :: rest := by
  intro hend
  have hplain {k : TokenKind} (hk : k.isOpen = false) : at? k (.group o c inner :: rest) = false := h.at?_group hk
  cases place with
  | nil => cases hend
  | cons p ps =>
      rw [statementEnd, if_neg (Nat.not_lt_zero _)] at hend
      split at hend
      · rename_i hkind
        cases hend
        have hsemicolon : o.kind ≠ .semicolon := by simpa using hplain (k := .semicolon) rfl
        have hcomma : o.kind ≠ .comma := by simpa using hplain (k := .comma) rfl
        simp [Piece.head, hsemicolon, hcomma] at hkind
      · have hfound := holds_of_find (show 0 < (find 0 _ ps).length by rw [hend]; exact Nat.succ_pos _)
        rw [hend, hplain rfl, hplain rfl] at hfound
        simp [startsStatement, Place.word?] at hfound

theorem behindEnd_yields (stopAtComma : Bool) (h : At s ts i place stop) :
    Yields (fun j next => At s ts j next stop ∧ Reaches s ts stop stop 0 (j + 1) next.tail)
      (s.statementEnd stopAtComma stop i) (statementEnd 0 stopAtComma place) := by
  obtain ⟨j, hj, hat⟩ := statementEnd_level stopAtComma h
  refine ⟨j, hj, hat, ?_⟩
  generalize hnext : statementEnd 0 stopAtComma place = next at hat
  cases next with
  | nil =>
      have hstop := hat.eq_stop
      exact .inr ⟨by omega, Nat.le_refl 0⟩
  | cons p rest =>
      cases p with
      | token t => exact .inl hat.token
      | group o c inner => exact absurd hnext (statementEnd_ne_group hat stopAtComma place)

theorem statementEnd_past (stopAtComma : Bool) (h : stop ≤ i) : s.statementEnd stopAtComma stop i = .ok stop := by
  rw [Table.statementEnd, Table.find, Table.fuel, Table.seek, if_neg (Nat.not_lt.2 h), ok_bind, Nat.min_eq_right h]
  rfl

theorem small_of_suffix (hnext : next <:+ place) (hn : 2 * Piece.sizes place < n) : 2 * Piece.sizes next < n := by
  have hsizes := sizes_le_of_suffix hnext
  omega

theorem At.behindName {w : String} (h : At s ts i place stop) (hname : Place.word? place = some w) :
    At s ts (i + 1) place.tail stop := h.behindWord (decide_eq_true hname)

namespace Table.Walk

/-! ### What is left to be walked through -/

/-- A task by numbers and the same task by places, small enough for `n` more steps. -/
inductive Fits (s : Table) (ts : List Token) (n : Nat) : Job → Scan.Walk.Task → Prop
  | expression {i e : Nat} {r : Range} (same : SameRange s ts i e r) (small : 2 * Piece.sizes r.place < n) :
      Fits s ts n (.expression i e) (.expression r)
  | statements {i stop : Nat} {place behind : Place} {top : Bool} (h : At s ts i place stop)
      (hbehind : Outside s ts stop behind) (small : 2 * Piece.sizes place + 1 < n) :
      Fits s ts n (.statements i stop top) (.statements place top behind)
  | ended {i stop : Nat} {behind : Place} {top : Bool} (h : stop ≤ i) (small : 0 < n) :
      Fits s ts n (.statements i stop top) (.statements [] top behind)

def Leads (s : Table) (ts : List Token) (n : Nat) : List Part → List Scan.Walk.Part → Prop :=
  List.Forall₂ (Sum.LiftRel Eq (Fits s ts n))

namespace Leads

variable {part : Part} {part' : Scan.Walk.Part} {parts more : List Part} {parts' more' : List Scan.Walk.Part}

theorem nil : Leads s ts n [] [] := List.Forall₂.nil

theorem cons (h : Leads s ts n [part] [part']) (h' : Leads s ts n parts parts') :
    Leads s ts n (part :: parts) (part' :: parts') := List.rel_append h h'

theorem append (h : Leads s ts n parts parts') (h' : Leads s ts n more more') :
    Leads s ts n (parts ++ more) (parts' ++ more') := List.rel_append h h'

theorem event (e : Event) (h : Leads s ts n parts parts') : Leads s ts n (.inl e :: parts) (.inl e :: parts') :=
  List.Forall₂.cons (.inl rfl) h

theorem exports (es : List Export) : Leads s ts n (es.map fun e => .inl (.exported e)) (es.map fun e => .inl (.exported e)) := by
  induction es with
  | nil => exact .nil
  | cons e es ih => exact ih.event _

theorem bindingIf (top : Bool) (name : String) : Leads s ts n (Walk.bindingIf top name) (Scan.Walk.bindingIf top name) := by
  cases top with
  | true => exact .event _ .nil
  | false => exact .nil

theorem namedIf (name : Option String) : Leads s ts n (Walk.namedIf name) (Scan.Walk.namedIf name) := by
  cases name with
  | some name => exact .event _ .nil
  | none => exact .nil

theorem bound (top exported : Bool) (name : Option String) :
    Leads s ts n (Walk.bound top exported name) (Scan.Walk.bound top exported name) := by
  cases name with
  | none => exact .nil
  | some name =>
      refine (bindingIf top name).append ?_
      cases exported with
      | true => exact .event _ .nil
      | false => exact .nil

theorem entering (name : String) (h : Leads s ts n parts parts') :
    Leads s ts n (Walk.entering name parts) (Scan.Walk.entering name parts') :=
  (h.append (.event .exit .nil)).event (.enter name)

theorem exportsDefault (name : Option String) (h : Leads s ts n parts parts') :
    Leads s ts n (Walk.exportsDefault name :: parts) (Scan.Walk.exportsDefault name :: parts') := h.event _

theorem expr (h : SameRange s ts i e r) (hn : 2 * Piece.sizes r.place < n) :
    Leads s ts n [expr i e] [Scan.Walk.expr r] := List.Forall₂.cons (.inr (.expression h hn)) .nil

theorem upTo (h : At s ts i place stop) (hj : At s ts j next stop) (hnext : next <:+ place) (hn : 2 * Piece.sizes place < n) :
    Leads s ts n [Walk.expr i j] [Scan.Walk.expr ⟨place, next.length⟩] := .expr (.stretch h (.upTo hj hnext)) hn

theorem inside (h : At s ts i (.group o c inner :: rest) stop) (hn : 2 * Piece.sizes (.group o c inner :: rest) < n + 1) :
    Leads s ts n [Walk.expr (i + 1) (i + Piece.sizes inner + 1)] [Scan.Walk.expr (.whole inner)] := by
  refine .expr (.stretch h.inside (.level h.inside)) ?_
  simp only [Piece.sizes, Piece.size] at hn
  simp only [Range.whole]
  omega

theorem body (h : At s ts i (.group o c inner :: rest) stop) (hn : 2 * Piece.sizes (.group o c inner :: rest) < n + 1) :
    Leads s ts n [Walk.block (i + 1) (i + Piece.sizes inner + 1)] [Scan.Walk.block inner rest] := by
  refine List.Forall₂.cons (.inr (.statements h.inside (.inl ⟨stop, h.group⟩) ?_)) .nil
  simp only [Piece.sizes, Piece.size] at hn
  omega

end Leads

/-- The same parts are left, and the walk goes on at the same place. -/
def Goes (s : Table) (ts : List Token) (n stop : Nat) : List Part × Nat → Scan.Walk.Step → Prop :=
  fun a b => Leads s ts n a.1 b.1 ∧ At s ts a.2 b.2 stop

/-- The same parts are left, and the walk goes on at the same place or past the end of the stretch. -/
def Ends (s : Table) (ts : List Token) (n stop e after : Nat) : List Part × Nat → Scan.Walk.Step → Prop :=
  fun a b => Leads s ts n a.1 b.1 ∧ Reaches s ts stop e after a.2 b.2

theorem Goes.ends {a : List Part × Nat} {b : Scan.Walk.Step} (h : Goes s ts n stop a b) : Ends s ts n stop e after a b :=
  ⟨h.1, .inl h.2⟩

theorem skipStatement_yields (h : At s ts i place stop) :
    Yields (Ends s ts n stop stop 0) (skipStatement s stop i) ([], (Scan.statementEnd 0 false place).tail) :=
  (behindEnd_yields false h).bind fun _ hj => .ok ⟨.nil, hj.2⟩

theorem expressionStatement_yields (h : At s ts i place stop) (hn : 2 * Piece.sizes place < n) :
    Yields (Ends s ts n stop stop 0) (expressionStatement s stop i) (Scan.Walk.expressionStatement place) :=
  (behindEnd_yields false h).bind fun _ hj => .ok ⟨.upTo h hj.1 (statementEnd_suffix ..) hn, hj.2⟩

theorem skipBody_yields (h : At s ts i place stop) :
    Yields (At s ts · · stop) (skipBody s stop i) (Scan.Walk.skipBody place) := by
  refine (findOne_yields h (.level h) rfl).bind fun j hj => ?_
  rw [Scan.Walk.skipBody]
  by_cases hlast : stop ≤ j
  · have hnone := (StopsAt.level hj).lt_iff hj |>.not.1 (Nat.not_lt.2 hlast)
    rw [if_pos hlast, List.length_eq_zero_iff.1 (Nat.eq_zero_of_not_pos hnone)]
    exact .ok h.atStop
  · obtain ⟨o, c, inner, rest, hplace, -⟩ := exists_found hj rfl ((StopsAt.level hj).lt_iff hj |>.1 (Nat.not_le.1 hlast))
    rw [if_neg hlast, hplace]
    rw [hplace] at hj
    exact ⟨_, hj.past, hj.group⟩

/-! ### Functions and classes -/

theorem bodyBlock_yields (h : At s ts i place stop) (hfuel : place.length < fuel) :
    Yields (At s ts · · stop) (bodyBlock s fuel i) (Scan.Walk.bodyBlock place) := by
  induction place generalizing i fuel with
  | nil =>
      obtain ⟨fuel, rfl⟩ := Nat.exists_eq_add_one.2 hfuel
      rw [bodyBlock, h.is .openBrace rfl]
      exact .ok h
  | cons p rest ih =>
      obtain ⟨fuel, rfl⟩ := Nat.exists_eq_add_one.2 (Nat.zero_lt_of_lt hfuel)
      rw [bodyBlock]
      cases p with
      | token t =>
          rw [h.is_opening rfl]
          exact .ok h
      | group o c inner =>
          rw [Scan.Walk.bodyBlock, h.is .openBrace rfl, at?_group]
          by_cases hkind : o.kind = .openBrace
          · rw [if_pos (decide_eq_true hkind)]
            refine .bind_ok h.past ?_
            rw [h.group.is .openBrace rfl]
            exact .ite (by simp [hkind]) (fun _ => ih h.group (by simpa using hfuel)) fun _ => .ok h
          · rw [if_neg (by simpa using hkind), if_neg fun h => hkind h.1]
            exact .ok h

theorem functionRest_yields (h : At s ts i place stop) (hstop : StopsAt s ts place stop e after)
    (hn : 2 * Piece.sizes place < n) :
    Yields (Goes s ts n stop) (functionRest s e i) (Scan.Walk.functionRest after place) := by
  refine (skipTypeArguments_yields h).bind fun j hj => ?_
  have hsuffix := skipTypeArguments_suffix place
  rw [Scan.Walk.functionRest]
  generalize Place.skipTypeArguments place = next at hj hsuffix
  simp only
  rw [hj.is .openParen rfl]
  cases hparen : at? .openParen next with
  | false =>
      rw [group?_eq_none hparen]
      exact .ok ⟨.nil, hj⟩
  | true =>
      obtain ⟨o, c, parameters, rest, rfl, hkind⟩ := hj.exists_group rfl hparen
      have hrest := (List.suffix_cons _ rest).trans hsuffix
      have hparameters := Leads.inside hj (Nat.lt_succ_of_lt (small_of_suffix hsuffix hn))
      rw [group?, if_pos hkind]
      have hfound : Yields (At s ts · · stop) (s.findKind [.openBrace, .semicolon] e (j + Piece.sizes parameters + 2))
          (Place.find after (fun q => at? .openBrace q || at? .semicolon q) rest) :=
        findKind_yields hj.group (hstop.of_suffix hrest) (by decide) fun q => by rw [← any_at?_eq]; simp
      refine .bind_ok hj.partner (hfound.bind fun j' hj' => (bodyBlock_yields hj' hj'.length_lt_fuel).bind fun body hbody => ?_)
      have hbehind := (Scan.Walk.bodyBlock_suffix _).trans
        ((find_suffix after (fun q => at? .openBrace q || at? .semicolon q) rest).trans hrest)
      simp only
      generalize Scan.Walk.bodyBlock (Place.find after (fun q => at? .openBrace q || at? .semicolon q) rest) = next at hbody hbehind
      rw [hbody.is .openBrace rfl]
      cases hbrace : at? .openBrace next with
      | false =>
          rw [group?_eq_none hbrace]
          exact .ok ⟨hparameters, hbody.overToken rfl rfl⟩
      | true =>
          obtain ⟨o, c, inner, rest, rfl, hkind⟩ := hbody.exists_group rfl hbrace
          rw [group?, if_pos hkind]
          exact .bind_ok hbody.partner (.ok ⟨hparameters.cons (.body hbody (Nat.lt_succ_of_lt (small_of_suffix hbehind hn))), hbody.group⟩)

theorem function_yields (h : At s ts i place stop) (hstop : StopsAt s ts place stop e after)
    (hn : 2 * Piece.sizes place < n) (top : Bool) :
    Yields (Goes s ts n stop) (function s top e i) (Scan.Walk.function after top place) := by
  refine (Names.skipStar_yields h).bind fun j hj => ?_
  have hsuffix := Scan.Names.skipStar_suffix place
  rw [Scan.Walk.function]
  generalize Scan.Names.skipStar place = next at hj hsuffix
  refine .bind_ok hj.word? ?_
  simp only
  cases hname : Place.word? next with
  | none => exact functionRest_yields hj (hstop.of_suffix hsuffix) (small_of_suffix hsuffix hn)
  | some name =>
      have htail := (List.tail_suffix next).trans hsuffix
      refine (functionRest_yields (hj.behindName hname) (hstop.of_suffix htail) (small_of_suffix htail hn)).bind fun a ha => ?_
      exact .ok ⟨(Leads.bindingIf top name).append (ha.1.entering name), ha.2⟩

theorem functionName?_eq (h : At s ts i place stop) : functionName? s i = .ok (Scan.Walk.functionName? place) :=
  Yields.eq ((Names.skipStar_yields h).bind fun _ hj => ⟨_, hj.word?, rfl⟩)

theorem classRest_yields (h : At s ts i place stop) (hstop : StopsAt s ts place stop e after)
    (hn : 2 * Piece.sizes place < n) :
    Yields (Ends s ts n stop e after) (classRest s e i) (Scan.Walk.classRest after place) := by
  refine (findOne_yields h hstop rfl).bind fun body hbody => ?_
  have hsuffix := find_suffix after (at? .openBrace) place
  have hlt := (hstop.of_suffix hsuffix).lt_iff hbody
  have hheritage := Leads.upTo h hbody hsuffix hn
  rw [Scan.Walk.classRest]
  refine .ite (by omega) (fun hnone => .ok ⟨hheritage, .inr ⟨Nat.le_refl e, hnone⟩⟩) fun hbefore => ?_
  obtain ⟨o, c, inner, rest, hplace, hkind⟩ := exists_found hbody rfl (Nat.not_le.1 hbefore)
  rw [hplace] at hbody hsuffix hheritage ⊢
  rw [group?, if_pos hkind]
  exact .bind_ok hbody.partner (.ok ⟨hheritage.cons (.body hbody (Nat.lt_succ_of_lt (small_of_suffix hsuffix hn))), .inl hbody.group⟩)

theorem className?_eq (h : At s ts i place stop) : className? s i = .ok (Scan.Walk.className? place) := by
  rw [className?, h.word?]
  rfl

theorem At.behindClassName {name : String} (h : At s ts i place stop) (hname : Scan.Walk.className? place = some name) :
    At s ts (i + 1) place.tail stop := by
  obtain ⟨hword, -⟩ := Option.filter_eq_some_iff.1 hname
  exact h.behindName hword

theorem classDeclaration_yields (h : At s ts i place stop) (hstop : StopsAt s ts place stop e after)
    (hn : 2 * Piece.sizes place < n) (top : Bool) :
    Yields (Ends s ts n stop e after) (classDeclaration s top e i) (Scan.Walk.classDeclaration after top place) := by
  refine .bind_ok (className?_eq h) ?_
  rw [Scan.Walk.classDeclaration]
  cases hname : Scan.Walk.className? place with
  | none => exact classRest_yields h hstop hn
  | some name =>
      have htail := List.tail_suffix place
      refine (classRest_yields (At.behindClassName h hname) (hstop.of_suffix htail) (small_of_suffix htail hn)).bind fun a ha => ?_
      exact .ok ⟨(Leads.bindingIf top name).append ha.1, ha.2⟩

/-! ### Declarators -/

theorem declared?_yields (h : At s ts i place stop) :
    Yields (Option.Rel fun a b => a.1 = b.1 ∧ At s ts a.2 b.2 stop) (declared? s i) (Scan.Walk.declared? place) := by
  rw [declared?, h.is .word rfl]
  cases place with
  | nil =>
      rw [h.is .openBrace rfl, h.is .openBracket rfl]
      exact .ok .none
  | cons p rest =>
      cases p with
      | token t =>
          rw [h.is_opening (k := .openBrace) rfl, h.is_opening (k := .openBracket) rfl, Scan.Walk.declared?, at?_token]
          exact .ite decide_eq_true_iff (fun _ => .bind_ok h.textAt (.ok (.some ⟨rfl, h.token⟩))) fun _ => .ok .none
      | group o c inner =>
          rw [h.at?_group (k := .word) rfl, h.is .openBrace rfl, h.is .openBracket rfl, Scan.Walk.declared?, at?_group, at?_group,
            if_neg Bool.false_ne_true]
          exact .ite (by simp) (fun _ => .bind_ok h.past (.ok (.some ⟨rfl, h.group⟩))) fun _ => .ok .none

theorem behindType_yields (h : At s ts i place stop) :
    Yields (At s ts · · stop) (behindType s stop i) (Scan.Walk.behindType place) := by
  refine .bind_ok (h.isOperator "!") ?_
  have hmark := h.over fun hbang : atOperator "!" place = true =>
    h.tail (k := .operator) rfl (Bool.and_eq_true_iff.1 hbang).1
  rw [Scan.Walk.behindType]
  generalize (if atOperator "!" place then i + 1 else i) = j at hmark
  generalize (if atOperator "!" place then place.tail else place) = next at hmark
  simp only
  rw [hmark.is .colon rfl]
  refine given_yields (fun hcolon => ?_) fun hcolon => ?_
  · have htype := hmark.tail rfl hcolon
    rw [if_pos hcolon]
    exact findKind_yields htype (.level htype) (by decide) fun _ => rfl
  · rwa [if_neg (Bool.eq_false_iff.1 hcolon)]

theorem value_yields (name : Option String) (h : At s ts i place stop) (hn : 2 * Piece.sizes place < n) :
    Yields (Goes s ts n stop) (value s name stop i) (Scan.Walk.value name place) := by
  rw [value, Scan.Walk.value, h.is .assign rfl]
  refine .ite Iff.rfl (fun hassign => ?_) fun _ => .ok ⟨.nil, h⟩
  have hvalue := h.tail rfl hassign
  refine (statementEnd_level true hvalue).bind fun e he => .ok ⟨?_, he⟩
  have hinside := Leads.upTo hvalue he (statementEnd_suffix ..) (small_of_suffix (List.tail_suffix place) hn)
  cases name with
  | some name => exact hinside.entering name
  | none => exact .event _ (hinside.cons (.event _ .nil))

theorem length_pos_of_at? {k : TokenKind} (h : at? k place = true) : 0 < place.length := by
  cases place with
  | nil => cases h
  | cons p rest => exact Nat.succ_pos _

theorem declarators_yields {m : Nat} (h : At s ts i place stop) (hn : 2 * Piece.sizes place < n) (hm : place.length ≤ m)
    (hfuel : place.length < fuel) : Yields (Goes s ts n stop) (declarators s top exported stop fuel i)
      (Scan.Walk.declarators top exported m place) := by
  induction m generalizing i place fuel with
  | zero =>
      obtain ⟨fuel, rfl⟩ := Nat.exists_eq_add_one.2 (Nat.zero_lt_of_lt hfuel)
      obtain rfl := List.length_eq_zero_iff.1 (Nat.le_zero.1 hm)
      obtain ⟨a, ha, hnone⟩ := declared?_yields h
      cases hnone
      rw [declarators, ha]
      exact .ok ⟨.nil, h.overToken (k := .semicolon) rfl rfl⟩
  | succ m ih =>
      obtain ⟨fuel, rfl⟩ := Nat.exists_eq_add_one.2 (Nat.zero_lt_of_lt hfuel)
      rw [declarators, Scan.Walk.declarators_succ]
      refine (declared?_yields h).bind fun a ha => ?_
      generalize hdeclared : Scan.Walk.declared? place = d at ha
      cases ha with
      | none => exact .ok ⟨.nil, h.overToken rfl rfl⟩
      | @some a b hab =>
          obtain ⟨name, j⟩ := a
          obtain ⟨name', rest⟩ := b
          obtain ⟨rfl, hj⟩ : name = name' ∧ At s ts j rest stop := hab
          have htype := (Scan.Walk.behindType_suffix rest).trans (Scan.Walk.declared_suffix hdeclared)
          have hvalue := (Scan.Walk.takes_value [] name (Scan.Walk.behindType rest)).suffix.trans htype
          refine (behindType_yields hj).bind fun j hj => ?_
          refine (value_yields name hj (small_of_suffix htype hn)).bind fun a ha => ?_
          simp only
          generalize Scan.Walk.value name (Scan.Walk.behindType rest) = v at ha hvalue
          obtain ⟨parts, j⟩ := a
          obtain ⟨hparts, hj⟩ : Leads s ts n parts v.1 ∧ At s ts j v.2 stop := ha
          have hbound := (Leads.bound top exported name).append hparts
          rw [hj.is .comma rfl]
          refine .ite Iff.rfl (fun hcomma => ?_) fun _ => .ok ⟨hbound, hj.overToken rfl rfl⟩
          have hshorter := length_pos_of_at? hcomma
          have hlength := hvalue.length_le
          have htail := (List.tail_suffix v.2).trans hvalue
          refine (ih (hj.tail rfl hcomma) (small_of_suffix htail hn) ?_ ?_).bind fun a ha => .ok ⟨hbound.append ha.1, ha.2⟩
          · rw [List.length_tail]
            omega
          · rw [List.length_tail]
            omega

theorem variableStatement_yields (h : At s ts i place stop) (hn : 2 * Piece.sizes place < n) (top exported : Bool) :
    Yields (Goes s ts n stop) (variableStatement s top exported stop i) (Scan.Walk.variableStatement top exported place) :=
  declarators_yields h hn (Nat.le_refl _) h.length_lt_fuel

end Table.Walk
end StaticGql.Scan.Indexed
