import StaticGql.Proofs.Scan.Events
import StaticGql.Proofs.Scan.Order
import StaticGql.Proofs.Unfold

/-!
What a walk takes of the tokens before it. Every construct shares out what it goes over among the calls that it
reports and what is left to be walked through, and goes on behind all of that; so nothing is walked through twice,
as long as no construct in an expression runs over the end of the expression.
-/

namespace StaticGql.Scan

open Place

variable {ts : List Token} {place next mid ps qs used : Place} {t : Token} {p : Piece} {r : Range}
  {scope : Marker.Scope} {name : String} {after : Nat} {top exported : Bool}

/-! ### The tokens of stretches -/

namespace Piece

theorem allTokens_sublist (h : ps.Sublist qs) : (allTokens ps).Sublist (allTokens qs) := by
  induction h with
  | slnil => exact .slnil
  | cons p _ ih => exact ih.trans (List.sublist_append_right p.tokens _)
  | cons_cons p _ ih => exact ih.append_left p.tokens

theorem allTokens_flatMap {β : Type} (l : List β) (f : β → List Piece) :
    allTokens (l.flatMap f) = l.flatMap fun x => allTokens (f x) := by
  induction l with
  | nil => rfl
  | cons x l ih => rw [List.flatMap_cons, allTokens_append, ih, List.flatMap_cons]

mutual

theorem length_tokens (p : Piece) : p.tokens.length = p.size := by
  cases p with
  | token t => rfl
  | group o c inner =>
      simp only [tokens, size, List.length_append, List.length_cons, List.length_nil, length_allTokens inner]

theorem length_allTokens (ps : List Piece) : (allTokens ps).length = sizes ps := by
  cases ps with
  | nil => rfl
  | cons p ps => rw [allTokens, List.length_append, length_tokens p, length_allTokens ps, sizes]

end

end Piece

namespace Range

theorem pieces_append (used next : Place) (h : after ≤ next.length) :
    (Range.mk (used ++ next) after).pieces = used ++ (Range.mk next after).pieces := by
  have hlength : (used ++ next).length - after = used.length + (next.length - after) := by
    rw [List.length_append]
    omega
  rw [pieces, hlength, List.take_length_add_append]
  rfl

theorem pieces_eq_nil (h : place.length ≤ after) : (Range.mk place after).pieces = [] := by
  rw [pieces, Nat.sub_eq_zero_of_le h, List.take_zero]

/-- A stretch from a later place on holds no more. -/
theorem pieces_sublist (h : next <:+ place) : (Range.mk next after).pieces.Sublist (Range.mk place after).pieces := by
  by_cases hafter : next.length ≤ after
  · rw [pieces_eq_nil hafter]
    exact List.nil_sublist _
  · obtain ⟨used, rfl⟩ := h
    rw [pieces_append used next (by omega)]
    exact List.sublist_append_right used _

theorem pieces_cons (h : after ≤ ps.length) : (Range.mk (p :: ps) after).pieces = p :: (Range.mk ps after).pieces :=
  pieces_append [p] ps h

theorem pieces_between (used next : Place) : (Range.mk (used ++ next) next.length).pieces = used := by
  rw [pieces_append used next (Nat.le_refl _), pieces_eq_nil (Nat.le_refl _), List.append_nil]

theorem pieces_whole (inner : List Piece) : (Range.whole inner).pieces = inner := List.take_length

end Range

/-- The parts of a stretch hold nothing twice. -/
theorem Place.cut_sublist {start : Place} (h : place <:+ start) :
    ((cut after start place).flatMap Range.pieces).Sublist (Range.mk start after).pieces := by
  induction place generalizing start with
  | nil =>
      rw [cut]
      split <;> simp
  | cons p rest ih =>
      have hrest : rest <:+ start := (List.suffix_cons p rest).trans h
      rw [cut]
      split
      · split <;> simp
      · rename_i hafter
        split
        · obtain ⟨used, rfl⟩ := h
          have hpart : (Range.mk (used ++ p :: rest) (rest.length + 1)).pieces = used :=
            Range.pieces_between used (p :: rest)
          rw [List.flatMap_cons, hpart, Range.pieces_append used (p :: rest) (by simp only [List.length_cons]; omega)]
          exact ((ih List.suffix_rfl).trans (Range.pieces_sublist (List.suffix_cons p rest))).append_left used
        · exact ih hrest

/-- A part of a stretch that is empty stands before a comma. -/
theorem Place.comma_of_cut {start : Place} (h : place <:+ start) (hr : r ∈ cut after start place) :
    r.after < r.place.length ∨ at? .comma r.place = true := by
  induction place generalizing start with
  | nil =>
      rw [cut] at hr
      split at hr
      · exact .inl (List.mem_singleton.1 hr ▸ ‹_›)
      · cases hr
  | cons p rest ih =>
      rw [cut] at hr
      split at hr
      · split at hr
        · exact .inl (List.mem_singleton.1 hr ▸ ‹_›)
        · cases hr
      · split at hr
        · rename_i hcomma
          rcases List.mem_cons.1 hr with rfl | hr
          · obtain ⟨used, rfl⟩ := h
            cases used with
            | nil => exact .inr (by simpa [at?, kind?] using hcomma)
            | cons q used => exact .inl (by simp only [List.cons_append, List.length_cons, List.length_append]; omega)
          · exact ih List.suffix_rfl hr
        · exact ih ((List.suffix_cons p rest).trans h) hr

namespace Walk

open Names

/-! ### What a construct takes -/

/-- The tokens of a call. -/
def callTokens (ts : List Token) : Event → List Token
  | .directCall start stop => between ts start stop
  | .call _ _ _ start stop => between ts start stop
  | _ => []

/-- The tokens that are still to be walked through. -/
def Task.tokens : Task → List Token
  | .expression r => Piece.allTokens r.pieces
  | .statements place _ _ => Piece.allTokens place

def weigh (ts : List Token) : Part → List Token := Sum.elim (callTokens ts) Task.tokens

@[simp] theorem weigh_expr (ts : List Token) (r : Range) : weigh ts (expr r) = Piece.allTokens r.pieces := rfl

@[simp] theorem weigh_block (ts : List Token) (inner : List Piece) (behind : Place) :
    weigh ts (block inner behind) = Piece.allTokens inner := rfl

theorem flatMap_entering (ts : List Token) (name : String) (parts : List Part) :
    (entering name parts).flatMap (weigh ts) = parts.flatMap (weigh ts) := by
  rw [entering, List.cons_append, List.flatMap_cons, List.flatMap_append]
  simp [weigh, callTokens]

/-- A construct goes on at a later place, and its parts share out what it goes over. -/
def Takes (ts : List Token) (place : Place) (s : Step) : Prop :=
  ∃ used, place = used ++ s.2 ∧ (s.1.flatMap (weigh ts)).Sublist (Piece.allTokens used)

namespace Takes

variable {s : Step} {parts : List Part} {part : Part}

theorem skip (h : next <:+ place) : Takes ts place ([], next) := by
  obtain ⟨used, rfl⟩ := h
  exact ⟨used, rfl, List.nil_sublist _⟩

theorem suffix (h : Takes ts place s) : s.2 <:+ place := by
  obtain ⟨used, rfl, -⟩ := h
  exact List.suffix_append used s.2

theorem append (h : Takes ts place (parts, mid)) (h' : Takes ts mid s) : Takes ts place (parts ++ s.1, s.2) := by
  obtain ⟨used, rfl, hused⟩ := h
  obtain ⟨used', rfl, hused'⟩ := h'
  refine ⟨used ++ used', (List.append_assoc ..).symm, ?_⟩
  rw [List.flatMap_append, Piece.allTokens_append]
  exact hused.append hused'

theorem of_suffix (hmid : mid <:+ place) (h : Takes ts mid s) : Takes ts place s := (skip hmid).append h

theorem behind (h : Takes ts place s) (hnext : next <:+ s.2) : Takes ts place (s.1, next) := by
  have := h.append (.skip hnext)
  rwa [List.append_nil] at this

/-- Parts that hold no tokens may stand before the others. -/
theorem quiet (h : Takes ts place s) (hparts : parts.flatMap (weigh ts) = []) : Takes ts place (parts ++ s.1, s.2) := by
  obtain ⟨used, hplace, hused⟩ := h
  exact ⟨used, hplace, by rwa [List.flatMap_append, hparts, List.nil_append]⟩

theorem entering (h : Takes ts place s) (name : String) : Takes ts place (Walk.entering name s.1, s.2) := by
  obtain ⟨used, hplace, hused⟩ := h
  exact ⟨used, hplace, by rwa [flatMap_entering]⟩

theorem ite {p : Prop} [Decidable p] {s s' : Step} (h : Takes ts place s) (h' : Takes ts place s') :
    Takes ts place (if p then s else s') := by
  split
  · exact h
  · exact h'

/-- A stretch up to a later place of its level. -/
theorem stretch (h : next <:+ place) : Takes ts place ([expr ⟨place, next.length⟩], next) := by
  obtain ⟨used, rfl⟩ := h
  have htokens : [expr ⟨used ++ next, next.length⟩].flatMap (weigh ts) = Piece.allTokens used := by
    rw [List.flatMap_singleton, weigh_expr, Range.pieces_between]
  exact ⟨used, rfl, htokens ▸ List.Sublist.refl _⟩

/-- What holds no more than the inside of a group, at the group. -/
theorem inside {k : TokenKind} (h : group? k place = some (qs, next))
    (hparts : (parts.flatMap (weigh ts)).Sublist (Piece.allTokens qs)) : Takes ts place (parts, next) := by
  rw [group?.eq_def] at h
  split at h
  · rename_i o c inner rest
    split at h
    · cases h
      refine ⟨[.group o c qs], rfl, hparts.trans ?_⟩
      simp only [Piece.allTokens, Piece.tokens, List.append_nil, List.cons_append]
      exact (List.sublist_append_left _ [c]).trans (List.sublist_cons_self o _)
    · cases h
  · cases h

theorem group {k : TokenKind} (h : group? k place = some (qs, next)) : Takes ts place ([expr (.whole qs)], next) := by
  have htokens : [expr (.whole qs)].flatMap (weigh ts) = Piece.allTokens qs := by
    rw [List.flatMap_singleton, weigh_expr, Range.pieces_whole]
  exact inside h (htokens ▸ List.Sublist.refl _)

theorem block {k : TokenKind} (h : group? k place = some (qs, next)) :
    Takes ts place ([block qs next], next) := by
  refine inside h ?_
  rw [List.flatMap_singleton]
  exact List.Sublist.refl _

end Takes

theorem weigh_bindingIf (ts : List Token) (top : Bool) (name : String) :
    (bindingIf top name).flatMap (weigh ts) = [] := by
  rw [bindingIf]
  split <;> rfl

/-! ### Functions and classes -/

theorem takes_functionRest (ts : List Token) (after : Nat) (place : Place) : Takes ts place (functionRest after place) := by
  rw [functionRest]
  refine .of_suffix (skipTypeArguments_suffix place) ?_
  simp only
  split
  · exact .skip List.suffix_rfl
  · rename_i parameters rest hparameters
    have hbody := (bodyBlock_suffix _).trans
      (find_suffix after (fun q => at? .openBrace q || at? .semicolon q) rest)
    split
    · rename_i inner next hbraces
      exact (Takes.group hparameters).append (.of_suffix hbody (.block hbraces))
    · exact (Takes.group hparameters).behind ((tail_or_self_suffix _ _).trans hbody)

theorem takes_function (ts : List Token) (after : Nat) (top : Bool) (place : Place) :
    Takes ts place (function after top place) := by
  rw [function]
  refine .of_suffix (skipStar_suffix place) ?_
  simp only
  split
  · rename_i name hname
    exact (((takes_functionRest ts after _).entering name).quiet (weigh_bindingIf ts top name)).of_suffix
      (List.tail_suffix _)
  · exact takes_functionRest ts after _

theorem takes_classRest (ts : List Token) (after : Nat) (place : Place) : Takes ts place (classRest after place) := by
  have hbody := find_suffix after (at? .openBrace) place
  rw [classRest]
  split
  · exact .stretch hbody
  · split
    · rename_i inner next hbraces
      exact (Takes.stretch hbody).append (.block hbraces)
    · exact .stretch hbody

theorem takes_classDeclaration (ts : List Token) (after : Nat) (top : Bool) (place : Place) :
    Takes ts place (classDeclaration after top place) := by
  rw [classDeclaration]
  split
  · rename_i name _
    exact ((takes_classRest ts after _).quiet (weigh_bindingIf ts top name)).of_suffix (List.tail_suffix place)
  · exact takes_classRest ts after place

/-! ### Declarators -/

theorem declared_suffix {name : Option String} (h : declared? place = some (name, next)) : next <:+ place := by
  rw [declared?.eq_def] at h
  split at h
  · split at h
    · cases h
      exact List.suffix_cons ..
    · cases h
  · split at h
    · cases h
      exact List.suffix_cons ..
    · cases h
  · cases h

theorem weigh_bound (ts : List Token) (top exported : Bool) (name : Option String) :
    (bound top exported name).flatMap (weigh ts) = [] := by
  cases name with
  | none => rfl
  | some name =>
      rw [bound, List.flatMap_append, weigh_bindingIf]
      split <;> rfl

theorem takes_value (ts : List Token) (name : Option String) (place : Place) : Takes ts place (value name place) := by
  rw [value]
  split
  · have hinside : Takes ts place.tail ([expr ⟨place.tail, (statementEnd 0 true place.tail).length⟩],
        statementEnd 0 true place.tail) := .stretch (statementEnd_suffix 0 true place.tail)
    refine .of_suffix (List.tail_suffix place) ?_
    cases name with
    | some name => exact hinside.entering name
    | none =>
        obtain ⟨used, hplace, hused⟩ := hinside
        exact ⟨used, hplace, by simpa [weigh, callTokens] using hused⟩
  · exact .skip List.suffix_rfl

theorem takes_declarators (ts : List Token) (top exported : Bool) (fuel : Nat) (place : Place) :
    Takes ts place (declarators top exported fuel place) := by
  induction fuel generalizing place with
  | zero => exact .skip List.suffix_rfl
  | succ fuel ih =>
      rw [declarators_succ]
      split
      · exact .skip (tail_or_self_suffix _ place)
      · rename_i name rest hdeclared
        have hvalue := ((takes_value ts name (behindType rest)).of_suffix (behindType_suffix rest)).of_suffix
          (declared_suffix hdeclared)
        have hbound := hvalue.quiet (weigh_bound ts top exported name)
        simp only
        split
        · exact hbound.append (.of_suffix (List.tail_suffix _) (ih _))
        · exact hbound.behind (tail_or_self_suffix _ _)

/-! ### Exports -/

theorem weigh_names (ts : List Token) (name : Option String) :
    (exportsDefault name :: name.toList.flatMap (bindingIf true)).flatMap (weigh ts) = [] := by
  cases name with
  | none => rfl
  | some name => simp [weigh, callTokens, exportsDefault, bindingIf]

theorem takes_skipBody (ts : List Token) (place : Place) : Takes ts place ([], skipBody place) :=
  .skip ((List.tail_suffix _).trans (find_suffix ..))

theorem takes_behindStatement (ts : List Token) (place : Place) :
    Takes ts place ([], (statementEnd 0 false place).tail) :=
  .skip ((List.tail_suffix _).trans (statementEnd_suffix ..))

theorem takes_expressionStatement (ts : List Token) (place : Place) : Takes ts place (expressionStatement place) :=
  (Takes.stretch (statementEnd_suffix 0 false place)).behind (List.tail_suffix _)

theorem takes_defaultValue (ts : List Token) (place : Place) : Takes ts place (defaultValue place) := by
  rw [defaultValue]
  refine .of_suffix (tail_or_self_suffix (atWord "async" place && atWord "function" place.tail) place) ?_
  generalize (if atWord "async" place && atWord "function" place.tail then place.tail else place) = behind
  refine .of_suffix (tail_or_self_suffix (atWord "abstract" behind && atWord "class" behind.tail) behind) ?_
  simp only
  generalize (if atWord "abstract" behind && atWord "class" behind.tail then behind.tail else behind) = value
  split
  · exact ((takes_function ts 0 false _).quiet (weigh_names ts _)).of_suffix (List.tail_suffix value)
  · split
    · exact ((takes_classRest ts 0 _).quiet (weigh_names ts _)).of_suffix
        (ite_suffix (List.drop_suffix 2 value) (List.tail_suffix value))
    · have hquiet : ∀ name, [exportsDefault name].flatMap (weigh ts) = [] := fun _ => rfl
      split
      · exact (takes_skipBody ts value).quiet (hquiet _)
      · split
        · exact (takes_behindStatement ts value).quiet (hquiet _)
        · exact (takes_expressionStatement ts value).quiet (hquiet _)

theorem Takes.withName {s : Step} (h : Takes ts place s) (name : Option String) :
    Takes ts place (withName name s) :=
  h.quiet (by cases name <;> rfl)

theorem takes_exports {es : List Export} (h : next <:+ place) :
    Takes ts place (es.map fun e => .inl (.exported e), next) := by
  have hquiet : (es.map fun e => (.inl (.exported e) : Part)).flatMap (weigh ts) = [] := by
    simp [weigh, callTokens]
  simpa using (Takes.skip h).quiet hquiet

/-- A construct and what follows it share out the tokens of the place, also where the walk goes on in a level of its
own. -/
def Once (ts : List Token) (place : Place) (s : Step) : Prop :=
  (s.1.flatMap (weigh ts) ++ Piece.allTokens s.2).Sublist (Piece.allTokens place)

theorem Takes.once {s : Step} (h : Takes ts place s) : Once ts place s := by
  obtain ⟨used, rfl, hused⟩ := h
  rw [Once, Piece.allTokens_append]
  exact hused.append_right _

theorem Once.of_suffix {s : Step} (hmid : mid <:+ place) (h : Once ts mid s) : Once ts place s :=
  h.trans (Piece.allTokens_sublist hmid.sublist)

/-- Over `as` and another token, also into a group. -/
theorem Once.behindAs {s : Step} (h : Once ts (Clause.behindAs place []) s) : Once ts place s :=
  h.trans (Clause.allTokens_behindAs place).sublist

theorem Takes.some {s : Step} (h : Takes ts place s) : ∀ s' ∈ some s, Once ts place s' :=
  fun _ hs => Option.some.inj hs ▸ h.once

theorem Once.iteOption {p : Prop} [Decidable p] {o o' : Option Step} (h : ∀ s ∈ o, Once ts place s)
    (h' : ∀ s ∈ o', Once ts place s) : ∀ s ∈ if p then o else o', Once ts place s := by
  split
  · exact h
  · exact h'

theorem once_exported (ts : List Token) (top : Bool) (behind place : Place) :
    ∀ s ∈ exported? top behind place, Once ts place s := by
  rw [exported?]
  have htype := tail_or_self_suffix (atWord "type" place && at? .openBrace place.tail) place
  generalize (if atWord "type" place && at? .openBrace place.tail then place.tail else place) = typed at htype ⊢
  have hdeclare := (tail_or_self_suffix (atWord "declare" typed) typed).trans htype
  simp only
  generalize (if atWord "declare" typed then typed.tail else typed) = place' at hdeclare ⊢
  have hplace : ∀ o : Option Step, (∀ s ∈ o, Once ts place' s) → ∀ s ∈ o, Once ts place s :=
    fun _ h s hs => .of_suffix hdeclare (h s hs)
  refine hplace _ ?_
  cases place' with
  | nil => exact Takes.some (.skip List.suffix_rfl)
  | cons p rest =>
      have hrest := List.suffix_cons p rest
      have hskip : ∀ s ∈ some ([], (statementEnd 0 false (p :: rest)).tail), Once ts (p :: rest) s :=
        Takes.some (takes_behindStatement ts _)
      cases p with
      | group o c inner =>
          exact .iteOption (Takes.some (takes_exports ((Clause.exports_suffix inner rest).trans hrest))) hskip
      | token t =>
          refine .iteOption ?star (.iteOption hskip (.iteOption ?default (.iteOption ?enumeration
            (.iteOption ?bindings (.iteOption ?async (.iteOption ?function (.iteOption ?abstract
              (.iteOption ?classes (.iteOption ?interface (.iteOption ?type (by simp)))))))))))
          case star =>
            split
            · rename_i es next hall
              rintro _ ⟨⟩
              exact ((takes_exports (Clause.suffix_of_exportAll hall)).once.behindAs).of_suffix hrest
            · rintro _ ⟨⟩
              exact ((takes_behindStatement ts _).once.behindAs).of_suffix hrest
          case default => exact Takes.some (((takes_defaultValue ts rest).entering "default").of_suffix hrest)
          case enumeration => exact Takes.some ((takes_skipBody ts _).withName _)
          case bindings => exact Takes.some ((takes_declarators ts top true _ rest).of_suffix hrest)
          case async =>
            exact Takes.some (((takes_function ts 0 top _).withName _).of_suffix ((List.tail_suffix rest).trans hrest))
          case function => exact Takes.some (((takes_function ts 0 top _).withName _).of_suffix hrest)
          case abstract =>
            exact Takes.some (((takes_classDeclaration ts 0 top _).withName _).of_suffix ((List.tail_suffix rest).trans hrest))
          case classes => exact Takes.some (((takes_classDeclaration ts 0 top _).withName _).of_suffix hrest)
          case interface => exact Takes.some ((takes_skipBody ts _).withName _)
          case type => exact Takes.some ((takes_behindStatement ts _).withName _)

/-! ### Statements -/

theorem firstBlock_sublist (h : firstBlock? ps = some (qs, next)) :
    (Piece.allTokens qs ++ Piece.allTokens next).Sublist (Piece.allTokens ps) := by
  fun_induction firstBlock? ps generalizing qs next with
  | case1 => cases h
  | case2 t rest ih => exact (ih h).trans (List.sublist_cons_self t _)
  | case3 o c inner rest hbrace =>
      cases h
      simp only [Piece.allTokens, Piece.tokens, List.append_assoc, List.cons_append]
      exact ((List.sublist_append_right [c] _).append_left _).trans (List.sublist_cons_self o _)
  | case4 o c inner rest hbrace block left hinner ih =>
      cases h
      have hinside := (ih hinner).append_right ([c] ++ Piece.allTokens rest)
      simp only [Piece.allTokens, Piece.tokens, Piece.allTokens_append, List.append_assoc, List.cons_append,
        List.nil_append] at hinside ⊢
      exact hinside.trans (List.sublist_cons_self o _)
  | case5 o c inner rest hbrace hinner ih ih' => exact (ih' h).trans (List.sublist_append_right _ _)

theorem Once.ite {p : Prop} [Decidable p] {s s' : Step} (h : Once ts place s) (h' : Once ts place s') :
    Once ts place (if p then s else s') := by
  split
  · exact h
  · exact h'

theorem takes_condition (hmid : mid <:+ place) (hnext : next <:+ place) :
    Takes ts place (match group? .openParen mid with
      | some (inner, rest) => ([expr (.whole inner)], rest)
      | none => ([], next)) := by
  split
  · rename_i inner rest hgroup
    exact (Takes.group hgroup).of_suffix hmid
  · exact .skip hnext

theorem once_wordStatement {w : String} (hnext : next <:+ place) : Once ts place (wordStatement top w place next) := by
  have htail := (List.tail_suffix next).trans hnext
  have hskip : Once ts place ([], next) := (Takes.skip hnext).once
  have hbehind : Once ts place ([], (statementEnd 0 false place).tail) := (takes_behindStatement ts place).once
  refine .ite ?imports (.ite ?bindings (.ite ?async (.ite ?function (.ite ?classes (.ite hskip
      (.ite (takes_skipBody ts place).once (.ite hbehind (.ite ?block (.ite ?condition (.ite ?await (.ite hskip
        (.ite ?value (.ite ?label (.ite (Takes.skip htail).once
          (takes_expressionStatement ts place).once))))))))))))))
  case imports =>
    split
    · rename_i himport
      exact (Takes.skip ((Clause.suffix_of_import himport).trans (List.tail_suffix place))).once
    · exact hbehind
  case bindings => exact ((takes_declarators ts top false _ next).of_suffix hnext).once
  case async => exact ((takes_function ts 0 top _).of_suffix htail).once
  case function => exact ((takes_function ts 0 top _).of_suffix hnext).once
  case classes => exact ((takes_classDeclaration ts 0 top _).of_suffix hnext).once
  case block =>
    split
    · rename_i inner rest hblock
      refine Once.of_suffix hnext ?_
      simpa [Once, weigh, block, Task.tokens] using firstBlock_sublist hblock
    · exact List.nil_sublist _
  case condition => exact (takes_condition hnext hnext).once
  case await => exact (takes_condition htail hnext).once
  case value => exact ((takes_expressionStatement ts next).of_suffix hnext).once
  case label =>
    exact (((Takes.stretch (find_suffix ..)).behind (List.tail_suffix _)).of_suffix hnext).once

theorem once_statement (ts : List Token) (top : Bool) (behind place : Place) :
    Once ts place (statement top behind place) := by
  fun_induction statement top behind place with
  | case1 => exact List.nil_sublist _
  | case2 top o c inner rest hbrace =>
      have hgroup : group? .openBrace (.group o c inner :: rest) = some (inner, rest) := if_pos hbrace
      exact (Takes.block hgroup).once
  | case3 top o c inner rest hbrace => exact (takes_expressionStatement ts _).once
  | case4 top t rest hsemicolon => exact (Takes.skip (List.suffix_cons ..)).once
  | case5 top t rest _ hword => exact (takes_expressionStatement ts _).once
  | case6 top t rest _ hword hexport step hstep =>
      exact (once_exported ts top behind rest step hstep).of_suffix (List.suffix_cons ..)
  | case7 top t rest _ hword hexport hstep next hlt ih =>
      exact ih.of_suffix ((afterExport_suffix rest).trans (List.suffix_cons ..))
  | case8 top t rest _ hword hexport hstep next hlt => exact (Takes.skip (List.suffix_cons ..)).once
  | case9 top t rest _ hword hexport => exact once_wordStatement (List.suffix_cons ..)

/-- Whatever a statement is, nothing of it is walked through twice. -/
theorem statementsStep_sublist (ts : List Token) (place : Place) (top : Bool) (behind : Place) :
    ((statementsStep place top behind).flatMap (weigh ts)).Sublist (Piece.allTokens place) := by
  rw [statementsStep.eq_def]
  split
  · exact List.nil_sublist _
  · rename_i p rest
    have hstatement := once_statement ts top behind (p :: rest)
    rw [Once] at hstatement
    simp only [List.flatMap_append, List.flatMap_singleton]
    change (_ ++ Piece.allTokens (ite _ _ _)).Sublist _
    split
    · exact hstatement
    · rename_i hsizes
      -- where the statement takes nothing, its parts hold nothing
      have hlength := hstatement.length_le
      rw [List.length_append, Piece.length_allTokens, Piece.length_allTokens] at hlength
      rw [List.eq_nil_of_length_eq_zero (show (List.flatMap _ _).length = 0 by omega), List.nil_append]
      exact Piece.allTokens_sublist (List.sublist_cons_self p rest)

/-! ### Expressions -/

/-- A marker call goes from its first word to the parenthesis that closes it. -/
theorem callTokens_of_marker {e : Event} (hts : Ordered ts) (h : place.Within ts)
    (hcall : Call.marker? scope place = some (e, next)) :
    ∃ t o c inner ps, place = .token t :: ps ++ [.group o c inner] ++ next ∧
      callTokens ts e = Piece.allTokens (.token t :: ps ++ [.group o c inner]) ∧
        ∀ callee shape names a b, e = .call callee shape names a b → a = t.start ∧ b = c.stop := by
  obtain ⟨t, rest, o, c, inner, rfl, hgroup, -, he⟩ := Call.exists_of_marker hcall
  have hsuffix := (skipTypeArguments_suffix (chain rest).2).trans (chain_suffix rest)
  rw [hgroup] at hsuffix
  obtain ⟨ps, rfl⟩ := hsuffix
  have hplace : .token t :: (ps ++ .group o c inner :: next) = .token t :: ps ++ [.group o c inner] ++ next := by simp
  rw [hplace] at h
  have hbetween : between ts t.start c.stop = _ := between_of_infix hts h.before rfl List.getLast?_concat
  refine ⟨t, o, c, inner, ps, hplace, ?_, fun callee shape names a b heq => ?_⟩
  · rw [← hbetween]
    rcases he with ⟨rfl, -⟩ | ⟨rfl, -⟩ <;> rfl
  · rcases he with ⟨rfl, -⟩ | ⟨rfl, -⟩
    · cases heq
    · cases heq
      exact ⟨rfl, rfl⟩

theorem takes_marker {e : Event} (hts : Ordered ts) (h : place.Within ts)
    (hcall : Call.marker? scope place = some (e, next)) : Takes ts place ([.inl e], next) := by
  obtain ⟨t, o, c, inner, ps, hplace, htokens, -⟩ := callTokens_of_marker hts h hcall
  refine ⟨_, hplace, ?_⟩
  rw [List.flatMap_singleton, ← htokens]
  exact List.Sublist.refl _

theorem takes_wordExpression (hts : Ordered ts) (h : r.place.Within ts) (hplace : r.place = .token t :: place) :
    Takes ts r.place (wordExpression scope r t place) := by
  have hrest : place <:+ r.place := hplace ▸ List.suffix_cons ..
  rw [wordExpression]
  split
  · exact .skip hrest
  split
  · rename_i e next hcall
    exact takes_marker hts h hcall
  split
  · rename_i name place' hassigned
    have hchain : place'.tail <:+ r.place := by
      rw [assignedExport?] at hassigned
      simp only at hassigned
      split at hassigned
      · split at hassigned <;> cases hassigned <;> exact (List.tail_suffix _).trans ((chain_suffix place).trans hrest)
      · cases hassigned
    have hvalue : Takes ts place'.tail ([expr ⟨place'.tail, (statementEnd r.after true place'.tail).length⟩],
        statementEnd r.after true place'.tail) := .stretch (statementEnd_suffix ..)
    have hquiet : [(.inl (.assignedExport name) : Part)].flatMap (weigh ts) = [] := rfl
    exact ((hvalue.entering name).quiet hquiet).of_suffix hchain
  · refine .ite ?_ (.ite ((takes_classDeclaration ts r.after false place).of_suffix hrest) (.skip hrest))
    exact (takes_functionRest ts r.after _).of_suffix (((skipWord_suffix _).trans (skipStar_suffix place)).trans hrest)

theorem keyedField_sublist {v : Range} {tokens : List Token} (hr : (Piece.allTokens r.pieces).Sublist tokens)
    (hv : (Piece.allTokens v.pieces).Sublist tokens) : ((keyedField r t v).flatMap (weigh ts)).Sublist tokens := by
  have hvalue : ([expr v].flatMap (weigh ts)).Sublist tokens := by simpa using hv
  rw [keyedField.eq_def]
  split
  · rwa [flatMap_entering]
  · split
    · rwa [flatMap_entering]
    · exact hvalue
  · exact hvalue
  · simpa using hr

theorem field_sublist (hr : r.after < r.place.length ∨ at? .comma r.place = true) :
    ((field r).flatMap (weigh ts)).Sublist (Piece.allTokens r.pieces) := by
  have hwhole : ([expr r].flatMap (weigh ts)).Sublist (Piece.allTokens r.pieces) := by
    rw [List.flatMap_singleton]
    exact List.Sublist.refl _
  rw [field.eq_def]
  split
  · exact List.nil_sublist _
  · rename_i o c inner rest hplace
    split
    · rename_i hkey
      obtain ⟨place, after⟩ := r
      cases hplace
      have hafter : after ≤ rest.length := by
        rcases hr with hr | hr
        · simpa [Nat.lt_succ_iff] using hr
        · simp [at?, kind?, Piece.head, hkey.1] at hr
      have hvalue : (Piece.allTokens (Range.mk rest.tail after).pieces).Sublist
          (Piece.allTokens (Range.mk rest after).pieces) :=
        Piece.allTokens_sublist (Range.pieces_sublist (List.tail_suffix rest))
      rw [Range.pieces_cons hafter, Piece.allTokens, Piece.tokens]
      simp only [List.cons_append, List.append_assoc, List.flatMap_cons, List.flatMap_nil, List.append_nil, weigh_expr, Range.pieces_whole]
      exact ((hvalue.trans (List.sublist_append_right [c] _)).append_left _).trans (List.sublist_cons_self o _)
    · exact hwhole
  · rename_i t rest hplace
    obtain ⟨place, after⟩ := r
    cases hplace
    have hrest : (Piece.allTokens (Range.mk rest after).pieces).Sublist
        (Piece.allTokens (Range.mk (.token t :: rest) after).pieces) :=
      Piece.allTokens_sublist (Range.pieces_sublist (List.suffix_cons ..))
    split
    · simpa using hrest
    · split
      · exact keyedField_sublist (List.Sublist.refl _)
          ((Piece.allTokens_sublist (Range.pieces_sublist (List.tail_suffix rest))).trans hrest)
      · exact hwhole

/-- The construct that an expression begins with, and the place behind it. -/
def construct (scope : Marker.Scope) (r : Range) : Step :=
  match r.place with
  | [] => ([], [])
  | .group o _ inner :: rest =>
    if o.kind = .openBrace then
      if o.opensObject then ((Range.whole inner).parts.flatMap field, rest)
      else ([block inner rest], rest)
    else ([expr (.whole inner)], rest)
  | .token t :: rest => if t.kind = .word then wordExpression scope r t rest else ([], rest)

theorem expressionStep_eq (scope : Marker.Scope) (r : Range) : expressionStep scope r =
    if r.isEmpty then [] else (construct scope r).1 ++ [expr ⟨(construct scope r).2, r.after⟩] := rfl

theorem parts_sublist (ts : List Token) (inner : List Piece) :
    (((Range.whole inner).parts.flatMap field).flatMap (weigh ts)).Sublist (Piece.allTokens inner) := by
  rw [List.flatMap_assoc]
  have hfields : ∀ r ∈ (Range.whole inner).parts,
      ((field r).flatMap (weigh ts)).Sublist (Piece.allTokens r.pieces) := fun r hr =>
    field_sublist (comma_of_cut List.suffix_rfl hr)
  refine (flatMap_sublist_flatMap hfields).trans ?_
  rw [← Piece.allTokens_flatMap]
  have hcut : ((Range.whole inner).parts.flatMap Range.pieces).Sublist (Range.whole inner).pieces :=
    cut_sublist List.suffix_rfl
  rw [Range.pieces_whole] at hcut
  exact Piece.allTokens_sublist hcut

theorem takes_construct (hts : Ordered ts) (h : r.place.Within ts) : Takes ts r.place (construct scope r) := by
  rw [construct.eq_def]
  split
  · rename_i hplace
    exact .skip (hplace ▸ List.suffix_rfl)
  · rename_i o c inner rest hplace
    have hgroup : group? o.kind r.place = some (inner, rest) := by rw [hplace]; exact if_pos rfl
    exact .ite (.ite (.inside hgroup (parts_sublist ts inner)) (.block hgroup)) (.group hgroup)
  · rename_i t rest hplace
    exact .ite (takes_wordExpression hts h hplace) (.skip (hplace ▸ List.suffix_cons ..))

/-- The construct that an expression begins with ends where the expression does or before, unless it holds nothing to
be walked through. -/
def Contained (scope : Marker.Scope) (r : Range) : Prop :=
  r.isEmpty = true ∨ (construct scope r).1.isEmpty = true ∨ r.after ≤ (construct scope r).2.length

instance (scope : Marker.Scope) (r : Range) : Decidable (Contained scope r) :=
  inferInstanceAs (Decidable (_ ∨ _ ∨ _))

theorem expressionStep_sublist (hts : Ordered ts) (h : r.place.Within ts) (hcontained : Contained scope r) :
    ((expressionStep scope r).flatMap (weigh ts)).Sublist (Piece.allTokens r.pieces) := by
  rw [expressionStep_eq]
  split
  · exact List.nil_sublist _
  rename_i hempty
  have htakes : Takes ts r.place (construct scope r) := takes_construct hts h
  rw [List.flatMap_append, List.flatMap_singleton, weigh_expr]
  rcases hcontained with hcontained | hnone | hafter
  · exact absurd hcontained hempty
  · rw [List.isEmpty_iff.1 hnone]
    exact Piece.allTokens_sublist (Range.pieces_sublist htakes.suffix)
  · obtain ⟨used, hplace, hused⟩ := htakes
    have hr : r.pieces = (Range.mk (used ++ (construct scope r).2) r.after).pieces := by rw [← hplace]
    rw [hr, Range.pieces_append used _ hafter, Piece.allTokens_append]
    exact hused.append_right _

end Walk
end StaticGql.Scan
