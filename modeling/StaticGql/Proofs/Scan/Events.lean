import StaticGql.Proofs.Analysis.Sites
import StaticGql.Proofs.Scan.Places
import StaticGql.Scan.Walk

/-!
What a walk through a forest reports. The names that it enters are words and quoted keys of the text, and
the calls that it comes upon are marker calls at places of the text. And the only names in structural
paths that may hold a separator are quoted keys.
-/

namespace StaticGql.Scan

variable {ts : List Token} {place next ps qs : Place} {t : Token} {p : Piece} {r : Range}
  {scope : Marker.Scope} {name : String} {after : Nat} {top exported : Bool}

/-! ### Clauses of imports and exports, and calls -/

theorem Place.suffix_of_group {k : TokenKind} (h : Place.group? k place = some (qs, next)) :
    next <:+ place := by
  rw [Place.group?.eq_def] at h
  split at h
  · split at h
    · cases h
      exact List.suffix_cons ..
    · cases h
  · cases h

namespace Clause

theorem tail_suffix (place : Place) : tail place <:+ place := by
  refine (Place.tail_or_self_suffix _ _).trans (Place.ite_suffix ?_ List.suffix_rfl)
  split
  · rename_i h
    exact (Place.suffix_of_group h).trans (List.tail_suffix place)
  · exact List.suffix_rfl

theorem skipType_suffix (place : Place) : skipType place <:+ place := Place.tail_or_self_suffix _ place

theorem suffix_of_defaultName {names : List Specifier} (h : defaultName? place = some (names, next)) :
    next <:+ place := by
  rw [defaultName?] at h
  split at h
  · split at h
    · cases h
    · cases h
      exact (Place.tail_or_self_suffix _ _).trans (List.tail_suffix place)
  · cases h
    exact List.suffix_rfl

theorem suffix_of_otherNames {names : List Specifier} (h : otherNames? place = some (names, next)) :
    next <:+ place := by
  rw [otherNames?] at h
  split at h
  · split at h
    · cases h
      exact List.drop_suffix 3 place
    · cases h
  · split at h
    · rename_i hgroup
      cases h
      exact Place.suffix_of_group hgroup
    · cases h
      exact List.suffix_rfl

theorem suffix_of_import {source : String} {names : List Specifier}
    (h : import? place = some (source, names, next)) : next <:+ place.tail := by
  simp only [import?, Option.bind_eq_bind] at h
  split at h
  · obtain ⟨source', -, h⟩ := Option.bind_eq_some_iff.1 h
    cases h
    exact (tail_suffix _).trans (List.tail_suffix _)
  · obtain ⟨⟨first, place'⟩, hfirst, h⟩ := Option.bind_eq_some_iff.1 h
    obtain ⟨⟨others, place''⟩, hothers, h⟩ := Option.bind_eq_some_iff.1 h
    have hplace := ((suffix_of_otherNames hothers).trans (suffix_of_defaultName hfirst)).trans
      (skipType_suffix _)
    simp only at h
    split at h
    · obtain ⟨source', -, h⟩ := Option.bind_eq_some_iff.1 h
      cases h
      exact ((tail_suffix _).trans (List.drop_suffix 2 _)).trans hplace
    · cases h

/-- An import is read at a place of its own. -/
theorem exists_of_mem_imports {fuel : Nat} {i : ImportEvent} (hi : i ∈ imports fuel place) :
    ∃ p rest source specifiers next, p :: rest <:+ place ∧
      isImport (p :: rest) = true ∧ import? (p :: rest) = some (source, specifiers, next) ∧
        i = ⟨source, specifiers, p.head.start, stopBefore (p :: rest) next⟩ := by
  induction fuel generalizing place with
  | zero => cases hi
  | succ fuel ih =>
      cases place with
      | nil => cases hi
      | cons p rest =>
          rw [imports] at hi
          split at hi
          · split at hi
            · rename_i source specifiers next himport
              rcases List.mem_cons.1 hi with rfl | hi
              · exact ⟨p, rest, source, specifiers, next, List.suffix_rfl, ‹_›, himport, rfl⟩
              · obtain ⟨q, qs, source', specifiers', next', hsuffix, hfound⟩ := ih hi
                have hnext := (suffix_of_import himport).trans (List.suffix_cons p rest)
                exact ⟨q, qs, source', specifiers', next', hsuffix.trans hnext, hfound⟩
            · obtain ⟨q, qs, source, specifiers, next, hsuffix, hfound⟩ := ih hi
              exact ⟨q, qs, source, specifiers, next, hsuffix.trans (List.suffix_cons p rest), hfound⟩
          · obtain ⟨q, qs, source, specifiers, next, hsuffix, hfound⟩ := ih hi
            exact ⟨q, qs, source, specifiers, next, hsuffix.trans (List.suffix_cons p rest), hfound⟩

theorem exports_suffix (inner : List Piece) (place : Place) : (exports inner place).2 <:+ place :=
  (tail_suffix _).trans (Place.ite_suffix (List.drop_suffix 2 place) List.suffix_rfl)

theorem suffix_of_exportAll {es : List Export} {behind : Place}
    (h : exportAll? place behind = some (es, next)) : next <:+ behindAs place [] := by
  simp only [exportAll?, Option.ite_none_right_eq_some, Option.some.injEq, Prod.mk.injEq] at h
  obtain ⟨-, -, rfl⟩ := h
  exact (tail_suffix _).trans (List.drop_suffix _ _)

/-- The tokens are left that are not taken, if also from the inside of a group. -/
theorem allTokens_behindAs (place : Place) :
    Piece.allTokens (behindAs place []) <:+ Piece.allTokens place := by
  have htail : Piece.allTokens (behindToken [] place.tail) <:+ Piece.allTokens place.tail := by
    cases place.tail with
    | nil => exact List.suffix_rfl
    | cons p rest =>
        cases p with
        | token t => exact List.suffix_append [t] _
        | group o c inner =>
            refine ⟨[o], ?_⟩
            simp [behindToken, Piece.allTokens, Piece.tokens, Piece.allTokens_append]
  rw [behindAs]
  split
  · cases place with
    | nil => exact htail
    | cons p rest => exact htail.trans (List.suffix_append _ _)
  · exact List.suffix_rfl

theorem within_behindAs (h : place.Within ts) : (behindAs place []).Within ts := by
  refine ⟨(allTokens_behindAs place).isInfix.trans h.tokens, ?_⟩
  have htail := h.tail
  rw [behindAs]
  split
  · generalize place.tail = behind at htail
    cases behind with
    | nil => exact List.forall_mem_nil _
    | cons p rest =>
        cases p with
        | token t => exact htail.behind.pieces
        | group o c inner =>
            exact List.forall_mem_append.2
              ⟨htail.inside.pieces, List.forall_mem_cons.2 ⟨.inl ⟨c, rfl⟩, htail.behind.pieces⟩⟩
  · exact h.pieces

end Clause

/-- A marker call is a chain of names that goes through the marker, with parentheses behind it. -/
theorem Call.exists_of_marker {e : Event} (h : Call.marker? scope place = some (e, next)) :
    ∃ t rest o c inner, place = .token t :: rest ∧
      Place.skipTypeArguments (Place.chain rest).2 = .group o c inner :: next ∧ o.kind = .openParen ∧
        (e = .directCall t.start c.stop ∧ scope.isRoot t.text = true ∨
          e = .call (t.text :: (Place.chain rest).1) (shape inner) (Names.ofRange ⟨place, next.length⟩)
              t.start c.stop ∧ scope.matchesCallee (t.text :: (Place.chain rest).1) = true) := by
  rw [Call.marker?.eq_def] at h
  split at h
  · rename_i t rest
    split at h
    · cases h
    · simp only at h
      split at h
      · rename_i o c inner next' hplace
        split at h
        · cases h
        · rename_i hparen
          rw [ne_eq, not_not] at hparen
          split at h
          · split at h
            · rename_i hroot
              cases h
              exact ⟨t, rest, o, c, inner, rfl, hplace, hparen, .inl ⟨rfl, hroot⟩⟩
            · cases h
          · split at h
            · rename_i hcallee
              cases h
              exact ⟨t, rest, o, c, inner, rfl, hplace, hparen, .inr ⟨rfl, hcallee⟩⟩
            · cases h
      · cases h
  · cases h

theorem Call.suffix_of_marker {e : Event} (h : Call.marker? scope place = some (e, next)) :
    next <:+ place := by
  obtain ⟨t, rest, o, c, inner, rfl, hplace, -⟩ := Call.exists_of_marker h
  have hcallee := (Place.skipTypeArguments_suffix (Place.chain rest).2).trans (Place.chain_suffix rest)
  rw [hplace] at hcallee
  exact ((List.suffix_cons _ _).trans hcallee).trans (List.suffix_cons _ _)

/-! ### Names and events of a text -/

def IsWord (ts : List Token) (name : String) : Prop := ∃ t ∈ ts, t.kind = .word ∧ t.text = name

/-- What a quoted key reads as. -/
def IsKey (ts : List Token) (key : String) : Prop :=
  ∃ t c, [t, c] <:+: ts ∧ t.kind = .str ∧ c.kind = .colon ∧ Literal.string? t.text = some key

/-- The names that a walk enters. -/
inductive Enters (ts : List Token) : String → Prop
  | default : Enters ts "default"
  | word {name : String} (h : IsWord ts name) : Enters ts name
  | key {name : String} (h : IsKey ts name) : Enters ts name

/-- The events that a walk reports. -/
inductive Reports (scope : Marker.Scope) (ts : List Token) : Event → Prop
  | binding (name : String) : Reports scope ts (.binding name)
  | exported (e : Export) (h : IsWord ts "export") : Reports scope ts (.exported e)
  | assignedExport (name : String) (h : IsWord ts "exports") : Reports scope ts (.assignedExport name)
  | enter {name : String} (h : Enters ts name) : Reports scope ts (.enter name)
  | enterAnonymous : Reports scope ts .enterAnonymous
  | exit : Reports scope ts .exit
  | marker {place next : Place} {e : Event} (hplace : place.Within ts)
      (hword : (Place.word? place).isSome = true) (hmember : Place.isMember place = false)
      (h : Call.marker? scope place = some (e, next)) : Reports scope ts e

theorem Reports.enters (h : Reports scope ts (.enter name)) : Enters ts name := by
  cases h with
  | enter h => exact h
  | marker hplace hword hmember hcall =>
      obtain ⟨_, _, _, _, _, -, -, -, ⟨he, -⟩ | ⟨he, -⟩⟩ := Call.exists_of_marker hcall
      · cases he
      · cases he

namespace Place.Within

theorem isWord (h : Within ts place) (hword : word? place = some name) : IsWord ts name := by
  rw [word?.eq_def] at hword
  split at hword
  · split at hword
    · cases hword
      exact ⟨_, h.mem_head, ‹_›, rfl⟩
    · cases hword
  · cases hword

theorem isKey (h : Within ts (.token t :: ps)) (hcolon : at? .colon ps = true) (hstr : t.kind = .str)
    (hkey : Literal.string? t.text = some name) : IsKey ts name := by
  cases ps with
  | nil => cases hcolon
  | cons p rest =>
      obtain ⟨behind, hbehind⟩ := p.exists_tokens
      have htokens := h.tokens
      rw [Piece.allTokens, Piece.allTokens, hbehind] at htokens
      refine ⟨t, p.head, List.IsInfix.trans ⟨[], behind ++ Piece.allTokens rest, ?_⟩ htokens, hstr, ?_, hkey⟩
      · simp [Piece.tokens]
      · simpa [at?, kind?] using hcolon

theorem isWord_of_chain (h : Within ts place) (hname : name ∈ (chain place).1) : IsWord ts name := by
  fun_induction chain place with
  | case1 d w rest hchain names place hnext ih =>
      rw [hnext] at ih
      rcases List.mem_cons.1 hname with rfl | hname
      · exact ⟨w, h.behind.mem_head, hchain.2, rfl⟩
      · exact ih h.behind.behind hname
  | case2 => cases hname
  | case3 => cases hname

end Place.Within

namespace Walk

open Place Names

/-! ### One construct -/

/-- What is left to do, or what is reported, has its place in the text. -/
def Arises (scope : Marker.Scope) (ts : List Token) : Part → Prop :=
  Sum.elim (Reports scope ts) fun
    | .expression r => r.place.Within ts
    | .statements place _ _ => place.Within ts

/-- The parts of a construct arise, and the place behind it is one of the text. -/
structure Sound (scope : Marker.Scope) (ts : List Token) (s : Step) : Prop where
  parts : ∀ part ∈ s.1, Arises scope ts part
  next : s.2.Within ts

theorem sound_iff {parts : List Part} : Sound scope ts (parts, next) ↔
    (∀ part ∈ parts, Arises scope ts part) ∧ next.Within ts :=
  ⟨fun h => ⟨h.parts, h.next⟩, fun h => ⟨h.1, h.2⟩⟩

theorem Sound.skip (h : next.Within ts) : Sound scope ts ([], next) := ⟨by simp, h⟩

theorem Sound.one {part : Part} (hpart : Arises scope ts part) (h : next.Within ts) :
    Sound scope ts ([part], next) :=
  ⟨by simpa using hpart, h⟩

theorem arises_bindingIf (top : Bool) (name : String) : ∀ part ∈ bindingIf top name, Arises scope ts part := by
  rw [bindingIf]
  split
  · exact List.forall_mem_singleton.2 (Reports.binding name)
  · simp

theorem arises_exportsDefault (hexport : IsWord ts "export") (name : Option String) :
    Arises scope ts (exportsDefault name) :=
  Reports.exported _ hexport

theorem arises_entering {parts : List Part} (hname : Enters ts name)
    (h : ∀ part ∈ parts, Arises scope ts part) : ∀ part ∈ entering name parts, Arises scope ts part := by
  intro part hpart
  rw [entering, List.cons_append, List.mem_cons, List.mem_append, List.mem_singleton] at hpart
  rcases hpart with rfl | hpart | rfl
  · exact Reports.enter hname
  · exact h part hpart
  · exact Reports.exit

theorem Sound.ite {p : Prop} [Decidable p] {s s' : Step} (h : Sound scope ts s) (h' : Sound scope ts s') :
    Sound scope ts (if p then s else s') := by
  split
  · exact h
  · exact h'

theorem Sound.entering {s : Step} (h : Sound scope ts s) (hname : Enters ts name) :
    Sound scope ts (Walk.entering name s.1, s.2) :=
  ⟨arises_entering hname h.parts, h.next⟩

theorem Sound.append {s : Step} {parts : List Part} (h : Sound scope ts s)
    (hparts : ∀ part ∈ parts, Arises scope ts part) : Sound scope ts (parts ++ s.1, s.2) := by
  refine ⟨fun part hpart => ?_, h.next⟩
  rcases List.mem_append.1 hpart with hpart | hpart
  · exact hparts part hpart
  · exact h.parts part hpart

theorem sound_expressionStatement (h : place.Within ts) : Sound scope ts (expressionStatement place) :=
  .one h (h.of_suffix (statementEnd_suffix 0 false place)).tail

theorem within_skipBody (h : place.Within ts) : (skipBody place).Within ts :=
  (h.of_suffix (find_suffix ..)).tail

theorem within_tailIf (p : Prop) [Decidable p] (h : place.Within ts) :
    Within ts (if p then place.tail else place) :=
  h.of_suffix (tail_or_self_suffix p place)

theorem bodyBlock_suffix (place : Place) : bodyBlock place <:+ place := by
  induction place with
  | nil => exact List.suffix_rfl
  | cons p rest ih =>
      cases p with
      | token t => exact List.suffix_rfl
      | group o c inner =>
          rw [bodyBlock]
          exact ite_suffix (ih.trans (List.suffix_cons ..)) List.suffix_rfl

theorem sound_functionRest (h : place.Within ts) : Sound scope ts (functionRest after place) := by
  have hplace := h.of_suffix (skipTypeArguments_suffix place)
  rw [functionRest]
  simp only
  split
  · exact .skip hplace
  · rename_i parameters rest hparameters
    obtain ⟨hinside, hrest⟩ := hplace.group hparameters
    have hbody := hrest.of_suffix ((bodyBlock_suffix _).trans
      (find_suffix after (fun q => at? .openBrace q || at? .semicolon q) rest))
    split
    · rename_i inner next hbraces
      obtain ⟨hinner, hnext⟩ := hbody.group hbraces
      exact sound_iff.2 ⟨List.forall_mem_cons.2 ⟨hinside, List.forall_mem_singleton.2 hinner⟩, hnext⟩
    · exact .one hinside (within_tailIf _ hbody)

theorem sound_function (h : place.Within ts) : Sound scope ts (function after top place) := by
  have hplace := h.of_suffix (skipStar_suffix place)
  rw [function]
  simp only
  split
  · rename_i name hname
    exact ((sound_functionRest hplace.tail).entering (.word (hplace.isWord hname))).append
      (arises_bindingIf top name)
  · exact sound_functionRest hplace

theorem sound_classRest (h : place.Within ts) : Sound scope ts (classRest after place) := by
  have hbody := h.of_suffix (find_suffix after (at? .openBrace) place)
  rw [classRest]
  split
  · exact .one h hbody
  · split
    · rename_i inner next hbraces
      obtain ⟨hinner, hnext⟩ := hbody.group hbraces
      exact sound_iff.2 ⟨List.forall_mem_cons.2 ⟨h, List.forall_mem_singleton.2 hinner⟩, hnext⟩
    · exact .one h hbody

theorem sound_classDeclaration (h : place.Within ts) :
    Sound scope ts (classDeclaration after top place) := by
  rw [classDeclaration]
  split
  · rename_i name _
    exact (sound_classRest h.tail).append (arises_bindingIf top name)
  · exact sound_classRest h

theorem suffix_of_firstBlock (h : firstBlock? ps = some (qs, next)) :
    Piece.allTokens next <:+ Piece.allTokens ps := by
  fun_induction firstBlock? ps generalizing qs next with
  | case1 => cases h
  | case2 t rest ih => exact (ih h).trans (List.suffix_append [t] _)
  | case3 o c inner rest hbrace =>
      cases h
      exact List.suffix_append _ _
  | case4 o c inner rest hbrace block left hinner ih =>
      cases h
      obtain ⟨before, hnext⟩ := ih hinner
      rw [Piece.allTokens, Piece.tokens]
      refine ⟨o :: before, ?_⟩
      simp [Piece.allTokens_append, Piece.allTokens, Piece.tokens, ← hnext]
  | case5 o c inner rest hbrace hinner ih ih' => exact (ih' h).trans (List.suffix_append _ _)

theorem within_firstBlock (h : place.Within ts) (hblock : firstBlock? place = some (qs, next)) :
    qs.Within ts ∧ next.Within ts := by
  fun_induction firstBlock? place generalizing qs next with
  | case1 => cases hblock
  | case2 t rest ih => exact ih h.behind hblock
  | case3 o c inner rest hbrace =>
      cases hblock
      exact ⟨h.inside, h.behind⟩
  | case4 o c inner rest hbrace block left hinner ih =>
      cases hblock
      obtain ⟨hqs, hleft⟩ := ih h.inside hinner
      have hsuffix : firstBlock? (.group o c inner :: rest) = some (block, left ++ .token c :: rest) := by
        rw [firstBlock?, if_neg hbrace, hinner]
      refine ⟨hqs, (suffix_of_firstBlock hsuffix).isInfix.trans h.tokens, ?_⟩
      exact List.forall_mem_append.2
        ⟨hleft.pieces, List.forall_mem_cons.2 ⟨.inl ⟨c, rfl⟩, h.behind.pieces⟩⟩
  | case5 o c inner rest hbrace hinner ih ih' => exact ih' h.behind hblock

/-! ### Declarators -/

/-- The name or the pattern that a declarator begins with, and the place behind it. -/
def declared? : Place → Option (Option String × Place)
  | .token t :: rest => if t.kind = .word then some (some t.text, rest) else none
  | .group o _ _ :: rest =>
    if o.kind = .openBrace ∨ o.kind = .openBracket then some (none, rest) else none
  | [] => none

/-- Over the mark of a definite assignment and a type. -/
def behindType (place : Place) : Place :=
  let place := if atOperator "!" place then place.tail else place
  if at? .colon place then
    find 0 (fun q => (kind? q).any (· ∈ [TokenKind.assign, .comma, .semicolon])) place.tail
  else place

def bound (top exported : Bool) : Option String → List Part
  | some name => bindingIf top name ++ (if exported then [exportsName name] else [])
  | none => []

def value (name : Option String) (place : Place) : Step :=
  if at? .assign place then
    let stop := statementEnd 0 true place.tail
    let inside := [expr ⟨place.tail, stop.length⟩]
    (match name with
      | some name => entering name inside
      | none => .inl .enterAnonymous :: inside ++ [.inl .exit], stop)
  else ([], place)

theorem declarators_succ (top exported : Bool) (fuel : Nat) (place : Place) :
    declarators top exported (fuel + 1) place =
      match declared? place with
      | none => ([], if at? .semicolon place then place.tail else place)
      | some (name, rest) =>
        let v := value name (behindType rest)
        if at? .comma v.2 then
          let more := declarators top exported fuel v.2.tail
          (bound top exported name ++ v.1 ++ more.1, more.2)
        else (bound top exported name ++ v.1, if at? .semicolon v.2 then v.2.tail else v.2) := by
  rw [declarators.eq_def]
  rfl

theorem within_declared {name : Option String} (h : place.Within ts)
    (hdeclared : declared? place = some (name, next)) :
    next.Within ts ∧ ∀ n, name = some n → IsWord ts n := by
  rw [declared?.eq_def] at hdeclared
  split at hdeclared
  · split at hdeclared
    · rename_i hword
      cases hdeclared
      refine ⟨h.behind, fun n hn => ?_⟩
      cases hn
      exact ⟨_, h.mem_head, hword, rfl⟩
    · cases hdeclared
  · split at hdeclared
    · cases hdeclared
      exact ⟨h.behind, by simp⟩
    · cases hdeclared
  · cases hdeclared

theorem behindType_suffix (place : Place) : behindType place <:+ place := by
  have hmark := tail_or_self_suffix (atOperator "!" place) place
  exact ite_suffix (((find_suffix ..).trans (List.tail_suffix _)).trans hmark) hmark

theorem arises_bound (top : Bool) (hexport : exported = true → IsWord ts "export") (name : Option String) :
    ∀ part ∈ bound top exported name, Arises scope ts part := by
  cases name with
  | none => simp [bound]
  | some name =>
      rw [bound]
      refine List.forall_mem_append.2 ⟨arises_bindingIf top name, ?_⟩
      split
      · exact List.forall_mem_singleton.2 (Reports.exported _ (hexport ‹_›))
      · simp

theorem sound_value {name : Option String} (h : place.Within ts) (hname : ∀ n, name = some n → IsWord ts n) :
    Sound scope ts (value name place) := by
  rw [value]
  split
  · have hinside : ∀ part ∈ [expr ⟨place.tail, (statementEnd 0 true place.tail).length⟩],
        Arises scope ts part := List.forall_mem_singleton.2 h.tail
    refine ⟨?_, h.tail.of_suffix (statementEnd_suffix 0 true _)⟩
    cases name with
    | some name => exact arises_entering (.word (hname name rfl)) hinside
    | none =>
        exact List.forall_mem_cons.2 ⟨Reports.enterAnonymous,
          List.forall_mem_append.2 ⟨hinside, List.forall_mem_singleton.2 Reports.exit⟩⟩
  · exact .skip h

theorem sound_declarators (hexport : exported = true → IsWord ts "export") (fuel : Nat)
    (h : place.Within ts) :
    Sound scope ts (declarators top exported fuel place) := by
  induction fuel generalizing place with
  | zero => exact .skip h
  | succ fuel ih =>
      rw [declarators_succ]
      split
      · exact .skip (within_tailIf _ h)
      · rename_i name rest hdeclared
        obtain ⟨hrest, hname⟩ := within_declared h hdeclared
        have hvalue : Sound scope ts (value name (behindType rest)) :=
          sound_value (hrest.of_suffix (behindType_suffix rest)) hname
        have hbound := (hvalue.append (arises_bound top hexport name)).parts
        simp only
        split
        · exact (ih hvalue.next.tail).append hbound
        · exact ⟨hbound, within_tailIf _ hvalue.next⟩

theorem sound_variableStatement (hexport : exported = true → IsWord ts "export") (h : place.Within ts) :
    Sound scope ts (variableStatement top exported place) :=
  sound_declarators hexport place.length h

/-! ### Exports -/

theorem arises_names (hexport : IsWord ts "export") (name : Option String) :
    ∀ part ∈ exportsDefault name :: name.toList.flatMap (bindingIf true), Arises scope ts part := by
  refine List.forall_mem_cons.2 ⟨arises_exportsDefault hexport name, fun part hpart => ?_⟩
  obtain ⟨n, -, hpart⟩ := List.mem_flatMap.1 hpart
  exact arises_bindingIf true n part hpart

theorem sound_defaultValue (hexport : IsWord ts "export") (h : place.Within ts) :
    Sound scope ts (defaultValue place) := by
  rw [defaultValue]
  have hasync := within_tailIf (atWord "async" place && atWord "function" place.tail) h
  generalize (if atWord "async" place && atWord "function" place.tail then place.tail else place) =
    behind at hasync ⊢
  have hvalue := within_tailIf (atWord "abstract" behind && atWord "class" behind.tail) hasync
  simp only
  generalize (if atWord "abstract" behind && atWord "class" behind.tail then behind.tail else behind) =
    value at hvalue ⊢
  split
  · exact (sound_function hvalue.tail).append (arises_names hexport _)
  · split
    · refine (sound_classRest (hvalue.of_suffix ?_)).append (arises_names hexport _)
      exact ite_suffix (List.drop_suffix 2 value) (List.tail_suffix value)
    · split
      · exact .one (arises_exportsDefault hexport _) (within_skipBody hvalue)
      · have hstop := hvalue.of_suffix (statementEnd_suffix 0 false value)
        split
        · exact .one (arises_exportsDefault hexport _) hstop.tail
        · exact ⟨List.forall_mem_cons.2 ⟨arises_exportsDefault hexport _, List.forall_mem_singleton.2 hvalue⟩,
            hstop.tail⟩

theorem Sound.withName {s : Step} (h : Sound scope ts s) (hexport : IsWord ts "export")
    (name : Option String) :
    Sound scope ts (withName name s) := by
  refine h.append fun part hpart => ?_
  obtain ⟨n, -, rfl⟩ := List.mem_map.1 hpart
  exact Reports.exported _ hexport

theorem Sound.exports {es : List Export} (hexport : IsWord ts "export") (h : next.Within ts) :
    Sound scope ts (es.map fun e => .inl (.exported e), next) := by
  refine ⟨fun part hpart => ?_, h⟩
  obtain ⟨e, -, rfl⟩ := List.mem_map.1 hpart
  exact Reports.exported e hexport

theorem within_behindStatement (h : place.Within ts) : Within ts (statementEnd 0 false place).tail :=
  (h.of_suffix (statementEnd_suffix 0 false place)).tail

theorem Sound.some {s : Step} (h : Sound scope ts s) : ∀ s' ∈ some s, Sound scope ts s' :=
  fun _ hs => Option.some.inj hs ▸ h

theorem Sound.iteOption {p : Prop} [Decidable p] {o o' : Option Step} (h : ∀ s ∈ o, Sound scope ts s)
    (h' : ∀ s ∈ o', Sound scope ts s) : ∀ s ∈ if p then o else o', Sound scope ts s := by
  split
  · exact h
  · exact h'

theorem sound_exported {behind : Place} (hexport : IsWord ts "export") (h : place.Within ts) :
    ∀ s ∈ exported? top behind place, Sound scope ts s := by
  rw [exported?]
  have htype := within_tailIf (atWord "type" place && at? .openBrace place.tail) h
  generalize (if atWord "type" place && at? .openBrace place.tail then place.tail else place) =
    typed at htype ⊢
  have hplace := within_tailIf (atWord "declare" typed) htype
  simp only
  generalize (if atWord "declare" typed then typed.tail else typed) = place' at hplace ⊢
  cases place' with
  | nil => exact Sound.some (.skip hplace)
  | cons p rest =>
      have hrest := hplace.behind
      have hskip : ∀ s ∈ some ([], (statementEnd 0 false (p :: rest)).tail), Sound scope ts s :=
        .some (.skip (within_behindStatement hplace))
      cases p with
      | group o c inner =>
          exact .iteOption (.some (.exports hexport (hrest.of_suffix (Clause.exports_suffix inner rest)))) hskip
      | token t =>
          refine .iteOption ?star (.iteOption hskip (.iteOption ?default (.iteOption ?enumeration
            (.iteOption ?bindings (.iteOption ?async (.iteOption ?function (.iteOption ?abstract
              (.iteOption ?classes (.iteOption ?interface (.iteOption ?type (by simp)))))))))))
          case star =>
            split
            · rename_i es next hall
              exact .some (.exports hexport ((Clause.within_behindAs hrest).of_suffix (Clause.suffix_of_exportAll hall)))
            · exact .some (.skip (within_behindStatement (Clause.within_behindAs hrest)))
          case default => exact .some ((sound_defaultValue hexport hrest).entering .default)
          case enumeration => exact .some ((Sound.skip (within_skipBody hplace)).withName hexport _)
          case bindings => exact .some (sound_variableStatement (fun _ => hexport) hrest)
          case async => exact .some ((sound_function hrest.tail).withName hexport _)
          case function => exact .some ((sound_function hrest).withName hexport _)
          case abstract => exact .some ((sound_classDeclaration hrest.tail).withName hexport _)
          case classes => exact .some ((sound_classDeclaration hrest).withName hexport _)
          case interface => exact .some ((Sound.skip (within_skipBody hplace)).withName hexport _)
          case type => exact .some ((Sound.skip (within_behindStatement hplace)).withName hexport _)

theorem afterExport_suffix (place : Place) : afterExport place <:+ place :=
  (tail_or_self_suffix _ _).trans (tail_or_self_suffix _ _)

/-! ### Statements -/

theorem sound_condition (h : place.Within ts) (hnext : next.Within ts) :
    Sound scope ts (match group? .openParen place with
      | some (inner, rest) => ([expr (.whole inner)], rest)
      | none => ([], next)) := by
  split
  · rename_i inner rest hgroup
    exact .one (h.group hgroup).1 (h.group hgroup).2
  · exact .skip hnext

theorem within_nil (ts : List Token) : Within ts [] := ⟨List.nil_infix, by simp⟩

theorem sound_wordStatement {w : String} (h : place.Within ts) (hrest : next.Within ts) :
    Sound scope ts (wordStatement top w place next) := by
  have hskip : Sound scope ts ([], next) := .skip hrest
  have hbehind : Sound scope ts ([], (statementEnd 0 false place).tail) :=
    .skip (within_behindStatement h)
  refine .ite ?imports (.ite (sound_variableStatement (by simp) hrest) (.ite (sound_function hrest.tail)
    (.ite (sound_function hrest) (.ite (sound_classDeclaration hrest) (.ite hskip
      (.ite (.skip (within_skipBody h)) (.ite hbehind (.ite ?block (.ite (sound_condition hrest hrest)
        (.ite (sound_condition hrest.tail hrest) (.ite hskip (.ite (sound_expressionStatement hrest)
          (.ite ?label (.ite (.skip hrest.tail) (sound_expressionStatement h)))))))))))))))
  case imports =>
    split
    · rename_i himport
      exact .skip (h.tail.of_suffix (Clause.suffix_of_import himport))
    · exact hbehind
  case block =>
    split
    · rename_i inner rest hblock
      exact .one (within_firstBlock hrest hblock).1 (within_firstBlock hrest hblock).2
    · exact .skip (within_nil ts)
  case label => exact .one hrest (hrest.of_suffix (find_suffix ..)).tail

theorem sound_statement {behind : Place} (h : place.Within ts) :
    Sound scope ts (statement top behind place) := by
  fun_induction statement top behind place with
  | case1 => exact .skip h
  | case2 top o c inner rest hbrace => exact .one h.inside h.behind
  | case3 top o c inner rest hbrace => exact sound_expressionStatement h
  | case4 top t rest hsemicolon => exact .skip h.behind
  | case5 top t rest _ hword => exact sound_expressionStatement h
  | case6 top t rest _ hword hexport step hstep =>
      exact sound_exported ⟨t, h.mem_head, not_not.1 hword, hexport⟩ h.behind step hstep
  | case7 top t rest _ hword hexport hstep next hlt ih =>
      exact ih (h.behind.of_suffix (afterExport_suffix rest))
  | case8 top t rest _ hword hexport hstep next hlt => exact .skip h.behind
  | case9 top t rest _ hword hexport => exact sound_wordStatement h h.behind

/-! ### Expressions -/

theorem within_assignedExport {place' : Place} (h : place.Within ts) (ht : IsWord ts t.text)
    (hassigned : assignedExport? t place = some (name, place')) :
    IsWord ts "exports" ∧ IsWord ts name ∧ place'.Within ts := by
  rw [assignedExport?] at hassigned
  have hplace := h.of_suffix (chain_suffix place)
  have hnames := fun name (hname : name ∈ (chain place).1) => h.isWord_of_chain hname
  simp only at hassigned
  split at hassigned
  · split at hassigned
    · rename_i hcallee
      cases hassigned
      obtain ⟨hexports, hchain⟩ := List.cons.inj hcallee
      exact ⟨hexports ▸ ht, hnames name (by simp [hchain]), hplace⟩
    · rename_i hcallee
      cases hassigned
      obtain ⟨-, hchain⟩ := List.cons.inj hcallee
      exact ⟨hnames "exports" (by simp [hchain]), hnames name (by simp [hchain]), hplace⟩
    · cases hassigned
  · cases hassigned

theorem sound_wordExpression (h : r.place.Within ts) (hplace : r.place = .token t :: place)
    (hword : t.kind = .word) : Sound scope ts (wordExpression scope r t place) := by
  have hrest : place.Within ts := (hplace ▸ h).behind
  rw [wordExpression]
  split
  · exact .skip hrest
  rename_i hmember
  split
  · rename_i e next hcall
    refine .one (Reports.marker h ?_ ?_ hcall) (h.of_suffix (Call.suffix_of_marker hcall))
    · simp [hplace, word?, hword]
    · simpa [hplace, isMember, Piece.head] using hmember
  · split
    · rename_i name place' hassigned
      have hhead : IsWord ts t.text := ⟨t, (hplace ▸ h).mem_head, hword, rfl⟩
      obtain ⟨hexports, hname, hplace⟩ := within_assignedExport hrest hhead hassigned
      refine ⟨List.forall_mem_cons.2 ⟨Reports.assignedExport name hexports, ?_⟩,
        hplace.tail.of_suffix (statementEnd_suffix ..)⟩
      exact arises_entering (.word hname) (List.forall_mem_singleton.2 hplace.tail)
    · refine .ite (sound_functionRest ?_) (.ite (sound_classDeclaration hrest) (.skip hrest))
      exact hrest.of_suffix ((skipWord_suffix _).trans (skipStar_suffix place))

theorem arises_keyedField {v : Range} (h : Within ts (.token t :: ps)) (hr : r.place.Within ts)
    (hcolon : at? .colon ps = true) (hv : v.place.Within ts) :
    ∀ part ∈ keyedField r t v, Arises scope ts part := by
  have hvalue : ∀ part ∈ [expr v], Arises scope ts part := List.forall_mem_singleton.2 hv
  rw [keyedField.eq_def]
  split
  · exact arises_entering (.word ⟨t, h.mem_head, ‹_›, rfl⟩) hvalue
  · rename_i hstr
    split
    · rename_i key hkey
      exact arises_entering (.key (h.isKey hcolon hstr hkey)) hvalue
    · exact hvalue
  · exact hvalue
  · exact List.forall_mem_singleton.2 hr

theorem arises_field (h : r.place.Within ts) : ∀ part ∈ field r, Arises scope ts part := by
  have hwhole : ∀ part ∈ [expr r], Arises scope ts part := List.forall_mem_singleton.2 h
  rw [field.eq_def]
  split
  · simp
  · rename_i o c inner rest hplace
    rw [hplace] at h
    split
    · exact List.forall_mem_cons.2 ⟨h.inside, List.forall_mem_singleton.2 h.behind.tail⟩
    · exact hwhole
  · rename_i t rest hplace
    have hplace' := h
    rw [hplace] at hplace'
    split
    · exact List.forall_mem_singleton.2 hplace'.behind
    · split
      · exact arises_keyedField hplace' h ‹_› hplace'.behind.tail
      · exact hwhole

theorem sound_piece (h : r.place.Within ts) : Sound scope ts
    (match r.place with
      | [] => ([], [])
      | .group o _ inner :: rest =>
        if o.kind = .openBrace then
          if o.opensObject then ((Range.whole inner).parts.flatMap field, rest)
          else ([block inner rest], rest)
        else ([expr (.whole inner)], rest)
      | .token t :: rest => if t.kind = .word then wordExpression scope r t rest else ([], rest)) := by
  split
  · exact .skip (within_nil ts)
  · rename_i o c inner rest hplace
    rw [hplace] at h
    refine .ite (.ite ⟨fun part hpart => ?_, h.behind⟩ (.one h.inside h.behind)) (.one h.inside h.behind)
    obtain ⟨q, hq, hpart⟩ := List.mem_flatMap.1 hpart
    exact arises_field (h.inside.part hq) part hpart
  · rename_i t rest hplace
    split
    · exact sound_wordExpression h hplace ‹_›
    · exact .skip (hplace ▸ h).behind

theorem arises_expressionStep (h : r.place.Within ts) :
    ∀ part ∈ expressionStep scope r, Arises scope ts part := by
  rw [expressionStep]
  split
  · simp
  · have hpiece := @sound_piece ts r scope h
    exact List.forall_mem_append.2 ⟨hpiece.parts, List.forall_mem_singleton.2 hpiece.next⟩

theorem arises_statementsStep {behind : Place} (h : place.Within ts) :
    ∀ part ∈ statementsStep place top behind, Arises scope ts part := by
  rw [statementsStep.eq_def]
  split
  · simp
  · have hstatement := @sound_statement ts _ scope top behind h
    refine List.forall_mem_append.2 ⟨hstatement.parts, List.forall_mem_singleton.2 ?_⟩
    change Within ts (ite _ _ _)
    split
    · exact hstatement.next
    · exact h.behind

theorem arises_step {task : Task} (h : Arises scope ts (.inr task)) :
    ∀ part ∈ step scope task, Arises scope ts part := by
  cases task with
  | expression r => exact arises_expressionStep h
  | statements place top behind => exact arises_statementsStep h

/-- What a forest reports arises from its tokens. -/
theorem reports_of_mem_events {forest : List Piece} {e : Event} (h : Within ts forest)
    (he : e ∈ events forest scope) : Reports scope ts e := by
  refine forall_mem_unfold (P := fun task => Arises scope ts (.inr task))
    (fun task htask part hpart => ?_) _ (show Arises scope ts (.inr (.statements forest true [])) from h) e he
  cases part with
  | inl e => exact arises_step htask (.inl e) hpart
  | inr task' => exact arises_step htask (.inr task') hpart

end Walk
end StaticGql.Scan

/-! ### The ids of what the scanner finds -/

namespace StaticGql.Scan

open Trail (MadeOf anonymousName)
open CanonicalId (IsPlain create)

variable {marker : Marker} {file text path name : String} {analysis : Analysis} {site : Site}

theorem isPlain_of_isWord (h : IsWord (tokens text) name) : IsPlain name := by
  obtain ⟨t, ht, hword, rfl⟩ := h
  refine CanonicalId.isPlain_of_not_mem fun hcolon => ?_
  have hpart := isWordPart_of_mem ht hword ':' hcolon
  revert hpart
  decide

theorem madeOf_of_analyze (h : analyze marker file text = .ok analysis) (hsite : site ∈ analysis.declarations) :
    MadeOf (fun name => IsPlain name ∨ IsKey (tokens text) name) site.structuralPath := by
  obtain ⟨f, hf, rfl⟩ := map_eq_ok_iff.1 h
  refine Analysis.madeOf_of_mem_ofEvents (fun n => .inl (CanonicalId.isPlain_anonymousName n)) ?_ hsite
  intro scope name hname
  cases (Walk.reports_of_mem_events (within_forest hf) hname).enters with
  | default => exact .inl ⟨by decide, by decide⟩
  | word hword => exact .inl (isPlain_of_isWord hword)
  | key hkey => exact .inr hkey

/-- The id of a declaration gives back its file and its path exactly if the path is plain. It is, unless a
quoted key of the text stands in it that holds a separator or begins with a colon. -/
theorem parts_of_site (h : analyze marker file text = .ok analysis) (hsite : site ∈ analysis.declarations)
    (hpath : Path.isAbsolute path = true) : ∃ id, create .absolute path site.structuralPath = .ok id ∧
      (id.parts = ⟨Path.normalize path, site.structuralPath⟩ ↔ IsPlain site.structuralPath) ∧
        (¬IsPlain site.structuralPath → ∃ key, IsKey (tokens text) key ∧ ¬IsPlain key ∧
          key.toList <:+: site.structuralPath.toList) := by
  refine ⟨_, CanonicalId.create_absolute hpath _, CanonicalId.parts_ofParts_iff, fun hplain => ?_⟩
  obtain ⟨key, hkey | hkey, hnot, hamong⟩ :=
    CanonicalId.exists_not_isPlain (madeOf_of_analyze h hsite) hplain
  · exact absurd hkey hnot
  · exact ⟨key, hkey, hnot, hamong⟩

/-- A declaration below a quoted key that holds a separator. -/
def keyed : String := "const o = \x7b 'a::b': gql.default(() => query.slice(\x7b\x7d)) \x7d;"

theorem paths_keyed : (analyze .standard "/a.ts" keyed).toOption.map
    (fun a => a.declarations.map (·.structuralPath)) = some ["o.a::b"] := by
  decide +kernel

theorem exists_keyed : ∃ analysis site, analyze .standard "/a.ts" keyed = .ok analysis ∧
    site ∈ analysis.declarations ∧ site.structuralPath = "o.a::b" := by
  have hpaths := paths_keyed
  cases hanalyze : analyze .standard "/a.ts" keyed with
  | error e => simp [hanalyze, Except.toOption] at hpaths
  | ok analysis =>
      have hmap : analysis.declarations.map (·.structuralPath) = ["o.a::b"] := by
        simpa [hanalyze, Except.toOption] using hpaths
      obtain ⟨site, hsite, hpath⟩ := List.mem_map.1 (hmap ▸ List.mem_singleton_self "o.a::b")
      exact ⟨analysis, site, rfl, hsite, hpath⟩

/-- Its id is cut inside the key, and the key is what the path is not plain for. -/
theorem parts_of_site_keyed : ∃ analysis site, analyze .standard "/a.ts" keyed = .ok analysis ∧
    site ∈ analysis.declarations ∧ Path.isAbsolute "/a.ts" = true ∧
      ∃ id, create .absolute "/a.ts" site.structuralPath = .ok id ∧
        (id.parts = ⟨Path.normalize "/a.ts", site.structuralPath⟩ ↔ IsPlain site.structuralPath) ∧
          (¬IsPlain site.structuralPath → ∃ key, IsKey (tokens keyed) key ∧ ¬IsPlain key ∧
            key.toList <:+: site.structuralPath.toList) := by
  obtain ⟨analysis, site, hanalyze, hsite, -⟩ := exists_keyed
  have hpath : Path.isAbsolute "/a.ts" = true := by decide
  exact ⟨analysis, site, hanalyze, hsite, hpath, parts_of_site hanalyze hsite hpath⟩

/-- What is read back from an id need not be the file and the path that it was made of. -/
theorem parts_ne_keyed : ∃ analysis site, analyze .standard "/a.ts" keyed = .ok analysis ∧
    site ∈ analysis.declarations ∧ site.structuralPath = "o.a::b" ∧
      ∃ id, create .absolute "/a.ts" site.structuralPath = .ok id ∧
        id.parts = ⟨"/a.ts::o.a", "b"⟩ ∧
          id.parts ≠ ⟨Path.normalize "/a.ts", site.structuralPath⟩ := by
  obtain ⟨analysis, site, hanalyze, hsite, hplace⟩ := exists_keyed
  refine ⟨analysis, site, hanalyze, hsite, hplace, ⟨"/a.ts::o.a::b"⟩, ?_, by decide, ?_⟩
  · rw [hplace]
    decide
  · rw [hplace]
    decide

end StaticGql.Scan
