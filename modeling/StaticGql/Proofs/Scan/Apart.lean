import StaticGql.Proofs.Scan.Shares
import StaticGql.Proofs.Scan.Stretches
import StaticGql.Proofs.Text.Edits

/-!
Calls and imports keep apart. In a text that is walked through in order, every call is reported once, the calls one
behind the other, and no call and no import reach into each other.
-/

namespace StaticGql.Scan

open Place Text

variable {ts : List Token} {f place next ps qs : Place} {t u : Token} {p : Piece} {r : Range} {scope : Marker.Scope}
  {e : Event} {i : ImportEvent} {marker : Marker} {file text : String} {analysis : Analysis}

/-! ### Tokens side by side -/

theorem Ordered.stop_le {before after : List Token} (h : Ordered ts) (hsub : (before ++ after).Sublist ts)
    (ht : t ∈ before) (hu : u ∈ after) : t.stop ≤ u.start :=
  (List.pairwise_append.1 (h.apart.sublist hsub)).2.2 t ht u hu

namespace Walk

/-- The first and the last of some tokens that stand side by side are at the ends of a range. -/
structure Ends (ts : List Token) (a b : Nat) : Prop where
  first : ∃ t ∈ ts, t.start = a
  last : ∃ t ∈ ts, t.stop = b

theorem Ends.of_pieces {q : Piece} (hp : ps.head? = some p) (hq : ps.getLast? = some q) :
    Ends (Piece.allTokens ps) p.head.start q.last.stop := by
  constructor
  · obtain ⟨rest, rfl⟩ := List.head?_eq_some_iff.1 hp
    refine ⟨p.head, ?_, rfl⟩
    rw [Piece.allTokens]
    exact List.mem_append_left _ (List.mem_of_head? p.head?_tokens)
  · obtain ⟨rest, rfl⟩ := List.getLast?_eq_some_iff.1 hq
    refine ⟨q.last, ?_, rfl⟩
    rw [Piece.allTokens_append, Piece.allTokens]
    exact List.mem_append_right _ (List.mem_append_left _ (List.mem_of_getLast? q.getLast?_tokens))

/-- What stands before in the text ends before it begins. -/
theorem Ends.stop_le {before after : List Token} {a b a' b' : Nat} (h : Ends before a b) (h' : Ends after a' b')
    (hts : Ordered ts) (hsub : (before ++ after).Sublist ts) : b ≤ a' := by
  obtain ⟨t, ht, rfl⟩ := h.last
  obtain ⟨u, hu, rfl⟩ := h'.first
  exact hts.stop_le hsub ht hu

/-- The tokens of a declaration are at the ends of its span. -/
theorem ends_of_makes {site : Site} (hts : Ordered ts) (hf : Within ts f) (he : e ∈ events f scope)
    (hmakes : Analysis.Makes e site) : Ends (callTokens ts e) site.span.start site.span.stop := by
  obtain ⟨callee, builder, options, names, rfl⟩ := hmakes
  cases reports_of_mem_events hf he with
  | marker hplace hword hmember hcall =>
      obtain ⟨t, o, c, inner, ps, -, htokens, hends⟩ := callTokens_of_marker hts hplace hcall
      obtain ⟨hstart, hstop⟩ := hends _ _ _ _ _ rfl
      rw [htokens, hstart, hstop]
      have hhead : (.token t :: ps ++ [.group o c inner] : Place).head? = some (.token t) := rfl
      exact .of_pieces hhead List.getLast?_concat

/-! ### Walks in order -/

/-- All that a walk through a forest comes upon. -/
def tasks (f : List Piece) (scope : Marker.Scope) : List Task :=
  visited (step scope) (2 * Piece.sizes f + 2) (.statements f true [])

def Task.Contained (scope : Marker.Scope) : Task → Prop
  | .expression r => Walk.Contained scope r
  | .statements _ _ _ => True

instance (scope : Marker.Scope) : (task : Task) → Decidable (task.Contained scope)
  | .expression r => inferInstanceAs (Decidable (Walk.Contained scope r))
  | .statements _ _ _ => .isTrue trivial

/-- The import that a place begins with. -/
def importAt? : Place → Option ImportEvent
  | [] => none
  | p :: rest =>
    if Clause.isImport (p :: rest) then
      (Clause.import? (p :: rest)).map fun (source, specifiers, next) =>
        ⟨source, specifiers, p.head.start, Clause.stopBefore (p :: rest) next⟩
    else none

/-- The import that is the first of some statements. -/
def Task.import? : Task → Option ImportEvent
  | .expression _ => none
  | .statements place _ _ => importAt? place

/-- Every construct in an expression ends where the expression does or before, and every import is a statement that
the walk comes upon. -/
structure Orderly (f : List Piece) (scope : Marker.Scope) : Prop where
  contained : ∀ task ∈ tasks f scope, task.Contained scope
  statements : ∀ i ∈ Clause.imports (f.length + 1) f, ∃ task ∈ tasks f scope, task.import? = some i

instance (f : List Piece) (scope : Marker.Scope) : Decidable (Orderly f scope) :=
  decidable_of_iff (_ ∧ _) ⟨fun h => ⟨h.1, h.2⟩, fun h => ⟨h.1, h.2⟩⟩

theorem shares_of_mem_tasks (hts : Ordered ts) (hf : Within ts f) (horderly : Orderly f scope) :
    ∀ task ∈ tasks f scope, Shares (step scope) (callTokens ts) Task.tokens task := by
  intro task htask
  have harises := forall_mem_visited (P := fun task => Arises scope ts (.inr task))
    (fun _ h t ht => arises_step h (.inr t) ht) _ (show Arises scope ts (.inr (.statements f true [])) from hf) task htask
  cases task with
  | expression r => exact expressionStep_sublist hts harises (horderly.contained _ htask)
  | statements place top behind => exact statementsStep_sublist ts place top behind

theorem callTokens_sublist (hts : Ordered ts) (hf : Within ts f) (horderly : Orderly f scope) :
    ((events f scope).flatMap (callTokens ts)).Sublist ts :=
  (unfold_sublist (shares_of_mem_tasks hts hf horderly)).trans hf.tokens.sublist

/-! ### Imports among the statements -/

theorem eq_of_importAt (h : importAt? place = some i) : ∃ p rest source specifiers next, place = p :: rest ∧
    Clause.isImport place = true ∧ Clause.import? place = some (source, specifiers, next) ∧
      i = ⟨source, specifiers, p.head.start, Clause.stopBefore place next⟩ := by
  rw [importAt?.eq_def] at h
  split at h
  · cases h
  · rename_i p rest
    split at h
    · obtain ⟨⟨source, specifiers, next⟩, himport, rfl⟩ := Option.map_eq_some_iff.1 h
      exact ⟨p, rest, source, specifiers, next, rfl, ‹_›, himport, rfl⟩
    · cases h

/-- The walk passes over an import. -/
theorem statement_of_import {source : String} {specifiers : List Specifier} (top : Bool)
    (behind : Place) (himport : Clause.isImport place = true) (h : Clause.import? place = some (source, specifiers, next)) :
    statement top behind place = ([], next) := by
  have hword : word? place = some "import" := by
    simp only [Clause.isImport, atWord, Bool.and_eq_true, decide_eq_true_eq] at himport
    exact himport.1.1.1
  rw [word?.eq_def] at hword
  split at hword
  · rename_i t rest
    split at hword
    · rename_i hkind
      have htext : t.text = "import" := Option.some.inj hword
      rw [statement, if_neg (by simp [hkind]), if_neg (by simp [hkind]), if_neg (by simp [htext]), wordStatement]
      simp only [htext, himport, and_self, if_true, h]
    · cases hword
  · cases hword

theorem statementsStep_of_import {source : String} {specifiers : List Specifier} (top : Bool)
    (behind : Place) (himport : Clause.isImport place = true) (h : Clause.import? place = some (source, specifiers, next)) :
    statementsStep place top behind = [.inr (.statements next top behind)] := by
  have hnext := Clause.suffix_of_import h
  cases place with
  | nil => cases himport
  | cons p rest =>
      rw [List.tail_cons] at hnext
      have hlength := (Piece.allTokens_sublist hnext.sublist).length_le
      obtain ⟨others, hothers⟩ := p.exists_tokens
      have hsizes : Piece.sizes next < Piece.sizes (p :: rest) := by
        rw [← Piece.length_allTokens, ← Piece.length_allTokens, Piece.allTokens, hothers]
        simp only [List.length_append, List.length_cons]
        omega
      rw [statementsStep.eq_def]
      simp only [statement_of_import top behind himport h, List.nil_append, hsizes, if_true]

/-- An import has its own place among the calls. -/
theorem exists_import_among (hts : Ordered ts) (hf : Within ts f) (horderly : Orderly f scope)
    (hi : i ∈ Clause.imports (f.length + 1) f) : ∃ before after tokens, events f scope = before ++ after ∧
      Ends tokens i.start i.stop ∧
        (before.flatMap (callTokens ts) ++ tokens ++ after.flatMap (callTokens ts)).Sublist ts := by
  have hshares := shares_of_mem_tasks hts hf horderly
  obtain ⟨task, htask, hfirst⟩ := horderly.statements i hi
  obtain ⟨before, after, m, hevents, hvisited, haround⟩ := exists_around hshares htask
  cases task with
  | expression r => cases hfirst
  | statements place top behind =>
      obtain ⟨p, rest, source, specifiers, next, rfl, hword, himport, rfl⟩ := eq_of_importAt hfirst
      obtain ⟨qs, q, hqs, hlast, hstop⟩ := Clause.exists_last_of_import himport
      have hinside : ((unfold (step scope) m (.statements (p :: rest) top behind)).flatMap (callTokens ts)).Sublist
          (Piece.allTokens next) := by
        cases m with
        | zero => exact List.nil_sublist _
        | succ m =>
            have hstep : step scope (.statements (p :: rest) top behind) = [.inr (.statements next top behind)] :=
              statementsStep_of_import top behind hword himport
            have hnext := unfold_sublist (n := m) (t := .statements next top behind) fun task htask =>
              hshares task (hvisited task (mem_visited_of_inr (by simp [hstep]) htask))
            rw [unfold_succ, hstep, List.flatMap_singleton]
            exact hnext
      refine ⟨before, unfold (step scope) m (.statements (p :: rest) top behind) ++ after, Piece.allTokens (p :: qs),
        by rw [← List.append_assoc]; exact hevents, hstop ▸ .of_pieces rfl hlast, ?_⟩
      refine List.Sublist.trans ?_ (haround.trans hf.tokens.sublist)
      have hplace : Task.tokens (.statements (p :: rest) top behind) = Piece.allTokens (p :: qs) ++ Piece.allTokens next := by
        rw [Task.tokens, hqs, Piece.allTokens_append]
      rw [hplace, List.flatMap_append]
      simp only [List.append_assoc]
      exact ((hinside.append_right _).append_left _).append_left _

end Walk

/-! ### Declarations and imports of a text -/

/-- The text is walked through in order, for the names by which its imports let the marker go. -/
def Orderly (marker : Marker) (text : String) : Prop :=
  ∀ f ∈ (forest text).toOption, Walk.Orderly f
    (marker.scope ((Clause.imports (f.length + 1) f).map fun i => (i.source, i.specifiers)))

/-- In a text that is walked through in order the declarations stand one behind the other, and apart from the
imports. -/
theorem sites_apart (h : analyze marker file text = .ok analysis) (horderly : Orderly marker text) :
    (∀ s ∈ analysis.declarations, s.span.start < s.span.stop) ∧
      (analysis.declarations.Pairwise fun s s' => s.span.stop ≤ s'.span.start) ∧
        ∀ s ∈ analysis.declarations, ∀ i ∈ analysis.imports, s.span.Apart i.span := by
  obtain ⟨f, hf, rfl⟩ := map_eq_ok_iff.1 h
  have hts := ordered_tokens text
  have hwithin := within_forest hf
  have horderly := horderly f (by rw [hf]; rfl)
  obtain ⟨calls, hcalls, hmakes⟩ := Analysis.makes_ofEvents marker file text (Clause.imports (f.length + 1) f) (Walk.events f)
  have hends : ∀ e ∈ calls, ∀ site, Analysis.Makes e site →
      Walk.Ends (Walk.callTokens (tokens text) e) site.span.start site.span.stop := fun e he site =>
    Walk.ends_of_makes hts hwithin (hcalls.subset he)
  refine ⟨fun s hs => ?_, ?_, fun s hs i hi => ?_⟩
  · obtain ⟨e, he, hmade⟩ := exists_of_forall₂ hmakes.flip hs
    obtain ⟨t, ht, hstart⟩ := (hends e he s hmade).first
    obtain ⟨callee, builder, options, names, rfl⟩ := hmade
    have hrange := (List.mem_filter.1 ht).2
    simp only [Bool.and_eq_true, decide_eq_true_eq] at hrange
    omega
  · have hpairwise := hts.apart.sublist (Walk.callTokens_sublist hts hwithin horderly)
    have hcalls := (List.pairwise_flatMap.1 hpairwise).2.sublist hcalls
    refine pairwise_of_forall₂ hmakes hcalls fun e he e' he' s s' hs hs' hbefore => ?_
    obtain ⟨t, ht, hstop⟩ := (hends e he s hs).last
    obtain ⟨u, hu, hstart⟩ := (hends e' he' s' hs').first
    rw [← hstop, ← hstart]
    exact hbefore t ht u hu
  · obtain ⟨e, he, hmade⟩ := exists_of_forall₂ hmakes.flip hs
    obtain ⟨event, hevent, rfl⟩ := List.mem_map.1 hi
    obtain ⟨before, after, tokens, hevents, himport, hsub⟩ := Walk.exists_import_among hts hwithin horderly hevent
    have hcall := hends e he s hmade
    rcases List.mem_append.1 (hevents ▸ hcalls.subset he) with he | he
    · have hmem := List.sublist_flatten_of_mem (List.mem_map_of_mem (f := Walk.callTokens (Scan.tokens text)) he)
      refine .inl (hcall.stop_le himport hts (List.Sublist.trans ?_ hsub))
      exact (hmem.append_right tokens).trans (List.sublist_append_left _ _)
    · have hmem := List.sublist_flatten_of_mem (List.mem_map_of_mem (f := Walk.callTokens (Scan.tokens text)) he)
      refine .inr (himport.stop_le hcall hts (List.Sublist.trans ?_ hsub))
      exact (List.sublist_append_right _ tokens).append hmem

/-- An import, a call in a function with a type parameter, and another in an object. -/
def plainText : String :=
  "import \x7b gql \x7d from '@/graphql-system';\nexport const load = function <A>(id: A) \x7b\n" ++
  "  return gql.default(() => query.slice(\x7b\x7d));\n\x7d;\nexport default [\x7b user: gql.x<A>(() => query.slice(\x7b\x7d)) \x7d]"

theorem plainText_spec : (forest plainText).toOption.any (fun f =>
    decide (Walk.Orderly f (Marker.standard.scope ((Clause.imports (f.length + 1) f).map fun i => (i.source, i.specifiers)))) &&
      (analyze .standard "/a.ts" plainText).toOption.any fun analysis =>
        analysis.declarations.length = 2 && analysis.imports.length = 1) = true := by
  decide +kernel

theorem sites_apart_plainText : Orderly .standard plainText ∧ ∃ analysis,
    analyze .standard "/a.ts" plainText = .ok analysis ∧ analysis.declarations.length = 2 ∧ analysis.imports.length = 1 ∧
      (∀ s ∈ analysis.declarations, s.span.start < s.span.stop) ∧
        (analysis.declarations.Pairwise fun s s' => s.span.stop ≤ s'.span.start) ∧
          ∀ s ∈ analysis.declarations, ∀ i ∈ analysis.imports, s.span.Apart i.span := by
  obtain ⟨f, hforest, h⟩ := exists_of_any_toOption plainText_spec
  obtain ⟨hordered, h⟩ := Bool.and_eq_true_iff.1 h
  obtain ⟨analysis, hanalyze, h⟩ := exists_of_any_toOption h
  simp only [Bool.and_eq_true, decide_eq_true_eq] at h
  have horderly : Orderly .standard plainText := by
    intro f' hf'
    cases hforest.symm.trans (eq_ok_of_toOption hf')
    exact of_decide_eq_true hordered
  exact ⟨horderly, analysis, hanalyze, h.1, h.2, sites_apart hanalyze horderly⟩

/-- A call in a function with two type parameters. -/
def genericText : String :=
  "import \x7b gql \x7d from '@/graphql-system';\nexport const load = function <A, B>(id: A) \x7b\n" ++
  "  const user = gql.default(() => query.slice(\x7b fields: ['id'] \x7d));\n  return user;\n\x7d;\n"

theorem genericText_spec : ((analyze .standard "/a.ts" genericText).toOption.map fun analysis =>
    analysis.declarations.map fun s => (s.structuralPath, s.span.start, s.span.stop)) =
      some [("load.user", 100, 150), ("user", 100, 150)] := by
  decide +kernel

/-- The comma between them is taken for the end of the variable, so the body of the function is walked through as part
of its value and once more as a statement. -/
theorem reported_twice : ∃ analysis, analyze .standard "/a.ts" genericText = .ok analysis ∧
    ¬ analysis.declarations.Pairwise fun s s' => s.span.stop ≤ s'.span.start := by
  obtain ⟨analysis, hanalyze, hsites⟩ := Option.map_eq_some_iff.1 genericText_spec
  refine ⟨analysis, eq_ok_of_toOption hanalyze, fun hpairwise => ?_⟩
  have hspans : (analysis.declarations.map fun s => (s.structuralPath, s.span.start, s.span.stop)).Pairwise
      fun x y => x.2.2 ≤ y.2.1 := List.pairwise_map.2 hpairwise
  rw [hsites] at hspans
  simp at hspans

end StaticGql.Scan
