import StaticGql.Proofs.Analysis.Sites
import StaticGql.Proofs.Scan.Events
import StaticGql.Proofs.Scan.Order

/-!
What the calls and the imports of a text take up of it: ranges whose tokens close their brackets among
themselves.
-/

namespace StaticGql.Scan

variable {ts : List Token} {place next other ps : Place} {t o c : Token} {p q : Piece} {a b : Nat}
  {scope : Marker.Scope} {marker : Marker} {file text : String} {analysis : Analysis}

/-- The way to a later place of the level goes over pieces that close their brackets among themselves. -/
def Place.Passes (place next : Place) : Prop :=
  ∃ ps, place = ps ++ next ∧ WellNested ((Piece.allTokens ps).map (·.kind))

namespace Place.Passes

theorem refl (place : Place) : Passes place place := ⟨[], rfl, .nil⟩

theorem trans (h : Passes place next) (h' : Passes next other) : Passes place other := by
  obtain ⟨ps, rfl, hps⟩ := h
  obtain ⟨qs, rfl, hqs⟩ := h'
  refine ⟨ps ++ qs, (List.append_assoc ..).symm, ?_⟩
  rw [Piece.allTokens_append, List.map_append]
  exact hps.append hqs

theorem piece (h : p.Nested) (ps : Place) : Passes (p :: ps) ps :=
  ⟨[p], rfl, Piece.wellNested_all ⟨h, trivial⟩⟩

theorem token (hopen : t.kind.isOpen = false) (hclose : t.kind.isClose = false) (ps : Place) :
    Passes (.token t :: ps) ps :=
  piece (show Piece.Nested (.token t) from ⟨hopen, hclose⟩) ps

end Place.Passes

namespace Place

theorem passes_of_typeArgumentsFrom {depth : Int} (hplace : Within ts place)
    (h : typeArgumentsFrom depth place = some next) : Passes place next := by
  induction place generalizing depth with
  | nil => cases h
  | cons p rest ih =>
      cases p with
      | group o c inner => exact (Passes.piece hplace.nested rest).trans (ih hplace.behind h)
      | token t =>
          rw [typeArgumentsFrom.eq_def] at h
          simp only at h
          have htoken : t.kind.isOpen = false ∧ t.kind.isClose = false := by
            cases hkind : t.kind <;> simp [hkind] at h <;> exact ⟨rfl, rfl⟩
          have hpasses := Passes.token htoken.1 htoken.2 rest
          repeat' split at h
          all_goals first
            | exact hpasses.trans (ih hplace.behind h)
            | exact Option.some.inj h ▸ hpasses
            | cases h

theorem passes_skipTypeArguments (hplace : Within ts place) : Passes place (skipTypeArguments place) := by
  rw [skipTypeArguments, typeArguments?]
  split
  · cases h : typeArgumentsFrom 0 place with
    | none => exact .refl place
    | some next => exact passes_of_typeArgumentsFrom hplace h
  · exact .refl place

theorem passes_chain (place : Place) : Passes place (chain place).2 := by
  fun_induction chain place with
  | case1 d w rest hchain names place hnext ih =>
      rw [hnext] at ih
      have hdot : Passes (.token d :: .token w :: rest) (.token w :: rest) :=
        .token (by rw [hchain.1]; rfl) (by rw [hchain.1]; rfl) _
      exact hdot.trans (Passes.trans (.token (by rw [hchain.2]; rfl) (by rw [hchain.2]; rfl) rest) ih)
  | case2 => exact .refl _
  | case3 => exact .refl _

theorem kind_of_word (h : (word? (.token t :: ps)).isSome = true) : t.kind = .word := by
  rw [word?] at h
  split at h
  · assumption
  · cases h

end Place

theorem Clause.stopBefore_append (qs : List Piece) (q : Piece) (next : Place) :
    stopBefore (qs ++ q :: next) next = q.last.stop := by
  have htake : (qs ++ q :: next).take ((qs ++ q :: next).length - next.length) = qs ++ [q] := by
    have hlength : (qs ++ q :: next).length - next.length = (qs ++ [q]).length := by simp; omega
    rw [hlength, List.append_cons qs q next, List.take_left]
  rw [stopBefore, htake, List.getLast?_concat]

/-- An import takes the pieces from its keyword on to the last one before what follows. -/
theorem Clause.exists_last_of_import {source : String} {names : List Specifier}
    (h : import? (p :: ps) = some (source, names, next)) : ∃ qs q, p :: ps = p :: qs ++ next ∧
      (p :: qs).getLast? = some q ∧ stopBefore (p :: ps) next = q.last.stop := by
  obtain ⟨qs, hqs⟩ := suffix_of_import h
  rw [List.tail_cons] at hqs
  subst hqs
  obtain ⟨q, hlast⟩ : ∃ q, (p :: qs).getLast? = some q := ⟨_, List.getLast?_eq_some_getLast (List.cons_ne_nil p qs)⟩
  obtain ⟨init, hinit⟩ := List.getLast?_eq_some_iff.1 hlast
  refine ⟨qs, q, rfl, hlast, ?_⟩
  rw [← List.cons_append, hinit, List.append_assoc]
  exact stopBefore_append init q next

/-! ### Ranges of bytes -/

/-- A range of bytes whose tokens close their brackets among themselves. -/
structure Stretch (ts : List Token) (a b : Nat) : Prop where
  le : a ≤ b
  wellNested : WellNested ((between ts a b).map (·.kind))

namespace Stretch

theorem of_pieces (hts : Ordered ts) (hamong : Piece.allTokens ps <:+: ts) (hp : ps.head? = some p)
    (hq : ps.getLast? = some q) (h : WellNested ((Piece.allTokens ps).map (·.kind))) :
    Stretch ts p.head.start q.last.stop := by
  have hbetween := between_of_infix hts hamong hp hq
  refine ⟨?_, hbetween ▸ h⟩
  by_contra hlt
  rw [between_eq_nil (by omega)] at hbetween
  obtain ⟨rest, rfl⟩ := List.head?_eq_some_iff.1 hp
  obtain ⟨tokens, htokens⟩ := p.exists_tokens
  rw [Piece.allTokens, htokens] at hbetween
  cases hbetween

theorem empty (ts : List Token) (a : Nat) : Stretch ts a a :=
  ⟨Nat.le_refl a, by rw [between_eq_nil (Nat.le_refl a)]; exact .nil⟩

/-- More bytes in which no token begins change nothing. -/
theorem extend {b' : Nat} (h : Stretch ts a b) (hb : b ≤ b') (hnone : ∀ t ∈ ts, t.start < b ∨ b' ≤ t.start) :
    Stretch ts a b' := by
  have hsame : between ts a b' = between ts a b := by
    refine List.filter_congr fun t ht => ?_
    have := hnone t ht
    simp only [Bool.and_eq_decide, decide_eq_true_eq, decide_eq_decide]
    omega
  exact ⟨Nat.le_trans h.le hb, hsame ▸ h.wellNested⟩

theorem of_call {e : Event} (hts : Ordered ts) (hplace : place.Within ts)
    (hword : (Place.word? place).isSome = true) (h : Call.marker? scope place = some (e, next))
    {callee names : List String} {shape : CallShape} (he : e = .call callee shape names a b) :
    Stretch ts a b := by
  obtain ⟨t, rest, o, c, inner, rfl, hgroup, -, ⟨rfl, -⟩ | ⟨rfl, -⟩⟩ := Call.exists_of_marker h
  · cases he
  cases he
  have hkind := Place.kind_of_word hword
  have hchain := hplace.behind.of_suffix (Place.chain_suffix rest)
  have hwithin := hchain.of_suffix (Place.skipTypeArguments_suffix _)
  rw [hgroup] at hwithin
  have hpasses : Place.Passes (.token t :: rest) (.group o c inner :: next) :=
    (Place.Passes.token (by rw [hkind]; rfl) (by rw [hkind]; rfl) rest).trans
      ((Place.passes_chain rest).trans (hgroup ▸ Place.passes_skipTypeArguments hchain))
  obtain ⟨ps, hps, hnested⟩ := hpasses
  have hcall : .token t :: rest = (ps ++ [.group o c inner]) ++ next := by rw [hps]; simp
  have hhead : (ps ++ [Piece.group o c inner]).head? = some (.token t) := by
    cases ps with
    | nil => cases hps
    | cons p ps => rw [(List.cons.inj hps).1]; rfl
  rw [hcall] at hplace
  refine of_pieces hts hplace.before hhead List.getLast?_concat ?_
  rw [Piece.allTokens_append, List.map_append]
  exact hnested.append (Piece.wellNested_all ⟨hwithin.nested, trivial⟩)

theorem of_import (hts : Ordered ts) (hplace : Place.Within ts (p :: ps)) (hnested : ∀ q ∈ p :: ps, q.Nested)
    {source : String} {names : List Specifier} (h : Clause.import? (p :: ps) = some (source, names, next)) :
    Stretch ts p.head.start (Clause.stopBefore (p :: ps) next) := by
  obtain ⟨qs, q, hqs, hlast, hstop⟩ := Clause.exists_last_of_import h
  rw [hqs] at hplace hnested
  rw [hstop]
  exact of_pieces hts hplace.before rfl hlast
    (Piece.wellNested_all (Piece.allNested_iff.2 fun q hq => hnested q (List.mem_append_left next hq)))

theorem of_imports (hts : Ordered ts) (hplace : place.Within ts) (hnested : ∀ p ∈ place, p.Nested)
    {fuel : Nat} {i : ImportEvent} (hi : i ∈ Clause.imports fuel place) : Stretch ts i.start i.stop := by
  obtain ⟨p, rest, source, specifiers, next, hsuffix, -, himport, rfl⟩ := Clause.exists_of_mem_imports hi
  exact of_import hts (hplace.of_suffix hsuffix) (fun q hq => hnested q (hsuffix.subset hq)) himport

end Stretch

theorem stretch_of_site {site : Site} (h : analyze marker file text = .ok analysis)
    (hsite : site ∈ analysis.declarations) : Stretch (tokens text) site.span.start site.span.stop := by
  obtain ⟨f, hf, rfl⟩ := map_eq_ok_iff.1 h
  obtain ⟨scope, e, he, callee, builder, options, names, rfl⟩ := Analysis.exists_makes hsite
  cases Walk.reports_of_mem_events (within_forest hf) he with
  | marker hplace hword _ hcall => exact .of_call (ordered_tokens text) hplace hword hcall rfl

theorem stretch_of_import {i : Import} (h : analyze marker file text = .ok analysis)
    (hi : i ∈ analysis.imports) : Stretch (tokens text) i.span.start i.span.stop := by
  obtain ⟨f, hf, rfl⟩ := map_eq_ok_iff.1 h
  obtain ⟨event, hevent, rfl⟩ := List.mem_map.1 hi
  exact .of_imports (ordered_tokens text) (within_forest hf) (nested_of_forest hf) hevent

end StaticGql.Scan
