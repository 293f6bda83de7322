import StaticGql.Proofs.Scan.Seams
import StaticGql.Proofs.Scan.Stretches

/-!
The first and the last token of the calls and the imports of a text, and how far the cutting has come there.
-/

namespace StaticGql.Scan

open Place

variable {ts : List Token} {place next ps qs : Place} {p : Piece} {t : Token} {kinds : List TokenKind} {a b : Nat}
  {marker : Marker} {file text : String} {analysis : Analysis}

theorem Place.Within.mem_last (h : Within ts (p :: ps)) : p.last ∈ ts := by
  refine h.tokens.subset ?_
  rw [Piece.allTokens]
  exact List.mem_append_left _ (List.mem_of_getLast? p.getLast?_tokens)

/-- A group of braces ends with one. -/
theorem Place.Within.closes {k l : TokenKind} (h : Within ts place) (hgroup : group? k place = some (qs, next))
    (hkind : k.closer? = some l) : ∃ q, place = q :: next ∧ q.last.kind = l := by
  rw [group?.eq_def] at hgroup
  split at hgroup
  · rename_i o c inner rest
    split at hgroup
    · rename_i hopen
      cases hgroup
      have hclose : o.kind.closer? = some c.kind := h.nested.1
      rw [hopen, hkind] at hclose
      exact ⟨_, rfl, (Option.some.inj hclose).symm⟩
    · cases hgroup
  · cases hgroup

theorem Place.Within.eq_token {k : TokenKind} (h : Within ts place) (hat : at? k place = true)
    (hk : k.isOpen = false) : ∃ t rest, place = .token t :: rest ∧ t.kind = k := by
  cases place with
  | nil => cases hat
  | cons p rest =>
      have hhead : p.head.kind = k := by simpa [at?, kind?] using hat
      cases p with
      | token t => exact ⟨t, rest, rfl, hhead⟩
      | group o c inner =>
          have hclose : o.kind.closer? = some c.kind := h.nested.1
          have hopen : o.kind.isOpen = true := by rw [TokenKind.isOpen, hclose]; rfl
          rw [show o.kind = k from hhead, hk] at hopen
          cases hopen

/-! ### The ends of imports -/

/-- The kinds of tokens with which imports end. -/
def importEnds : List TokenKind := [.str, .closeBrace, .semicolon]

namespace Clause

theorem last_of_tail (h : Place.Within ts (p :: place)) (hp : p.last.kind ∈ importEnds) :
    ∃ qs q, p :: place = qs ++ q :: tail place ∧ q.last.kind ∈ importEnds := by
  -- what the attributes leave, and the semicolon behind it
  have hattributes : ∃ qs q mid, p :: place = qs ++ q :: mid ∧ q.last.kind ∈ importEnds ∧
      tail place = if at? .semicolon mid then mid.tail else mid := by
    rw [tail]
    split
    · cases hgroup : group? .openBrace place.tail with
      | none => exact ⟨[], p, place, rfl, hp, rfl⟩
      | some found =>
          obtain ⟨inner, rest⟩ := found
          obtain ⟨q, hq, hkind⟩ := h.behind.tail.closes hgroup rfl
          obtain ⟨w, rest', rfl⟩ : ∃ w rest', place = w :: rest' := by
            cases place with
            | nil => cases hq
            | cons w rest' => exact ⟨w, rest', rfl⟩
          rw [List.tail_cons] at hq
          subst hq
          exact ⟨[p, w], q, rest, rfl, by simp [hkind, importEnds], rfl⟩
    · exact ⟨[], p, place, rfl, hp, rfl⟩
  obtain ⟨qs, q, mid, hplace, hq, htail⟩ := hattributes
  rw [htail]
  split
  · rename_i hat
    rw [hplace] at h
    obtain ⟨t, rest, rfl, hkind⟩ := (h.of_suffix ((List.suffix_cons q mid).trans (List.suffix_append qs _))).eq_token hat rfl
    exact ⟨qs ++ [q], .token t, by simp [hplace], by simp [Piece.last, hkind, importEnds]⟩
  · exact ⟨qs, q, hplace, hq⟩

theorem last_of_str (h : Place.Within ts place) (hat : at? .str place = true) :
    ∃ qs q, place = qs ++ q :: tail place.tail ∧ q.last.kind ∈ importEnds := by
  obtain ⟨t, rest, rfl, hkind⟩ := h.eq_token hat rfl
  exact last_of_tail h (by simp [Piece.last, hkind, importEnds])

theorem last_of_import {source : String} {names : List Specifier} (h : Place.Within ts (p :: ps))
    (himport : import? (p :: ps) = some (source, names, next)) :
    ∃ qs q, p :: ps = qs ++ q :: next ∧ q.last.kind ∈ importEnds ∧ stopBefore (p :: ps) next = q.last.stop := by
  have hlast : ∃ place, place <:+ ps ∧ at? .str place = true ∧ next = tail place.tail := by
    simp only [import?, Option.bind_eq_bind] at himport
    split at himport
    · obtain ⟨source', -, himport⟩ := Option.bind_eq_some_iff.1 himport
      cases himport
      exact ⟨ps, List.suffix_rfl, ‹_›, rfl⟩
    · obtain ⟨⟨first, place'⟩, hfirst, himport⟩ := Option.bind_eq_some_iff.1 himport
      obtain ⟨⟨others, place''⟩, hothers, himport⟩ := Option.bind_eq_some_iff.1 himport
      have hplace := ((suffix_of_otherNames hothers).trans (suffix_of_defaultName hfirst)).trans (skipType_suffix _)
      simp only at himport
      split at himport
      · rename_i hfrom
        obtain ⟨source', -, himport⟩ := Option.bind_eq_some_iff.1 himport
        cases himport
        rw [Bool.and_eq_true] at hfrom
        exact ⟨place''.tail, (List.tail_suffix _).trans hplace, hfrom.2, by rw [← List.drop_one, ← List.drop_one, List.drop_drop]⟩
      · cases himport
  obtain ⟨place, hsuffix, hat, rfl⟩ := hlast
  obtain ⟨qs, q, hplace, hq⟩ := last_of_str (h.behind.of_suffix hsuffix) hat
  obtain ⟨before, hbefore⟩ := hsuffix
  have hall : p :: ps = (p :: before ++ qs) ++ q :: tail place.tail := by
    rw [← hbefore, List.append_assoc, ← hplace, List.cons_append]
  exact ⟨p :: before ++ qs, q, hall, hq, by rw [hall, stopBefore_append]⟩

end Clause

/-- A range of bytes from a word that is no name of a property to a token of one of these kinds. -/
structure Bounded (ts : List Token) (kinds : List TokenKind) (a b : Nat) : Prop where
  le : a ≤ b
  first : ∃ t ∈ ts, t.start = a ∧ t.kind = .word ∧ t.isMember = false
  last : ∃ t ∈ ts, t.stop = b ∧ t.kind ∈ kinds

theorem bounded_of_site {site : Site} (h : analyze marker file text = .ok analysis)
    (hsite : site ∈ analysis.declarations) :
    Bounded (tokens text) [.closeParen] site.span.start site.span.stop := by
  have hle := (stretch_of_site h hsite).le
  obtain ⟨f, hf, rfl⟩ := map_eq_ok_iff.1 h
  obtain ⟨scope, e, he, callee, builder, options, names, rfl⟩ := Analysis.exists_makes hsite
  cases Walk.reports_of_mem_events (within_forest hf) he with
  | marker hplace hword hmember hcall =>
      obtain ⟨t, rest, o, c, inner, rfl, hgroup, hparen, ⟨he, -⟩ | ⟨he, -⟩⟩ := Call.exists_of_marker hcall
      · cases he
      injection he with _ _ _ hstart hstop
      have hwithin := hplace.behind.of_suffix
        ((Place.skipTypeArguments_suffix (Place.chain rest).2).trans (Place.chain_suffix rest))
      rw [hgroup] at hwithin
      have hclose : o.kind.closer? = some c.kind := hwithin.nested.1
      rw [hparen] at hclose
      refine ⟨hle, ⟨t, hplace.mem_head, hstart.symm, Place.kind_of_word hword, hmember⟩,
        ⟨c, hwithin.mem_last, hstop.symm, ?_⟩⟩
      rw [List.mem_singleton]
      exact (Option.some.inj hclose).symm

theorem bounded_of_import {i : Import} (h : analyze marker file text = .ok analysis)
    (hi : i ∈ analysis.imports) : Bounded (tokens text) importEnds i.span.start i.span.stop := by
  have hle := (stretch_of_import h hi).le
  obtain ⟨f, hf, rfl⟩ := map_eq_ok_iff.1 h
  obtain ⟨event, hevent, rfl⟩ := List.mem_map.1 hi
  obtain ⟨p, rest, source, specifiers, next, hsuffix, hword, himport, rfl⟩ := Clause.exists_of_mem_imports hevent
  have hplace := (within_forest hf).of_suffix hsuffix
  obtain ⟨qs, q, hqs, hkind, hstop⟩ := Clause.last_of_import hplace himport
  simp only [Clause.isImport, Bool.and_eq_true, Bool.not_eq_true', Place.atWord, decide_eq_true_eq] at hword
  obtain ⟨t, rfl⟩ : ∃ t, p = .token t := by
    cases p with
    | token t => exact ⟨t, rfl⟩
    | group => cases hword.1.1.1
  refine ⟨hle, ⟨t, hplace.mem_head, rfl, Place.kind_of_word (by rw [hword.1.1.1]; rfl), hword.1.1.2⟩,
    ⟨q.last, ?_, hstop.symm, hkind⟩⟩
  rw [hqs] at hplace
  exact (hplace.of_suffix (List.suffix_append qs _)).mem_last

/-! ### How far the cutting has come -/

namespace Cutter

variable {s s' : Cutter} {us vs : List Token} {spans : List Span} {ys : List Char}

/-- Where a token stands, and behind it. -/
theorem exists_at_token (ht : t ∈ Scan.tokens text) : ∃ us s s', Comes (.ofText text) us s ∧ Comes s [t] s' ∧
    s.start = t.start ∧ s'.start = t.stop ∧ s'.before = some t ∧ t.previousKind = s.before.map (·.kind) ∧
      (∃ c ∈ s.rest.head?, t.kind = .word → isWordStart c = true) := by
  obtain ⟨us, vs, htokens⟩ := List.append_of_mem ht
  rw [← tokens_ofText] at htokens
  obtain ⟨s, c, w, rest, k, hcomes, hrest, hmunch, rfl, -⟩ := Comes.exists_token htokens
  refine ⟨us, s, s.take k (c :: w) rest, hcomes, .token hrest hmunch (.here _), rfl, rfl, rfl, rfl, c, ?_, ?_⟩
  · rw [hrest]
    rfl
  · intro hk
    obtain rfl : k = .word := hk
    exact (isWordStart_of_munch hmunch).1

/-- A word that is no name of a property comes next. -/
structure AtWord (s : Cutter) : Prop where
  char : ∃ c ∈ s.rest.head?, isWordStart c = true
  word : ∃ t ∈ s.tokens.head?, t.kind = .word ∧ t.start = s.start
  free : isDotted (s.before.map (·.kind)) = false

/-- Directly behind a token of one of these kinds. -/
def Behind (s : Cutter) (kinds : List TokenKind) : Prop := ∃ t, s.before = some t ∧ t.stop = s.start ∧ t.kind ∈ kinds

/-- What gives way to other text from a word on need only keep from the token that touches the word. -/
theorem AtWord.mends (h : AtWord s) (hsound : Sound s) (hlinked : Linked (Legible spans) s.before s.tokens)
    (htouch : ∀ t ∈ s.before, t.stop = s.start → t.kind ∉ [.word, .number, .regex] → Seam s.rest ys (some t.kind)) :
    Mends s ys := by
  obtain ⟨c, hc, hstart⟩ := h.char
  constructor
  · intro t ht hstop
    refine htouch t ht hstop ?_
    simp only [List.mem_cons, List.not_mem_nil, or_false]
    rintro (hk | hk | hk)
    · cases (isWordPart_of_isWordStart hstart).symm.trans (hsound.bare t ht hstop (.inl hk) c hc)
    · obtain ⟨u, hu, hword, hplace⟩ := h.word
      have hclash := (hlinked.head u hu).touch t ht (hstop.trans hplace.symm)
      rw [hk, hword] at hclash
      cases hclash
    · cases (isWordPart_of_isWordStart hstart).symm.trans (hsound.bare t ht hstop (.inr hk) c hc)
  · intro _
    obtain ⟨cs, hcs⟩ := List.head?_eq_some_iff.1 hc
    refine ⟨by simp [hcs], .inr fun hline => ?_⟩
    obtain rfl : c = '\n' := Option.some.inj (hc.symm.trans hline)
    cases hstart

end Cutter

open Cutter in
theorem Bounded.exists_places (h : Bounded (tokens text) kinds a b) : ∃ us vs s s', Comes (.ofText text) us s ∧
    Comes s vs s' ∧ s.start = a ∧ s'.start = b ∧ AtWord s ∧ Behind s' kinds := by
  obtain ⟨t, ht, rfl, hword, hmember⟩ := h.first
  obtain ⟨u, hu, rfl, hkind⟩ := h.last
  obtain ⟨us, s, s₁, hs, hs₁, hstart, -, -, hprevious, c, hc, hchar⟩ := exists_at_token ht
  obtain ⟨us', s₂, s', hs₂, hs', -, hstop, hbefore, -⟩ := exists_at_token hu
  obtain ⟨vs, hvs⟩ := hs.exists_between (hs₂.trans hs') (by rw [hstart, hstop]; exact h.le)
  refine ⟨us, vs, s, s', hs, hvs, hstart, hstop, ⟨⟨c, hc, hchar hword⟩, ⟨t, ?_, hword, hstart.symm⟩, ?_⟩,
    ⟨u, hbefore, hstop.symm, hkind⟩⟩
  · rw [hs₁.tokens_eq]
    rfl
  · rw [← hprevious]
    exact hmember

end StaticGql.Scan
