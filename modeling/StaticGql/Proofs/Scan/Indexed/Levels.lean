import StaticGql.Proofs.Scan.Indexed.Pairing
import StaticGql.Proofs.Scan.Places

/-!
Numbers and places. A number is at a place of a level if the tokens from there up to the end of the level are
those of the pieces of the place. Then what is read by the number is what the place shows.
-/

namespace StaticGql.Scan

open Place

variable {s : Indexed.Table} {ts : List Token} {cs : List Char} {previous : Option Token} {t o c : Token} {p : Piece}
  {ps inner place next : List Piece} {i j e after stop : Nat} {k : TokenKind}

/-- Whether a token of this kind ends a level or a part of it. -/
def TokenKind.ends (k : TokenKind) : Bool := k.isClose || k = .comma

/-- A piece from which no bracket is missing. -/
def Piece.Entire : Piece → Prop
  | .token t => t.kind.isOpen = false
  | .group o c inner => (Piece.group o c inner).Nested

theorem Piece.Nested.entire {p : Piece} (h : p.Nested) : p.Entire := by
  cases p with
  | token t => exact h.1
  | group o c inner => exact h

namespace Indexed

/-! ### Reading tokens -/

/-- Whether the token of this number is the word `w`. -/
def wordAt (ts : List Token) (w : String) (i : Nat) : Bool :=
  ts[i]?.any fun t => decide (t.kind = .word) && decide (t.text = w)

theorem Linked.getElem? (h : Linked cs previous ts) (ht : ts[i]? = some t) :
    Stands cs (some t) ∧ Behind cs (match i with | 0 => previous | j + 1 => ts[j]?) t := by
  induction ts generalizing i previous with
  | nil => cases ht
  | cons u us ih =>
      obtain ⟨hstands, hbehind, hlinked⟩ := h
      cases i with
      | zero =>
          cases ht
          exact ⟨hstands, hbehind⟩
      | succ j =>
          obtain ⟨hstands, hbehind⟩ := ih hlinked ht
          cases j with
          | zero => exact ⟨hstands, hbehind⟩
          | succ j => exact ⟨hstands, hbehind⟩

namespace Table.Tells

variable (h : s.Tells ts)
include h

theorem marks_getElem? (i : Nat) : s.marks[i]? = ts[i]?.map Token.mark := by
  rw [h.marks, List.getElem?_map]

theorem kind?_eq (i : Nat) : s.kind? i = ts[i]?.map (·.kind) := by
  rw [kind?, h.marks_getElem?, Option.map_map]
  rfl

theorem mark_eq (ht : ts[i]? = some t) : s.mark i = .ok t.mark := markAt_of_getElem? h.marks ht

theorem is_eq (ht : ts[i]? = some t) (k : TokenKind) : s.is k i = decide (t.kind = k) := by
  rw [is, h.kind?_eq, ht, Option.map_some]
  exact decide_eq_decide.2 Option.some_inj

theorem textAt_eq (i : Nat) : s.textAt i = .ok ((ts[i]?.map (·.text)).getD "") := by
  rw [textAt, h.marks_getElem?]
  cases ht : ts[i]? with
  | none => rfl
  | some t =>
      have hslice := (h.linked.getElem? ht).1 t rfl
      rw [Option.map_some, Token.mark]
      simp only [hslice, ok_bind, String.ofList_toList]
      rfl

theorem textAt_of (ht : ts[i]? = some t) : s.textAt i = .ok t.text := by
  rw [h.textAt_eq, ht]
  rfl

theorem isWord_of_text {w : String} (ht : ts[i]? = some t) (hw : beginsWord w = true) (htext : t.text = w) : t.kind = .word :=
  h.words t (List.mem_of_getElem? ht) (htext ▸ hw)

theorem given_is (k : TokenKind) (i : Nat) (f : String → Bool) :
    given (s.is k i) (do return f (← s.textAt i)) false =
      .ok (ts[i]?.any fun t => decide (t.kind = k) && f t.text) := by
  rw [h.textAt_eq, ok_bind, pure_eq, given_ok _ fun _ => rfl]
  cases ht : ts[i]? with
  | none => simp [is, h.kind?_eq, ht]
  | some t => simp [h.is_eq ht]

theorem isWord_eq (w : String) (i : Nat) : s.isWord w i = .ok (wordAt ts w i) := h.given_is .word i _

theorem before (ht : ts[i]? = some t) :
    i = 0 ∧ Behind s.text none t ∨ ∃ j u, i = j + 1 ∧ ts[j]? = some u ∧ Behind s.text (some u) t := by
  have hbehind := (h.linked.getElem? ht).2
  cases i with
  | zero => exact .inl ⟨rfl, hbehind⟩
  | succ j =>
      have hj : j < ts.length := Nat.lt_of_succ_lt (List.getElem?_eq_some_iff.1 ht).1
      simp only [List.getElem?_eq_getElem hj] at hbehind
      exact .inr ⟨j, _, rfl, List.getElem?_eq_getElem hj, hbehind⟩

theorem previous?_eq (ht : ts[i]? = some t) : s.previous? i = t.previousKind := by
  obtain ⟨rfl, hkind, -⟩ | ⟨j, u, rfl, hu, hkind, -⟩ := h.before ht
  · exact hkind.symm
  · rw [previous?, if_neg (Nat.succ_ne_zero j), h.kind?_eq, Nat.add_sub_cancel, hu, hkind]
    rfl

theorem isMember_eq (ht : ts[i]? = some t) : s.isMember i = t.isMember := by
  rw [isMember, h.previous?_eq ht]
  rfl

theorem follows_eq (w : String) (ht : ts[i]? = some t) : s.follows w i = .ok (t.follows w) := by
  rw [follows, h.isWord_eq, given_ok _ fun _ => rfl, Token.follows]
  obtain ⟨rfl, hkind, -⟩ | ⟨j, u, rfl, hu, hkind, htext, -⟩ := h.before ht
  · simp [hkind]
  · simp [wordAt, hu, hkind, htext]

theorem startsLine_eq (ht : ts[i]? = some t) : s.startsLine i = .ok t.startsLine := by
  rw [startsLine]
  obtain ⟨rfl, -, hline⟩ | ⟨j, u, rfl, hu, -, -, gap, hgap, hline⟩ := h.before ht
  · rw [hline]
    rfl
  · rw [if_neg (Nat.succ_ne_zero j), Nat.add_sub_cancel, h.mark_eq hu, ok_bind, h.mark_eq ht, ok_bind, hline]
    simp only [Token.mark, hgap, ok_bind]
    rfl

theorem opensObject_eq (ht : ts[i]? = some t) : s.opensObject i = .ok t.opensObject := by
  rw [opensObject, Token.opensObject, h.previous?_eq ht]
  obtain ⟨rfl, hkind, -⟩ | ⟨j, u, rfl, hu, -, htext, -⟩ := h.before ht
  · rw [hkind]
  · rw [Nat.add_sub_cancel, h.textAt_of hu, ← htext, ok_bind]
    cases t.previousKind with
    | none => rfl
    | some k => cases k <;> rfl

theorem isOpen_eq (ht : ts[i]? = some t) : s.isOpen i = t.kind.isOpen := by
  rw [isOpen, h.kind?_eq, ht]
  rfl

end Table.Tells

/-! ### Places -/

/-- The pieces of a place are the tokens from the number `i` up to `stop`, before a comma or where a level ends. -/
structure Covers (s : Table) (ts : List Token) (i : Nat) (place : Place) (stop : Nat) : Prop where
  told : s.Tells ts
  tokens : ts.drop i = Piece.allTokens place ++ ts.drop stop
  stop_eq : stop = i + Piece.sizes place
  entire : ∀ p ∈ place, p.Entire
  ended : ∀ t ∈ ts[stop]?, t.kind.ends = true

/-- The number `i` is at a place of a level that ends at `stop`. -/
structure At (s : Table) (ts : List Token) (i : Nat) (place : Place) (stop : Nat) : Prop
    extends Covers s ts i place stop where
  closes : ∀ t ∈ ts[stop]?, t.kind.isClose = true

theorem ends_of_isClose (h : k.isClose = true) : k.ends = true := by
  rw [TokenKind.ends, h]
  rfl

theorem tokens_eq_cons (p : Piece) : ∃ us, p.tokens = p.head :: us ∧ us.length + 1 = p.size := by
  obtain ⟨us, hus⟩ := Piece.exists_tokens p
  refine ⟨us, hus, ?_⟩
  rw [← Piece.length_tokens, hus, List.length_cons]

namespace Covers

theorem head (h : Covers s ts i (p :: ps) stop) : ts[i]? = some p.head := by
  obtain ⟨us, hus, -⟩ := tokens_eq_cons p
  rw [← List.head?_drop, h.tokens, Piece.allTokens, hus]
  rfl

theorem eq_stop (h : Covers s ts i [] stop) : i = stop := h.stop_eq.symm

theorem behind (h : Covers s ts i (p :: ps) stop) : Covers s ts (i + p.size) ps stop where
  told := h.told
  tokens := by
    rw [← List.drop_drop, h.tokens, Piece.allTokens, List.append_assoc, List.drop_left' (Piece.length_tokens p)]
  stop_eq := h.stop_eq.trans (Nat.add_assoc ..).symm
  entire := fun q hq => h.entire q (List.mem_cons_of_mem p hq)
  ended := h.ended

theorem isOpen_token (h : Covers s ts i (.token t :: ps) stop) : t.kind.isOpen = false :=
  h.entire _ List.mem_cons_self

theorem nested (h : Covers s ts i (.group o c inner :: ps) stop) : (Piece.group o c inner).Nested :=
  h.entire _ List.mem_cons_self

theorem isOpen_group (h : Covers s ts i (.group o c inner :: ps) stop) : o.kind.isOpen = true :=
  (isClose_of_closer h.nested.1).1

theorem partner (h : Covers s ts i (.group o c inner :: ps) stop) :
    s.partner i = .ok (i + Piece.sizes inner + 1) :=
  h.told.partner (by rw [h.tokens, Piece.allTokens, List.append_assoc]) h.nested

theorem past (h : Covers s ts i (.group o c inner :: ps) stop) : s.past i = .ok (i + Piece.sizes inner + 2) := by
  rw [Table.past, h.partner]
  rfl

/-- The inside of a group is a level of its own. -/
theorem inside (h : Covers s ts i (.group o c inner :: ps) stop) :
    At s ts (i + 1) inner (i + Piece.sizes inner + 1) := by
  have hnested := h.nested
  have hopening : ts.drop (i + 1) = Piece.allTokens inner ++ c :: (Piece.allTokens ps ++ ts.drop stop) := by
    rw [← List.tail_drop, h.tokens, Piece.allTokens, Piece.tokens]
    simp
  have hclosing : ts.drop (i + Piece.sizes inner + 1) = c :: (Piece.allTokens ps ++ ts.drop stop) := by
    rw [show i + Piece.sizes inner + 1 = i + 1 + Piece.sizes inner by omega, ← List.drop_drop, hopening,
      List.drop_left' (Piece.length_allTokens inner)]
  have hc : ∀ t ∈ ts[i + Piece.sizes inner + 1]?, t.kind.isClose = true := by
    rw [← List.head?_drop, hclosing]
    rintro _ ⟨⟩
    exact (isClose_of_closer hnested.1).2.2
  have hentire : ∀ p ∈ inner, p.Entire := fun p hp => (Piece.allNested_iff.1 hnested.2 p hp).entire
  exact ⟨⟨h.told, hclosing ▸ hopening, by omega, hentire, fun t ht => ends_of_isClose (hc t ht)⟩, hc⟩

theorem sizes_le (h : Covers s ts i place stop) : Piece.sizes place ≤ s.marks.length := by
  have hlength := congrArg List.length h.tokens
  rw [List.length_append, List.length_drop, List.length_drop, Piece.length_allTokens] at hlength
  rw [h.told.marks, List.length_map]
  omega

theorem length_lt_fuel (h : Covers s ts i place stop) : place.length < s.fuel :=
  Nat.lt_succ_of_le ((length_le_sizes place).trans h.sizes_le)

theorem index_le (h : Covers s ts i place stop) : i ≤ stop := h.stop_eq ▸ Nat.le_add_right ..

/-! ### What a place shows -/

theorem is_of (h : Covers s ts i place stop) (hstop : ∀ t ∈ ts[stop]?, t.kind ≠ k) : s.is k i = at? k place := by
  cases place with
  | nil =>
      rw [Table.is, h.told.kind?_eq, h.eq_stop]
      cases ht : ts[stop]? with
      | none => rfl
      | some t => simpa [at?, Place.kind?] using hstop t ht
  | cons p ps =>
      rw [h.told.is_eq h.head, at?, Place.kind?]
      exact decide_eq_decide.2 Option.some_inj.symm

/-- What ends the place is not mistaken for a part of it. -/
theorem is (h : Covers s ts i place stop) (k : TokenKind) (hk : k.ends = false) : s.is k i = at? k place := by
  refine h.is_of fun t ht hkind => ?_
  have hended := h.ended t ht
  rw [hkind, hk] at hended
  cases hended

theorem given_is (h : Covers s ts i place stop) (hk : k.ends = false) (f : String → Bool) :
    given (s.is k i) (do return f (← s.textAt i)) false = .ok (at? k place && f (text place)) := by
  rw [h.told.textAt_eq, ok_bind, pure_eq, given_ok _ fun _ => rfl, h.is k hk]
  cases place with
  | nil => rfl
  | cons p ps =>
      rw [h.head]
      cases at? k (p :: ps) <;> rfl

theorem textAt (h : Covers s ts i (p :: ps) stop) : s.textAt i = .ok p.head.text := h.told.textAt_of h.head

theorem at?_group (h : Covers s ts i (.group o c inner :: ps) stop) (hk : k.isOpen = false) :
    at? k (.group o c inner :: ps) = false := by
  have hopen := h.isOpen_group
  rw [at?_cons]
  refine decide_eq_false fun hkind => ?_
  rw [show o.kind = k from hkind, hk] at hopen
  cases hopen

theorem is_opening (h : Covers s ts i (.token t :: ps) stop) (hk : k.isOpen = true) : s.is k i = false := by
  have hopen := h.isOpen_token
  rw [h.told.is_eq h.head]
  refine decide_eq_false fun hkind => ?_
  rw [show t.kind = k from hkind, hk] at hopen
  cases hopen

theorem word?_eq (h : Covers s ts i place stop) :
    Place.word? place = if at? .word place then some (text place) else none := by
  cases place with
  | nil => rfl
  | cons p ps =>
      cases p with
      | token t => simp [Place.word?, at?, Place.kind?, text, Piece.head]
      | group o c inner => rw [h.at?_group rfl]; rfl

theorem isSome_word? (h : Covers s ts i place stop) : (Place.word? place).isSome = at? .word place := by
  rw [h.word?_eq]
  cases at? .word place <;> rfl

theorem isWord (h : Covers s ts i place stop) (w : String) : s.isWord w i = .ok (atWord w place) := by
  refine (h.given_is rfl _).trans ?_
  rw [atWord, h.word?_eq]
  cases at? .word place <;> simp

theorem isOperator (h : Covers s ts i place stop) (op : String) : s.isOperator op i = .ok (atOperator op place) :=
  h.given_is (k := .operator) rfl _

theorem word? (h : Covers s ts i place stop) : s.word? i = .ok (Place.word? place) := by
  rw [Table.word?, h.is .word rfl, h.word?_eq]
  cases place with
  | nil => rfl
  | cons p ps =>
      rw [h.textAt]
      cases at? .word (p :: ps) <;> rfl

end Covers

/-! ### Levels -/

namespace At

theorem is (h : At s ts i place stop) (k : TokenKind) (hk : k.isClose = false) : s.is k i = at? k place := by
  refine h.is_of fun t ht hkind => ?_
  have hclose := h.closes t ht
  rw [hkind, hk] at hclose
  cases hclose

theorem behind (h : At s ts i (p :: ps) stop) : At s ts (i + p.size) ps stop := ⟨h.toCovers.behind, h.closes⟩

theorem token (h : At s ts i (.token t :: ps) stop) : At s ts (i + 1) ps stop := h.behind

theorem group (h : At s ts i (.group o c inner :: ps) stop) : At s ts (i + Piece.sizes inner + 2) ps stop := h.behind

theorem atStop (h : At s ts i place stop) : At s ts stop [] stop :=
  ⟨⟨h.told, rfl, rfl, List.forall_mem_nil _, h.ended⟩, h.closes⟩

theorem of_suffix (h : At s ts i place stop) (hnext : next <:+ place) : ∃ j, i ≤ j ∧ At s ts j next stop := by
  obtain ⟨used, rfl⟩ := hnext
  induction used generalizing i with
  | nil => exact ⟨i, Nat.le_refl i, h⟩
  | cons p used ih =>
      obtain ⟨j, hj, hat⟩ := ih h.behind
      exact ⟨j, by omega, hat⟩

theorem flatten (h : At s ts i (.group o c inner :: ps) stop) : At s ts (i + 1) (inner ++ .token c :: ps) stop := by
  refine ⟨⟨h.told, ?_, ?_, fun p hp => ?_, h.ended⟩, h.closes⟩
  · rw [← List.tail_drop, h.tokens, Piece.allTokens, Piece.tokens, Piece.allTokens_append, Piece.allTokens, Piece.tokens]
    simp
  · have hstop := h.stop_eq
    rw [Piece.sizes, Piece.size] at hstop
    rw [sizes_append, Piece.sizes, Piece.size]
    omega
  · rcases List.mem_append.1 hp with hp | hp
    · exact h.inside.entire p hp
    · rcases List.mem_cons.1 hp with rfl | hp
      · exact (isClose_of_closer h.nested.1).2.1
      · exact h.entire p (List.mem_cons_of_mem _ hp)

theorem skip (h : At s ts i (p :: ps) stop) : s.skip i = .ok (i + p.size) := by
  rw [Table.skip, h.told.isOpen_eq h.head]
  cases p with
  | token t =>
      rw [Piece.head, h.isOpen_token]
      rfl
  | group o c inner =>
      rw [Piece.head, h.isOpen_group]
      exact h.past

theorem exists_token (h : At s ts i place stop) (hk : k.isOpen = false) (hat : at? k place = true) :
    ∃ t ps, place = .token t :: ps ∧ t.kind = k := by
  cases place with
  | nil => cases hat
  | cons p ps =>
      have hkind : p.head.kind = k := by simpa [at?, Place.kind?] using hat
      cases p with
      | token t => exact ⟨t, ps, rfl, hkind⟩
      | group o c inner =>
          have hopen := h.isOpen_group
          rw [show o.kind = k from hkind, hk] at hopen
          cases hopen

theorem exists_group (h : At s ts i place stop) (hk : k.isOpen = true) (hat : at? k place = true) :
    ∃ o c inner ps, place = .group o c inner :: ps ∧ o.kind = k := by
  cases place with
  | nil => cases hat
  | cons p ps =>
      have hkind : p.head.kind = k := by simpa [at?, Place.kind?] using hat
      cases p with
      | token t =>
          have hopen := h.isOpen_token
          rw [show t.kind = k from hkind, hk] at hopen
          cases hopen
      | group o c inner => exact ⟨o, c, inner, ps, rfl, hkind⟩

theorem tail (h : At s ts i place stop) (hk : k.isOpen = false) (hat : at? k place = true) :
    At s ts (i + 1) place.tail stop := by
  obtain ⟨t, ps, rfl, -⟩ := h.exists_token hk hat
  exact h.token

end At

theorem at?_of_atWord {w : String} (h : atWord w place = true) : at? .word place = true := by
  rw [atWord, Place.word?.eq_def] at h
  split at h
  · split at h
    · simp [at?, Place.kind?, Piece.head, *]
    · simp at h
  · simp at h

theorem At.exists_word {w : String} (h : At s ts i place stop) (hword : atWord w place = true) :
    ∃ t ps, place = .token t :: ps ∧ t.kind = .word ∧ t.text = w := by
  obtain ⟨t, ps, rfl, hkind⟩ := h.exists_token (show TokenKind.word.isOpen = false from rfl) (at?_of_atWord hword)
  exact ⟨t, ps, rfl, hkind, by simpa [atWord, Place.word?, hkind] using hword⟩

theorem At.word_and {w : String} (h : At s ts i place stop) (hk : k.isClose = false) :
    (atWord w place && s.is k (i + 1)) = (atWord w place && at? k place.tail) := by
  cases hword : atWord w place with
  | false => rfl
  | true =>
      obtain ⟨t, ps, rfl, -⟩ := h.exists_word hword
      rw [h.token.is k hk, List.tail_cons]

theorem At.word_and_word {w : String} (h : At s ts i place stop) (w' : String) :
    (atWord w place && wordAt ts w' (i + 1)) = (atWord w place && atWord w' place.tail) := by
  cases hword : atWord w place with
  | false => rfl
  | true =>
      obtain ⟨t, ps, rfl, -⟩ := h.exists_word hword
      have hread := h.token.isWord w'
      rw [h.told.isWord_eq] at hread
      rw [Except.ok.inj hread, List.tail_cons]

theorem At.behindWord {w : String} (h : At s ts i place stop) (hword : atWord w place = true) :
    At s ts (i + 1) place.tail stop := h.tail (show TokenKind.word.isOpen = false from rfl) (at?_of_atWord hword)

/-- What stands behind a level: a place of the level around it, or nothing. -/
def Outside (s : Table) (ts : List Token) (stop : Nat) (behind : Place) : Prop :=
  (∃ stop', At s ts (stop + 1) behind stop') ∨ behind = [] ∧ ts.length ≤ stop

/-! ### Stretches of a level -/

/-- A stretch of a level ends at the number `e`, with `after` pieces of the level behind it. -/
def StopsAt (s : Table) (ts : List Token) (place : Place) (stop e after : Nat) : Prop :=
  ∃ tail, At s ts e tail stop ∧ tail.length = after ∧ (tail <:+ place ∨ place <:+ tail)

namespace StopsAt

theorem level (h : At s ts i place stop) : StopsAt s ts place stop stop 0 :=
  ⟨[], h.atStop, rfl, .inl List.nil_suffix⟩

theorem of_suffix (h : StopsAt s ts place stop e after) (hnext : next <:+ place) : StopsAt s ts next stop e after := by
  obtain ⟨tail, hat, hlength, htail⟩ := h
  refine ⟨tail, hat, hlength, ?_⟩
  rcases htail with htail | htail
  · exact List.suffix_or_suffix_of_suffix htail hnext
  · exact .inr (hnext.trans htail)

theorem upTo (h : At s ts j next stop) (hnext : next <:+ place) : StopsAt s ts place stop j next.length :=
  ⟨next, h, rfl, .inl hnext⟩

theorem le (h : StopsAt s ts place stop e after) : e ≤ stop := by
  obtain ⟨tail, hat, -⟩ := h
  exact hat.index_le

/-- How much of the level there is, by numbers as by places. -/
theorem cmp_eq (h : StopsAt s ts place stop e after) (hat : At s ts i place stop) :
    (i < e ↔ after < place.length) ∧ (e = i ↔ place.length = after) := by
  obtain ⟨tail, htail, rfl, htail'⟩ := h
  have hi := hat.stop_eq
  have he := htail.stop_eq
  obtain ⟨used, rfl⟩ | ⟨used, rfl⟩ := htail'
  all_goals
    have hused := length_le_sizes used
    have hnone : used.length = 0 → Piece.sizes used = 0 := fun hnil => by
      rw [List.length_eq_zero_iff.1 hnil, Piece.sizes]
    simp only [sizes_append, List.length_append] at hi he ⊢
    omega

theorem lt_iff (h : StopsAt s ts place stop e after) (hat : At s ts i place stop) : i < e ↔ after < place.length :=
  (h.cmp_eq hat).1

theorem eq_iff (h : StopsAt s ts place stop e after) (hat : At s ts i place stop) : e = i ↔ place.length = after :=
  (h.cmp_eq hat).2

end StopsAt

/-- At a place of the level, or past the end of a stretch of which nothing is left. -/
def Reaches (s : Table) (ts : List Token) (stop e after j : Nat) (next : Place) : Prop :=
  At s ts j next stop ∨ e ≤ j ∧ next.length ≤ after

end Indexed
end StaticGql.Scan
