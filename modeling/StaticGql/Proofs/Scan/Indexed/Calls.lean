import StaticGql.Proofs.Scan.Indexed.Literals
import StaticGql.Proofs.Scan.Indexed.Names

/-!
Marker calls by numbers: the function that is passed, what it yields, and the builder call in that.
-/

namespace StaticGql.Scan.Indexed

open Place

variable {s : Table} {ts : List Token} {place rest inner : Place} {o c t : Token} {p : Piece} {r : Range}
  {i j e after stop n m fuel : Nat}

/-- A stretch of a level by its numbers and by its pieces, or nothing by both. -/
inductive SameRange (s : Table) (ts : List Token) (i e : Nat) (r : Range) : Prop
  | stretch {stop : Nat} (first : At s ts i r.place stop) (stops : StopsAt s ts r.place stop e r.after)
  | nothing (ends : e ≤ i) (empty : r.isEmpty = true)

theorem sameRange_behind {k : TokenKind} (h : At s ts j (find after (at? k) place) stop)
    (hstop : StopsAt s ts place stop e after) (hk : k.isOpen = false) :
    SameRange s ts (j + 1) e ⟨(find after (at? k) place).tail, after⟩ := by
  have hsuffix := find_suffix after (at? k) place
  have hlt := (hstop.of_suffix hsuffix).lt_iff h
  by_cases hnone : (find after (at? k) place).length ≤ after
  · have hj := hlt.not.2 (Nat.not_lt.2 hnone)
    refine .nothing (by omega) (decide_eq_true ?_)
    rw [List.length_tail]
    exact (Nat.sub_le ..).trans hnone
  · have hat := h.tail hk (holds_of_find (Nat.not_le.1 hnone))
    exact .stretch hat (hstop.of_suffix ((List.tail_suffix _).trans hsuffix))

namespace Table.Call

/-! ### What a function yields -/

/-- What a function yields by numbers and by pieces. -/
inductive SameBody (s : Table) (ts : List Token) : Body → Scan.Call.Body → Prop
  | block {i stop : Nat} {o c : Token} {inner rest : List Piece} (h : At s ts i (.group o c inner :: rest) stop) :
      SameBody s ts (.block i) (.block inner)
  | value {i e stop : Nat} {r : Range} (first : At s ts i r.place stop)
      (stops : StopsAt s ts r.place stop e r.after) : SameBody s ts (.value i e) (.value r)

theorem arrowBody?_yields (h : SameRange s ts i e r) :
    Yields (Option.Rel (SameBody s ts)) (arrowBody? s i e) (Scan.Call.arrowBody? r) := by
  obtain ⟨place, after⟩ := r
  rw [arrowBody?, Scan.Call.arrowBody?]
  cases h with
  | nothing ends empty =>
      rw [if_pos ends, if_pos empty]
      exact .ok .none
  | @stretch stop first stops =>
      have hempty : e ≤ i ↔ (Range.mk place after).isEmpty = true := by
        rw [Range.isEmpty, decide_eq_true_iff, ← Nat.not_lt, ← Nat.not_lt]
        exact (stops.lt_iff first).not
      refine .ite hempty (fun _ => Yields.ok Option.Rel.none) fun _ => ?_
      have hvalue : Yields (Option.Rel (SameBody s ts)) (.ok (some (Body.value i e)))
          (some (Scan.Call.Body.value ⟨place, after⟩)) := .ok (.some (.value first stops))
      cases hbrace : at? .openBrace place with
      | false =>
          rw [spans_other (by rw [first.is .openBrace rfl, hbrace]), group?_eq_none hbrace]
          exact hvalue
      | true =>
          obtain ⟨o, c, inner, rest, rfl, hkind⟩ := first.exists_group rfl hbrace
          have hiff := (stops.of_suffix (List.suffix_cons ..)).eq_iff first.group
          rw [spans_group first.toCovers, ok_bind, group?, if_pos hkind, decide_eq_true hkind, Bool.true_and]
          simp only [decide_eq_true_iff, apply_ite some]
          exact .ite (by rw [eq_comm, hiff]) (fun _ => .ok (.some (.block first))) fun _ => hvalue

theorem lastBlock?_yields (h : At s ts i place stop) (hstop : StopsAt s ts place stop e after) (hfuel : place.length < fuel) :
    Yields (Option.Rel (SameBody s ts)) (lastBlock? s e fuel i) (Scan.Call.lastBlock? after place) := by
  induction place generalizing i fuel with
  | nil =>
      obtain ⟨fuel, rfl⟩ := Nat.exists_eq_add_one.2 hfuel
      rw [lastBlock?, h.is .openBrace rfl]
      exact .ok .none
  | cons p rest ih =>
      obtain ⟨fuel, rfl⟩ := Nat.exists_eq_add_one.2 (Nat.zero_lt_of_lt hfuel)
      rw [lastBlock?]
      cases p with
      | token t =>
          rw [h.is_opening rfl]
          exact .ok .none
      | group o c inner =>
          have hrest := hstop.of_suffix (List.suffix_cons (.group o c inner) rest)
          have hlt := hrest.lt_iff h.group
          have heq := hrest.eq_iff h.group
          rw [Scan.Call.lastBlock?, h.is .openBrace rfl, at?_group, h.past, ok_bind]
          refine .ite decide_eq_true_iff (fun _ => ?_) fun _ => .ok .none
          by_cases hlast : rest.length = after
          · rw [if_pos hlast, if_neg (by rw [hlt]; omega), if_pos (heq.2 hlast).symm]
            exact .ok (.some (.block h))
          · rw [if_neg hlast]
            refine .ite hlt (fun _ => ih h.group hrest (by simpa using hfuel)) fun _ => ?_
            rw [if_neg fun h => hlast (heq.1 h.symm)]
            exact .ok .none

theorem functionBody?_yields (h : At s ts i place stop) (hstop : StopsAt s ts place stop e after) :
    Yields (Option.Rel (SameBody s ts)) (functionBody? s e i) (Scan.Call.functionBody? after place) := by
  have hsuffix := (skipTypeArguments_suffix _).trans
    ((Scan.Names.skipWord_suffix _).trans (Scan.Names.skipStar_suffix place))
  refine (Names.skipStar_yields h).bind fun j hj => (skipTypeArguments_yields (Names.at_skipWord hj)).bind fun j hj => ?_
  rw [Scan.Call.functionBody?]
  generalize Place.skipTypeArguments (Scan.Names.skipWord (Scan.Names.skipStar place)) = next at hj hsuffix ⊢
  rw [hj.is .openParen rfl]
  cases hparen : at? .openParen next with
  | false =>
      rw [group?_eq_none hparen]
      exact .ok .none
  | true =>
      obtain ⟨o, c, parameters, rest, rfl, hkind⟩ := hj.exists_group rfl hparen
      have hrest := hstop.of_suffix ((List.suffix_cons _ rest).trans hsuffix)
      rw [group?, if_pos hkind]
      refine .bind_ok hj.past ((findOne_yields hj.group hrest rfl).bind fun body hbody => ?_)
      exact lastBlock?_yields hbody (hrest.of_suffix (find_suffix ..)) hbody.length_lt_fuel

theorem overAsync (h : At s ts i place stop) (hstop : StopsAt s ts place stop e after) :
    At s ts (if atWord "async" place && !s.is .arrow (i + 1) && decide (i + 1 < e) then i + 1 else i)
      (if atWord "async" place && !at? .arrow place.tail && decide (after + 1 < place.length) then place.tail else place)
      stop := by
  cases hword : atWord "async" place with
  | false => exact h
  | true =>
      obtain ⟨t, rest, rfl, -⟩ := h.exists_word hword
      have hlt : i + 1 < e ↔ after + 1 < (Piece.token t :: rest).length := by
        rw [(hstop.of_suffix (List.suffix_cons ..)).lt_iff h.token, List.length_cons]
        omega
      rw [h.token.is .arrow rfl, List.tail_cons, decide_eq_decide.2 hlt, Bool.true_and]
      exact h.over fun _ => h.token

theorem body?_yields (h : At s ts i r.place stop) (hstop : StopsAt s ts r.place stop e r.after) :
    Yields (Option.Rel (SameBody s ts)) (body? s i e) (Scan.Call.body? r) := by
  obtain ⟨place, after⟩ := r
  have hfirst := overAsync h hstop
  have hsuffix := tail_or_self_suffix
    ((atWord "async" place && !at? .arrow place.tail && decide (after + 1 < place.length)) = true) place
  have hasync : s.isWord "async" i = .ok (atWord "async" place) := h.isWord _
  refine .bind_ok hasync ?_
  rw [Scan.Call.body?]
  dsimp only
  generalize (if atWord "async" place && !s.is .arrow (i + 1) && decide (i + 1 < e) then i + 1 else i) = j at hfirst ⊢
  generalize (if atWord "async" place && !at? .arrow place.tail && decide (after + 1 < place.length) then
    place.tail else place) = next at hfirst hsuffix ⊢
  refine .bind_ok (hfirst.isWord _) (.ite Iff.rfl (fun hword => ?function) fun _ => ?arrow)
  case function =>
    exact functionBody?_yields (hfirst.behindWord hword) (hstop.of_suffix ((List.tail_suffix next).trans hsuffix))
  case arrow =>
    refine (skipTypeArguments_yields hfirst).bind fun j hj => ?_
    have hrest := hstop.of_suffix ((skipTypeArguments_suffix next).trans hsuffix)
    generalize Place.skipTypeArguments next = place at hj hrest ⊢
    rw [hj.is .word rfl, hj.is .openParen rfl]
    cases place with
    | nil => exact .ok .none
    | cons p rest =>
        have hbehind := hrest.of_suffix (List.suffix_cons p rest)
        cases p with
        | token t =>
            have hopen := hj.is_opening (k := .openParen) rfl
            rw [h.told.is_eq hj.head] at hopen
            rw [at?_token, at?_token, hj.token.is .arrow rfl, show decide (t.kind = .openParen) = false from hopen]
            refine .ite (by simp) (fun harrow => ?_) fun _ => .ok .none
            exact arrowBody?_yields (.stretch (hj.token.tail (k := .arrow) rfl harrow.2)
              (hbehind.of_suffix (List.tail_suffix rest)))
        | group o c inner =>
            have hparameters : given (at? .openParen (.group o c inner :: rest))
                (do s.closesArrowParameters (← s.partner j)) false =
                .ok (decide (o.kind = .openParen) && afterArrowParameters rest) := by
              rw [at?_group, hj.partner, ok_bind, closesArrowParameters_eq hj.group, given_ok _ fun _ => rfl]
              cases decide (o.kind = .openParen) <;> rfl
            rw [hj.at?_group (k := .word) rfl, Bool.false_and, if_neg Bool.false_ne_true, hparameters]
            refine .bind_ok rfl (.ite (by simp) (fun _ => .bind_ok hj.past ?_) fun _ => .ok .none)
            refine (findOne_yields hj.group hbehind rfl).bind fun a ha => ?_
            exact arrowBody?_yields (sameRange_behind ha hbehind rfl)

/-! ### What a block returns -/

/-- A stretch of a level and its numbers. -/
def IsStretch (s : Table) (ts : List Token) (part : Nat × Nat) (r : Range) : Prop :=
  ∃ stop, At s ts part.1 r.place stop ∧ StopsAt s ts r.place stop part.2 r.after

theorem firstReturnFrom_yields (h : At s ts i inner stop) (hfuel : inner.length < fuel) :
    Yields (Option.Rel (IsStretch s ts)) (firstReturnFrom s stop fuel i) (Scan.Call.firstReturn? inner) := by
  induction inner generalizing i fuel with
  | nil =>
      obtain ⟨fuel, rfl⟩ := Nat.exists_eq_add_one.2 hfuel
      rw [firstReturnFrom, if_neg (by rw [h.eq_stop]; omega)]
      exact .ok .none
  | cons p rest ih =>
      obtain ⟨fuel, rfl⟩ := Nat.exists_eq_add_one.2 (Nat.zero_lt_of_lt hfuel)
      have hnext := @ih _ fuel h.behind (by simpa using hfuel)
      rw [firstReturnFrom, if_pos (h.toCovers.lt_iff.2 (Nat.zero_lt_succ _)), h.told.isMember_eq h.head, h.skip]
      refine .bind_ok (h.isWord _) ?_
      cases p with
      | group o c inner' => exact hnext
      | token t =>
          rw [Scan.Call.firstReturn?]
          refine .ite ?_ (fun _ => ?_) fun _ => hnext
          · simp [atWord, Place.word?, Piece.head, and_assoc]
          · refine (statementEnd_level false h.token).bind fun j hj => ?_
            exact .ok (.some ⟨stop, h.token, .upTo hj (statementEnd_suffix ..)⟩)

theorem firstReturn?_yields (h : At s ts i (.group o c inner :: rest) stop) :
    Yields (Option.Rel (IsStretch s ts)) (firstReturn? s i) (Scan.Call.firstReturn? inner) :=
  .bind_ok h.partner (firstReturnFrom_yields h.inside h.inside.length_lt_fuel)

/-! ### Builder calls -/

theorem unwrap_yields (h : At s ts i r.place stop) (hstop : StopsAt s ts r.place stop e r.after)
    (hn : Piece.sizes r.place < n) (hm : Piece.sizes r.place < m) :
    Yields (IsStretch s ts) (unwrap s m i e) (Scan.Call.unwrap n r) := by
  induction n generalizing i e r stop m with
  | zero => omega
  | succ n ih =>
      obtain ⟨m, rfl⟩ := Nat.exists_eq_add_one.2 (Nat.zero_lt_of_lt hm)
      have hself : Yields (IsStretch s ts) (.ok (i, e)) r := .ok ⟨stop, h, hstop⟩
      rw [unwrap, Scan.Call.unwrap]
      cases hparen : at? .openParen r.place with
      | false =>
          rw [spans_other (by rw [h.is .openParen rfl, hparen]), given_ok _ fun _ => rfl, group?_eq_none hparen, ite_self]
          exact hself
      | true =>
          obtain ⟨o, c, inner, rest, hplace, hkind⟩ := h.exists_group rfl hparen
          rw [hplace] at h hstop hn hm
          simp only [Piece.sizes, Piece.size] at hn hm
          have hlast := (hstop.of_suffix (List.suffix_cons ..)).eq_iff h.group
          rw [spans_group h.toCovers, decide_eq_true hkind, Bool.true_and, hplace, group?, if_pos hkind]
          simp only
          by_cases hwhole : rest.length = r.after
          · have he := hlast.2 hwhole
            rw [if_pos hwhole, decide_eq_true (show i < e by omega), decide_eq_true he.symm]
            refine .bind_ok rfl ?_
            rw [if_pos rfl, show e - 1 = i + Piece.sizes inner + 1 by omega]
            exact ih (r := .whole inner) h.inside (.level h.inside)
              (show Piece.sizes inner < n by omega) (show Piece.sizes inner < m by omega)
          · have hne : i + Piece.sizes inner + 2 ≠ e := fun he => hwhole (hlast.1 he.symm)
            rw [if_neg hwhole, decide_eq_false hne, given_ok _ fun _ => rfl, ite_self]
            exact hself

theorem options_eq (h : At s ts i (.group o c inner :: rest) stop) :
    options s i = .ok (Scan.Call.options inner) := by
  obtain ⟨parts, hparts, hsame⟩ := split_yields h.inside
  rw [options, h.partner, ok_bind, hparts, ok_bind, Scan.Call.options]
  generalize (Range.whole inner).parts = rs at hsame
  cases hsame with
  | nil => rfl
  | @cons part r parts rs hpart _ =>
      have hfirst := hpart.first
      cases hbrace : at? .openBrace r.place with
      | false =>
          simp only [spans_other (show s.is .openBrace part.1 = false by rw [hfirst.is .openBrace rfl, hbrace]),
            group?_eq_none hbrace]
          rfl
      | true =>
          obtain ⟨o, c, inner, rest, hplace, hkind⟩ := hfirst.exists_group rfl hbrace
          have hstop := hpart.stops
          rw [hplace] at hfirst hstop
          have hlast := (hstop.of_suffix (List.suffix_cons ..)).eq_iff hfirst.group
          simp only [spans_group hfirst.toCovers, hplace, group?, hkind, if_true, decide_true, Bool.true_and, ok_bind,
            objectFields_eq hfirst.toCovers, decide_eq_true_iff]
          by_cases hwhole : rest.length = r.after
          · rw [if_pos hwhole, if_pos (hlast.2 hwhole).symm]
          · rw [if_neg hwhole, if_neg fun he => hwhole (hlast.1 he.symm)]
            rfl

theorem builder_token (h : At s ts i (.token t :: rest) stop) (hstop : StopsAt s ts (.token t :: rest) stop e after) :
    Yields Eq (do
      let (chain, i) ← s.chain i
      let i ← s.skipTypeArguments i
      if ← s.spans .openParen i e then return .builder (some chain) (← options s i) else return Call.noChain)
      (match group? .openParen (Place.skipTypeArguments (Place.chain rest).2) with
        | some (arguments, next) =>
          if next.length = after then .builder (some (t.text :: (Place.chain rest).1)) (Scan.Call.options arguments)
          else Call.noChain
        | none => Call.noChain) := by
  refine (chain_yields h).bind fun a ha => ?_
  obtain ⟨names, j⟩ := a
  obtain ⟨rfl, hj⟩ : names = _ ∧ _ := ha
  refine (skipTypeArguments_yields hj).bind fun j hj => ?_
  have hsuffix := (skipTypeArguments_suffix _).trans ((chain_suffix rest).trans (List.suffix_cons (.token t) rest))
  generalize Place.skipTypeArguments (Place.chain rest).2 = next at hj hsuffix ⊢
  cases hparen : at? .openParen next with
  | false =>
      rw [spans_other (by rw [hj.is .openParen rfl, hparen]), group?_eq_none hparen]
      exact .ok rfl
  | true =>
      obtain ⟨o, c, arguments, next, rfl, hkind⟩ := hj.exists_group rfl hparen
      have hlast := (hstop.of_suffix ((List.suffix_cons _ next).trans hsuffix)).eq_iff hj.group
      rw [spans_group hj.toCovers, decide_eq_true hkind, Bool.true_and, group?, if_pos hkind]
      refine .bind_ok rfl (.ite (by rw [decide_eq_true_iff, eq_comm, hlast]) (fun _ => ?_) fun _ => .ok rfl)
      exact .bind_ok (options_eq hj) (.ok rfl)

theorem builder_eq (h : IsStretch s ts (i, e) r) : builder s i e = .ok (Scan.Call.builder r) := by
  obtain ⟨stop, hfirst, hstop⟩ := h
  refine Yields.eq ((unwrap_yields hfirst hstop (Nat.lt_succ_self _) (Nat.lt_succ_of_le hfirst.sizes_le)).bind
    fun part hpart => ?_)
  rw [Scan.Call.builder]
  generalize Scan.Call.unwrap (Piece.sizes r.place + 1) r = r at hpart ⊢
  obtain ⟨i, e⟩ := part
  obtain ⟨stop, h, hstop⟩ := hpart
  obtain ⟨place, after⟩ := r
  simp only at h hstop ⊢
  rw [h.is .word rfl]
  cases place with
  | nil => exact .ok rfl
  | cons p rest =>
      cases p with
      | group o c inner =>
          rw [h.at?_group (k := .word) rfl]
          exact .ok rfl
      | token t =>
          rw [at?_token, h.textAt, ok_bind, Piece.head]
          by_cases hkind : t.kind = .word
          · by_cases hname : t.text ∈ ["this", "super", "new"]
            · rw [if_pos (decide_eq_true hkind), if_pos hname]
              simp only
              rw [if_neg fun hcallee => by simp [hcallee] at hname]
              exact .ok rfl
            · rw [if_pos (decide_eq_true hkind), if_neg hname]
              simp only
              rw [if_pos (by simpa [hkind] using hname)]
              exact builder_token h hstop
          · rw [if_neg (by simpa using hkind)]
            simp only
            rw [if_neg fun hword => hkind hword.1]
            exact .ok rfl

theorem shape_eq (h : At s ts (i + 1) inner e) : shape s i e = .ok (Scan.Call.shape inner) := by
  refine Yields.eq ((split_yields h).bind fun parts hparts => ?_)
  rw [Scan.Call.shape]
  generalize (Range.whole inner).parts = rs at hparts ⊢
  cases hparts with
  | nil => exact .ok rfl
  | @cons part r parts rs hpart hmore =>
      cases hmore with
      | cons _ _ => exact .ok rfl
      | nil =>
          refine (body?_yields hpart.first hpart.stops).bind fun body hbody => ?_
          simp only
          generalize Scan.Call.body? r = body' at hbody ⊢
          cases hbody with
          | none => exact .ok rfl
          | some hbody =>
              cases hbody with
              | value first stops => exact ⟨_, builder_eq ⟨_, first, stops⟩, rfl⟩
              | @block i stop o c inner rest hblock =>
                  refine (firstReturn?_yields hblock).bind fun a ha => ?_
                  simp only
                  generalize Scan.Call.firstReturn? inner = returned at ha ⊢
                  cases ha with
                  | none => exact .ok rfl
                  | some ha => exact ⟨_, builder_eq ha, rfl⟩

/-! ### Calls of the marker -/

theorem closing (h : At s ts i (.group o c inner :: rest) stop) : ts[i + Piece.sizes inner + 1]? = some c := by
  obtain ⟨j, -, hj⟩ := h.flatten.of_suffix (List.suffix_append inner (.token c :: rest))
  have hstop := h.stop_eq
  have hstop' := hj.stop_eq
  simp only [Piece.sizes, Piece.size] at hstop hstop'
  rw [show i + Piece.sizes inner + 1 = j by omega]
  exact hj.head

theorem marker?_yields (scope : Marker.Scope) (h : At s ts i (.token t :: rest) stop) :
    Yields (Option.Rel fun a b => a.1 = b.1 ∧ At s ts a.2 b.2 stop ∧ b.2 <:+ rest) (marker? s scope i)
      (Scan.Call.marker? scope (.token t :: rest)) := by
  have hnew : s.follows "new" i = .ok (t.follows "new") := h.told.follows_eq _ h.head
  have hfunction : s.follows "function" i = .ok (t.follows "function") := h.told.follows_eq _ h.head
  rw [marker?, Scan.Call.marker?]
  refine .bind_ok h.textAt ?_
  by_cases hword : t.text ∈ ["this", "super", "new", "function"]
  · rw [if_pos (show (Piece.token t).head.text ∈ _ from hword), if_pos (.inl hword)]
    exact .ok .none
  rw [if_neg (show (Piece.token t).head.text ∉ _ from hword)]
  refine .bind_ok hnew (.bind_ok hfunction (.ite (by simp [hword]) (fun _ => .ok .none) fun _ => ?_))
  refine (chain_yields h).bind fun a ha => ?_
  obtain ⟨names, j⟩ := a
  obtain ⟨rfl, hj⟩ : names = _ ∧ At s ts j (Place.chain rest).2 stop := ha
  have hsuffix := (skipTypeArguments_suffix _).trans (chain_suffix rest)
  refine (skipTypeArguments_yields hj).bind fun j hj => ?_
  simp only
  generalize Place.skipTypeArguments (Place.chain rest).2 = callee at hj hsuffix
  rw [hj.is .openParen rfl]
  cases callee with
  | nil => exact .ok .none
  | cons p next =>
      cases p with
      | token u =>
          rw [← hj.is .openParen rfl, hj.is_opening rfl]
          exact .ok .none
      | group o c inner =>
          have hnext := (List.suffix_cons _ next).trans hsuffix
          have hclose := h.told.mark_eq (closing hj)
          rw [at?_group]
          dsimp only
          by_cases hparen : o.kind = .openParen
          · rw [if_pos (decide_eq_true hparen), if_neg (not_not.2 hparen)]
            refine .bind_ok hj.partner (.bind_ok (h.told.mark_eq h.head) (.bind_ok hclose ?_))
            generalize (Place.chain rest).1 = names
            cases names with
            | nil =>
                rw [if_pos (show ([] : List String).isEmpty = true from rfl)]
                refine .ok ?_
                by_cases hroot : scope.isRoot t.text = true
                · rw [if_pos hroot, if_pos hroot]
                  exact .some ⟨rfl, hj.group, hnext⟩
                · rw [if_neg hroot, if_neg hroot]
                  exact .none
            | cons name names =>
                rw [if_neg (show ¬(name :: names).isEmpty = true from Bool.false_ne_true)]
                refine .ite Iff.rfl (fun _ => ?_) fun _ => .ok .none
                have hcall : StopsAt s ts (.token t :: rest) stop (j + Piece.sizes inner + 1 + 1) next.length :=
                  .upTo hj.group (hnext.trans (List.suffix_cons ..))
                have hnames := @Names.between_eq _ _ ⟨.token t :: rest, next.length⟩ _ _ _ h hcall
                exact .bind_ok (shape_eq hj.inside) (.bind_ok hnames (.ok (.some ⟨rfl, hj.group, hnext⟩)))
          · rw [if_neg (by simpa using hparen), if_pos hparen]
            exact .ok .none

end Table.Call
end StaticGql.Scan.Indexed
