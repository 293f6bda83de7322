import StaticGql.Proofs.Literal
import StaticGql.Proofs.Scan.Lexing
import StaticGql.Scan.Walk

/-!
Values that are written into a source file as they are printed: the text of a value is cut into tokens that nest to one
piece, and this piece is captured as the value.
-/

namespace StaticGql
namespace Scan

variable {cs ds : List Char} {ls : List Lexeme} {k l : TokenKind} {P Q : List Piece → Prop}
  {ps : List Piece} {t : Token} {j : Json}

/-! ### Nesting one token -/

variable {ts : List Token} {stack : List (Token × List Piece)} {level : List Piece}

theorem nest_plain (hopen : t.kind.isOpen = false) (hclose : t.kind.isClose = false) :
    nest (t :: ts) stack level = nest ts stack (.token t :: level) := by
  rw [nest.eq_def]
  simp [hopen, hclose]

theorem nest_open (h : t.kind.isOpen = true) : nest (t :: ts) stack level = nest ts ((t, level) :: stack) [] := by
  rw [nest.eq_def]
  simp [h]

theorem nest_close {o : Token} (h : o.kind.closer? = some t.kind) :
    nest (t :: ts) ((o, level) :: stack) ps = nest ts stack (.group o t ps.reverse :: level) := by
  have hkind : t.kind.isOpen = false ∧ t.kind.isClose = true := by
    cases hk : o.kind <;> simp [hk, TokenKind.closer?] at h <;> rw [← h] <;> decide
  rw [nest.eq_def]
  simp [hkind, h]

/-! ### Texts that nest to pieces -/

/-- The character is no part of a word, or there is none. -/
def Parts (cs : List Char) : Prop := ∀ zs, Bare zs → Bare (cs ++ zs)

/-- Unless a word goes on behind it, the text is cut into tokens that nest, wherever they stand, to
pieces like these. -/
def Forms (cs : List Char) (P : List Piece → Prop) : Prop :=
  ∃ ls, (∀ zs r, Bare zs → Reads zs r cs ls) ∧ ∀ us : List Token, us.map (·.lexeme) = ls → ∃ ps, P ps ∧
    ∀ ts stack level, nest (us ++ ts) stack level = nest ts stack (ps.reverse ++ level)

namespace Forms

theorem mono (h : Forms cs P) (hPQ : ∀ ps, P ps → Q ps) : Forms cs Q := by
  obtain ⟨ls, hreads, hnest⟩ := h
  refine ⟨ls, hreads, fun us hus => ?_⟩
  obtain ⟨ps, hps, hnest⟩ := hnest us hus
  exact ⟨ps, hPQ ps hps, hnest⟩

theorem nil : Forms [] (· = []) := by
  refine ⟨[], fun _ r _ => .nil r, fun us hus => ⟨[], rfl, fun _ _ _ => ?_⟩⟩
  rw [List.map_eq_nil_iff.1 hus]
  rfl

theorem append (h : Forms cs P) (h' : Forms ds Q) (hds : Parts ds) :
    Forms (cs ++ ds) fun ps => ∃ qs rs, ps = qs ++ rs ∧ P qs ∧ Q rs := by
  obtain ⟨ls, hreads, hnest⟩ := h
  obtain ⟨ms, hreads', hnest'⟩ := h'
  refine ⟨ls ++ ms, fun zs r hzs => (hreads _ r (hds zs hzs)).append (hreads' zs _ hzs), fun us hus => ?_⟩
  obtain ⟨vs, ws, rfl, hvs, hws⟩ := List.map_eq_append_iff.1 hus
  obtain ⟨qs, hqs, hqnest⟩ := hnest vs hvs
  obtain ⟨rs, hrs, hrnest⟩ := hnest' ws hws
  refine ⟨qs ++ rs, ⟨qs, rs, rfl, hqs, hrs⟩, fun ts stack level => ?_⟩
  rw [List.append_assoc, hqnest, hrnest, List.reverse_append, List.append_assoc]

/-- A token in front of pieces. -/
def Behind (l : Lexeme) (Q : List Piece → Prop) (ps : List Piece) : Prop :=
  ∃ t qs, t.lexeme = l ∧ ps = .token t :: qs ∧ Q qs

/-- A token that is no bracket in front of a text. -/
theorem cons {l : Lexeme} (hopen : l.kind.isOpen = false) (hclose : l.kind.isClose = false)
    (hread : ∀ zs ls, Bare zs → (∀ r, Reads zs r ds ls) → ∀ r, Reads zs r cs (l :: ls)) (h : Forms ds Q) :
    Forms cs (Behind l Q) := by
  obtain ⟨ls, hreads, hnest⟩ := h
  refine ⟨l :: ls, fun zs r hzs => hread zs ls hzs (fun r => hreads zs r hzs) r, fun us hus => ?_⟩
  obtain ⟨t, us, rfl, ht, hus⟩ := List.map_eq_cons_iff.1 hus
  obtain ⟨qs, hqs, hqnest⟩ := hnest us hus
  have hkind : t.kind = l.kind := congrArg Lexeme.kind ht
  refine ⟨.token t :: qs, ⟨t, qs, ht, rfl, hqs⟩, fun ts stack level => ?_⟩
  rw [List.cons_append, nest_plain (hkind ▸ hopen) (hkind ▸ hclose), hqnest, List.reverse_cons, List.append_assoc]
  rfl

theorem single {l : Lexeme} (hopen : l.kind.isOpen = false) (hclose : l.kind.isClose = false)
    (hread : ∀ zs r, Bare zs → Reads zs r cs [l]) : Forms cs (Behind l (· = [])) := by
  refine cons hopen hclose (fun zs ls hzs hnil r => ?_) nil
  cases hnil r
  exact hread zs r hzs

theorem mark {c : Char} (hc : mark? c = some k) (hopen : k.isOpen = false) (hclose : k.isClose = false)
    (h : Forms cs Q) : Forms (c :: cs) (Behind ⟨k, String.ofList [c]⟩ Q) :=
  cons hopen hclose (fun _ _ _ hreads _ => .mark hc (hreads _)) h

theorem blank (h : Forms cs Q) : Forms (' ' :: cs) Q := by
  obtain ⟨ls, hreads, hnest⟩ := h
  exact ⟨ls, fun zs r hzs => .blank (.inl rfl) (hreads zs r hzs), hnest⟩

theorem word {c : Char} {w : List Char} (hc : isWordStart c = true) (hw : ∀ c ∈ w, isWordPart c = true)
    (hcs : Parts cs) (h : Forms cs Q) : Forms (c :: (w ++ cs)) (Behind ⟨.word, String.ofList (c :: w)⟩ Q) :=
  cons rfl rfl (fun zs _ hzs hreads _ => .word hc hw (hcs zs hzs) (hreads _)) h

theorem dot {c : Char} (hc : isWordStart c = true) (h : Forms (c :: cs) Q) :
    Forms ('.' :: c :: cs) (Behind ⟨.dot, "."⟩ Q) :=
  cons rfl rfl (fun _ _ _ hreads _ => .dot hc (hreads _)) h

theorem assign (h : Forms (' ' :: cs) Q) : Forms ('=' :: ' ' :: cs) (Behind ⟨.assign, "="⟩ Q) :=
  cons rfl rfl (fun _ _ _ hreads _ => .assign (hreads _)) h

theorem arrow (h : Forms (' ' :: cs) Q) : Forms ('=' :: '>' :: ' ' :: cs) (Behind ⟨.arrow, "=>"⟩ Q) :=
  cons rfl rfl (fun zs ls _ hreads r => @Reads.token zs r '=' ['>'] (' ' :: cs) .arrow ls (fun _ _ => rfl) (hreads _)) h

end Forms

theorem mark_not_part {c : Char} (h : mark? c = some k) : isWordPart c = false := by
  rw [mark?.eq_def] at h
  split at h
  all_goals first | rfl | cases h

theorem parts_of_mark {c : Char} (h : mark? c = some k) (cs : List Char) : Parts (c :: cs) := by
  intro zs _ d hd
  cases hd
  exact mark_not_part h

/-- A pair of brackets around a text makes one group of its pieces. -/
theorem Forms.enclose {o c : Char} (h : Forms cs P) (ho : mark? o = some k) (hc : mark? c = some l)
    (hpair : k.closer? = some l) :
    Forms (o :: cs ++ [c]) fun ps => ∃ t u inner, t.kind = k ∧ P inner ∧ ps = [.group t u inner] := by
  obtain ⟨ls, hreads, hnest⟩ := h
  refine ⟨⟨k, String.ofList [o]⟩ :: (ls ++ [⟨l, String.ofList [c]⟩]), fun zs r hzs => ?_, fun us hus => ?_⟩
  · refine .mark ho (Reads.append (hreads _ _ (parts_of_mark hc [] zs hzs)) ?_)
    exact Cuts.mark hc zs _
  · obtain ⟨t, us, rfl, ht, hus⟩ := List.map_eq_cons_iff.1 hus
    obtain ⟨vs, ws, rfl, hvs, hws⟩ := List.map_eq_append_iff.1 hus
    obtain ⟨u, ws, rfl, hu, hws⟩ := List.map_eq_cons_iff.1 hws
    obtain rfl := List.map_eq_nil_iff.1 hws
    obtain ⟨inner, hinner, hinside⟩ := hnest vs hvs
    have htkind : t.kind = k := congrArg Lexeme.kind ht
    have hukind : u.kind = l := congrArg Lexeme.kind hu
    have hopen : k.isOpen = true := by simp [TokenKind.isOpen, hpair]
    refine ⟨_, ⟨t, u, inner, htkind, hinner, rfl⟩, fun ts stack level => ?_⟩
    rw [List.cons_append, List.append_assoc, nest_open (htkind ▸ hopen), hinside, List.singleton_append,
      nest_close (by rw [htkind, hukind, hpair]), List.append_nil, List.reverse_reverse]
    rfl

/-! ### Captured values -/

/-- Made of strings, truth values, nulls, lists and objects, without numbers. -/
inductive Numberless : Json → Prop
  | null : Numberless .null
  | bool (b : Bool) : Numberless (.bool b)
  | str (s : String) : Numberless (.str s)
  | arr {items : List Json} (h : ∀ j ∈ items, Numberless j) : Numberless (.arr items)
  | obj {fields : List (String × Json)} (h : ∀ f ∈ fields, Numberless f.2) : Numberless (.obj fields)

/-- One piece that is captured as this value. -/
def Gives (j : Json) (ps : List Piece) : Prop :=
  ∃ p, ps = [p] ∧ p.item.isComma = false ∧ Item.value? [p.item] = some j.sorted

/-- The printed value is captured as the value. -/
abbrev Captured (j : Json) : Prop := Forms j.compactChars (Gives j)

theorem isComma_eq_false (h : t.kind ≠ .comma) : (Item.token t).isComma = false := by simpa [Item.isComma] using h

/-- A value that is one token. -/
theorem captured_token {text : String} (hreads : ∀ zs r, Bare zs → Reads zs r j.compactChars [⟨k, text⟩])
    (hk : k = .str ∨ k = .word) (hvalue : ∀ t : Token, t.lexeme = ⟨k, text⟩ → Item.tokenValue? t = some j.sorted) :
    Captured j := by
  have hplain : k.isOpen = false ∧ k.isClose = false ∧ k ≠ .comma := by
    rcases hk with rfl | rfl <;> decide
  refine (Forms.single hplain.1 hplain.2.1 hreads).mono ?_
  rintro _ ⟨t, _, ht, rfl, rfl⟩
  have hkind : t.kind = k := congrArg Lexeme.kind ht
  exact ⟨.token t, rfl, isComma_eq_false (hkind ▸ hplain.2.2), hvalue t ht⟩

theorem captured_str (s : String) : Captured (.str s) := by
  have hcuts := Cuts.str s
  refine captured_token (fun zs r _ => hcuts zs r) (.inl rfl) fun t ht => ?_
  obtain ⟨hkind, htext⟩ : t.kind = .str ∧ t.text = String.ofList (Json.quote s) := by
    simpa [Token.lexeme] using ht
  rw [Item.tokenValue?, hkind, htext, Literal.string?_quote]
  rfl

theorem captured_word {c : Char} {w : List Char} (hchars : j.compactChars = c :: w) (hc : isWordStart c = true)
    (hw : ∀ c ∈ w, isWordPart c = true)
    (hvalue : ∀ t : Token, t.kind = .word → t.text = String.ofList (c :: w) → Item.tokenValue? t = some j.sorted) :
    Captured j := by
  have hreads : ∀ zs r, Bare zs → Reads zs r j.compactChars [⟨.word, String.ofList (c :: w)⟩] := by
    intro zs r hzs
    have hread := @Reads.word c w [] zs r [] hc hw hzs (.nil _)
    rw [List.append_nil] at hread
    rwa [hchars]
  exact captured_token hreads (.inr rfl) fun t ht =>
    hvalue t (congrArg Lexeme.kind ht) (congrArg Lexeme.text ht)

theorem captured_null : Captured .null := by
  refine captured_word (c := 'n') rfl rfl (List.all_eq_true.1 rfl) fun t hkind htext => ?_
  simp [Item.tokenValue?, hkind, htext, Json.sorted]

theorem captured_bool (b : Bool) : Captured (.bool b) := by
  cases b with
  | true =>
      refine captured_word (c := 't') rfl rfl (List.all_eq_true.1 rfl) fun t hkind htext => ?_
      simp [Item.tokenValue?, hkind, htext, Json.sorted]
  | false =>
      refine captured_word (c := 'f') rfl rfl (List.all_eq_true.1 rfl) fun t hkind htext => ?_
      simp [Item.tokenValue?, hkind, htext, Json.sorted]

/-! ### Parts between commas -/

namespace Item

variable {part rest : List Item}

theorem cut_part (h : ∀ i ∈ part, i.isComma = false) (hne : part ≠ []) : cut part = [part] := by
  induction part with
  | nil => exact absurd rfl hne
  | cons i part ih =>
      obtain ⟨hi, hpart⟩ := List.forall_mem_cons.1 h
      rw [cut, hi, if_neg (by simp)]
      cases part with
      | nil => rfl
      | cons i' part => rw [ih hpart (by simp)]

theorem cut_comma {c : Item} (h : ∀ i ∈ part, i.isComma = false) (hc : c.isComma = true) :
    cut (part ++ c :: rest) = part :: cut rest := by
  induction part with
  | nil => rw [List.nil_append, cut, if_pos hc]
  | cons i part ih =>
      obtain ⟨hi, hpart⟩ := List.forall_mem_cons.1 h
      rw [List.cons_append, cut, hi, if_neg (by simp), ih hpart]

end Item

theorem Piece.items_append (ps qs : List Piece) : items (ps ++ qs) = items ps ++ items qs := by
  induction ps with
  | nil => rfl
  | cons p ps ih => rw [List.cons_append, items, items, ih, List.cons_append]

theorem forms_items {items : List Json} (h : ∀ j ∈ items, Captured j) : Forms (Json.compactItems items) fun ps =>
    (Item.cut (Piece.items ps)).mapM Item.value? = some (Json.sortedItems items) := by
  induction items with
  | nil =>
      rw [Json.compactItems]
      refine Forms.nil.mono ?_
      rintro _ rfl
      rfl
  | cons j rest ih =>
      obtain ⟨hj, hrest⟩ := List.forall_mem_cons.1 h
      cases rest with
      | nil =>
          rw [Json.compactItems]
          refine hj.mono ?_
          rintro _ ⟨p, rfl, hcomma, hvalue⟩
          rw [Piece.items, Piece.items, Item.cut_part (by simpa using hcomma) (by simp)]
          simp [hvalue, Json.sortedItems]
      | cons j' rest =>
          rw [Json.compactItems.eq_3 _ _ (by simp)]
          refine (hj.append (.mark (c := ',') rfl rfl rfl (ih hrest)) (parts_of_mark rfl _)).mono ?_
          rintro _ ⟨_, _, rfl, ⟨p, rfl, hcomma, hvalue⟩, t, ps, ht, rfl, hps⟩
          have ht : t.kind = .comma := congrArg Lexeme.kind ht
          have hcut : Item.cut ([p.item] ++ .token t :: Piece.items ps) = [p.item] :: Item.cut (Piece.items ps) :=
            Item.cut_comma (by simpa using hcomma) (by simp [Item.isComma, ht])
          rw [Piece.items_append, Piece.items, Piece.items, Piece.items, Piece.item.eq_1, hcut, List.mapM_cons, hvalue,
            hps]
          rfl

/-- A field with its colon and its value. -/
theorem forms_field {key : String} (h : Captured j) : Forms (Json.quote key ++ ':' :: j.compactChars) fun ps =>
    (∀ i ∈ Piece.items ps, i.isComma = false) ∧ ps ≠ [] ∧ Item.field? (Piece.items ps) = some (key, j.sorted) := by
  have hkey := Forms.single rfl rfl fun zs r _ => Cuts.str key zs r
  refine (hkey.append (.mark (c := ':') rfl rfl rfl h) (parts_of_mark rfl _)).mono ?_
  rintro _ ⟨_, _, rfl, ⟨t, _, ht, rfl, rfl⟩, u, _, hu, rfl, p, rfl, hcomma, hvalue⟩
  have hu : u.kind = .colon := congrArg Lexeme.kind hu
  obtain ⟨hkind, htext⟩ : t.kind = .str ∧ t.text = String.ofList (Json.quote key) := by
    simpa [Token.lexeme] using ht
  have hitems : Piece.items ([.token t] ++ [.token u, p]) = [.token t, .token u, p.item] := rfl
  refine ⟨?_, by simp, ?_⟩
  · rw [hitems]
    have ht : (Item.token t).isComma = false := isComma_eq_false (by simp [hkind])
    have hu : (Item.token u).isComma = false := isComma_eq_false (by simp [hu])
    simp [ht, hu, hcomma]
  · rw [hitems]
    simp [Item.field?, Item.key?, hu, hkind, htext, Literal.string?_quote, hvalue]

theorem forms_fields {fields : List (String × Json)} (h : ∀ f ∈ fields, Captured f.2) :
    Forms (Json.compactFields fields) fun ps =>
      (Item.cut (Piece.items ps)).filterMap Item.field? = fields.map fun f => (f.1, f.2.sorted) := by
  induction fields with
  | nil =>
      rw [Json.compactFields]
      refine Forms.nil.mono ?_
      rintro _ rfl
      rfl
  | cons f rest ih =>
      obtain ⟨hf, hrest⟩ := List.forall_mem_cons.1 h
      cases rest with
      | nil =>
          rw [Json.compactFields]
          refine (forms_field hf).mono ?_
          rintro ps ⟨hcomma, hne, hfield⟩
          have hitems : Piece.items ps ≠ [] := by
            cases ps with
            | nil => exact absurd rfl hne
            | cons p ps => simp [Piece.items]
          simp [Item.cut_part hcomma hitems, hfield]
      | cons f' rest =>
          rw [Json.compactFields.eq_3 _ _ _ (by simp)]
          refine ((forms_field hf).append (.mark (c := ',') rfl rfl rfl (ih hrest)) (parts_of_mark rfl _)).mono ?_
          rintro _ ⟨ps, _, rfl, ⟨hcomma, -, hfield⟩, t, qs, ht, rfl, hqs⟩
          have ht : t.kind = .comma := congrArg Lexeme.kind ht
          have hcut : Item.cut (Piece.items ps ++ .token t :: Piece.items qs) =
              Piece.items ps :: Item.cut (Piece.items qs) :=
            Item.cut_comma hcomma (by simp [Item.isComma, ht])
          rw [Piece.items_append, Piece.items, Piece.item.eq_1, hcut, List.filterMap_cons_some hfield, hqs]
          rfl

/-! ### Whole values -/

theorem sortedFields_eq_foldl (fields acc : List (String × Json)) : Json.sortedFields fields acc =
    (fields.map fun f => (f.1, f.2.sorted)).foldl (fun acc f => Json.insertField f.1 f.2 acc) acc := by
  induction fields generalizing acc with
  | nil => rfl
  | cons f rest ih => rw [Json.sortedFields, ih, List.map_cons, List.foldl_cons]

/-- A printed object is one group in braces, from which its fields are captured. -/
theorem forms_object {fields : List (String × Json)} (h : ∀ f ∈ fields, Captured f.2) :
    Forms (Json.obj fields).compactChars fun ps => ∃ t u inner, t.kind = .openBrace ∧
      Piece.objectFields inner = Json.sortedFields fields [] ∧ ps = [.group t u inner] := by
  rw [Json.compactChars]
  refine ((forms_fields h).enclose (o := '{') (c := '}') rfl rfl rfl).mono ?_
  rintro _ ⟨t, u, inner, ht, hinner, rfl⟩
  refine ⟨t, u, inner, ht, ?_, rfl⟩
  rw [Piece.objectFields, Item.fields, hinner, sortedFields_eq_foldl]

theorem Numberless.captured (h : Numberless j) : Captured j := by
  induction h with
  | null => exact captured_null
  | bool b => exact captured_bool b
  | str s => exact captured_str s
  | @arr items _ ih =>
      have hchars : (Json.arr items).compactChars = '[' :: Json.compactItems items ++ [']'] := by rw [Json.compactChars]
      rw [Captured, hchars]
      refine ((forms_items ih).enclose (o := '[') (c := ']') rfl rfl rfl).mono ?_
      rintro _ ⟨t, u, inner, ht, hinner, rfl⟩
      refine ⟨_, rfl, ?_, ?_⟩
      · simp [Piece.item, ht, Item.isComma]
      · simp [Piece.item, ht, Item.value?, hinner, Json.sorted]
  | obj _ ih =>
      refine (forms_object ih).mono ?_
      rintro _ ⟨t, u, inner, ht, hinner, rfl⟩
      rw [Piece.objectFields] at hinner
      refine ⟨_, rfl, ?_, ?_⟩
      · simp [Piece.item, ht, Item.isComma]
      · simp [Piece.item, ht, Item.value?, hinner, Json.sorted]

/-! ### Tokens one behind the other -/

/-- Each token knows the one before it. -/
def Chained (previous : Option Token) : List Token → Prop
  | [] => True
  | t :: ts => t.previousKind = previous.map (·.kind) ∧ Chained (some t) ts

theorem chained_tokensFrom (start index : Nat) (previous : Option Token) (broken : Bool) (cs : List Char) :
    Chained previous (tokensFrom start index previous broken cs) := by
  fun_induction tokensFrom start index previous broken cs with
  | case1 => trivial
  | case2 _ _ _ _ _ _ _ _ _ _ ih => exact ih
  | case3 _ _ _ _ _ _ _ _ _ _ _ _ ih => exact ⟨rfl, ih⟩

/-- A text of such pieces has them as its forest. -/
theorem Forms.forest {text : String} (h : Forms text.toList P) : ∃ f, P f ∧ forest text = .ok f := by
  obtain ⟨ls, hreads, hnest⟩ := h
  have hread := hreads [] true (by simp [Stops])
  obtain ⟨us, start, index, broken, hus, hfrom⟩ := hread.tokensFrom_eq 0 0 none false rfl
  rw [List.append_nil, tokensFrom, List.append_nil] at hfrom
  obtain ⟨f, hf, hnested⟩ := hnest us hus
  refine ⟨f, hf, ?_⟩
  have hend := hnested [] [] []
  rw [List.append_nil, List.append_nil, nest, List.reverse_reverse] at hend
  rw [Scan.forest, tokens, hfrom, hend]

/-! ### A declaration around the value -/

/-- A source file with one declaration, and an object as the options of its builder. -/
def optionsSource (options : Json) : String :=
  "const x = gql.default(() => fragment.User(" ++ options.compact ++ "));"

/-- A call of the builder with one value, passed as an arrow function. -/
inductive ArrowTo (P : List Piece → Prop) : List Piece → Prop
  | intro {p q a b d e o c : Token} {args : List Piece} (hp : p.kind = .openParen) (ha : a.kind = .arrow)
      (hb : b.lexeme = ⟨.word, "fragment"⟩) (hd : d.kind = .dot) (he : e.lexeme = ⟨.word, "User"⟩)
      (ho : o.kind = .openParen) (h : P args) :
      ArrowTo P [.group p q [], .token a, .token b, .token d, .token e, .group o c args]

theorem forms_arrow (h : Forms cs P) :
    Forms ("() => fragment.User(".toList ++ cs ++ [')']) (ArrowTo P) := by
  have hargs := h.enclose (o := '(') (c := ')') rfl rfl rfl
  have hcall := (hargs.word (c := 'U') (w := ['s', 'e', 'r']) rfl (List.all_eq_true.1 rfl) (parts_of_mark rfl _)).dot rfl
  have hchain := hcall.word (c := 'f') (w := ['r', 'a', 'g', 'm', 'e', 'n', 't']) rfl (List.all_eq_true.1 rfl) fun zs _ d hd => by
    cases hd
    rfl
  have hempty := Forms.nil.enclose (o := '(') (c := ')') rfl rfl rfl
  have hall := hempty.append hchain.blank.arrow.blank fun zs _ d hd => by
    cases hd
    rfl
  refine hall.mono ?_
  rintro _ ⟨_, _, rfl, ⟨p, q, _, hp, rfl, rfl⟩, a, _, ha, rfl, b, _, hb, rfl, d, _, hd, rfl, e, _, he, rfl,
    o, c, args, ho, hargs, rfl⟩
  exact .intro hp (congrArg Lexeme.kind ha) hb (congrArg Lexeme.kind hd) he ho hargs

/-- The declaration of a variable by a call of the marker. -/
inductive Declares (P : List Piece → Prop) : List Piece → Prop
  | intro {t₁ t₂ t₃ t₄ t₅ t₆ o c s : Token} {inner : List Piece} (h₁ : t₁.lexeme = ⟨.word, "const"⟩)
      (h₂ : t₂.lexeme = ⟨.word, "x"⟩) (h₃ : t₃.kind = .assign) (h₄ : t₄.lexeme = ⟨.word, "gql"⟩) (h₅ : t₅.kind = .dot)
      (h₆ : t₆.lexeme = ⟨.word, "default"⟩) (ho : o.kind = .openParen) (h : P inner) (hs : s.kind = .semicolon) :
      Declares P [.token t₁, .token t₂, .token t₃, .token t₄, .token t₅, .token t₆, .group o c inner, .token s]

theorem forms_declaration (h : Forms cs P) :
    Forms ("const x = gql.default(".toList ++ cs ++ [')', ';']) (Declares P) := by
  have hsemicolon : Forms [';'] _ := Forms.nil.mark (c := ';') rfl rfl rfl
  have hcall := (h.enclose (o := '(') (c := ')') rfl rfl rfl).append hsemicolon (parts_of_mark rfl _)
  have hdefault :=
    (hcall.word (c := 'd') (w := ['e', 'f', 'a', 'u', 'l', 't']) rfl (List.all_eq_true.1 rfl) (parts_of_mark rfl _)).dot rfl
  have hbare : ∀ c cs, isWordPart c = false → Parts (c :: cs) := fun c cs hc zs _ d hd => by
    cases hd
    exact hc
  have hvalue := (hdefault.word (c := 'g') (w := ['q', 'l']) rfl (List.all_eq_true.1 rfl) (hbare _ _ rfl)).blank.assign.blank
  have hname := (hvalue.word (c := 'x') (w := []) rfl (by simp) (hbare _ _ rfl)).blank
  have hall := hname.word (c := 'c') (w := ['o', 'n', 's', 't']) rfl (List.all_eq_true.1 rfl) (hbare _ _ rfl)
  have htext : "const x = gql.default(".toList ++ cs ++ [')', ';'] =
      'c' :: (['o', 'n', 's', 't'] ++ ' ' :: 'x' :: ([] ++ ' ' :: '=' :: ' ' :: 'g' :: (['q', 'l'] ++
        '.' :: 'd' :: (['e', 'f', 'a', 'u', 'l', 't'] ++ ('(' :: cs ++ [')'] ++ [';']))))) := by
    simp
  rw [htext]
  refine hall.mono ?_
  rintro _ ⟨t₁, _, h₁, rfl, t₂, _, h₂, rfl, t₃, _, h₃, rfl, t₄, _, h₄, rfl, t₅, _, h₅, rfl, t₆, _, h₆, rfl, hcall⟩
  obtain ⟨_, _, rfl, ⟨o, c, inner, ho, hinner, rfl⟩, s, _, hs, rfl, rfl⟩ := hcall
  exact .intro h₁ h₂ (congrArg Lexeme.kind h₃) h₄ (congrArg Lexeme.kind h₅) h₆ ho hinner (congrArg Lexeme.kind hs)

theorem parts_singleton (p : Piece) (h : p.head.kind ≠ .comma) : (Range.whole [p]).parts = [⟨[p], 0⟩] := by
  simp [Range.whole, Range.parts, Place.cut, h]

theorem options_of_object {t u : Token} {inner : List Piece} (ht : t.kind = .openBrace) :
    Call.options [.group t u inner] = Piece.objectFields inner := by
  rw [Call.options, parts_singleton _ (by simp [Piece.head, ht])]
  simp [Place.group?, ht]

open Place in
theorem ArrowTo.shape_eq {inner : List Piece} (h : ArrowTo P inner) :
    ∃ args, P args ∧ Call.shape inner = .builder (some ["fragment", "User"]) (Call.options args) := by
  cases h with
  | @intro p q a b d e o c args hp ha hb hd he ho h =>
      obtain ⟨hbk, hbt⟩ : b.kind = .word ∧ b.text = "fragment" := by simpa [Token.lexeme] using hb
      obtain ⟨hek, het⟩ : e.kind = .word ∧ e.text = "User" := by simpa [Token.lexeme] using he
      have hparts : (Range.whole [.group p q [], .token a, .token b, .token d, .token e, .group o c args]).parts =
          [⟨[.group p q [], .token a, .token b, .token d, .token e, .group o c args], 0⟩] := by
        simp [Range.whole, Range.parts, cut, Piece.head, hp, ha, hbk, hd, hek, ho]
      have hbody : Call.body? ⟨[.group p q [], .token a, .token b, .token d, .token e, .group o c args], 0⟩ =
          some (.value ⟨[.token b, .token d, .token e, .group o c args], 0⟩) := by
        simp [Call.body?, atWord, word?, at?, kind?, Piece.head, skipTypeArguments, typeArguments?, hp, ha,
          afterArrowParameters, find, Call.arrowBody?, Range.isEmpty, group?]
      refine ⟨args, h, ?_⟩
      rw [Call.shape, hparts]
      simp [hbody, Call.builder, Call.unwrap, group?, hbk, hbt, chain, hd, hek, het, skipTypeArguments, typeArguments?,
        at?, kind?, Piece.head, ho]

open Place in
theorem Declares.statement_eq {f : List Piece} (h : Declares P f) (hchained : Chained none (Piece.allTokens f)) :
    ∃ t place inner c s, P inner ∧ Walk.statement true [] f = ([.inl (.binding "x"), .inl (.enter "x"),
        Walk.expr ⟨.token t :: place, 1⟩, .inl .exit], []) ∧ place ≠ [] ∧ t.kind = .word ∧ t.isMember = false ∧
      ∀ scope : Marker.Scope, scope.isRoot "gql" = true → ∃ names, Call.marker? scope (.token t :: place) =
        some (.call ["gql", "default"] (Call.shape inner) names t.start c, [.token s]) := by
  cases h with
  | @intro t₁ t₂ t₃ t₄ t₅ t₆ o c s inner h₁ h₂ h₃ h₄ h₅ h₆ ho h hs =>
      obtain ⟨hk₁, ht₁⟩ : t₁.kind = .word ∧ t₁.text = "const" := by simpa [Token.lexeme] using h₁
      obtain ⟨hk₂, ht₂⟩ : t₂.kind = .word ∧ t₂.text = "x" := by simpa [Token.lexeme] using h₂
      obtain ⟨hk₄, ht₄⟩ : t₄.kind = .word ∧ t₄.text = "gql" := by simpa [Token.lexeme] using h₄
      obtain ⟨hk₆, ht₆⟩ : t₆.kind = .word ∧ t₆.text = "default" := by simpa [Token.lexeme] using h₆
      have hprevious : t₄.previousKind = some .assign := by
        obtain ⟨-, -, -, h, -⟩ := hchained
        rw [h, Option.map_some, h₃]
      refine ⟨t₄, [.token t₅, .token t₆, .group o c inner, .token s], inner, c.stop, s, h, ?_, by simp, hk₄, ?_, ?_⟩
      · simp [Walk.statement, hk₁, ht₁, Walk.wordStatement, word?, hk₂, ht₂, Walk.variableStatement, Walk.declarators,
          atOperator, at?, kind?, Piece.head, h₃, hk₄, h₅, hk₆, ht₆, ho, hs, statementEnd, find, startsStatement,
          blockWords, Walk.entering, Walk.bindingIf]
      · simp [Token.isMember, hprevious]
      · intro scope hscope
        simp [Call.marker?, Token.follows, hprevious, ht₄, h₅, hk₆, ht₆, chain, skipTypeArguments, typeArguments?, at?,
          kind?, Piece.head, ho, Marker.Scope.matchesCallee, hscope]

theorem Declares.events_eq {f : List Piece} (h : Declares P f) (hchained : Chained none (Piece.allTokens f))
    {scope : Marker.Scope} (hscope : scope.isRoot "gql" = true) : ∃ inner names start stop, P inner ∧
      Walk.events f scope =
        [.binding "x", .enter "x", .call ["gql", "default"] (Call.shape inner) names start stop, .exit] := by
  obtain ⟨t, place, inner, c, s, hinner, hstatement, hne, hkind, hmember, hmarker⟩ := h.statement_eq hchained
  obtain ⟨names, hcall⟩ := hmarker scope hscope
  refine ⟨inner, names, t.start, c, hinner, ?_⟩
  obtain ⟨first, rest, rfl⟩ : ∃ first rest, f = first :: rest := by
    cases h
    exact ⟨_, _, rfl⟩
  have hpositive : 0 < Piece.sizes (first :: rest) := by
    cases h
    rw [Piece.sizes, Piece.size.eq_1]
    omega
  obtain ⟨n, hn⟩ : ∃ n, 2 * Piece.sizes (first :: rest) = n + 2 := ⟨_, (Nat.sub_add_cancel (by omega)).symm⟩
  have hempty : (⟨.token t :: place, 1⟩ : Range).isEmpty = false := by simpa [Range.isEmpty] using hne
  have hexpression : Walk.expressionStep scope ⟨.token t :: place, 1⟩ =
      [.inl (.call ["gql", "default"] (Call.shape inner) names t.start c), Walk.expr ⟨[.token s], 1⟩] := by
    simp only [Walk.expressionStep, hempty, hkind, Walk.wordExpression, hmember, hcall]
    rfl
  have hend : Walk.expressionStep scope ⟨[.token s], 1⟩ = [] := rfl
  have hdone : Walk.statementsStep [] true [] = [] := rfl
  have hfirst : Walk.statementsStep (first :: rest) true [] = [.inl (.binding "x"), .inl (.enter "x"),
      Walk.expr ⟨.token t :: place, 1⟩, .inl .exit, .inr (.statements [] true [])] := by
    simp only [Walk.statementsStep, hstatement, show Piece.sizes [] < Piece.sizes (first :: rest) from hpositive,
      if_true]
    rfl
  simp only [Walk.events, hn, unfold, Walk.step, hfirst, Walk.expr, List.flatMap_cons, List.flatMap_nil,
    hexpression, hend, hdone, List.append_nil, List.singleton_append]

theorem imports_eq_nil {fuel : Nat} {place : Place} (h : ∀ p ∈ place, Place.atWord "import" [p] = false) :
    Clause.imports fuel place = [] := by
  induction fuel generalizing place with
  | zero => rfl
  | succ fuel ih =>
      cases place with
      | nil => rfl
      | cons p rest =>
          obtain ⟨hp, hrest⟩ := List.forall_mem_cons.1 h
          have hword : Place.atWord "import" (p :: rest) = Place.atWord "import" [p] := by cases p <;> rfl
          rw [Clause.imports, Clause.isImport, hword, hp]
          exact ih hrest

theorem Declares.imports_eq {f : List Piece} (h : Declares P f) : Clause.imports (f.length + 1) f = [] := by
  refine imports_eq_nil ?_
  cases h with
  | intro h₁ h₂ h₃ h₄ h₅ h₆ ho h hs =>
      have hother : ∀ {t : Token} {text : String}, t.lexeme = ⟨.word, text⟩ → text ≠ "import" →
          Place.atWord "import" [.token t] = false := by
        intro t text ht hne
        have htext : t.text = text := congrArg Lexeme.text ht
        simp [Place.atWord, Place.word?, htext, hne]
      have hplain : ∀ {t : Token} {k : TokenKind}, t.kind = k → k ≠ .word →
          Place.atWord "import" [.token t] = false := by
        rintro t _ rfl hne
        simp [Place.atWord, Place.word?, hne]
      simp only [List.forall_mem_cons]
      exact ⟨hother h₁ (by decide), hother h₂ (by decide), hplain h₃ (by decide), hother h₄ (by decide),
        hplain h₅ (by decide), hother h₆ (by decide), rfl, hplain hs (by decide), by simp⟩

theorem toList_optionsSource (j : Json) : (optionsSource j).toList = "const x = gql.default(".toList ++
    ("() => fragment.User(".toList ++ j.compactChars ++ [')']) ++ [')', ';'] := by
  have hcompact : j.compact.toList = j.compactChars := String.toList_ofList
  have hwhole : (optionsSource j).toList =
      ("const x = gql.default(" ++ "() => fragment.User(" ++ j.compact).toList ++ ([')'] ++ [')', ';']) :=
    String.toList_append
  rw [hwhole, String.toList_append, String.toList_append, hcompact]
  simp only [List.append_assoc]

end Scan

/-- A call of the marker with a plain builder call becomes a declaration at the name that is entered. -/
theorem Analysis.ofEvents_declaration {marker : Marker} {events : Marker.Scope → List Event} {name : String}
    {callee builder names : List String} {options : List (String × Json)} {start stop : Nat} {shape : Builder.Shape}
    (file text : String) (hevents : events (marker.scope []) =
      [.binding name, .enter name, .call callee (.builder (some builder) options) names start stop, .exit])
    (hclassify : Builder.classify? builder = some shape) (hdeprecated : shape.deprecated = none) :
    ∃ site, (ofEvents marker file text [] events).declarations = [site] ∧
      (ofEvents marker file text [] events).diagnostics = [] ∧ site.structuralPath = name ∧ site.kind = shape.kind ∧
      site.builder.options = options := by
  have hpath : ".".intercalate [name] = name := rfl
  have hseen : (∅ : Dict Nat).get? name = none := rfl
  simp [ofEvents, hevents, Gathered.step, Gathered.call, hclassify, Gathered.declare, hdeprecated, Trail.allocate,
    Trail.base, Trail.enter, Trail.start, hpath, finish, hseen, Trail.numbered]

namespace Scan

/-- The declaration is found at its name, and the options of its builder are the object that was written. -/
theorem analyze_optionsSource (file : String) {fields : List (String × Json)} (h : Numberless (.obj fields)) :
    ∃ a site, analyze Marker.standard file (optionsSource (.obj fields)) = .ok a ∧ a.declarations = [site] ∧
      site.structuralPath = "x" ∧ site.kind = .fragment ∧ Json.obj site.builder.options = (Json.obj fields).sorted ∧
      a.diagnostics = [] := by
  have hfields : ∀ f ∈ fields, Captured f.2 := by
    cases h with
    | obj h => exact fun f hf => (h f hf).captured
  have hforms := forms_declaration (forms_arrow (forms_object hfields))
  rw [← toList_optionsSource] at hforms
  obtain ⟨f, hf, hforest⟩ := hforms.forest
  have hchained : Chained none (Piece.allTokens f) := by
    rw [allTokens_forest hforest]
    exact chained_tokensFrom ..
  have hanalyze : analyze Marker.standard file (optionsSource (.obj fields)) =
      .ok (Analysis.ofEvents Marker.standard file (optionsSource (.obj fields)) [] (Walk.events f)) := by
    rw [analyze, hforest]
    exact congrArg (fun imports => Except.ok (Analysis.ofEvents _ _ _ imports _)) hf.imports_eq
  have hroot : (Marker.standard.scope []).isRoot "gql" = true := rfl
  obtain ⟨inner, names, start, stop, hinner, hevents⟩ := hf.events_eq hchained hroot
  obtain ⟨_, ⟨t, u, args, ht, hargs, rfl⟩, hshape⟩ := hinner.shape_eq
  rw [hshape, options_of_object ht, hargs] at hevents
  have hclassify : Builder.classify? ["fragment", "User"] = some ⟨.fragment, some "User", none, none⟩ := by
    decide +kernel
  obtain ⟨site, hdeclarations, hdiagnostics, hpath, hkind, hoptions⟩ :=
    Analysis.ofEvents_declaration file (optionsSource (.obj fields)) hevents hclassify rfl
  refine ⟨_, site, hanalyze, hdeclarations, hpath, hkind, ?_, hdiagnostics⟩
  rw [hoptions, Json.sorted]

/-- A string full of brackets and quotes among the options. -/
theorem analyze_optionsSource_brackets : ∃ a site,
    analyze Marker.standard "/a.ts"
        (optionsSource (.obj [("b", .str "\x7d)/*`\""), ("a", .arr [.null, .obj []])])) = .ok a ∧
      a.declarations = [site] ∧
        Json.obj site.builder.options = .obj [("a", .arr [.null, .obj []]), ("b", .str "\x7d)/*`\"")] := by
  have hnumberless : Numberless (.obj [("b", .str "\x7d)/*`\""), ("a", .arr [.null, .obj []])]) :=
    .obj (by simp [Numberless.str, Numberless.arr, Numberless.null, Numberless.obj])
  obtain ⟨a, site, hanalyze, hdeclarations, -, -, hoptions, -⟩ := analyze_optionsSource "/a.ts" hnumberless
  refine ⟨a, site, hanalyze, hdeclarations, hoptions.trans ?_⟩
  rfl

end Scan
end StaticGql
