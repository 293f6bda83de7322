import StaticGql.Json.Printer
import StaticGql.Proofs.Scan.Brackets
import StaticGql.Proofs.Scan.Munch
import StaticGql.Proofs.Scan.Reads

/-!
The tokens that a written text is cut into: words, punctuation, and values of strings, lists and objects as they
are printed.
-/

namespace StaticGql.Scan

variable {c : Char} {cs w xs rest zs : List Char} {k : TokenKind} {r : Bool} {ls ms : List Lexeme}

/-- The kind of a character that is a token by itself. -/
def mark? : Char → Option TokenKind
  | '{' => some .openBrace
  | '}' => some .closeBrace
  | '(' => some .openParen
  | ')' => some .closeParen
  | '[' => some .openBracket
  | ']' => some .closeBracket
  | ';' => some .semicolon
  | ',' => some .comma
  | ':' => some .colon
  | _ => none

theorem isDigit_eq_false (hc : isWordStart c = true) : c.isDigit = false := by
  by_contra hdigit
  have hdigit : (decide (c.val ≥ '0'.val) && decide (c.val ≤ '9'.val)) = true := by
    rwa [Bool.not_eq_false] at hdigit
  have hstart : ((decide (c.val ≥ 'A'.val ∧ c.val ≤ 'Z'.val) || (decide (c.val ≥ 'a'.val) &&
      decide (c.val ≤ 'z'.val))) || decide (c = '_') || decide (c = '$')) = true := hc
  simp only [Bool.or_eq_true, Bool.and_eq_true, decide_eq_true_eq, ge_iff_le, UInt32.le_iff_toNat_le]
    at hdigit hstart
  have hnine : '9'.val.toNat = 57 := rfl
  have hupper : 'A'.val.toNat = 65 := rfl
  have hlower : 'a'.val.toNat = 97 := rfl
  rcases hstart with (hletter | rfl) | rfl
  · omega
  · exact absurd hdigit (by decide)
  · exact absurd hdigit (by decide)

namespace Reads

theorem single (hmunch : ∀ previous, munch previous c (xs ++ zs) = (some k, 0))
    (h : Reads zs (Lexeme.allows ⟨k, String.ofList [c]⟩) xs ls) :
    Reads zs r (c :: xs) (⟨k, String.ofList [c]⟩ :: ls) :=
  @Reads.token zs r c [] xs k ls (fun previous _ => hmunch previous) h

theorem blank (hc : c = ' ' ∨ c = '\n') (h : Reads zs r xs ls) : Reads zs r (c :: xs) ls := by
  refine @Reads.skip zs r c [] xs ls (fun previous _ => ?_) h
  rcases hc with rfl | rfl
  · rfl
  · rfl

theorem word (hc : isWordStart c = true) (hw : ∀ c ∈ w, isWordPart c = true) (hbare : Bare (xs ++ zs))
    (h : Reads zs (Lexeme.allows ⟨.word, String.ofList (c :: w)⟩) xs ls) :
    Reads zs r (c :: (w ++ xs)) (⟨.word, String.ofList (c :: w)⟩ :: ls) := by
  refine .token (fun previous _ => ?_) h
  rw [munch, isBlank_eq_false (isWordPart_of_isWordStart hc), if_neg (by simp), if_pos hc,
    run_eq_length_iff.2 ⟨hw, hbare⟩]

theorem mark (hmark : mark? c = some k) (h : Reads zs (Lexeme.allows ⟨k, String.ofList [c]⟩) xs ls) :
    Reads zs r (c :: xs) (⟨k, String.ofList [c]⟩ :: ls) := by
  refine .single (fun previous => ?_) h
  rw [mark?.eq_def] at hmark
  split at hmark
  all_goals first | (cases hmark; rfl) | cases hmark

theorem dot (hc : isWordStart c = true) (h : Reads zs (Lexeme.allows ⟨.dot, "."⟩) (c :: xs) ls) :
    Reads zs r ('.' :: c :: xs) (⟨.dot, "."⟩ :: ls) := by
  refine .single (fun previous => ?_) h
  have hafter : afterDot (c :: (xs ++ zs)) = (.dot, 0) := by
    refine afterDot_other fun d hd => ?_
    obtain rfl : c = d := Option.some.inj hd
    have hdot : c ≠ '.' := by
      rintro rfl
      cases hc
    simp [joins, hdot, isDigit_eq_false hc]
  show (some (afterDot (c :: (xs ++ zs))).1, (afterDot (c :: (xs ++ zs))).2) = _
  rw [hafter]

theorem assign (h : Reads zs (Lexeme.allows ⟨.assign, "="⟩) (' ' :: xs) ls) :
    Reads zs r ('=' :: ' ' :: xs) (⟨.assign, "="⟩ :: ls) :=
  .single (fun _ => rfl) h

end Reads

/-! ### Strings -/

theorem hexDigit_plain : ∀ n < 16, Json.hexDigit n ≠ '"' ∧ Json.hexDigit n ≠ '\\' ∧ Json.hexDigit n ≠ '\n' := by
  decide

theorem quoted_plain (h : c ≠ '"' ∧ c ≠ '\\' ∧ c ≠ '\n') (cs : List Char) :
    quoted '"' false (c :: cs) = ((quoted '"' false cs).1 + 1, (quoted '"' false cs).2) := by
  rw [quoted_cons h.2.1, if_neg h.1]
  simp [h.2.2]

theorem quoted_escape (c : Char) (cs : List Char) : quoted '"' false (Json.escape c ++ cs) =
    ((quoted '"' false cs).1 + (Json.escape c).length, (quoted '"' false cs).2) := by
  by_cases h : c ∈ ['"', '\\', '\x08', '\t', '\n', '\x0c', '\r']
  · simp only [List.mem_cons, List.not_mem_nil, or_false] at h
    rcases h with rfl | rfl | rfl | rfl | rfl | rfl | rfl <;> rfl
  · simp only [List.mem_cons, List.not_mem_nil, or_false, not_or] at h
    obtain ⟨h₁, h₂, h₃, h₄, h₅, h₆, h₇⟩ := h
    rw [Json.escape, if_neg h₁, if_neg h₂, if_neg h₃, if_neg h₄, if_neg h₅, if_neg h₆, if_neg h₇]
    by_cases hlow : c.toNat < 32
    · rw [if_pos hlow]
      have hzero : '0' ≠ '"' ∧ '0' ≠ '\\' ∧ '0' ≠ '\n' := by decide
      have hunicode : ∀ cs, quoted '"' false ('\\' :: 'u' :: cs) =
          ((quoted '"' false cs).1 + 2, (quoted '"' false cs).2) := fun _ => rfl
      simp only [List.cons_append, List.nil_append, hunicode, quoted_plain hzero,
        quoted_plain (hexDigit_plain (c.toNat / 16) (by omega)),
        quoted_plain (hexDigit_plain (c.toNat % 16) (by omega))]
      rfl
    · rw [if_neg hlow]
      exact quoted_plain ⟨h₁, h₂, h₅⟩ cs

theorem quoted_escape_all (cs rest : List Char) : quoted '"' false (cs.flatMap Json.escape ++ '"' :: rest) =
    ((cs.flatMap Json.escape).length + 1, true) := by
  induction cs with
  | nil => rfl
  | cons c cs ih =>
      rw [List.flatMap_cons, List.append_assoc, quoted_escape, ih, List.length_append]
      congr 1
      omega

namespace Cuts

theorem mark (hmark : mark? c = some k) : Cuts [c] [⟨k, String.ofList [c]⟩] := fun _ _ => .mark hmark (.nil _)

theorem line : Cuts ['\n'] [] := fun _ r => .blank (.inr rfl) (.nil r)

theorem str (s : String) : Cuts (Json.quote s) [⟨.str, String.ofList (Json.quote s)⟩] := by
  intro zs r
  have hquote : Json.quote s = '"' :: (s.toList.flatMap Json.escape ++ ['"'] ++ []) := by
    rw [List.append_nil]
    rfl
  have hmunch : ∀ previous cs, munch previous '"' cs =
      (if (quoted '"' false cs).2 then some .str else none, (quoted '"' false cs).1) := fun _ _ => rfl
  have hread := @Reads.token zs r '"' (s.toList.flatMap Json.escape ++ ['"']) [] .str [] (fun previous _ => by
    rw [hmunch, List.append_assoc, List.nil_append, List.singleton_append, quoted_escape_all s.toList zs]
    simp) (.nil _)
  rwa [← hquote] at hread

end Cuts

/-! ### Texts without strings -/

/-- The tokens of a text of words, marks and blanks that goes on behind the beginning of a word; none for texts that
hold something else, or end within a word. -/
def plain (word : List Char) : List Char → Option (List Lexeme)
  | [] => if word.isEmpty then some [] else none
  | c :: cs =>
    if !word.isEmpty && isWordPart c then plain (word ++ [c]) cs
    else
      let before : List Lexeme := if word.isEmpty then [] else [⟨.word, String.ofList word⟩]
      let behind : Option (List Lexeme) :=
        if isWordStart c then plain [c] cs
        else if c = ' ' ∨ c = '\n' then plain [] cs
        else if c = '.' ∧ cs.head?.any isWordStart then (plain [] cs).map (⟨.dot, "."⟩ :: ·)
        else if c = '=' ∧ cs.head? = some ' ' then (plain [] cs).map (⟨.assign, "="⟩ :: ·)
        else (mark? c).bind fun k => (plain [] cs).map (⟨k, String.ofList [c]⟩ :: ·)
      behind.map (before ++ ·)

/-- One character outside of words, given what the rest is cut into. -/
theorem cuts_plain_step (hrest : ∀ ls, plain [] cs = some ls → Cuts cs ls)
    (hword : ∀ ls, isWordStart c = true → plain [c] cs = some ls → Cuts (c :: cs) ls)
    (h : plain [] (c :: cs) = some ls) : Cuts (c :: cs) ls := by
  rw [plain] at h
  simp only [List.isEmpty_nil, Bool.not_true, Bool.false_and, Bool.false_eq_true, if_false, if_true,
    List.nil_append, Option.map_id'] at h
  split at h
  · exact hword ls ‹_› h
  split at h
  · exact fun zs r => .blank ‹_› (hrest ls h zs r)
  split at h
  · rename_i hdot
    obtain ⟨rfl, hhead⟩ := hdot
    obtain ⟨ls, hls, rfl⟩ := Option.map_eq_some_iff.1 h
    cases cs with
    | nil => cases hhead
    | cons d cs => exact fun zs r => .dot hhead (hrest ls hls zs _)
  split at h
  · rename_i hassign
    obtain ⟨rfl, hhead⟩ := hassign
    obtain ⟨ls, hls, rfl⟩ := Option.map_eq_some_iff.1 h
    cases cs with
    | nil => cases hhead
    | cons d cs =>
        cases hhead
        exact fun zs r => .assign (hrest ls hls zs _)
  · obtain ⟨k, hk, h⟩ := Option.bind_eq_some_iff.1 h
    obtain ⟨ls, hls, rfl⟩ := Option.map_eq_some_iff.1 h
    exact fun zs r => .mark hk (hrest ls hls zs _)

/-- Behind a word that does not go on, a text is cut as it is outside of words. -/
theorem plain_behind {w : List Char} (hc : isWordPart c = false) (h : plain w (c :: cs) = some ls) (hw : w ≠ []) :
    ∃ ms, plain [] (c :: cs) = some ms ∧ ls = ⟨.word, String.ofList w⟩ :: ms := by
  have hw : w.isEmpty = false := by simpa using hw
  rw [plain] at h ⊢
  simp only [hw, hc, Bool.not_false, Bool.and_false, Bool.false_eq_true, if_false, List.singleton_append,
    List.isEmpty_nil, Bool.not_true, Bool.and_self, if_true, List.nil_append, Option.map_id'] at h ⊢
  obtain ⟨ms, hms, rfl⟩ := Option.map_eq_some_iff.1 h
  exact ⟨ms, hms, rfl⟩

/-- Outside of words, and behind the beginning of one. -/
theorem cuts_plain (cs : List Char) : (∀ ls, plain [] cs = some ls → Cuts cs ls) ∧
    ∀ c w ls, isWordStart c = true → (∀ d ∈ w, isWordPart d = true) → plain (c :: w) cs = some ls →
      Cuts (c :: (w ++ cs)) ls := by
  induction cs with
  | nil =>
      refine ⟨fun ls h => ?_, fun c w ls _ _ h => by cases h⟩
      cases h
      exact .nil
  | cons d cs ih =>
      have hfresh : ∀ ls, plain [] (d :: cs) = some ls → Cuts (d :: cs) ls := fun ls =>
        cuts_plain_step ih.1 fun ls hd hls => ih.2 d [] ls hd (by simp) hls
      refine ⟨hfresh, fun c w ls hc hw h => ?_⟩
      by_cases hd : isWordPart d = true
      · rw [plain, hd, if_pos (by simp)] at h
        have hcuts := ih.2 c (w ++ [d]) ls hc (List.forall_mem_append.2 ⟨hw, by simpa using hd⟩) h
        simpa using hcuts
      · obtain ⟨ms, hms, rfl⟩ := plain_behind (by simpa using hd) h (List.cons_ne_nil c w)
        refine fun zs r => .word hc hw (fun e he => ?_) (hfresh ms hms zs _)
        cases he
        simpa using hd

theorem Cuts.plain (h : Scan.plain [] cs = some ls) : Cuts cs ls := (cuts_plain cs).1 ls h

/-! ### Values -/

/-- Made of strings, lists and objects alone. -/
inductive IsTextual : Json → Prop
  | str (s : String) : IsTextual (.str s)
  | arr {items : List Json} (h : ∀ j ∈ items, IsTextual j) : IsTextual (.arr items)
  | obj {fields : List (String × Json)} (h : ∀ f ∈ fields, IsTextual f.2) : IsTextual (.obj fields)

/-- A text without words whose brackets close among themselves. -/
def Prints (cs : List Char) : Prop :=
  ∃ ls, Cuts cs ls ∧ WellNested (ls.map (·.kind)) ∧ ∀ l ∈ ls, l.kind ≠ .word

namespace Prints

variable {ds : List Char}

theorem nil : Prints [] := ⟨[], .nil, .nil, by simp⟩

theorem append (h : Prints cs) (h' : Prints ds) : Prints (cs ++ ds) := by
  obtain ⟨ls, hcuts, hnested, hword⟩ := h
  obtain ⟨ms, hcuts', hnested', hword'⟩ := h'
  refine ⟨ls ++ ms, hcuts.append hcuts', ?_, List.forall_mem_append.2 ⟨hword, hword'⟩⟩
  rw [List.map_append]
  exact hnested.append hnested'

theorem str (s : String) : Prints (Json.quote s) := ⟨_, .str s, .plain rfl rfl, by simp⟩

theorem comma : Prints [','] := ⟨_, .mark rfl, .plain rfl rfl, by simp⟩

theorem colon : Prints [':'] := ⟨_, .mark rfl, .plain rfl rfl, by simp⟩

theorem enclose {o c : Char} {k l : TokenKind} (ho : mark? o = some k) (hc : mark? c = some l)
    (hpair : k.closer? = some l) (h : Prints cs) : Prints (o :: cs ++ [c]) := by
  obtain ⟨ls, hcuts, hnested, hword⟩ := h
  have hbrackets : k ≠ .word ∧ l ≠ .word := by
    cases k <;> simp [TokenKind.closer?] at hpair <;> subst hpair <;> decide
  refine ⟨⟨k, String.ofList [o]⟩ :: ls ++ [⟨l, String.ofList [c]⟩], ((Cuts.mark ho).append hcuts).append (.mark hc), ?_,
    List.forall_mem_append.2 ⟨List.forall_mem_cons.2 ⟨hbrackets.1, hword⟩, List.forall_mem_singleton.2 hbrackets.2⟩⟩
  rw [List.map_append, List.map_cons]
  exact .enclose hpair hnested

theorem items {js : List Json} (h : ∀ j ∈ js, Prints (Json.compactChars j)) :
    Prints (Json.compactItems js) := by
  induction js with
  | nil =>
      rw [Json.compactItems]
      exact .nil
  | cons j rest ih =>
      have hj := h j (by simp)
      have hrest := ih fun j' hj' => h j' (List.mem_cons_of_mem _ hj')
      cases rest with
      | nil => simpa [Json.compactItems] using hj
      | cons j' rest => simpa [Json.compactItems] using hj.append (comma.append hrest)

theorem fields {fs : List (String × Json)} (h : ∀ f ∈ fs, Prints (Json.compactChars f.2)) :
    Prints (Json.compactFields fs) := by
  induction fs with
  | nil =>
      rw [Json.compactFields]
      exact .nil
  | cons f rest ih =>
      have hf := (str f.1).append (colon.append (h f (by simp)))
      have hrest := ih fun f' hf' => h f' (List.mem_cons_of_mem _ hf')
      cases rest with
      | nil => simpa [Json.compactFields] using hf
      | cons f' rest => simpa [Json.compactFields] using hf.append (comma.append hrest)

end Prints

theorem IsTextual.prints {j : Json} (h : IsTextual j) : Prints (Json.compactChars j) := by
  induction h with
  | str s =>
      rw [Json.compactChars]
      exact .str s
  | arr _ ih =>
      rw [Json.compactChars]
      exact .enclose rfl rfl rfl (.items ih)
  | obj _ ih =>
      rw [Json.compactChars]
      exact .enclose rfl rfl rfl (.fields ih)

namespace IsTextual

theorem insertField {name : String} {j : Json} {fields : List (String × Json)} (hj : IsTextual j)
    (h : ∀ f ∈ fields, IsTextual f.2) : ∀ f ∈ Json.insertField name j fields, IsTextual f.2 := by
  fun_induction Json.insertField name j fields with
  | case1 => simpa using hj
  | case2 k v rest _ => exact List.forall_mem_cons.2 ⟨hj, h⟩
  | case3 k v rest _ _ ih =>
      obtain ⟨hv, hrest⟩ := List.forall_mem_cons.1 h
      exact List.forall_mem_cons.2 ⟨hv, ih hrest⟩
  | case4 k v rest _ _ => exact List.forall_mem_cons.2 ⟨hj, (List.forall_mem_cons.1 h).2⟩

theorem sortedItems {items : List Json} (h : ∀ j ∈ items, IsTextual j.sorted) :
    ∀ j ∈ Json.sortedItems items, IsTextual j := by
  induction items with
  | nil => simp [Json.sortedItems]
  | cons j rest ih =>
      rw [Json.sortedItems]
      exact List.forall_mem_cons.2 ⟨h j (by simp), ih fun j' hj' => h j' (List.mem_cons_of_mem _ hj')⟩

theorem sortedFields {fields acc : List (String × Json)} (h : ∀ f ∈ fields, IsTextual f.2.sorted)
    (hacc : ∀ f ∈ acc, IsTextual f.2) : ∀ f ∈ Json.sortedFields fields acc, IsTextual f.2 := by
  induction fields generalizing acc with
  | nil => simpa [Json.sortedFields] using hacc
  | cons f rest ih =>
      rw [Json.sortedFields]
      exact ih (fun f' hf' => h f' (List.mem_cons_of_mem _ hf')) (insertField (h f (by simp)) hacc)

theorem sorted {j : Json} (h : IsTextual j) : IsTextual j.sorted := by
  induction h with
  | str s => exact .str s
  | arr _ ih =>
      rw [Json.sorted]
      exact .arr (sortedItems ih)
  | obj _ ih =>
      rw [Json.sorted]
      exact .obj (sortedFields ih (by simp))

end IsTextual

end StaticGql.Scan
