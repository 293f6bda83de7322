import StaticGql.Proofs.Scan.Brackets

/-!
Texts in front of others: what a piece of a text is cut into, given what may stand before it and what stands behind it.
-/

namespace StaticGql.Scan

/-- What a token is, wherever it stands. -/
structure Lexeme where
  kind : TokenKind
  text : String
  deriving DecidableEq, Repr

def Token.lexeme (t : Token) : Lexeme := ⟨t.kind, t.text⟩

variable {c : Char} {w xs ys zs : List Char} {k : TokenKind} {r : Bool} {ls ms : List Lexeme}
  {previous : Option TokenKind}

/-! ### Words that are no names of properties -/

/-- Behind the token before, a word is the name of a property. -/
def isDotted (previous : Option TokenKind) : Bool := previous = some .dot || previous = some .optionalDot

/-- A token as it is read: what it is, and whether it is the name of a property. -/
def Token.reading (t : Token) : Lexeme × Bool := (t.lexeme, t.isMember)

/-- Tokens behind each other as they are read. -/
def readings (previous : Option TokenKind) : List Lexeme → List (Lexeme × Bool)
  | [] => []
  | l :: ls => (l, isDotted previous) :: readings (some l.kind) ls

theorem readings_append (previous : Option TokenKind) (ls ms : List Lexeme) : readings previous (ls ++ ms) =
    readings previous ls ++ readings ((ls.getLast?.map (·.kind)).or previous) ms := by
  induction ls generalizing previous with
  | nil => rfl
  | cons l ls ih =>
      rw [List.cons_append, readings, readings, ih, List.cons_append]
      cases ls <;> simp [List.getLast?_cons]

theorem readings_congr {previous' : Option TokenKind} (h : isDotted previous = isDotted previous')
    (ls : List Lexeme) : readings previous ls = readings previous' ls := by
  cases ls with
  | nil => rfl
  | cons l ls => rw [readings, readings, h]

theorem reading_tokensFrom (start index : Nat) (before : Option Token) (broken : Bool) (cs : List Char) :
    (tokensFrom start index before broken cs).map (·.reading) =
      readings (before.map (·.kind)) ((tokensFrom start index before broken cs).map (·.lexeme)) := by
  fun_induction tokensFrom start index before broken cs with
  | case1 => rfl
  | case2 start index before broken c cs n text stop hmunch ih => exact ih
  | case3 start index before broken c cs n text stop kind token hmunch ih =>
      rw [List.map_cons, List.map_cons, readings, ih]
      rfl

theorem reading_tokens (text : String) :
    (tokens text).map (·.reading) = readings none ((tokens text).map (·.lexeme)) :=
  reading_tokensFrom 0 0 none false text.toList

def freeWord? (reading : Lexeme × Bool) : Option String :=
  if reading.1.kind = .word && !reading.2 then some reading.1.text else none

/-- The words that are no names of properties. -/
def freeWords (previous : Option TokenKind) (ls : List Lexeme) : List String :=
  (readings previous ls).filterMap freeWord?

theorem freeWords_nil (previous : Option TokenKind) : freeWords previous [] = [] := rfl

theorem freeWords_cons (previous : Option TokenKind) (l : Lexeme) (ls : List Lexeme) :
    freeWords previous (l :: ls) = (freeWord? (l, isDotted previous)).toList ++ freeWords (some l.kind) ls := by
  rw [freeWords, readings, List.filterMap_cons, freeWords]
  cases freeWord? (l, isDotted previous) <;> rfl

theorem freeWords_append (previous : Option TokenKind) (ls ms : List Lexeme) : freeWords previous (ls ++ ms) =
    freeWords previous ls ++ freeWords ((ls.getLast?.map (·.kind)).or previous) ms := by
  rw [freeWords, readings_append, List.filterMap_append]
  rfl

/-- The most words are free behind nothing. -/
theorem freeWords_subset (previous : Option TokenKind) : freeWords previous ls ⊆ freeWords none ls := by
  cases ls with
  | nil => exact List.Subset.refl _
  | cons l ls =>
      rw [freeWords_cons, freeWords_cons]
      refine List.append_subset.2 ⟨?_, List.subset_append_right _ _⟩
      cases hdotted : isDotted previous with
      | true => simp [freeWord?]
      | false => exact List.subset_append_left _ _

theorem freeWords_eq_nil (h : ∀ l ∈ ls, l.kind ≠ .word) : freeWords previous ls = [] := by
  induction ls generalizing previous with
  | nil => rfl
  | cons l ls ih =>
      obtain ⟨hl, hls⟩ := List.forall_mem_cons.1 h
      rw [freeWords_cons, ih hls]
      simp [freeWord?, hl]

/-! ### Cutting off one token -/

/-- The token that is cut off at a place. -/
def cutOff (start index : Nat) (previous : Option Token) (broken : Bool) (k : TokenKind) (text : List Char) : Token where
  kind := k
  text := String.ofList text
  start := start
  stop := start + Text.byteSize text
  index := index
  startsLine := previous.isNone || broken
  previousKind := previous.map (·.kind)
  previousText := (previous.map (·.text)).getD ""

variable {start index : Nat} {before : Option Token} {broken : Bool}

theorem tokensFrom_skip (hmunch : munch before c (w ++ xs) = (none, w.length)) :
    tokensFrom start index before broken (c :: (w ++ xs)) = tokensFrom (start + Text.byteSize (c :: w)) index before
      (broken || (c :: w).any (· = '\n')) xs := by
  rw [tokensFrom]
  simp only [hmunch, List.drop_left, List.take_left]

theorem tokensFrom_token (hmunch : munch before c (w ++ xs) = (some k, w.length)) :
    tokensFrom start index before broken (c :: (w ++ xs)) = cutOff start index before broken k (c :: w) ::
      tokensFrom (start + Text.byteSize (c :: w)) (index + 1) (some (cutOff start index before broken k (c :: w)))
        false xs := by
  rw [tokensFrom]
  simp only [hmunch, List.drop_left, List.take_left]
  rfl

/-! ### Pieces of a text -/

/-- Whether a slash behind this token opens a regular expression. -/
def Lexeme.allows (l : Lexeme) : Bool := regexAllowed (some ⟨l.kind, l.text, 0, 0, 0, false, none, ""⟩)

theorem regexAllowed_some (t : Token) : regexAllowed (some t) = t.lexeme.allows := rfl

/-- In front of `zs` a piece of a text is cut into these tokens; `r` tells whether a slash with which it begins may
open a regular expression. -/
inductive Reads (zs : List Char) : Bool → List Char → List Lexeme → Prop
  | nil (r : Bool) : Reads zs r [] []
  | skip {r : Bool} {c : Char} {w xs : List Char} {ls : List Lexeme}
      (hmunch : ∀ previous, regexAllowed previous = r → munch previous c (w ++ (xs ++ zs)) = (none, w.length))
      (h : Reads zs r xs ls) : Reads zs r (c :: (w ++ xs)) ls
  | token {r : Bool} {c : Char} {w xs : List Char} {k : TokenKind} {ls : List Lexeme}
      (hmunch : ∀ previous, regexAllowed previous = r → munch previous c (w ++ (xs ++ zs)) = (some k, w.length))
      (h : Reads zs (Lexeme.allows ⟨k, String.ofList (c :: w)⟩) xs ls) :
      Reads zs r (c :: (w ++ xs)) (⟨k, String.ofList (c :: w)⟩ :: ls)

/-- Whether a slash may open a regular expression behind some tokens. -/
def allowsBehind (r : Bool) (ls : List Lexeme) : Bool := (ls.getLast?.map (·.allows)).getD r

theorem allowsBehind_cons (l : Lexeme) : allowsBehind r (l :: ls) = allowsBehind l.allows ls := by
  cases ls <;> simp [allowsBehind, List.getLast?_cons]

namespace Reads

theorem append (h : Reads (ys ++ zs) r xs ls) (h' : Reads zs (allowsBehind r ls) ys ms) :
    Reads zs r (xs ++ ys) (ls ++ ms) := by
  induction h with
  | nil => exact h'
  | skip hmunch _ ih =>
      rw [List.cons_append, List.append_assoc]
      refine .skip (fun previous hr => ?_) (ih h')
      rw [List.append_assoc]
      exact hmunch previous hr
  | token hmunch _ ih =>
      rw [allowsBehind_cons] at h'
      rw [List.cons_append, List.append_assoc]
      refine .token (fun previous hr => ?_) (ih h')
      rw [List.append_assoc]
      exact hmunch previous hr

/-- The tokens of a piece come first, and the rest is cut as it is behind the last of them. -/
theorem tokensFrom_eq (h : Reads zs r xs ls) (start index : Nat) (before : Option Token) (broken : Bool)
    (hr : regexAllowed before = r) : ∃ us start' index' broken', us.map (·.lexeme) = ls ∧
      tokensFrom start index before broken (xs ++ zs) =
        us ++ tokensFrom start' index' (us.getLast?.or before) broken' zs := by
  induction h generalizing start index before broken with
  | nil => exact ⟨[], start, index, broken, rfl, rfl⟩
  | skip hmunch _ ih =>
      obtain ⟨us, start', index', broken', hus, hfrom⟩ := ih _ _ _ _ hr
      refine ⟨us, start', index', broken', hus, ?_⟩
      rw [List.cons_append, List.append_assoc, tokensFrom_skip (hmunch before hr)]
      exact hfrom
  | @token r c w xs k ls hmunch _ ih =>
      obtain ⟨us, start', index', broken', hus, hfrom⟩ := ih (start + Text.byteSize (c :: w)) (index + 1)
        (some (cutOff start index before broken k (c :: w))) false rfl
      refine ⟨cutOff start index before broken k (c :: w) :: us, start', index', broken', ?_, ?_⟩
      · rw [List.map_cons, hus]
        rfl
      · rw [List.cons_append, List.append_assoc, tokensFrom_token (hmunch before hr), hfrom, List.cons_append]
        congr 3
        cases us <;> simp [List.getLast?_cons]

/-- The tokens of a piece are read by what stands before it. -/
theorem exists_reading (h : Reads zs r xs ls) (start index : Nat) (before : Option Token) (broken : Bool)
    (hr : regexAllowed before = r) : ∃ start' index' before' broken',
      before'.map (·.lexeme) = ls.getLast?.or (before.map (·.lexeme)) ∧
        (tokensFrom start index before broken (xs ++ zs)).map (·.reading) =
          readings (before.map (·.kind)) ls ++ (tokensFrom start' index' before' broken' zs).map (·.reading) := by
  obtain ⟨us, start', index', broken', rfl, hfrom⟩ := h.tokensFrom_eq start index before broken hr
  refine ⟨start', index', us.getLast?.or before, broken', ?_, ?_⟩
  · rw [List.getLast?_map]
    cases us.getLast? <;> rfl
  · rw [reading_tokensFrom, hfrom, reading_tokensFrom, List.map_append, readings_append, List.getLast?_map]
    cases us.getLast? <;> rfl

end Reads

/-- Whatever stands before and behind it, a text is cut into these tokens. -/
def Cuts (cs : List Char) (ls : List Lexeme) : Prop := ∀ zs r, Reads zs r cs ls

namespace Cuts

theorem nil : Cuts [] [] := fun _ r => .nil r

theorem append (h : Cuts xs ls) (h' : Cuts ys ms) : Cuts (xs ++ ys) (ls ++ ms) :=
  fun zs r => (h (ys ++ zs) r).append (h' zs _)

theorem lexemes {text : String} (h : Cuts text.toList ls) : (tokens text).map (·.lexeme) = ls := by
  obtain ⟨us, start, index, broken, hus, hfrom⟩ := (h [] true).tokensFrom_eq 0 0 none false rfl
  rw [List.append_nil, tokensFrom, List.append_nil] at hfrom
  rw [tokens, hfrom, hus]

end Cuts
end StaticGql.Scan
