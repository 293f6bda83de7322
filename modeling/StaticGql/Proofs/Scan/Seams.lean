import StaticGql.Event
import StaticGql.Proofs.Scan.Munch
import StaticGql.Proofs.Scan.Order
import StaticGql.Proofs.Scan.Reads

/-!
The cutting of a text as a run of steps, each of which takes a token or what is passed over. Every token starts and
stops at a step, and of two steps of one run the later one is come to from the earlier one.

Texts of which a piece is cut as before when something else is put behind it. No slash may be in doubt, and no token
may touch another with which it could be one.
-/

namespace StaticGql.Scan

open Text

/-- How far the cutting of a text has come. -/
structure Cutter where
  start : Nat
  index : Nat
  /-- The last token. -/
  before : Option Token
  /-- Whether a line has been broken since. -/
  broken : Bool
  /-- The text that is left. -/
  rest : List Char

namespace Cutter

variable {s s' s₁ s₂ : Cutter} {us vs : List Token} {t : Token} {c : Char} {w rest : List Char} {k : TokenKind}

def ofText (text : String) : Cutter := ⟨0, 0, none, false, text.toList⟩

/-- The tokens that are still to come. -/
def tokens (s : Cutter) : List Token := tokensFrom s.start s.index s.before s.broken s.rest

theorem tokens_ofText (text : String) : (ofText text).tokens = Scan.tokens text := rfl

/-- Past characters that are no token. -/
def skip (s : Cutter) (text rest : List Char) : Cutter :=
  { s with start := s.start + byteSize text, broken := s.broken || text.any (· = '\n'), rest := rest }

def token (s : Cutter) (k : TokenKind) (text : List Char) : Token := cutOff s.start s.index s.before s.broken k text

/-- Past a token. -/
def take (s : Cutter) (k : TokenKind) (text rest : List Char) : Cutter :=
  ⟨s.start + byteSize text, s.index + 1, some (s.token k text), false, rest⟩

/-- A run of steps with the tokens that are cut off on the way. -/
inductive Comes : Cutter → List Token → Cutter → Prop
  | here (s : Cutter) : Comes s [] s
  | skip {s s' : Cutter} {us : List Token} {c : Char} {w rest : List Char} (hrest : s.rest = c :: (w ++ rest))
      (hmunch : munch s.before c (w ++ rest) = (none, w.length)) (h : Comes (s.skip (c :: w) rest) us s') :
      Comes s us s'
  | token {s s' : Cutter} {us : List Token} {c : Char} {w rest : List Char} {k : TokenKind}
      (hrest : s.rest = c :: (w ++ rest)) (hmunch : munch s.before c (w ++ rest) = (some k, w.length))
      (h : Comes (s.take k (c :: w) rest) us s') : Comes s (s.token k (c :: w) :: us) s'

theorem tokens_of_skip (hrest : s.rest = c :: (w ++ rest))
    (hmunch : munch s.before c (w ++ rest) = (none, w.length)) : s.tokens = (s.skip (c :: w) rest).tokens := by
  rw [tokens, hrest, tokensFrom_skip hmunch]
  rfl

theorem tokens_of_token (hrest : s.rest = c :: (w ++ rest))
    (hmunch : munch s.before c (w ++ rest) = (some k, w.length)) :
    s.tokens = s.token k (c :: w) :: (s.take k (c :: w) rest).tokens := by
  rw [tokens, hrest, tokensFrom_token hmunch]
  rfl

theorem byteSize_pos (c : Char) (w : List Char) : 0 < byteSize (c :: w) := by
  have := c.utf8Size_pos
  rw [byteSize]
  omega

namespace Comes

theorem trans (h : Comes s us s₁) (h' : Comes s₁ vs s₂) : Comes s (us ++ vs) s₂ := by
  induction h with
  | here => exact h'
  | skip hrest hmunch _ ih => exact .skip hrest hmunch (ih h')
  | token hrest hmunch _ ih => exact .token hrest hmunch (ih h')

theorem tokens_eq (h : Comes s us s') : s.tokens = us ++ s'.tokens := by
  induction h with
  | here => rfl
  | skip hrest hmunch _ ih => rw [tokens_of_skip hrest hmunch, ih]
  | token hrest hmunch _ ih => rw [tokens_of_token hrest hmunch, ih, List.cons_append]

/-- The text on the way. -/
theorem exists_text (h : Comes s us s') : ∃ kept, s.rest = kept ++ s'.rest ∧ s'.start = s.start + byteSize kept := by
  induction h with
  | here s => exact ⟨[], rfl, rfl⟩
  | @skip s s' us c w rest hrest _ _ ih =>
      obtain ⟨kept, hkept, hstart⟩ := ih
      have hkept : rest = kept ++ s'.rest := hkept
      refine ⟨c :: w ++ kept, by simp [hrest, hkept], ?_⟩
      rw [hstart, byteSize_append, ← Nat.add_assoc]
      rfl
  | @token s s' us c w rest k hrest _ _ ih =>
      obtain ⟨kept, hkept, hstart⟩ := ih
      have hkept : rest = kept ++ s'.rest := hkept
      refine ⟨c :: w ++ kept, by simp [hrest, hkept], ?_⟩
      rw [hstart, byteSize_append, ← Nat.add_assoc]
      rfl

theorem before_eq (h : Comes s us s') : s'.before = us.getLast?.or s.before := by
  induction h with
  | here => rfl
  | skip _ _ _ ih => exact ih
  | token _ _ _ ih =>
      rw [ih]
      cases us <;> simp [take, List.getLast?_cons]

theorem start_le (h : Comes s us s') : s.start ≤ s'.start := by
  obtain ⟨kept, -, hstart⟩ := h.exists_text
  omega

/-- A step is decided by what is left. -/
theorem eq_of_munch {c' : Char} {w' rest' : List Char} {k? k?' : Option TokenKind} (hrest : s.rest = c :: (w ++ rest))
    (hmunch : munch s.before c (w ++ rest) = (k?, w.length)) (hrest' : s.rest = c' :: (w' ++ rest'))
    (hmunch' : munch s.before c' (w' ++ rest') = (k?', w'.length)) : c' = c ∧ w' = w ∧ rest' = rest ∧ k?' = k? := by
  rw [hrest'] at hrest
  obtain ⟨rfl, hsame⟩ := List.cons.inj hrest
  rw [hsame, hmunch] at hmunch'
  obtain ⟨rfl, hlength⟩ := Prod.mk.inj hmunch'
  obtain ⟨rfl, rfl⟩ := List.append_inj hsame hlength.symm
  exact ⟨rfl, rfl, rfl, rfl⟩

/-- Of two runs from one place, the longer one goes on where the shorter one ends. -/
theorem exists_between (h : Comes s us s₁) (h' : Comes s vs s₂) (hle : s₁.start ≤ s₂.start) : ∃ ws, Comes s₁ ws s₂ := by
  induction h generalizing vs with
  | here => exact ⟨vs, h'⟩
  | @skip s s₁ us c w rest hrest hmunch h ih =>
      cases h' with
      | here =>
          have hpos := byteSize_pos c w
          have hstart : s₂.start + byteSize (c :: w) ≤ s₁.start := h.start_le
          omega
      | skip hrest' hmunch' h' =>
          obtain ⟨rfl, rfl, rfl, -⟩ := eq_of_munch hrest hmunch hrest' hmunch'
          exact ih h' hle
      | token hrest' hmunch' => cases (eq_of_munch hrest hmunch hrest' hmunch').2.2.2
  | @token s s₁ us c w rest k hrest hmunch h ih =>
      cases h' with
      | here =>
          have hpos := byteSize_pos c w
          have hstart : s₂.start + byteSize (c :: w) ≤ s₁.start := h.start_le
          omega
      | skip hrest' hmunch' => cases (eq_of_munch hrest hmunch hrest' hmunch').2.2.2
      | token hrest' hmunch' h' =>
          obtain ⟨rfl, rfl, rfl, hk⟩ := eq_of_munch hrest hmunch hrest' hmunch'
          cases hk
          exact ih h' hle

/-- Every token is cut off at some step. -/
theorem exists_token (h : s.tokens = us ++ t :: vs) : ∃ s₁ c w rest k, Comes s us s₁ ∧ s₁.rest = c :: (w ++ rest) ∧
    munch s₁.before c (w ++ rest) = (some k, w.length) ∧ t = s₁.token k (c :: w) ∧
      (s₁.take k (c :: w) rest).tokens = vs := by
  induction hn : s.rest.length using Nat.strongRecOn generalizing s us with
  | ind n ih =>
      subst hn
      cases hrest : s.rest with
      | nil =>
          rw [tokens, hrest, tokensFrom] at h
          simp at h
      | cons c cs =>
          obtain ⟨w, rest, k?, rfl, hmunch⟩ := exists_munch_append s.before c cs
          have hlt : rest.length < s.rest.length := by
            rw [hrest, List.length_cons, List.length_append]
            omega
          cases k? with
          | none =>
              rw [tokens_of_skip hrest hmunch] at h
              obtain ⟨s₁, d, v, rest₁, k, hcomes, hfound⟩ := ih rest.length hlt h rfl
              exact ⟨s₁, d, v, rest₁, k, .skip hrest hmunch hcomes, hfound⟩
          | some k =>
              rw [tokens_of_token hrest hmunch] at h
              cases us with
              | nil =>
                  obtain ⟨rfl, hvs⟩ := List.cons.inj h
                  exact ⟨s, c, w, rest, k, .here s, hrest, hmunch, rfl, hvs⟩
              | cons u us =>
                  rw [List.cons_append, List.cons.injEq] at h
                  obtain ⟨rfl, h⟩ := h
                  obtain ⟨s₁, d, v, rest₁, l, hcomes, hfound⟩ := ih rest.length hlt h rfl
                  exact ⟨s₁, d, v, rest₁, l, .token hrest hmunch hcomes, hfound⟩

/-- The end of the text is come to. -/
theorem exists_end (s : Cutter) : ∃ s', Comes s s.tokens s' ∧ s'.rest = [] := by
  induction hn : s.rest.length using Nat.strongRecOn generalizing s with
  | ind n ih =>
      subst hn
      cases hrest : s.rest with
      | nil =>
          have hnone : s.tokens = [] := by rw [tokens, hrest, tokensFrom]
          rw [hnone]
          exact ⟨s, .here s, hrest⟩
      | cons c cs =>
          obtain ⟨w, rest, k?, rfl, hmunch⟩ := exists_munch_append s.before c cs
          have hlt : rest.length < s.rest.length := by
            rw [hrest, List.length_cons, List.length_append]
            omega
          cases k? with
          | none =>
              obtain ⟨s', hcomes, hend⟩ := ih rest.length hlt (s.skip (c :: w) rest) rfl
              rw [tokens_of_skip hrest hmunch]
              exact ⟨s', .skip hrest hmunch hcomes, hend⟩
          | some k =>
              obtain ⟨s', hcomes, hend⟩ := ih rest.length hlt (s.take k (c :: w) rest) rfl
              rw [tokens_of_token hrest hmunch]
              exact ⟨s', .token hrest hmunch hcomes, hend⟩

/-- The tokens on the way lie on the way. -/
theorem among (h : Comes s us s') : ∀ u ∈ us, s.start ≤ u.start ∧ u.start < u.stop ∧ u.stop ≤ s'.start := by
  induction h with
  | here => simp
  | @skip s s' us c w rest _ _ _ ih =>
      intro u hu
      obtain ⟨hstart, hrest⟩ := ih u hu
      exact ⟨Nat.le_trans (Nat.le_add_right ..) hstart, hrest⟩
  | @token s s' us c w rest k _ _ h ih =>
      have hle := h.start_le
      have hpos := byteSize_pos c w
      refine List.forall_mem_cons.2 ⟨⟨Nat.le_refl _, Nat.lt_add_of_pos_right hpos, hle⟩, fun u hu => ?_⟩
      obtain ⟨hstart, hrest⟩ := ih u hu
      exact ⟨Nat.le_trans (Nat.le_add_right ..) hstart, hrest⟩

theorem behind_eq (h : Comes s us s') : behind s.tokens s'.start = s'.tokens := by
  have hus : behind us s'.start = [] := by
    refine List.filter_eq_nil_iff.2 fun u hu => ?_
    have := h.among u hu
    simp only [decide_eq_true_eq]
    omega
  have hrest : behind s'.tokens s'.start = s'.tokens :=
    List.filter_eq_self.2 fun u hu => by simpa using start_le_of_mem hu
  rw [h.tokens_eq, behind, List.filter_append]
  exact (congrArg₂ (· ++ ·) hus hrest).trans (List.nil_append _)

theorem between_eq (h : Comes s us s₁) (h' : Comes s₁ vs s₂) : between s.tokens s₁.start s₂.start = vs := by
  have hordered : Ordered s.tokens := ordered_tokensFrom
  have hbehind := behind_eq_append hordered h'.start_le
  rw [h.behind_eq, (h.trans h').behind_eq, h'.tokens_eq] at hbehind
  exact (List.append_cancel_right hbehind).symm

end Comes
end Cutter
end StaticGql.Scan

namespace StaticGql.Scan

open Text

variable {s s' s₁ s₂ : Cutter} {us vs ts : List Token} {t : Token} {c : Char} {w xs ys zs rest : List Char} {k : TokenKind}
  {r : Bool} {ls : List Lexeme} {spans : List Span} {R : Option Token → Token → Prop} {before : Option Token}

/-! ### Tokens behind each other -/

/-- Each token stands in this relation to the one before it. -/
def Linked (R : Option Token → Token → Prop) : Option Token → List Token → Prop
  | _, [] => True
  | before, t :: ts => R before t ∧ Linked R (some t) ts

instance decidableLinked [∀ before t, Decidable (R before t)] : ∀ before ts, Decidable (Linked R before ts)
  | _, [] => .isTrue trivial
  | _, t :: ts =>
    have := decidableLinked (some t) ts
    inferInstanceAs (Decidable (_ ∧ _))

theorem Linked.head (h : Linked R before ts) : ∀ t ∈ ts.head?, R before t := by
  cases ts with
  | nil => simp
  | cons t ts =>
      rintro _ ⟨⟩
      exact h.1

/-- Kinds of tokens of which the first one could go on into the second. -/
def clash : TokenKind → TokenKind → Bool
  | .number, .word | .number, .number | .dot, .dot | .dot, .ellipsis | .dot, .number => true
  | _, _ => false

/-- Kinds of tokens that may go on into what comes behind them. -/
def goesOn : TokenKind → Bool
  | .word | .number | .regex | .dot | .question | .assign | .arrow | .operator | .slash => true
  | _ => false

/-- How a token stands behind the one before it, where statements may be taken out: a slash divides, two tokens that
touch could not be one, before a statement nothing goes on into what comes behind it, and behind one comes no slash. -/
structure Legible (spans : List Span) (before : Option Token) (t : Token) : Prop where
  slash : t.kind = .slash → regexAllowed before = false
  touch : ∀ u ∈ before, u.stop = t.start → clash u.kind t.kind = false
  start : ∀ u ∈ before, u.stop = t.start → t.start ∈ spans.map (·.start) → goesOn u.kind = false
  stop : ∀ u ∈ before, u.stop ∈ spans.map (·.stop) → t.kind ≠ .slash ∧ t.kind ≠ .regex

instance (spans : List Span) (before : Option Token) (t : Token) : Decidable (Legible spans before t) :=
  decidable_of_iff ((t.kind = .slash → regexAllowed before = false) ∧
      (∀ u ∈ before, u.stop = t.start → clash u.kind t.kind = false) ∧
      (∀ u ∈ before, u.stop = t.start → t.start ∈ spans.map (·.start) → goesOn u.kind = false) ∧
      ∀ u ∈ before, u.stop ∈ spans.map (·.stop) → t.kind ≠ .slash ∧ t.kind ≠ .regex)
    ⟨fun ⟨hslash, htouch, hstart, hstop⟩ => ⟨hslash, htouch, hstart, hstop⟩,
      fun h => ⟨h.slash, h.touch, h.start, h.stop⟩⟩

namespace Cutter

theorem Comes.linked (h : Comes s us s') (hlinked : Linked R s.before s.tokens) : Linked R s'.before s'.tokens := by
  induction h with
  | here => exact hlinked
  | skip hrest hmunch _ ih =>
      rw [tokens_of_skip hrest hmunch] at hlinked
      exact ih hlinked
  | token hrest hmunch _ ih =>
      rw [tokens_of_token hrest hmunch] at hlinked
      exact ih hlinked.2

/-- What is left begins with a token of this kind. -/
theorem exists_head {p : Option TokenKind → Prop} (hrest : s.rest.head? = some c)
    (hkind : ∀ cs, p (munch s.before c cs).1) (hp : ¬p none) :
    ∃ t ∈ s.tokens.head?, t.start = s.start ∧ p (some t.kind) := by
  obtain ⟨cs, hcs⟩ := List.head?_eq_some_iff.1 hrest
  obtain ⟨w, rest, k?, rfl, hmunch⟩ := exists_munch_append s.before c cs
  have hk := hkind (w ++ rest)
  rw [hmunch] at hk
  cases k? with
  | none => exact absurd hk hp
  | some k =>
      rw [tokens_of_token hcs hmunch]
      exact ⟨_, rfl, rfl, hk⟩

theorem munch_wordPart (hc : isWordPart c = true) (previous : Option Token) (cs : List Char) :
    (munch previous c cs).1 = some .word ∨ (munch previous c cs).1 = some .number := by
  rw [munch.eq_def, isBlank_eq_false hc, if_neg (by simp)]
  by_cases hstart : isWordStart c = true
  · rw [if_pos hstart]
    exact .inl rfl
  · have hdigit : c.isDigit = true := by
      simp only [isWordStart, isWordPart, Char.isAlphanum, Bool.or_eq_true] at hstart hc
      tauto
    have hquote : ¬(c = '"' || c = '\'') = true := by
      simp only [Bool.or_eq_true, decide_eq_true_eq]
      rintro (rfl | rfl) <;> cases hdigit
    have htemplate : ¬c = '`' := by
      rintro rfl
      cases hdigit
    rw [if_neg hstart, if_neg hquote, if_neg htemplate, if_pos hdigit]
    exact .inr rfl

/-- Where the text is legible, what is directly behind a token does not tell on it. -/
theorem firm (hlinked : Linked (Legible spans) s.before s.tokens) (hrest : s.rest = c :: (w ++ rest))
    (hmunch : munch s.before c (w ++ rest) = (some k, w.length)) : Firm s.before rest k := by
  rw [tokens_of_token hrest hmunch] at hlinked
  obtain ⟨hlegible, hnext⟩ := hlinked
  refine ⟨hlegible.slash, ?_, ?_⟩
  · rintro rfl d hd
    by_contra hpart
    obtain ⟨t, ht, hstart, hkind⟩ := @exists_head (s.take .number (c :: w) rest) d
      (fun k? => k? = some .word ∨ k? = some .number) hd (munch_wordPart (by simpa using hpart) _) (by simp)
    have hclash := (hnext.head t ht).touch _ rfl hstart.symm
    rcases hkind with hkind | hkind
    · rw [Option.some.inj hkind] at hclash
      cases hclash
    · rw [Option.some.inj hkind] at hclash
      cases hclash
  · rintro rfl hd
    obtain ⟨t, ht, hstart, l, hl, hkind⟩ := @exists_head (s.take .dot (c :: w) rest) '.'
      (fun k? => ∃ l ∈ [TokenKind.ellipsis, .number, .dot], k? = some l) hd
      (fun cs => ⟨_, afterDot_mem cs, rfl⟩) (by simp)
    have hclash := (hnext.head t ht).touch _ rfl hstart.symm
    rw [Option.some.inj hkind] at hclash
    simp only [List.mem_cons, List.not_mem_nil, or_false] at hl
    rcases hl with rfl | rfl | rfl <;> cases hclash

/-- What is left does not go on with what has been cut off. -/
structure Sound (s : Cutter) : Prop where
  le : ∀ t ∈ s.before, t.stop ≤ s.start
  bare : ∀ t ∈ s.before, t.stop = s.start → t.kind = .word ∨ t.kind = .regex → Bare s.rest

theorem sound_ofText (text : String) : Sound (ofText text) := ⟨by simp [ofText], by simp [ofText]⟩

theorem bare_of_regex {previous : Option Token} (h : afterSlash previous (w ++ rest) = (some .regex, w.length)) :
    Bare rest := by
  have hline : (w ++ rest).head? ≠ some '/' := by
    intro hhead
    obtain ⟨tail, htail⟩ := List.head?_eq_some_iff.1 hhead
    rw [htail, afterSlash_line] at h
    cases h
  have hblock : (w ++ rest).head? ≠ some '*' := by
    intro hhead
    obtain ⟨tail, htail⟩ := List.head?_eq_some_iff.1 hhead
    rw [htail, afterSlash_block] at h
    cases h
  rw [afterSlash_plain hline hblock] at h
  split at h
  · rename_i n hregex
    obtain rfl : n = w.length := (Prod.mk.inj h).2
    split at hregex
    · exact (regexLength_append hregex).1
    · cases hregex
  · cases h

theorem Comes.sound (h : Comes s us s') (hsound : Sound s) : Sound s' := by
  induction h with
  | here => exact hsound
  | @skip s s' us c w rest hrest hmunch _ ih =>
      have hpos := byteSize_pos c w
      refine ih ⟨fun t ht => Nat.le_trans (hsound.le t ht) (Nat.le_add_right ..), fun t ht hstop => ?_⟩
      have hle := hsound.le t ht
      change t.stop = s.start + byteSize (c :: w) at hstop
      omega
  | @token s s' us c w rest k hrest hmunch _ ih =>
      refine ih ⟨?_, ?_⟩
      · rintro t ⟨⟩
        exact Nat.le_refl _
      · rintro t ⟨⟩ - (hk | hk)
        · obtain rfl : k = .word := hk
          exact (run_eq_length_iff.1 (isWordStart_of_munch hmunch).2.symm).2
        · obtain rfl : k = .regex := hk
          exact bare_of_regex (regex_of_munch hmunch).2

/-- What is behind a place gives way to another text that does not tell on what stands before the place. -/
structure Mends (s : Cutter) (ys : List Char) : Prop where
  touch : ∀ t ∈ s.before, t.stop = s.start → Seam s.rest ys (some t.kind)
  gap : (∀ t ∈ s.before, t.stop ≠ s.start) → Seam s.rest ys none

theorem Comes.eq_of_start_le (h : Comes s us s') (hle : s'.start ≤ s.start) : us = [] ∧ s' = s := by
  cases h with
  | here => exact ⟨rfl, rfl⟩
  | @skip _ _ _ c w _ _ _ h =>
      have hpos := byteSize_pos c w
      have hstart : s.start + byteSize (c :: w) ≤ s'.start := h.start_le
      omega
  | @token _ _ _ c w _ _ _ _ h =>
      have hpos := byteSize_pos c w
      have hstart : s.start + byteSize (c :: w) ≤ s'.start := h.start_le
      omega

theorem seam_of_goesOn (h : goesOn k = false) (xs ys : List Char) : Seam xs ys (some k) := by
  refine .inr ⟨?_, fun c _ => ?_⟩
  · rintro rfl
    cases h
  · cases k <;> simp_all [goesOn, joins]

theorem seam_append {kept : List Char} {k? : Option TokenKind} (h : kept = [] → Seam rest ys k?) :
    Seam (kept ++ rest) (kept ++ ys) k? := by
  cases kept with
  | nil => exact h rfl
  | cons c kept =>
      cases k? with
      | none => exact ⟨List.cons_ne_nil _ _, .inl rfl⟩
      | some k => exact .inl rfl

/-- A step is taken as before in front of other text. -/
theorem munch_mended {kept zs : List Char} {k? : Option TokenKind} {previous previous' : Option Token}
    (h : munch previous c (w ++ (kept ++ zs)) = (k?, w.length))
    (hfirm : ∀ k, k? = some k → Firm previous (kept ++ zs) k) (hseam : ys = zs ∨ (kept = [] → Seam zs ys k?))
    (hprevious : regexAllowed previous' = regexAllowed previous) :
    munch previous' c (w ++ (kept ++ ys)) = (k?, w.length) := by
  have hmended : munch previous c (w ++ (kept ++ ys)) = (k?, w.length) := by
    rcases hseam with rfl | hseam
    · exact h
    · exact munch_append h hfirm (seam_append hseam)
  exact munch_congr hmended (.inl hprevious.symm)

/-- A piece of a legible text is cut as before in front of any text by which the rest may give way. -/
theorem Comes.exists_reads (h : Comes s us s') (hsound : Sound s) (hlinked : Linked (Legible spans) s.before s.tokens)
    (hmends : ys = s'.rest ∨ (s.start < s'.start → Mends s' ys)) : ∃ kept, s.rest = kept ++ s'.rest ∧
      s'.start = s.start + byteSize kept ∧ Reads ys (regexAllowed s.before) kept (us.map (·.lexeme)) := by
  induction h with
  | here s => exact ⟨[], rfl, rfl, .nil _⟩
  | @skip s s' us c w rest hrest hmunch h ih =>
      have hpos := byteSize_pos c w
      have hlt : s.start < s'.start := Nat.lt_of_lt_of_le (Nat.lt_add_of_pos_right hpos) h.start_le
      have hstep : Comes s [] (s.skip (c :: w) rest) := .skip hrest hmunch (.here _)
      obtain ⟨kept, hkept, hstart, hreads⟩ := ih (hstep.sound hsound) (hstep.linked hlinked)
        (hmends.imp_right fun hmends _ => hmends hlt)
      obtain rfl : rest = kept ++ s'.rest := hkept
      refine ⟨c :: (w ++ kept), by simp [hrest], ?_, .skip (fun previous => ?_) hreads⟩
      · rw [hstart, ← List.cons_append, byteSize_append, ← Nat.add_assoc]
        rfl
      · -- the last token stops before what is passed over
        refine munch_mended hmunch (by simp) (hmends.imp_right fun hmends hnil => (hmends hlt).gap fun t ht hstop => ?_)
        subst hnil
        rw [(h.eq_of_start_le (by simp [hstart, byteSize])).2] at ht
        have hle : t.stop ≤ s.start := hsound.le t ht
        omega
  | @token s s' us c w rest k hrest hmunch h ih =>
      have hpos := byteSize_pos c w
      have hlt : s.start < s'.start := Nat.lt_of_lt_of_le (Nat.lt_add_of_pos_right hpos) h.start_le
      have hstep : Comes s [s.token k (c :: w)] (s.take k (c :: w) rest) := .token hrest hmunch (.here _)
      have hfirm := firm hlinked hrest hmunch
      obtain ⟨kept, hkept, hstart, hreads⟩ := ih (hstep.sound hsound) (hstep.linked hlinked)
        (hmends.imp_right fun hmends _ => hmends hlt)
      obtain rfl : rest = kept ++ s'.rest := hkept
      refine ⟨c :: (w ++ kept), by simp [hrest], ?_, .token (fun previous => ?_) hreads⟩
      · rw [hstart, ← List.cons_append, byteSize_append, ← Nat.add_assoc]
        rfl
      · refine munch_mended hmunch (fun _ hk => Option.some.inj hk ▸ hfirm) (hmends.imp_right fun hmends hnil => ?_)
        subst hnil
        have hhere := (h.eq_of_start_le (by simp [hstart, byteSize])).2
        exact (hmends hlt).touch _ (congrArg Cutter.before hhere) (congrArg Cutter.start hhere).symm

/-- The tokens on the way are read by what stands before it. -/
theorem Comes.reading (h : Comes s us s') :
    us.map (·.reading) = readings (s.before.map (·.kind)) (us.map (·.lexeme)) := by
  induction h with
  | here => rfl
  | skip _ _ _ ih => exact ih
  | token _ _ _ ih =>
      rw [List.map_cons, List.map_cons, readings, ih]
      rfl

end Cutter

/-- What stands before a piece matters only where a slash comes first. -/
theorem Reads.of_head (h : Reads zs r xs ls) (hhead : ∀ l ∈ ls.head?, l.kind ≠ .slash ∧ l.kind ≠ .regex) (r' : Bool) :
    Reads zs r' xs ls := by
  have hother : ∃ previous, regexAllowed previous = r := by
    cases r with
    | true => exact ⟨none, rfl⟩
    | false => exact ⟨some (cutOff 0 0 none false .closeParen []), rfl⟩
  obtain ⟨previous, hprevious⟩ := hother
  induction h with
  | nil => exact .nil r'
  | skip hmunch h ih =>
      exact .skip (fun previous' _ => munch_congr (hmunch previous hprevious) (.inr (by simp))) (ih hhead hprevious)
  | token hmunch h _ =>
      have hhead := hhead _ rfl
      exact .token (fun previous' _ => munch_congr (hmunch previous hprevious)
        (.inr ⟨fun hk => hhead.1 (Option.some.inj hk), fun hk => hhead.2 (Option.some.inj hk)⟩)) h

end StaticGql.Scan
