import StaticGql.Proofs.Scan.Seams
import StaticGql.Proofs.Text.Edits
import StaticGql.Proofs.Transform.Again

/-!
How a legible text reads with edits carried out on it: what is kept reads as it did, and what is written reads as it
does by itself.
-/

namespace StaticGql

open Text

variable {text : String}

namespace Scan

variable {s s' : Cutter} {us vs : List Token} {before : Option Token} {spans : List Span} {kept ys : List Char}

theorem isDotted_or {x y y' : Option Lexeme} (h : isDotted (y.map (·.kind)) = isDotted (y'.map (·.kind))) :
    isDotted ((x.or y).map (·.kind)) = isDotted ((x.or y').map (·.kind)) := by
  cases x with
  | none => exact h
  | some => rfl

theorem kind_of_lexeme (before : Option Token) :
    (before.map (·.lexeme)).map (·.kind) = before.map (·.kind) := by
  cases before <;> rfl

namespace Cutter

theorem Comes.lexeme_before (h : Comes s us s') :
    s'.before.map (·.lexeme) = (us.map (·.lexeme)).getLast?.or (s.before.map (·.lexeme)) := by
  rw [h.before_eq, List.getLast?_map]
  cases us.getLast? <;> rfl

theorem Comes.slice? (h : Comes (ofText text) us s) (h' : Comes s vs s') (hkept : s.rest = kept ++ s'.rest) :
    Text.slice? text.toList s.start s'.start = some kept := by
  obtain ⟨pre, hpre, hstart⟩ := h.exists_text
  obtain ⟨kept', hkept', hstart'⟩ := h'.exists_text
  obtain rfl : kept = kept' := List.append_cancel_right (hkept.symm.trans hkept')
  have htext : text.toList = pre ++ (kept ++ s'.rest) := hkept ▸ hpre
  have hzero : s.start = byteSize pre := hstart.trans (Nat.zero_add _)
  rw [htext, hstart', hzero]
  exact slice?_append pre kept s'.rest

theorem Comes.start_eq_size (h : Comes (ofText text) us s) (hend : s.rest = []) : s.start = byteSize text.toList := by
  obtain ⟨pre, hpre, hstart⟩ := h.exists_text
  have htext : text.toList = pre ++ s.rest := hpre
  rw [hend, List.append_nil] at htext
  rw [hstart, htext]
  exact Nat.zero_add _

/-- What is to come reads behind this token as it does here. -/
structure Resumes (s : Cutter) (before : Option Token) : Prop where
  dotted : isDotted (before.map (·.kind)) = isDotted (s.before.map (·.kind))
  slash : regexAllowed before = regexAllowed s.before ∨ ∀ t ∈ s.tokens.head?, t.kind ≠ .slash ∧ t.kind ≠ .regex

namespace Resumes

theorem refl (s : Cutter) : Resumes s s.before := ⟨rfl, .inl rfl⟩

theorem reading (h : Resumes s before) (hcomes : Comes s us s') :
    readings (before.map (·.kind)) (us.map (·.lexeme)) = us.map (·.reading) := by
  rw [hcomes.reading, readings_congr h.dotted]

theorem reads (h : Resumes s before) (hcomes : Comes s us s') (hsound : Sound s)
    (hlinked : Linked (Legible spans) s.before s.tokens) (hkept : s.rest = kept ++ s'.rest)
    (hmends : ys = s'.rest ∨ (s.start < s'.start → Mends s' ys)) :
    Reads ys (regexAllowed before) kept (us.map (·.lexeme)) := by
  obtain ⟨kept', hkept', -, hreads⟩ := hcomes.exists_reads hsound hlinked hmends
  obtain rfl : kept = kept' := List.append_cancel_right (hkept.symm.trans hkept')
  rcases h.slash with hslash | hhead
  · rwa [hslash]
  · refine hreads.of_head (fun l hl => ?_) _
    rw [List.head?_map] at hl
    obtain ⟨t, ht, rfl⟩ := Option.map_eq_some_iff.1 hl
    refine hhead t ?_
    rw [hcomes.tokens_eq, List.head?_append, ht]
    rfl

end Resumes
end Cutter
end Scan

namespace Transform

open Scan Cutter

variable {e : Edit} {edits : List Edit} {us vs : List Token} {s s₁ s₂ : Cutter} {spans : List Span}

def lastLexeme? (text : String) : Option Lexeme := ((tokens text).map (·.lexeme)).getLast?

theorem lastLexeme?_eq {ls : List Lexeme} (h : Cuts text.toList ls) : lastLexeme? text = ls.getLast? := by
  rw [lastLexeme?, h.lexemes]

/-- An edit between two places of a text. What it writes neither goes on what stands before it nor tells on what
comes behind it. -/
structure Sews (text : String) (e : Edit) (us vs : List Token) (s₁ s₂ : Cutter) : Prop where
  comes : Comes (.ofText text) us s₁
  across : Comes s₁ vs s₂
  start : s₁.start = e.start
  stop : s₂.start = e.stop
  mends : 0 < e.start → ∀ rest, Mends s₁ (e.text.toList ++ rest)
  free : isDotted (s₁.before.map (·.kind)) = false
  freed : isDotted (s₂.before.map (·.kind)) = false
  last : ∀ l ∈ lastLexeme? e.text, isDotted (some l.kind) = false
  slash : (∀ t ∈ s₂.tokens.head?, t.kind ≠ .slash ∧ t.kind ≠ .regex) ∨
    ∃ l ∈ lastLexeme? e.text, l.allows = regexAllowed s₂.before

/-- A text that is cut by itself into what it is cut into wherever it is put, sewn into another one. -/
def Sewn (text : String) (e : Edit) : Prop :=
  (∃ ls, Cuts e.text.toList ls) ∧ ∃ us vs s₁ s₂, Sews text e us vs s₁ s₂

/-- Behind what an edit has written, the text resumes. -/
theorem Sews.resumes (h : Sews text e us vs s₁ s₂) {before before' : Option Token}
    (hbefore : isDotted (before.map (·.kind)) = isDotted (s₁.before.map (·.kind)))
    (hbefore' : before'.map (·.lexeme) = (lastLexeme? e.text).or (before.map (·.lexeme))) :
    Resumes s₂ before' := by
  constructor
  · rw [h.freed, ← kind_of_lexeme, hbefore']
    cases hlast : lastLexeme? e.text with
    | none => exact (kind_of_lexeme before ▸ hbefore).trans h.free
    | some l => exact h.last l hlast
  · refine h.slash.symm.imp_left fun ⟨l, hl, hallows⟩ => ?_
    rw [Option.mem_def.1 hl, Option.some_or] at hbefore'
    obtain ⟨t, rfl, rfl⟩ := Option.map_eq_some_iff.1 hbefore'
    exact hallows

/-- With edits sewn in, a legible text reads as its shares. -/
theorem exists_spliced (hlegible : Linked (Legible spans) none (tokens text)) (hedits : ∀ e ∈ edits, Sewn text e)
    (hs : Comes (.ofText text) us s) :
    ∃ out, applyFrom text.toList (byteSize text.toList) s.start edits = some out ∧
      ∀ start index before broken, Resumes s before → (tokensFrom start index before broken out).map (·.reading) =
        (sharesFrom (tokens text) (byteSize text.toList) s.start edits).map (·.token.reading) := by
  have hsound := hs.sound (sound_ofText text)
  have hlinked := hs.linked (s := .ofText text) hlegible
  induction edits generalizing s us with
  | nil =>
      obtain ⟨s', hs', hend⟩ := Comes.exists_end s
      have hkept : s.rest = s.rest ++ s'.rest := by rw [hend, List.append_nil]
      refine ⟨s.rest, ?_, fun start index before broken hresumes => ?_⟩
      · rw [applyFrom, ← (hs.trans hs').start_eq_size hend]
        exact hs.slice? hs' hkept
      · have hreads : Reads [] _ _ _ := hresumes.reads hs' hsound hlinked hkept (.inl hend.symm)
        obtain ⟨_, _, _, _, -, hreading⟩ := hreads.exists_reading start index before broken rfl
        have hbehind : behind (tokens text) s.start = s.tokens := hs.behind_eq
        rw [List.append_nil, tokensFrom, List.map_nil, List.append_nil, hresumes.reading hs'] at hreading
        rw [hreading, sharesFrom, hbehind, List.map_map]
        rfl
  | cons e edits ih =>
      obtain ⟨⟨⟨ls, hcuts⟩, us₁, vs, s₁, s₂, hsews⟩, hedits⟩ := List.forall_mem_cons.1 hedits
      rw [applyFrom, sharesFrom]
      split
      · exact ih hedits hs hsound hlinked
      · rename_i happlied
        have hle : s.start ≤ s₁.start := by
          rw [hsews.start]
          omega
        obtain ⟨ws, hws⟩ := hs.exists_between hsews.comes hle
        have hs₂ := hsews.comes.trans hsews.across
        obtain ⟨out, hout, hread⟩ := ih hedits hs₂ (hs₂.sound (sound_ofText text)) (hs₂.linked hlegible)
        obtain ⟨kept, hkept, -⟩ := hws.exists_text
        have hslice := hs.slice? hws hkept
        rw [hsews.start] at hslice
        rw [hsews.stop] at hout hread
        refine ⟨kept ++ e.text.toList ++ out, by rw [hslice, hout]; rfl, fun start index before broken hresumes => ?_⟩
        -- what is kept before the edit, what the edit writes, and what is behind it
        have hreads := hresumes.reads hws hsound hlinked hkept (.inr fun hlt => hsews.mends (hsews.start ▸ Nat.zero_lt_of_lt hlt) out)
        obtain ⟨start₁, index₁, before₁, broken₁, hbefore₁, hreading₁⟩ :=
          hreads.exists_reading start index before broken rfl
        obtain ⟨start₂, index₂, before₂, broken₂, hbefore₂, hreading₂⟩ :=
          (hcuts out (regexAllowed before₁)).exists_reading start₁ index₁ before₁ broken₁ rfl
        have hdotted : isDotted (before₁.map (·.kind)) = isDotted (s₁.before.map (·.kind)) := by
          rw [← kind_of_lexeme, ← kind_of_lexeme s₁.before, hbefore₁, hws.lexeme_before]
          exact isDotted_or (by rw [kind_of_lexeme, kind_of_lexeme, hresumes.dotted])
        have hwritten : readings (before₁.map (·.kind)) ls = (tokens e.text).map (·.reading) := by
          rw [readings_congr (hdotted.trans hsews.free : _ = isDotted none), reading_tokens, hcuts.lexemes]
        have hbetween : between (tokens text) s.start e.start = ws := hsews.start ▸ hs.between_eq hws
        rw [List.append_assoc, hreading₁, hreading₂, hwritten, hresumes.reading hws,
          hread _ _ _ _ (hsews.resumes hdotted (by rw [hbefore₂, lastLexeme?_eq hcuts])), hbetween]
        simp only [List.map_append, List.map_map, Function.comp_def, Share.token_kept, Share.token_written,
          List.append_assoc]

end Transform
end StaticGql
