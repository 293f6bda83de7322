import StaticGql.Proofs.Scan.Places
import StaticGql.Proofs.Text.Edits

/-!
Where tokens stand: one behind the other, none of them on a blank. So the tokens of a range of bytes stand
side by side.
-/

namespace StaticGql.Scan

open Text

variable {ts before after seg : List Token} {t first last : Token} {a b start index : Nat}
  {previous : Option Token} {broken : Bool} {cs : List Char} {text : String}

structure Ordered (ts : List Token) : Prop where
  wide : ∀ t ∈ ts, t.start < t.stop
  apart : ts.Pairwise fun t u => t.stop ≤ u.start

theorem take_append_drop_cons (c : Char) (cs : List Char) (n : Nat) :
    c :: cs = (c :: cs.take n) ++ cs.drop n := by
  rw [List.cons_append, List.take_append_drop]

theorem munch_blank {c : Char} (h : isBlank c = true) : munch previous c cs = (none, 0) := by
  rw [munch, if_pos h]

/-- A token begins behind some of the text, and not with a blank. -/
theorem exists_before (h : t ∈ tokensFrom start index previous broken cs) :
    ∃ before c rest, cs = before ++ c :: rest ∧ t.start = start + byteSize before ∧ isBlank c = false := by
  fun_induction tokensFrom start index previous broken cs with
  | case1 => cases h
  | case2 start _ _ _ c cs n _ _ _ ih =>
      obtain ⟨before, d, rest, hrest, hstart, hblank⟩ := ih h
      refine ⟨(c :: cs.take n) ++ before, d, rest, ?_, ?_, hblank⟩
      · rw [List.append_assoc, ← hrest, ← take_append_drop_cons]
      · rw [hstart, byteSize_append, Nat.add_assoc]
  | case3 start _ previous _ c cs n _ _ kind _ hmunch ih =>
      rcases List.mem_cons.1 h with rfl | h
      · refine ⟨[], c, cs, rfl, rfl, ?_⟩
        by_contra hblank
        rw [munch_blank (by simpa using hblank)] at hmunch
        cases hmunch
      · obtain ⟨before, d, rest, hrest, hstart, hblank⟩ := ih h
        refine ⟨(c :: cs.take n) ++ before, d, rest, ?_, ?_, hblank⟩
        · rw [List.append_assoc, ← hrest, ← take_append_drop_cons]
        · rw [hstart, byteSize_append, Nat.add_assoc]

/-- No token begins on a blank. -/
theorem isBlank_of_dropBytes {c : Char} {rest : List Char} (h : t ∈ tokens text)
    (hdrop : dropBytes? t.start text.toList = some (c :: rest)) : isBlank c = false := by
  obtain ⟨before, d, rest', hcs, hstart, hblank⟩ := exists_before h
  rw [hcs, hstart, Nat.zero_add, dropBytes?_eq_some_iff.2 ⟨before, rfl, rfl⟩] at hdrop
  cases hdrop
  exact hblank

theorem start_le_of_mem (h : t ∈ tokensFrom start index previous broken cs) : start ≤ t.start := by
  obtain ⟨before, _, _, -, hstart, -⟩ := exists_before h
  omega

theorem ordered_tokensFrom : Ordered (tokensFrom start index previous broken cs) := by
  fun_induction tokensFrom start index previous broken cs with
  | case1 => exact ⟨by simp, .nil⟩
  | case2 _ _ _ _ _ _ _ _ _ _ ih => exact ih
  | case3 start _ _ _ c cs n text stop _ _ _ ih =>
      have hwide : start < stop := by
        have := c.utf8Size_pos
        simp only [stop, text, byteSize]
        omega
      exact ⟨List.forall_mem_cons.2 ⟨hwide, ih.wide⟩, .cons (fun u hu => start_le_of_mem hu) ih.apart⟩

theorem ordered_tokens (text : String) : Ordered (tokens text) := ordered_tokensFrom

/-! ### Tokens of a range of bytes -/

def between (ts : List Token) (a b : Nat) : List Token := ts.filter fun t => a ≤ t.start && t.start < b

def behind (ts : List Token) (a : Nat) : List Token := ts.filter fun t => a ≤ t.start

theorem behind_zero (ts : List Token) : behind ts 0 = ts := by simp [behind]

theorem between_eq_nil (hba : b ≤ a) : between ts a b = [] := by
  rw [between, List.filter_eq_nil_iff]
  intro t _
  simp only [Bool.and_eq_true, decide_eq_true_eq, not_and]
  omega

theorem behind_eq_append (h : Ordered ts) (hab : a ≤ b) : behind ts a = between ts a b ++ behind ts b := by
  obtain ⟨hwide, hapart⟩ := h
  induction hapart with
  | nil => rfl
  | @cons t rest hrest _ ih =>
      obtain ⟨ht, hwide⟩ := List.forall_mem_cons.1 hwide
      have ih := ih hwide
      by_cases hb : b ≤ t.start
      · -- what follows stands behind as well, so that nothing lies between
        have hall : ∀ u ∈ t :: rest, b ≤ u.start :=
          List.forall_mem_cons.2 ⟨hb, fun u hu => by have := hrest u hu; omega⟩
        have hbetween : between (t :: rest) a b = [] := by
          rw [between, List.filter_eq_nil_iff]
          intro u hu
          have := hall u hu
          simp only [Bool.and_eq_true, decide_eq_true_eq, not_and]
          omega
        rw [hbetween, List.nil_append, behind, behind, List.filter_congr]
        intro u hu
        have := hall u hu
        simp only [decide_eq_decide]
        omega
      · have hnot : behind (t :: rest) b = behind rest b := List.filter_cons_of_neg (by simpa using hb)
        by_cases ha : a ≤ t.start
        · have hbehind : behind (t :: rest) a = t :: behind rest a :=
            List.filter_cons_of_pos (by simpa using ha)
          have hbetween : between (t :: rest) a b = t :: between rest a b :=
            List.filter_cons_of_pos (by simp only [Bool.and_eq_true, decide_eq_true_eq]; omega)
          rw [hbehind, hbetween, hnot, ih, List.cons_append]
        · have hbehind : behind (t :: rest) a = behind rest a := List.filter_cons_of_neg (by simpa using ha)
          have hbetween : between (t :: rest) a b = between rest a b :=
            List.filter_cons_of_neg (by simp only [Bool.and_eq_true, decide_eq_true_eq]; omega)
          rw [hbehind, hbetween, hnot, ih]

/-- The range from the start of a token to the end of another holds what stands from the one to the other. -/
theorem between_eq (h : Ordered (before ++ seg ++ after)) (hfirst : seg.head? = some first)
    (hlast : seg.getLast? = some last) : between (before ++ seg ++ after) first.start last.stop = seg := by
  obtain ⟨hwide, hapart⟩ := h
  obtain ⟨hleft, -, hafter⟩ := List.pairwise_append.1 hapart
  obtain ⟨-, hseg, hbefore⟩ := List.pairwise_append.1 hleft
  have hmem : first ∈ seg := List.mem_of_head? hfirst
  have hmem' : last ∈ seg := List.mem_of_getLast? hlast
  have hwide' : ∀ t ∈ seg, t.start < t.stop := fun t ht => hwide t (by simp [ht])
  have hfrom : ∀ t ∈ seg, first.start ≤ t.start := by
    obtain ⟨rest, rfl⟩ := List.head?_eq_some_iff.1 hfirst
    have := hwide' first hmem
    refine List.forall_mem_cons.2 ⟨Nat.le_refl _, fun t ht => ?_⟩
    have := (List.pairwise_cons.1 hseg).1 t ht
    omega
  have hto : ∀ t ∈ seg, t.start < last.stop := by
    obtain ⟨rest, rfl⟩ := List.getLast?_eq_some_iff.1 hlast
    intro t ht
    have := hwide' last hmem'
    rcases List.mem_append.1 ht with ht' | ht'
    · have := (List.pairwise_append.1 hseg).2.2 t ht' last (by simp)
      have := hwide' t ht
      omega
    · rw [List.mem_singleton.1 ht']
      exact this
  simp only [between, List.filter_append]
  have hnone : before.filter (fun t => first.start ≤ t.start && t.start < last.stop) = [] := by
    rw [List.filter_eq_nil_iff]
    intro t ht
    have := hbefore t ht first hmem
    have := hwide t (by simp [ht])
    simp only [Bool.and_eq_true, decide_eq_true_eq, not_and]
    omega
  have hnone' : after.filter (fun t => first.start ≤ t.start && t.start < last.stop) = [] := by
    rw [List.filter_eq_nil_iff]
    intro t ht
    have := hafter last (by simp [hmem']) t ht
    simp only [Bool.and_eq_true, decide_eq_true_eq, not_and]
    omega
  rw [hnone, hnone', List.nil_append, List.append_nil, List.filter_eq_self]
  intro t ht
  simp [hfrom t ht, hto t ht]

/-! ### Stretches of a level -/

namespace Piece

theorem head?_tokens (p : Piece) : p.tokens.head? = some p.head := by
  obtain ⟨rest, hrest⟩ := p.exists_tokens
  rw [hrest, List.head?_cons]

theorem getLast?_tokens (p : Piece) : p.tokens.getLast? = some p.last := by
  cases p with
  | token t => rfl
  | group o c inner => rw [tokens, List.getLast?_concat]; rfl

end Piece

/-- The tokens of some pieces that stand side by side are those of the range that the pieces take. -/
theorem between_of_infix {ps : List Piece} {p q : Piece} (h : Ordered ts) (hamong : Piece.allTokens ps <:+: ts)
    (hp : ps.head? = some p) (hq : ps.getLast? = some q) :
    between ts p.head.start q.last.stop = Piece.allTokens ps := by
  obtain ⟨before, after, rfl⟩ := hamong
  refine between_eq h ?_ ?_
  · obtain ⟨rest, rfl⟩ := List.head?_eq_some_iff.1 hp
    rw [Piece.allTokens, List.head?_append, p.head?_tokens]
    rfl
  · obtain ⟨rest, rfl⟩ := List.getLast?_eq_some_iff.1 hq
    have hlast : Piece.allTokens [q] = q.tokens := by simp [Piece.allTokens]
    rw [Piece.allTokens_append, hlast, List.getLast?_append, q.getLast?_tokens]
    rfl

end StaticGql.Scan
