import Mathlib.Data.Nat.PSub
import StaticGql.Text.Split

/-!
Lines and columns by the bytes of a text. The line of an offset is counted by the line feeds before it, its column
from behind the last of them. A search by halves among the starts of the lines comes to the same, and neither asks
for a start that is not there nor takes a larger number from a smaller one. Offsets are in the order of their
lines and columns.
-/

namespace StaticGql

namespace Text

variable {bytes bs : List UInt8} {starts passed ahead : List Nat} {offset start first n s : Nat}

/-! ### Line feeds among the bytes of a text -/

def lineFeed : UInt8 := 10

def utf8 (text : String) : List UInt8 := text.toUTF8.data.toList

theorem utf8_eq (text : String) : utf8 text = text.toList.flatMap String.utf8EncodeChar := by
  rw [utf8, String.toUTF8, ← String.utf8Encode_toList, List.utf8Encode, List.toList_data_toByteArray]

/-- A line feed is a byte of no other character. -/
theorem lineFeed_not_mem {c : Char} (h : c ≠ '\n') : lineFeed ∉ String.utf8EncodeChar c := by
  have hval : c.val.toNat ≠ 10 := fun hval => h (Char.ext (UInt32.toNat_inj.1 hval))
  have hbyte : ∀ n, n % 256 ≠ 10 → lineFeed ≠ UInt8.ofNat n := by
    intro n hn heq
    have hnat := congrArg UInt8.toNat heq
    rw [UInt8.toNat_ofNat'] at hnat
    exact hn hnat.symm
  -- All bytes of a character that takes more than one are at least 128.
  rw [String.utf8EncodeChar]
  split_ifs
  all_goals
    simp only [List.mem_cons, List.not_mem_nil, or_false, not_or]
  · exact hbyte _ (by omega)
  · exact ⟨hbyte _ (by omega), hbyte _ (by omega)⟩
  · exact ⟨hbyte _ (by omega), hbyte _ (by omega), hbyte _ (by omega)⟩
  · exact ⟨hbyte _ (by omega), hbyte _ (by omega), hbyte _ (by omega), hbyte _ (by omega)⟩

/-- The offsets behind the line feeds of some bytes, the first of which has the offset `start`. -/
def feeds (start : Nat) : List UInt8 → List Nat
  | [] => []
  | b :: bs => if b = lineFeed then (start + 1) :: feeds (start + 1) bs else feeds (start + 1) bs

theorem feeds_append (h : lineFeed ∉ bs) (start : Nat) (rest : List UInt8) :
    feeds start (bs ++ rest) = feeds (start + bs.length) rest := by
  induction bs generalizing start with
  | nil => rfl
  | cons b bs ih =>
      rw [List.mem_cons, not_or] at h
      rw [List.cons_append, feeds, if_neg (Ne.symm h.1), ih h.2, List.length_cons, Nat.add_right_comm, Nat.add_assoc]

theorem breaks_eq (start : Nat) (cs : List Char) :
    breaks start cs = feeds start (cs.flatMap String.utf8EncodeChar) := by
  induction cs generalizing start with
  | nil => rfl
  | cons c cs ih =>
      rw [breaks, List.flatMap_cons, ih]
      by_cases hc : c = '\n'
      · subst hc
        rfl
      · rw [if_neg hc, feeds_append (lineFeed_not_mem hc), String.length_utf8EncodeChar]

theorem starts_ofText (text : String) : (Lines.ofText text).starts = 0 :: feeds 0 (utf8 text) := by
  rw [Lines.ofText, breaks_eq, utf8_eq]

theorem mem_feeds_iff : s ∈ feeds start bytes ↔ ∃ i, bytes[i]? = some lineFeed ∧ s = start + i + 1 := by
  induction bytes generalizing start with
  | nil => simp [feeds]
  | cons b bs ih =>
      have hsplit : (∃ i, (b :: bs)[i]? = some lineFeed ∧ s = start + i + 1) ↔
          b = lineFeed ∧ s = start + 1 ∨ ∃ i, bs[i]? = some lineFeed ∧ s = start + 1 + i + 1 := by
        constructor
        · rintro ⟨i, hi, rfl⟩
          cases i with
          | zero => exact .inl ⟨by simpa using hi, rfl⟩
          | succ i => exact .inr ⟨i, by simpa using hi, by omega⟩
        · rintro (⟨rfl, rfl⟩ | ⟨i, hi, rfl⟩)
          · exact ⟨0, rfl, rfl⟩
          · exact ⟨i + 1, by simpa using hi, by omega⟩
      rw [feeds, hsplit]
      by_cases hb : b = lineFeed
      · rw [if_pos hb, List.mem_cons, ih]
        simp [hb]
      · rw [if_neg hb, ih]
        simp [hb]

theorem lt_of_mem_feeds (h : s ∈ feeds start bytes) : start < s := by
  obtain ⟨i, -, rfl⟩ := mem_feeds_iff.1 h
  omega

theorem pairwise_feeds (start : Nat) (bytes : List UInt8) : (feeds start bytes).Pairwise (· < ·) := by
  induction bytes generalizing start with
  | nil => exact .nil
  | cons b bs ih =>
      rw [feeds]
      split
      · exact List.pairwise_cons.2 ⟨fun s hs => lt_of_mem_feeds hs, ih (start + 1)⟩
      · exact ih (start + 1)

/-- Up to an offset there are as many of them as there are line feeds before it. -/
theorem length_filter_feeds (start : Nat) (bytes : List UInt8) (n : Nat) :
    ((feeds start bytes).filter (· ≤ start + n)).length = (bytes.take n).count lineFeed := by
  induction bytes generalizing start n with
  | nil => simp [feeds]
  | cons b bs ih =>
      cases n with
      | zero =>
          rw [List.take_zero, List.count_nil, List.length_eq_zero_iff, List.filter_eq_nil_iff]
          intro s hs
          simpa using lt_of_mem_feeds hs
      | succ n =>
          have hrest := ih (start + 1) n
          rw [Nat.add_right_comm, Nat.add_assoc] at hrest
          rw [List.take_succ_cons, List.count_cons, feeds, ← hrest]
          by_cases hb : b = lineFeed
          · rw [if_pos hb, List.filter_cons_of_pos (by simp), List.length_cons, if_pos (by simpa using hb)]
          · rw [if_neg hb, if_neg (by simpa using hb)]
            rfl

/-! ### The start of a line among all of them -/

/-- Numbers split at an offset: those up to it, of which `first` is the last one, and those behind it. -/
structure Splits (starts : List Nat) (offset : Nat) (passed : List Nat) (first : Nat) (ahead : List Nat) : Prop where
  eq : starts = passed ++ first :: ahead
  before : ∀ s ∈ passed, s ≤ first
  le : first ≤ offset
  behind : ∀ s ∈ ahead, offset < s

theorem exists_splits (h : (s :: starts).Pairwise (· < ·)) (hle : s ≤ offset) :
    ∃ passed first ahead, Splits (s :: starts) offset passed first ahead := by
  induction starts generalizing s with
  | nil => exact ⟨[], s, [], rfl, by simp, hle, by simp⟩
  | cons t starts ih =>
      obtain ⟨hs, hrest⟩ := List.pairwise_cons.1 h
      by_cases ht : t ≤ offset
      · obtain ⟨passed, first, ahead, hsplits⟩ := ih hrest ht
        have hfirst : s < first := hs first (by simp [hsplits.eq])
        have heq : s :: t :: starts = (s :: passed) ++ first :: ahead := by rw [hsplits.eq, List.cons_append]
        have hbefore : ∀ u ∈ s :: passed, u ≤ first :=
          List.forall_mem_cons.2 ⟨Nat.le_of_lt hfirst, hsplits.before⟩
        exact ⟨s :: passed, first, ahead, heq, hbefore, hsplits.le, hsplits.behind⟩
      · refine ⟨[], s, t :: starts, rfl, by simp, hle, List.forall_mem_cons.2 ⟨by omega, fun u hu => ?_⟩⟩
        have := (List.pairwise_cons.1 hrest).1 u hu
        omega

theorem exists_splits_ofText (text : String) (offset : Nat) :
    ∃ passed first ahead, Splits (Lines.ofText text).starts offset passed first ahead := by
  rw [starts_ofText]
  apply exists_splits _ (Nat.zero_le offset)
  exact List.pairwise_cons.2 ⟨fun s hs => lt_of_mem_feeds hs, pairwise_feeds 0 _⟩

namespace Splits

theorem filter_eq (h : Splits starts offset passed first ahead) :
    starts.filter (· ≤ offset) = passed ++ [first] := by
  have hpassed : passed.filter (· ≤ offset) = passed :=
    List.filter_eq_self.2 fun s hs => decide_eq_true (Nat.le_trans (h.before s hs) h.le)
  have hahead : ahead.filter (· ≤ offset) = [] :=
    List.filter_eq_nil_iff.2 fun s hs => by simpa using h.behind s hs
  rw [h.eq, List.filter_append, List.filter_cons_of_pos (by simpa using h.le), hpassed, hahead]

theorem locate_eq (h : Splits starts offset passed first ahead) (line start : Nat) :
    Lines.locate offset starts line start = (line + passed.length + 1, first) := by
  obtain ⟨heq, hbefore, hle, hbehind⟩ := h
  subst heq
  induction passed generalizing line start with
  | nil =>
      rw [List.nil_append, Lines.locate, if_pos hle]
      cases ahead with
      | nil => rfl
      | cons t ahead => rw [Lines.locate, if_neg (Nat.not_le.2 (hbehind t List.mem_cons_self))]; rfl
  | cons s passed ih =>
      obtain ⟨hs, hbefore⟩ := List.forall_mem_cons.1 hbefore
      rw [List.cons_append, Lines.locate, if_pos (Nat.le_trans hs hle), ih _ _ hbefore, List.length_cons,
        Nat.add_right_comm line 1, Nat.add_assoc line]

theorem span_eq {lines : Lines} (h : Splits lines.starts start passed first ahead) (stop : Nat) :
    lines.span start stop = ⟨start, stop, passed.length + 1, start - first + 1⟩ := by
  rw [Lines.span, h.locate_eq, Nat.zero_add]

/-- The starts up to the offset are those with the first numbers. -/
theorem le_iff {i : Nat} (h : Splits starts offset passed first ahead) (hi : starts[i]? = some s) :
    s ≤ offset ↔ i ≤ passed.length := by
  rw [h.eq] at hi
  rcases Nat.lt_trichotomy i passed.length with hlt | rfl | hgt
  · rw [List.getElem?_append_left hlt] at hi
    exact iff_of_true (Nat.le_trans (h.before s (List.mem_of_getElem? hi)) h.le) (Nat.le_of_lt hlt)
  · rw [List.getElem?_append_right (Nat.le_refl _), Nat.sub_self] at hi
    obtain rfl : first = s := by simpa using hi
    exact iff_of_true h.le (Nat.le_refl _)
  · obtain ⟨k, rfl⟩ : ∃ k, i = passed.length + (k + 1) := ⟨i - passed.length - 1, by omega⟩
    rw [List.getElem?_append_right (Nat.le_add_right _ _), Nat.add_sub_cancel_left, List.getElem?_cons_succ] at hi
    have := h.behind s (List.mem_of_getElem? hi)
    omega

end Splits

/-! ### A search by halves -/

/-- What a search among increasing numbers comes to. -/
inductive Hit where
  | found (index : Nat)
  /-- The number is not there; it would have to go in at the index. -/
  | missing (index : Nat)

/-- The number of the line that an offset is in. -/
def Hit.line? : Hit → Option Nat
  | found index => some index
  | missing index => index.ppred

/-- The search among the `size` starts from number `base` on. -/
def searchFrom? (starts : List Nat) (offset base size : Nat) : Option Hit :=
  if h : 1 < size then do
    let middle ← starts[base + size / 2]?
    searchFrom? starts offset (if offset < middle then base else base + size / 2) (size - size / 2)
  else do
    let s ← starts[base]?
    return if s = offset then .found base else .missing (if s < offset then base + 1 else base)
termination_by size

def search? (starts : List Nat) (offset : Nat) : Option Hit :=
  if starts.isEmpty then some (.missing 0) else searchFrom? starts offset 0 starts.length

/-- The span by a search, with every look-up and every difference checked. -/
def Lines.lookUp? (lines : Lines) (start stop : Nat) : Option Span := do
  let index ← (← search? lines.starts start).line?
  let first ← lines.starts[index]?
  let column ← start.psub first
  return ⟨start, stop, index + 1, column + 1⟩

namespace Splits

theorem getElem?_first (h : Splits starts offset passed first ahead) : starts[passed.length]? = some first := by
  rw [h.eq, List.getElem?_append_right (Nat.le_refl _), Nat.sub_self]
  rfl

/-- The last start up to the offset stays among those that are searched. -/
theorem searchFrom?_eq {base size : Nat} (h : Splits starts offset passed first ahead) (hbase : base ≤ passed.length)
    (hsize : passed.length < base + size) (hin : base + size ≤ starts.length) :
    searchFrom? starts offset base size =
      some (if first = offset then .found passed.length else .missing (passed.length + 1)) := by
  induction size using Nat.strongRecOn generalizing base with
  | ind size ih =>
      rw [searchFrom?]
      split
      · rename_i hmany
        obtain ⟨middle, hmiddle⟩ : ∃ middle, starts[base + size / 2]? = some middle :=
          ⟨_, List.getElem?_eq_getElem (by omega)⟩
        have hle := h.le_iff hmiddle
        rw [hmiddle, Option.bind_eq_bind, Option.bind_some]
        split
        · exact ih _ (by omega) hbase (by omega) (by omega)
        · exact ih _ (by omega) (by omega) (by omega) (by omega)
      · obtain rfl : base = passed.length := by omega
        rw [h.getElem?_first, Option.bind_eq_bind, Option.bind_some]
        have := h.le
        by_cases hfirst : first = offset
        · rw [if_pos hfirst, if_pos hfirst]
          rfl
        · rw [if_neg hfirst, if_neg hfirst, if_pos (by omega)]
          rfl

theorem lookUp?_eq {lines : Lines} (h : Splits lines.starts start passed first ahead) (stop : Nat) :
    lines.lookUp? start stop = some (lines.span start stop) := by
  have hlength : lines.starts.length = passed.length + (ahead.length + 1) := by rw [h.eq, List.length_append]; rfl
  have hsearch : search? lines.starts start =
      some (if first = start then .found passed.length else .missing (passed.length + 1)) := by
    rw [search?, if_neg (by simp [h.eq])]
    exact h.searchFrom?_eq (Nat.zero_le _) (by omega) (by omega)
  have hline : (if first = start then .found passed.length else .missing (passed.length + 1) : Hit).line? =
      some passed.length := by
    split <;> rfl
  have hcolumn : start.psub first = some (start - first) := Nat.psub_eq_some.2 (Nat.sub_add_cancel h.le)
  simp only [Lines.lookUp?, hsearch, hline, h.getElem?_first, hcolumn, h.span_eq, Option.bind_eq_bind,
    Option.bind_some]
  rfl

end Splits

/-! ### Lines by counting -/

/-- The line that an offset is in starts with the text or behind a line feed, and no other line feed comes before
the offset. -/
structure StartsLine (bytes : List UInt8) (offset first : Nat) : Prop where
  le : first ≤ offset
  start : first = 0 ∨ ∃ i, bytes[i]? = some lineFeed ∧ first = i + 1
  clear : ∀ i, first ≤ i → i < offset → bytes[i]? ≠ some lineFeed

theorem StartsLine.unique {first' : Nat} (h : StartsLine bytes offset first) (h' : StartsLine bytes offset first') :
    first = first' := by
  have hle : ∀ {first first'}, StartsLine bytes offset first → StartsLine bytes offset first' →
      first' ≤ first := by
    intro first first' h h'
    rcases h'.start with rfl | ⟨i, hi, rfl⟩
    · exact Nat.zero_le _
    · by_contra hlt
      exact h.clear i (by omega) h'.le hi
  exact Nat.le_antisymm (hle h' h) (hle h h')

theorem mem_starts_iff {text : String} :
    s ∈ (Lines.ofText text).starts ↔ s = 0 ∨ ∃ i, (utf8 text)[i]? = some lineFeed ∧ s = i + 1 := by
  rw [starts_ofText, List.mem_cons, mem_feeds_iff]
  simp only [Nat.zero_add]

theorem Splits.startsLine {text : String} (h : Splits (Lines.ofText text).starts offset passed first ahead) :
    StartsLine (utf8 text) offset first := by
  refine ⟨h.le, mem_starts_iff.1 (by simp [h.eq]), fun i hfirst hoffset hi => ?_⟩
  -- What such a line feed ends would be followed by one more start up to the offset.
  have hstart : i + 1 ∈ (Lines.ofText text).starts := mem_starts_iff.2 (.inr ⟨i, hi, rfl⟩)
  rw [h.eq, List.mem_append, List.mem_cons] at hstart
  rcases hstart with hpassed | heq | hahead
  · have := h.before _ hpassed
    omega
  · omega
  · have := h.behind _ hahead
    omega

theorem Splits.length_eq {text : String} (h : Splits (Lines.ofText text).starts offset passed first ahead) :
    passed.length = ((utf8 text).take offset).count lineFeed := by
  have hfilter := congrArg List.length h.filter_eq
  have hcount := length_filter_feeds 0 (utf8 text) offset
  rw [Nat.zero_add] at hcount
  rw [starts_ofText, List.filter_cons_of_pos (by simp), List.length_cons, hcount, List.length_append,
    List.length_singleton] at hfilter
  omega

theorem count_take_le {m : Nat} (h : n ≤ m) (bytes : List UInt8) :
    (bytes.take n).count lineFeed ≤ (bytes.take m).count lineFeed :=
  (List.take_prefix_take_left h).sublist.count_le lineFeed

/-- Between two offsets with as many line feeds before them there is none. -/
theorem ne_lineFeed_of_count {m i : Nat} (h : (bytes.take n).count lineFeed = (bytes.take m).count lineFeed)
    (hn : n ≤ i) (hm : i < m) : bytes[i]? ≠ some lineFeed := by
  intro hi
  have hbefore := count_take_le hn bytes
  have hbehind := count_take_le (show i + 1 ≤ m from hm) bytes
  rw [List.take_add_one, hi, List.count_append] at hbehind
  have hone : (some lineFeed).toList.count lineFeed = 1 := rfl
  omega

end Text

/-- The line and the column of the span are those of its start among the bytes of a text. -/
structure Span.IsExact (s : Span) (bytes : List UInt8) : Prop where
  line : s.line = 1 + (bytes.take s.start).count Text.lineFeed
  column : ∃ first, Text.StartsLine bytes s.start first ∧ s.column = 1 + (s.start - first)

theorem Text.Lines.isExact_span (text : String) (start stop : Nat) :
    ((Lines.ofText text).span start stop).IsExact (utf8 text) := by
  obtain ⟨passed, first, ahead, hsplits⟩ := exists_splits_ofText text start
  rw [hsplits.span_eq]
  exact ⟨by rw [hsplits.length_eq, Nat.add_comm], first, hsplits.startsLine, Nat.add_comm ..⟩

example : (Text.Lines.ofText "ab\n\nef").span 3 4 = ⟨3, 4, 2, 1⟩ ∧
    (Text.Lines.ofText "ab\n\nef").span 9 9 = ⟨9, 9, 3, 6⟩ := by
  decide

theorem Text.Lines.lookUp?_ofText (text : String) (start stop : Nat) :
    (Lines.ofText text).lookUp? start stop = some ((Lines.ofText text).span start stop) := by
  obtain ⟨passed, first, ahead, hsplits⟩ := exists_splits_ofText text start
  exact hsplits.lookUp?_eq stop

namespace Span.IsExact

variable {s t : Span} {bytes : List UInt8}

theorem line_le_of_start_le (hs : s.IsExact bytes) (ht : t.IsExact bytes) (h : s.start ≤ t.start) :
    s.line ≤ t.line := by
  rw [hs.line, ht.line]
  exact Nat.add_le_add_left (Text.count_take_le h bytes) 1

/-- On one line columns differ as offsets do. -/
theorem column_add_start (hs : s.IsExact bytes) (ht : t.IsExact bytes) (h : s.start ≤ t.start)
    (hline : s.line = t.line) : s.column + t.start = t.column + s.start := by
  obtain ⟨first, hfirst, hcolumn⟩ := hs.column
  obtain ⟨first', hfirst', hcolumn'⟩ := ht.column
  rw [hs.line, ht.line] at hline
  have hcount := Nat.add_left_cancel hline
  have hle : first' ≤ s.start := by
    rcases hfirst'.start with rfl | ⟨i, hi, rfl⟩
    · exact Nat.zero_le _
    · by_contra hlt
      exact Text.ne_lineFeed_of_count hcount (by omega) hfirst'.le hi
  have hsame : first = first' := hfirst.unique
    ⟨hle, hfirst'.start, fun i hi hstart => hfirst'.clear i hi (Nat.lt_of_lt_of_le hstart h)⟩
  subst hsame
  rw [hcolumn, hcolumn']
  omega

/-- Spans of one text begin in the order of their lines and columns. -/
theorem start_le_iff (hs : s.IsExact bytes) (ht : t.IsExact bytes) :
    s.start ≤ t.start ↔ s.line < t.line ∨ s.line = t.line ∧ s.column ≤ t.column := by
  by_cases hle : s.start ≤ t.start
  · refine iff_of_true hle ?_
    rcases Nat.lt_or_eq_of_le (hs.line_le_of_start_le ht hle) with hlt | heq
    · exact .inl hlt
    · have := hs.column_add_start ht hle heq
      exact .inr ⟨heq, by omega⟩
  · have hge : t.start ≤ s.start := by omega
    have hlines := ht.line_le_of_start_le hs hge
    refine iff_of_false hle ?_
    rintro (hlt | ⟨heq, hcolumns⟩)
    · omega
    · have := ht.column_add_start hs hge heq.symm
      omega

/-- No number of a span is larger than an offset or a size that it is made from, by more than one. -/
theorem bounded (hs : s.IsExact bytes) : s.line ≤ bytes.length + 1 ∧ s.column ≤ s.start + 1 := by
  obtain ⟨first, -, hcolumn⟩ := hs.column
  have hcount := (bytes.take s.start).count_le_length (a := Text.lineFeed)
  have hlength := List.length_take_le' s.start bytes
  rw [hs.line, hcolumn]
  omega

end Span.IsExact
end StaticGql
