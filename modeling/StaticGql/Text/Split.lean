/-!
Positions in a text: byte offsets, lines and columns. Lines end at a line feed only; both counts
start at one.

White space, as Unicode defines it.

Looking for one text inside another.

Cutting a text at every occurrence of one character, and joining the parts again.
-/

namespace StaticGql

/-- A range of bytes with the line and the column of its start. -/
structure Span where
  start : Nat
  stop : Nat
  line : Nat
  column : Nat
  deriving DecidableEq, Repr, Inhabited

namespace Span

def length (s : Span) : Nat := s.stop - s.start

def isEmpty (s : Span) : Bool := s.length = 0

end Span

namespace Text

def byteSize : List Char → Nat
  | [] => 0
  | c :: cs => c.utf8Size + byteSize cs

/-- The offsets just after each line feed, counted from `at`. -/
def breaks (start : Nat) : List Char → List Nat
  | [] => []
  | c :: cs =>
    let next := start + c.utf8Size
    if c = '\n' then next :: breaks next cs else breaks next cs

/-- Where the lines of a text start. -/
structure Lines where
  starts : List Nat

namespace Lines

def ofText (text : String) : Lines := ⟨0 :: breaks 0 text.toList⟩

/-- The number of the line that holds an offset, and where that line starts; `line` and `from` are
those of the lines passed so far. -/
def locate (offset : Nat) : List Nat → Nat → Nat → Nat × Nat
  | [], line, start => (line, start)
  | s :: rest, line, start =>
    if s ≤ offset then locate offset rest (line + 1) s else (line, start)

def span (lines : Lines) (start stop : Nat) : Span :=
  let (line, first) := locate start lines.starts 0 0
  ⟨start, stop, line, start - first + 1⟩

end Lines
end Text
end StaticGql

namespace StaticGql.Text

/-- The characters with the property `White_Space`. -/
def isSpace (c : Char) : Bool :=
  let n := c.toNat
  (9 ≤ n && n ≤ 13) || n = 32 || n = 0x85 || n = 0xA0 || n = 0x1680 ||
    (0x2000 ≤ n && n ≤ 0x200A) || n = 0x2028 || n = 0x2029 || n = 0x202F || n = 0x205F ||
    n = 0x3000

theorem isSpace_of_isWhitespace {c : Char} (h : c.isWhitespace) : isSpace c := by
  simp only [Char.isWhitespace, Bool.or_eq_true, decide_eq_true_eq] at h
  rcases h with ((h | h) | h) | h <;> subst h <;> decide

def isBlank (s : String) : Bool := s.toList.all isSpace

def withoutSpace (s : String) : String := String.ofList (s.toList.filter fun c => !isSpace c)

def occurs (part : List Char) : List Char → Bool
  | [] => part.isEmpty
  | c :: cs => part.isPrefixOf (c :: cs) || occurs part cs

/-- Whether `part` occurs in a text; the empty text occurs in every one. -/
def contains (text part : String) : Bool := occurs part.toList text.toList

theorem occurs_eq_true_iff {part cs : List Char} : occurs part cs = true ↔ part <:+: cs := by
  induction cs with
  | nil => cases part <;> simp [occurs]
  | cons c cs ih =>
    simp [occurs, ih, List.infix_cons_iff]

/-- The parts between the occurrences of `sep`; there is always at least one. -/
def splitOn (sep : Char) : List Char → List (List Char)
  | [] => [[]]
  | c :: cs =>
    if c = sep then [] :: splitOn sep cs
    else
      match splitOn sep cs with
      | [] => [[c]]
      | part :: parts => (c :: part) :: parts

def joinWith (sep : List Char) : List (List Char) → List Char
  | [] => []
  | [part] => part
  | part :: parts => part ++ sep ++ joinWith sep parts

theorem splitOn_ne_nil (sep : Char) (cs : List Char) : splitOn sep cs ≠ [] := by
  cases cs with
  | nil => simp [splitOn]
  | cons c cs =>
    simp only [splitOn]
    split
    · simp
    · split <;> simp

theorem joinWith_splitOn (sep : Char) (cs : List Char) :
    joinWith [sep] (splitOn sep cs) = cs := by
  induction cs with
  | nil => rfl
  | cons c cs ih =>
    have hne := splitOn_ne_nil sep cs
    cases hs : splitOn sep cs with
    | nil => exact absurd hs hne
    | cons part parts =>
      rw [hs] at ih
      by_cases hc : c = sep
      · subst hc
        simp [splitOn, hs, joinWith, ih]
      · cases parts with
        | nil => simp_all [splitOn, joinWith]
        | cons p ps => simp_all [splitOn, joinWith]

end StaticGql.Text
