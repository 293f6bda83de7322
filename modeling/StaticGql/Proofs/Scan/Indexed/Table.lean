import StaticGql.Scan.Walk
import StaticGql.Text.Edits

/-!
A scan by numbers: tokens as ranges of bytes in a table, and brackets with the numbers of their
partners. Every access is checked, so that a scan that goes astray ends in a fault.
-/

namespace StaticGql.Scan.Indexed

/-- What a scan by numbers must not come to. -/
inductive Fault where
  /-- There is no token of that number. -/
  | noToken (index : Nat)
  /-- The token of that number has no partner. -/
  | noPartner (index : Nat)
  /-- A text is cut elsewhere than between two characters. -/
  | noCut (start stop : Nat)
  /-- A loop goes on for longer than there are tokens. -/
  | endless
  deriving DecidableEq, Repr

abbrev Checked := Except Fault

/-- A computation that is made only where a condition holds, and what stands for it elsewhere. -/
def given {α : Type} (condition : Bool) (m : Checked α) (a : α) : Checked α := if condition then m else .ok a

/-- The characters of a text between two offsets. -/
def slice (text : List Char) (start stop : Nat) : Checked (List Char) :=
  match Text.slice? text start stop with
  | some cs => .ok cs
  | none => .error (.noCut start stop)

/-- The characters of a text from an offset on. -/
def sliceFrom (text : List Char) (start : Nat) : Checked (List Char) :=
  match Text.dropBytes? start text with
  | some cs => .ok cs
  | none => .error (.noCut start (Text.byteSize text))

/-! ### Tokens as ranges of bytes -/

/-- A token as it is cut off. -/
structure Mark where
  kind : TokenKind
  start : Nat
  stop : Nat
  deriving DecidableEq, Repr

/-- The first place of a text where a block comment ends, in bytes. -/
def commentEnd? : List Char → Option Nat
  | '*' :: '/' :: _ => some 0
  | c :: cs => (commentEnd? cs).map (c.utf8Size + ·)
  | [] => none

/-- The length in bytes of a regular expression and its flags behind the opening slash of `rest`, from
the offset `pos` on. -/
def regexEnd? (rest : List Char) : Nat → Bool → List Char → Checked (Option Nat)
  | _, _, [] => .ok none
  | pos, inClass, '\\' :: c :: cs =>
    if c = '\n' || c = '\r' then .ok none
    else regexEnd? rest (pos + 1 + c.utf8Size) inClass cs
  | pos, inClass, c :: cs =>
    if c = '\n' || c = '\r' || c = '\\' then .ok none
    else if c = '/' && !inClass then do
      let flags ← sliceFrom rest (pos + 1)
      return some (pos + 1 + Text.byteSize (flags.takeWhile isWordPart))
    else
      regexEnd? rest (pos + c.utf8Size) (if c = '[' then true else if c = ']' then false else inClass) cs

/-- Whether a slash behind the given token opens a regular expression. -/
def opensRegex (text : List Char) : Option Mark → Checked Bool
  | none => .ok true
  | some m =>
    match m.kind with
    | .word => do return String.ofList (← slice text m.start m.stop) ∈ wordsBeforeRegex
    | .operator => do return (← slice text m.start m.stop).getLast? ≠ some '<'
    | .str | .template | .number | .regex | .closeParen | .closeBracket => .ok false
    | _ => .ok true

/-- The kind of what a slash begins, and how many bytes it takes behind the slash. -/
def cutSlash (text rest : List Char) (previous : Option Mark) : Checked (Option TokenKind × Nat) := do
  if rest.head? = some '/' then return (none, Text.byteSize (rest.takeWhile (· ≠ '\n')))
  else if rest.head? = some '*' then
    return (none, match commentEnd? (← sliceFrom rest 1) with
      | some n => n + 3
      | none => Text.byteSize rest)
  else
    let regex ← given (← opensRegex text previous) (regexEnd? rest 0 false rest) none
    return match regex with
      | some n => (some .regex, n)
      | none => (some .slash, if rest.head? = some '=' then 1 else 0)

/-- The kind of what begins with `c` at an offset, and how many bytes it takes behind `c`. -/
def cutOne (text : List Char) (start : Nat) (previous : Option Mark) (c : Char) (cs : List Char) :
    Checked (Option TokenKind × Nat) :=
  if c = '/' then do cutSlash text (← sliceFrom text (start + 1)) previous
  else .ok ((munch none c cs).1, Text.byteSize (cs.take (munch none c cs).2))

/-- The tokens of a text from an offset on. Every cut lies between two characters. -/
def cutFrom (text : List Char) : Nat → Nat → Option Mark → Checked (List Mark)
  | 0, _, _ => .error .endless
  | fuel + 1, start, previous => do
    match ← sliceFrom text start with
    | [] => return []
    | c :: cs =>
      let (kind?, length) ← cutOne text start previous c cs
      let stop := start + c.utf8Size + length
      match kind? with
      | none => cutFrom text fuel stop previous
      | some kind => return ⟨kind, start, stop⟩ :: (← cutFrom text fuel stop (some ⟨kind, start, stop⟩))

def markAt (marks : List Mark) (i : Nat) : Checked Mark :=
  match marks[i]? with
  | some m => .ok m
  | none => .error (.noToken i)

/-- Writes down a partner. -/
def pairUp (partners : List (Option Nat)) (i j : Nat) : Checked (List (Option Nat)) :=
  if i < partners.length then .ok (partners.set i (some j)) else .error (.noToken i)

/-- Pairs up the brackets from the `i`-th token on; `opened` are the numbers of those still open. The
error is the offset of a bracket without a partner. -/
def pairFrom (marks : List Mark) (i : Nat) (partners : List (Option Nat)) (opened : List Nat) :
    List Mark → Checked (Except Nat (List (Option Nat)))
  | [] =>
    match opened with
    | [] => .ok (.ok partners)
    | o :: _ => do return .error (← markAt marks o).start
  | m :: rest =>
    if m.kind.isOpen then pairFrom marks (i + 1) partners (i :: opened) rest
    else if m.kind.isClose then
      match opened with
      | [] => .ok (.error m.start)
      | o :: opened => do
        if (← markAt marks o).kind.closer? = some m.kind then
          let partners ← pairUp (← pairUp partners o i) i o
          pairFrom marks (i + 1) partners opened rest
        else return .error m.start
    else pairFrom marks (i + 1) partners opened rest

/-- The tokens of a text with the partners of its brackets. -/
structure Table where
  text : List Char
  marks : List Mark
  partners : List (Option Nat)

/-- The table of a text, or the offset of a bracket without a partner. -/
def Table.ofText (text : String) : Checked (Except Nat Table) := do
  let marks ← cutFrom text.toList (Text.byteSize text.toList + 1) 0 none
  match ← pairFrom marks 0 (List.replicate marks.length none) [] marks with
  | .ok partners => return .ok ⟨text.toList, marks, partners⟩
  | .error offset => return .error offset

/-! ### Reading a table -/

namespace Table

variable (s : Table)

/-- More than any loop over tokens takes. -/
def fuel : Nat := s.marks.length + 1

def mark (i : Nat) : Checked Mark := markAt s.marks i

def partner (i : Nat) : Checked Nat :=
  match s.partners[i]? with
  | some (some j) => .ok j
  | _ => .error (.noPartner i)

def kind? (i : Nat) : Option TokenKind := (s.marks[i]?).map (·.kind)

def is (k : TokenKind) (i : Nat) : Bool := s.kind? i = some k

def isOpen (i : Nat) : Bool := (s.kind? i).any TokenKind.isOpen

/-- The text of a token, nothing where there is none. -/
def textAt (i : Nat) : Checked String :=
  match s.marks[i]? with
  | some m => do return String.ofList (← slice s.text m.start m.stop)
  | none => .ok ""

def isWord (w : String) (i : Nat) : Checked Bool := given (s.is .word i) (do return (← s.textAt i) = w) false

def isOperator (op : String) (i : Nat) : Checked Bool :=
  given (s.is .operator i) (do return (← s.textAt i) = op) false

/-- The word at a number, if there is one. -/
def word? (i : Nat) : Checked (Option String) :=
  if s.is .word i then do return some (← s.textAt i) else .ok none

def previous? (i : Nat) : Option TokenKind := if i = 0 then none else s.kind? (i - 1)

/-- Whether the word before is `w`. -/
def follows (w : String) (i : Nat) : Checked Bool := given (0 < i) (s.isWord w (i - 1)) false

def isMember (i : Nat) : Bool := s.previous? i = some .dot || s.previous? i = some .optionalDot

/-- Whether a line break separates a token from the one before it. -/
def startsLine (i : Nat) : Checked Bool :=
  if i = 0 then .ok true
  else do
    let before ← s.mark (i - 1)
    let here ← s.mark i
    return (← slice s.text before.stop here.start).any (· = '\n')

/-- Whether an opening brace begins an object and no block. -/
def opensObject (i : Nat) : Checked Bool :=
  match s.previous? i with
  | some .word => do return (← s.textAt (i - 1)) ∈ wordsBeforeObject
  | some .assign | some .openParen | some .comma | some .colon | some .openBracket
  | some .question | some .ellipsis | some .operator => .ok true
  | _ => .ok false

/-! ### Going through a table -/

/-- The number behind the partner of a bracket. -/
def past (i : Nat) : Checked Nat := do return (← s.partner i) + 1

/-- Whether a range consists of one group of a kind. -/
def spans (k : TokenKind) (start stop : Nat) : Checked Bool :=
  given (s.is k start) (do return (← s.past start) = stop) false

/-- Over one token, or over a bracket with all up to its partner. -/
def skip (i : Nat) : Checked Nat := given (s.isOpen i) (s.past i) (i + 1)

/-- The first number before `stop` where a condition holds, or else where the range ends. -/
def seek (stops : Nat → Checked Bool) (stop : Nat) : Nat → Nat → Checked Nat
  | 0, _ => .error .endless
  | fuel + 1, i =>
    if i < stop then do
      if ← stops i then return i else seek stops stop fuel (← s.skip i)
    else .ok i

def find (stops : Nat → Checked Bool) (stop i : Nat) : Checked Nat := s.seek stops stop s.fuel i

def findKind (kinds : List TokenKind) (stop i : Nat) : Checked Nat :=
  s.find (fun j => .ok (kinds.any (s.is · j))) stop i

def splitFrom (stop : Nat) : Nat → Nat → Nat → Checked (List (Nat × Nat))
  | 0, _, _ => .error .endless
  | fuel + 1, first, i =>
    if i < stop then
      if s.is .comma i then do return (first, i) :: (← splitFrom stop fuel (i + 1) (i + 1))
      else do splitFrom stop fuel first (← s.skip i)
    else .ok (if first < stop then [(first, stop)] else [])

/-- The parts of a range between its commas; an empty last part does not count. -/
def split (start stop : Nat) : Checked (List (Nat × Nat)) := s.splitFrom stop s.fuel start start

def typeArgumentsFrom : Nat → Int → Nat → Checked (Option Nat)
  | 0, _, _ => .error .endless
  | fuel + 1, depth, i =>
    match s.kind? i with
    | none => .ok none
    | some k =>
      if k = .operator ∨ k = .arrow then do
        let depth := depth + Place.angles (← s.textAt i)
        if depth ≤ 0 then return if depth = 0 then some (i + 1) else none
        else typeArgumentsFrom fuel depth (i + 1)
      else if k.isOpen then do typeArgumentsFrom fuel depth (← s.past i)
      else if k ∈ [.word, .dot, .comma, .str, .number, .colon, .question] then
        typeArgumentsFrom fuel depth (i + 1)
      else .ok none

/-- The number behind type arguments whose angle brackets balance. -/
def typeArguments? (i : Nat) : Checked (Option Nat) := do
  if ← given (s.is .operator i) (do return (← s.textAt i).startsWith "<") false then
    s.typeArgumentsFrom s.fuel 0 i
  else return none

def skipTypeArguments (i : Nat) : Checked Nat := do return (← s.typeArguments? i).getD i

def arrowAfterType : Nat → Nat → Checked Bool
  | 0, _ => .error .endless
  | fuel + 1, i =>
    match s.kind? i with
    | none => .ok false
    | some k =>
      if k = .arrow then .ok true
      else if k ∈ [.word, .dot, .operator, .str, .number] then arrowAfterType fuel (i + 1)
      else if k.isOpen then do arrowAfterType fuel (← s.past i)
      else .ok false

/-- Whether the parenthesis of this number closes the parameters of an arrow function. -/
def closesArrowParameters (i : Nat) : Checked Bool :=
  if s.is .arrow (i + 1) then .ok true
  else if s.is .colon (i + 1) then s.arrowAfterType s.fuel (i + 2)
  else .ok false

def chainFrom : Nat → Nat → Checked (List String × Nat)
  | 0, _ => .error .endless
  | fuel + 1, i =>
    if s.is .dot i && s.is .word (i + 1) then do
      let name ← s.textAt (i + 1)
      let (names, next) ← chainFrom fuel (i + 2)
      return (name :: names, next)
    else .ok ([], i)

/-- The names of a chain `a.b.c` that begins here, and the number behind it. -/
def chain (i : Nat) : Checked (List String × Nat) := do
  let name ← s.textAt i
  let (names, next) ← s.chainFrom s.fuel (i + 1)
  return (name :: names, next)

def endsStatement (stopAtComma : Bool) (start i : Nat) : Checked Bool :=
  if s.is .semicolon i || (stopAtComma && s.is .comma i) then .ok true
  else if s.is .word i && start < i then do
    if ← s.startsLine i then return (← s.textAt i) ∈ blockWords && !s.isMember i
    else return false
  else .ok false

/-- Where the statement that begins here ends: at a semicolon, at the next line that begins a
statement, or, if asked for, at a comma. -/
def statementEnd (stopAtComma : Bool) (stop start : Nat) : Checked Nat := do
  return min (← s.find (s.endsStatement stopAtComma start) stop start) stop

end Table
end StaticGql.Scan.Indexed
