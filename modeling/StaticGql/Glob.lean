/-!
Globs: patterns for paths, matched byte by byte. `?` is any byte and `*` any bytes, slashes
included; `[…]` is one byte of a class, `{…,…}` one of several patterns, and a backslash takes the
next character as it is. Where `**` is a whole component of a path, it is any number of
components, none included; anywhere else it is like `*`.
-/

namespace StaticGql

inductive Glob.Token where
  | literal (c : Char)
  | any
  | star
  /-- `**/` where nothing came before it. -/
  | anyFront
  /-- `/**` where nothing comes after it. -/
  | anyBack
  /-- `/**/` -/
  | anyMiddle
  | class (negated : Bool) (ranges : List (Char × Char))
  | alternates (branches : List (List Glob.Token))

inductive GlobError where
  | unclosedClass
  | invalidRange (low high : Char)
  | unopenedGroup
  | unclosedGroup
  | danglingEscape
  deriving DecidableEq, Repr

namespace GlobError

def message : GlobError → String
  | unclosedClass => "unclosed character class; missing ']'"
  | invalidRange low high => s!"invalid range; '{low}' > '{high}'"
  | unopenedGroup =>
    "unopened alternate group; missing '\x7b' (maybe escape '\x7d' with '[\x7d]'?)"
  | unclosedGroup =>
    "unclosed alternate group; missing '\x7d' (maybe escape '\x7b' with '[\x7b]'?)"
  | danglingEscape => "dangling '\\'"

/-- What is told about a pattern that is no glob. -/
def explain (pattern : String) (e : GlobError) : String :=
  s!"invalid glob '{pattern}': error parsing glob '{pattern}': {e.message}"

end GlobError

structure Glob where
  tokens : List Glob.Token

namespace Glob

/-! ### Reading -/

/-- A group whose closing brace is still to come. -/
structure OpenGroup where
  /-- The branches before the present one, in reverse. -/
  branches : List (List Token)
  /-- What came before the group, in reverse. -/
  outer : List Token

structure Progress where
  /-- The tokens of the present branch, in reverse. -/
  current : List Token
  groups : List OpenGroup

namespace Progress

variable (p : Progress)

def push (t : Token) : Progress := { p with current := t :: p.current }

def inGroup : Bool := !p.groups.isEmpty

def openGroup : Progress := ⟨[], ⟨[], p.current⟩ :: p.groups⟩

/-- A comma means itself where no group is open. -/
def nextBranch : Progress :=
  match p.groups with
  | [] => p.push (.literal ',')
  | g :: groups => ⟨[], ⟨p.current.reverse :: g.branches, g.outer⟩ :: groups⟩

def closeGroup : Except GlobError Progress :=
  match p.groups with
  | [] => .error .unopenedGroup
  | g :: groups =>
    .ok ⟨.alternates (p.current.reverse :: g.branches).reverse :: g.outer, groups⟩

/-- A `**` that takes the slash before it; one after another of its kind adds nothing. -/
def replaceSlash (t : Token) : Progress :=
  match p.current with
  | [] | .anyFront :: _ | .anyBack :: _ => p
  | _ :: before => { p with current := t :: before }

/-- A `**` at the characters beside it, and whether it takes the slash that follows. -/
def doubleStar (previous next : Option Char) : Progress × Bool :=
  let plain := (p.push .star).push .star
  if p.current.isEmpty then
    if next.all (· = '/') then (p.push .anyFront, true) else (plain, false)
  else if previous = some '/' ∨ (p.inGroup ∧ (previous = some ',' ∨ previous = some '\x7b')) then
    if next.isNone ∨ (p.inGroup ∧ (next = some ',' ∨ next = some '\x7d')) then
      (p.replaceSlash .anyBack, false)
    else if next = some '/' then (p.replaceSlash .anyMiddle, true)
    else (plain, false)
  else (plain, false)

end Progress

/-- A class whose closing bracket is still to come. -/
structure OpenClass where
  negated : Bool
  /-- In reverse. -/
  ranges : List (Char × Char)
  /-- The last range has had its hyphen. -/
  inRange : Bool

namespace OpenClass

variable (o : OpenClass)

def single (c : Char) : OpenClass := { o with ranges := (c, c) :: o.ranges }

/-- A character that ends the last range. -/
def extend (c : Char) : Except GlobError OpenClass :=
  match o.ranges with
  | [] => .ok (o.single c)
  | (low, _) :: ranges =>
    if c < low then .error (.invalidRange low c) else .ok ⟨o.negated, (low, c) :: ranges, false⟩

/-- Any character but a bracket that closes the class. -/
def add (c : Char) : Except GlobError OpenClass :=
  if o.ranges.isEmpty then .ok (o.single c)
  else if o.inRange then o.extend c
  else if c = '-' then .ok { o with inRange := true }
  else .ok (o.single c)

/-- A hyphen at the end means itself. -/
def close : Token :=
  .class o.negated ((if o.inRange then ('-', '-') :: o.ranges else o.ranges).reverse)

end OpenClass

mutual

def read (previous : Option Char) (p : Progress) : List Char → Except GlobError Progress
  | [] => .ok p
  | '?' :: cs => read (some '?') (p.push .any) cs
  | ['*'] => .ok (p.push .star)
  | ['*', '*'] => .ok (p.doubleStar previous none).1
  | '*' :: '*' :: c :: cs =>
    let (q, taken) := p.doubleStar previous (some c)
    if taken then read (some '/') q cs else read (some '*') q (c :: cs)
  | '*' :: cs => read (some '*') (p.push .star) cs
  | '[' :: '!' :: cs => readClass p ⟨true, [], false⟩ cs
  | '[' :: '^' :: cs => readClass p ⟨true, [], false⟩ cs
  | '[' :: cs => readClass p ⟨false, [], false⟩ cs
  | '\x7b' :: cs => read (some '\x7b') p.openGroup cs
  | '\x7d' :: cs =>
    match p.closeGroup with
    | .ok q => read (some '\x7d') q cs
    | .error e => .error e
  | ',' :: cs => read (some ',') p.nextBranch cs
  | ['\\'] => .error .danglingEscape
  | '\\' :: c :: cs => read (some c) (p.push (.literal c)) cs
  | c :: cs => read (some c) (p.push (.literal c)) cs

def readClass (p : Progress) (o : OpenClass) : List Char → Except GlobError Progress
  | [] => .error .unclosedClass
  | c :: cs =>
    if c = ']' ∧ !o.ranges.isEmpty then read (some ']') (p.push o.close) cs
    else
      match o.add c with
      | .ok o => readClass p o cs
      | .error e => .error e

end

def parse (pattern : String) : Except GlobError Glob :=
  match read none ⟨[], []⟩ pattern.toList with
  | .error e => .error e
  | .ok p => if p.inGroup then .error .unclosedGroup else .ok ⟨p.current.reverse⟩

/-- The globs of several patterns, or what is wrong with the first that is none. -/
def parseAll (patterns : List String) : Except String (List Glob) :=
  patterns.mapM fun pattern => (parse pattern).mapError (·.explain pattern)

/-! ### Matching -/

abbrev Bytes := List UInt8

def slash : UInt8 := 47

def bytesOf (c : Char) : Bytes := (String.singleton c).toUTF8.toList

/-- A text with every text that it ends with. -/
def tails : Bytes → List Bytes
  | [] => [[]]
  | b :: bs => (b :: bs) :: tails bs

/-- What follows each slash. -/
def afterSlashes : Bytes → List Bytes
  | [] => []
  | b :: bs => if b = slash then bs :: afterSlashes bs else afterSlashes bs

/-- A range of characters as ranges of bytes: every byte but the two at the hyphen stands for
itself. -/
def byteRanges (range : Char × Char) : List (UInt8 × UInt8) :=
  let (low, high) := range
  if low = high then (bytesOf low).map fun b => (b, b)
  else
    match (bytesOf low).reverse, bytesOf high with
    | a :: before, b :: after =>
      (before.reverse.map fun b => (b, b)) ++ (a, b) :: after.map fun b => (b, b)
    | _, _ => []

def inRanges (ranges : List (Char × Char)) (b : UInt8) : Bool :=
  (ranges.flatMap byteRanges).any fun (low, high) => low ≤ b && b ≤ high

def dropLiteral (c : Char) (bs : Bytes) : List Bytes :=
  if (bytesOf c).isPrefixOf bs then [bs.drop (bytesOf c).length] else []

mutual

/-- A branch that is empty, or only groups of empty branches. -/
def isBlank : List Token → Bool
  | [] => true
  | t :: ts => isBlankToken t && isBlank ts

def isBlankToken : Token → Bool
  | .alternates branches => areBlank branches
  | _ => false

def areBlank : List (List Token) → Bool
  | [] => true
  | b :: bs => isBlank b && areBlank bs

end

mutual

/-- What is left of a text after each beginning that a token matches. -/
def restsOf : Token → Bytes → List Bytes
  | .literal c, bs => dropLiteral c bs
  | .any, bs => bs.tail?.toList
  | .star, bs => tails bs
  | .anyFront, bs => bs :: afterSlashes bs
  | .anyBack, b :: bs => if b = slash then tails bs else []
  | .anyBack, [] => []
  | .anyMiddle, b :: bs => if b = slash then bs :: afterSlashes bs else []
  | .anyMiddle, [] => []
  | .class negated ranges, b :: bs => if inRanges ranges b ≠ negated then [bs] else []
  | .class .., [] => []
  | .alternates branches, bs => if areBlank branches then [bs] else restsOfAny branches bs

def restsOfAll : List Token → List Bytes → List Bytes
  | [], rests => rests
  | t :: ts, rests => restsOfAll ts (rests.flatMap (restsOf t)).eraseDups

/-- Empty branches count only where there are no others. -/
def restsOfAny : List (List Token) → Bytes → List Bytes
  | [], _ => []
  | b :: branches, bs =>
    (if isBlank b then [] else restsOfAll b [bs]) ++ restsOfAny branches bs

end

/-- A lone `**` matches everything. -/
def accepts (g : Glob) (path : String) : Bool :=
  match g.tokens with
  | [.anyFront] => true
  | tokens => (restsOfAll tokens [path.toUTF8.toList]).any List.isEmpty

end Glob
end StaticGql
