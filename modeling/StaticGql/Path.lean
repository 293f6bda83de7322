import StaticGql.Text.Split

/-!
File paths as text. A path is brought to one normal form without asking a file system, so that
every spelling of a file has the same name on every machine. A root is `/`, a drive `X:` or a
drive with its slash `X:/`.
-/

namespace StaticGql.Path

abbrev Segment := List Char

def unify (p : String) : List Char := p.toList.map fun c => if c = '\\' then '/' else c

/-- The root a path starts at, and what follows it. -/
def splitRoot : List Char → List Char × List Char
  | '/' :: rest => (['/'], rest)
  | [c, ':'] => if c.isAlpha then ([c, ':'], []) else ([], [c, ':'])
  | c :: ':' :: '/' :: rest =>
    if c.isAlpha then ([c, ':', '/'], rest) else ([], c :: ':' :: '/' :: rest)
  | cs => ([], cs)

/-- One segment on the stack of those kept so far, innermost first. -/
def push (rooted : Bool) (kept : List Segment) (segment : Segment) : List Segment :=
  if segment = [] ∨ segment = ['.'] then kept
  else if segment = ['.', '.'] then
    match kept with
    | [] => if rooted then [] else [segment]
    | last :: rest =>
      if last = ['.', '.'] then (if rooted then kept else segment :: kept) else rest
  else segment :: kept

def resolveSegments (rooted : Bool) (segments : List Segment) : List Segment :=
  (segments.foldl (push rooted) []).reverse

def slash : List Char := ['/']

def normalizeChars (cs : List Char) : List Char :=
  let (root, rest) := splitRoot cs
  let joined := Text.joinWith slash (resolveSegments (!root.isEmpty) (Text.splitOn '/' rest))
  if root.isEmpty && joined.isEmpty then ['.'] else root ++ joined

/-- The normal form: forward slashes, no `.`, no empty segment, `..` only in front of a path
without a root. -/
def normalize (p : String) : String := String.ofList (normalizeChars (unify p))

def isAbsolute (p : String) : Bool := !(splitRoot (unify p)).1.isEmpty

/-- `p` below the directory `base`; an absolute `p` stands for itself. -/
def join (base p : String) : String :=
  if isAbsolute p then normalize p else normalize (base ++ "/" ++ p)

def segments (p : String) : List Segment :=
  (Text.splitOn '/' (normalize p).toList).filter (· ≠ [])

/-- What is left of two lists after their common beginning. -/
def dropCommon : List Segment → List Segment → List Segment × List Segment
  | a :: as, b :: bs => if a = b then dropCommon as bs else (a :: as, b :: bs)
  | as, bs => (as, bs)

/-- `p` as seen from `root`, climbing with `..` where it lies outside. -/
def relativeTo (p root : String) : String :=
  let (down, up) := dropCommon (segments p) (segments root)
  let parts := up.map (fun _ => ['.', '.']) ++ down
  if parts.isEmpty then "." else String.ofList (Text.joinWith slash parts)

/-- The directory that holds `p`; none for a bare root. -/
def parent? (p : String) : Option String :=
  let (root, rest) := splitRoot (normalizeChars (unify p))
  match (Text.splitOn '/' rest).reverse with
  | _ :: s :: before =>
    some (String.ofList (root ++ Text.joinWith slash (s :: before).reverse))
  | _ =>
    if rest.isEmpty then none
    else if root.isEmpty then some "."
    else some (String.ofList root)

/-! ### Components

Paths taken as they are written: no `..` is resolved and a backslash is a character like any
other. Repeated slashes, a slash at the end and `.` make no component, except for a `.` that a
relative path starts with.
-/

def bodySegments (cs : List Char) : List Segment :=
  (Text.splitOn '/' cs).filter fun s => s ≠ [] ∧ s ≠ ['.']

/-- The components of a path; a root is one by itself. -/
def components : List Char → List Segment
  | '/' :: cs => slash :: bodySegments cs
  | ['.'] => [['.']]
  | '.' :: '/' :: cs => ['.'] :: bodySegments cs
  | cs => bodySegments cs

def ofComponents : List Segment → String
  | [] => ""
  | c :: rest =>
    String.ofList
      (if c = slash then slash ++ Text.joinWith slash rest else Text.joinWith slash (c :: rest))

/-- The path with its components once each between single slashes. -/
def clean (p : String) : String := ofComponents (components p.toList)

/-- The path without its last component; none where there is none to leave out. -/
def above? (p : String) : Option String :=
  let comps := components p.toList
  if comps = [] ∨ comps = [slash] then none else some (ofComponents comps.dropLast)

def startsAtRoot (p : String) : Bool := p.toList.head? = some '/'

/-- `p` put below `base` without a look at either. -/
def append (base p : String) : String :=
  if startsAtRoot p then p
  else if base.isEmpty || base.toList.getLast? = some '/' then base ++ p
  else base ++ "/" ++ p

/-- Slashes and `.` components dropped from the front. -/
def trimFront : List Char → List Char
  | '/' :: cs => trimFront cs
  | '.' :: '/' :: cs => trimFront cs
  | ['.'] => []
  | cs => cs

/-- The same from the end, on the path in reverse. -/
def trimBack : List Char → List Char
  | '/' :: cs => trimBack cs
  | '.' :: '/' :: cs => trimBack cs
  | cs => cs

def trimEnd (cs : List Char) : List Char := (trimBack cs.reverse).reverse

/-- A path without its first components. -/
def dropComponents : Nat → List Char → List Char
  | 0, cs => trimFront cs
  | n + 1, cs => dropComponents n ((trimFront cs).dropWhile (· ≠ '/'))

/-- What a path has after the components of `root`, as it is written. -/
def belowChars? (root p : List Char) : Option (List Char) :=
  if (components root).isPrefixOf (components p) then
    match components root, p with
    | [], '/' :: cs => some ('/' :: trimEnd cs)
    | [], '.' :: cs => some ('.' :: trimEnd cs)
    | [], cs => some (trimEnd cs)
    | _ :: rest, '/' :: cs => some (trimEnd (dropComponents rest.length cs))
    | _ :: rest, '.' :: '/' :: cs => some (trimEnd (dropComponents rest.length cs))
    | comps, cs => some (trimEnd (dropComponents comps.length cs))
  else none

def below? (root p : String) : Option String :=
  (belowChars? root.toList p.toList).map String.ofList

end StaticGql.Path
