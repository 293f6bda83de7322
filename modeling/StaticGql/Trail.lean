import StaticGql.Dict

/-!
The structural path of a declaration: the names entered on the way to it, joined by dots. A place
without a name is numbered within its file, and a path that repeats gets a suffix.
-/

namespace StaticGql

structure Trail where
  /-- The innermost segment first. -/
  segments : List String
  anonymous : Nat
  /-- How often each path has been asked for. -/
  occurrences : Dict Nat

namespace Trail

def start : Trail := ⟨[], 0, ∅⟩

def enter (t : Trail) (segment : String) : Trail := { t with segments := segment :: t.segments }

def anonymousName (n : Nat) : String := s!"_anonymous_{n}"

def enterAnonymous (t : Trail) : Trail :=
  { t with
    segments := anonymousName t.anonymous :: t.segments
    anonymous := t.anonymous + 1 }

def exit (t : Trail) : Trail := { t with segments := t.segments.tail }

def depth (t : Trail) : Nat := t.segments.length

/-- At most one name encloses a declaration at the top. -/
def isTopLevel (t : Trail) : Bool := t.depth ≤ 1

def numbered (base : String) : Nat → String
  | 0 => base
  | n => s!"{base}${n}"

/-- The path before suffixes, and the trail with the number it may have used up. -/
def base (t : Trail) : String × Trail :=
  if t.segments.isEmpty then (anonymousName t.anonymous, { t with anonymous := t.anonymous + 1 })
  else (".".intercalate t.segments.reverse, t)

def allocate (t : Trail) : String × Trail :=
  let (base, t) := t.base
  let seen := (t.occurrences.get? base).getD 0
  (numbered base seen, { t with occurrences := t.occurrences.insert base (seen + 1) })

end Trail
end StaticGql
