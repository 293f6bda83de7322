import StaticGql.Text.Split

/-!
Byte ranges of a text. A range that does not begin and end between two characters has no text.

Edits of a text: ranges of bytes with what is to stand in their place.
-/

namespace StaticGql.Text

/-- The first `n` bytes and the rest. -/
def splitBytes? : Nat → List Char → Option (List Char × List Char)
  | 0, cs => some ([], cs)
  | _ + 1, [] => none
  | n + 1, c :: cs =>
    if c.utf8Size ≤ n + 1 then
      (splitBytes? (n + 1 - c.utf8Size) cs).map fun (before, after) => (c :: before, after)
    else none
termination_by _ cs => cs.length

def dropBytes? (n : Nat) (cs : List Char) : Option (List Char) := (splitBytes? n cs).map (·.2)

def takeBytes? (n : Nat) (cs : List Char) : Option (List Char) := (splitBytes? n cs).map (·.1)

/-- The characters of the bytes from `start` to `stop`. -/
def slice? (cs : List Char) (start stop : Nat) : Option (List Char) :=
  if start ≤ stop then (dropBytes? start cs).bind (takeBytes? (stop - start)) else none

structure Edit where
  start : Nat
  stop : Nat
  text : String
  deriving DecidableEq, Repr

namespace Edit

def insert (offset : Nat) (text : String) : Edit := ⟨offset, offset, text⟩

def remove (start stop : Nat) : Edit := ⟨start, stop, ""⟩

/-- Edits apply from the front, an insertion before an edit of what follows it. -/
def le (a b : Edit) : Bool := a.start < b.start || (a.start = b.start && a.stop ≤ b.stop)

end Edit

/-- The text from `cursor` on with sorted edits applied; an edit that begins before the cursor or
ends behind the text is dropped. There is no answer where a cut falls inside a character. -/
def applyFrom (source : List Char) (size cursor : Nat) : List Edit → Option (List Char)
  | [] => slice? source cursor size
  | e :: edits =>
    if e.start < cursor ∨ size < e.stop then applyFrom source size cursor edits
    else do
      let kept ← slice? source cursor e.start
      let rest ← applyFrom source size e.stop edits
      some (kept ++ e.text.toList ++ rest)

/-- Edits of one range apply in the order in which they are listed. -/
def applyEdits (source : String) (edits : List Edit) : Option String :=
  let cs := source.toList
  (applyFrom cs (byteSize cs) 0 (edits.mergeSort Edit.le)).map String.ofList

end StaticGql.Text
