import StaticGql.Scan.Lexer

/-!
Tokens nested by their brackets. A forest is a list of pieces, each a token or a bracketed group,
and exists exactly where the brackets of a text are well nested.
-/

namespace StaticGql.Scan

inductive Piece where
  | token (t : Token)
  | group (opening closing : Token) (inner : List Piece)

namespace Piece

/-- The first token. -/
def head : Piece → Token
  | token t => t
  | group o _ _ => o

def last : Piece → Token
  | token t => t
  | group _ c _ => c

mutual

/-- The number of tokens. -/
def size : Piece → Nat
  | token _ => 1
  | group _ _ inner => sizes inner + 2

def sizes : List Piece → Nat
  | [] => 0
  | p :: ps => size p + sizes ps

end

mutual

def tokens : Piece → List Token
  | token t => [t]
  | group o c inner => o :: allTokens inner ++ [c]

def allTokens : List Piece → List Token
  | [] => []
  | p :: ps => tokens p ++ allTokens ps

end

end Piece

/-- Pairing up brackets. `stack` holds the open ones with what came before each on its level, and
`level` the present level; both lists are in reverse. The error is the offset of the bracket that
has no partner. -/
def nest : List Token → List (Token × List Piece) → List Piece → Except Nat (List Piece)
  | [], [], level => .ok level.reverse
  | [], (o, _) :: _, _ => .error o.start
  | t :: ts, stack, level =>
    if t.kind.isOpen then nest ts ((t, level) :: stack) []
    else if t.kind.isClose then
      match stack with
      | [] => .error t.start
      | (o, outer) :: stack =>
        if o.kind.closer? = some t.kind then nest ts stack (.group o t level.reverse :: outer)
        else .error t.start
    else nest ts stack (.token t :: level)

def forest (text : String) : Except Nat (List Piece) := nest (tokens text) [] []

end StaticGql.Scan
