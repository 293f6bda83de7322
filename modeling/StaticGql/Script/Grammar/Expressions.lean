import StaticGql.Script.Grammar.Types

/-!
Expressions and classes. Operators are read from left to right without regard to which of them
binds tighter: every tree that holds operands is a `compound` all the same.
-/

namespace StaticGql.Script.Grammar

open Parse

-- Where a file may hold elements in angle brackets, types cannot stand there.
variable (elements : Bool) (sub : Reader)

/-- Again and again what extends a tree. -/
def extendFrom (p : Tree → Parse Tree) : Nat → Tree → Parse Tree
  | 0, t => pure t
  | fuel + 1, t => (do extendFrom p fuel (← p t)) <|> pure t

def extend (p : Tree → Parse Tree) (t : Tree) : Parse Tree := fun c =>
  extendFrom p (c.rest.length + 1) t c

/-- Expressions parted by commas, of which there may be one. -/
def expressionIn (place : Place) : Parse Tree := do
  let start ← cursor
  let first ← sub (.assignment place)
  let more ← many do
    sign ","
    sub (.assignment place)
  if more.isEmpty then pure first else close start .compound "," (first :: more)

def expression : Parse Tree := expressionIn sub .plain

/-! ### Lists of expressions -/

def spread : Parse Tree :=
  tree .spread do
    sign "..."
    pure [← assigned sub]

def item : Parse Tree := spread sub <|> assigned sub

def arguments : Parse Tree :=
  tree .arguments do
    sign "("
    commas (sign ")") (item sub)

def arrayLiteral : Parse Tree :=
  tree .array do
    sign "["
    entries (item sub)

def paren : Parse Tree :=
  tree .paren do
    sign "("
    let e ← expression sub
    sign ")"
    pure [e]

def templateLiteral : Parse Tree := tree .template (template (expression sub))

/-! ### Objects -/

/-- The marks before the key of a method. -/
def methodMarks : Parse Unit :=
  discard (keywords ["get", "set"]) <|> (do
    keyword "async"
    sameLine
    discard (optional (sign "*"))) <|> sign "*" <|> pure ()

def methodKey : Parse Tree := tree .methodKey do pure [← key sub]

def methodMember : Parse Tree :=
  let rest : Parse (List Tree) := do
    let k ← methodKey sub
    pure (k :: (← functionRest sub))
  tree .method (do methodMarks; rest) <|> tree .method rest

def pairMember : Parse Tree :=
  tree .pair do
    let k ← key sub
    sign ":"
    pure [k, ← assigned sub]

def shorthandMember : Parse Tree :=
  named .shorthand do
    let n ← name
    let value ← optional do
      sign "="
      assigned sub
    pure (n, value.toList)

def objectLiteral : Parse Tree :=
  tree .object do
    sign "\x7b"
    commas (sign "\x7d") (spread sub <|> pairMember sub <|> methodMember sub <|> shorthandMember sub)

/-! ### Functions and classes -/

def functionExpression : Parse Tree :=
  named .functionExpression do
    discard <| optional do
      keyword "async"
      sameLine
    keyword "function"
    discard (optional (sign "*"))
    let n ← optional name
    let ps ← functionRest sub
    require (ps.length = 2)
    pure (n.getD "", ps)

def heritage : Parse (List Tree) := do
  let parents ← optional <| tree .heritage do
    keyword "extends"
    let parent ← sub .head
    typeArguments? sub
    pure [parent]
  let interfaces ← optional <| tree .typeNames do
    keyword "implements"
    let first ← typeNames sub
    let more ← many do
      sign ","
      typeNames sub
    pure (first ++ more.flatten)
  pure (parents.toList ++ interfaces.toList)

/-- Words that may stand before the key of a member of a class. -/
def memberModifiers : List String :=
  ["declare", "abstract", "public", "private", "protected", "static", "readonly", "override",
    "accessor"]

/-- What may follow a modifier: a key, or a mark before one. -/
def beforeKey : Parse Unit :=
  discard word <|> discard quoted <|> discard number
    <|> discard (do let s ← peekSign; require (s ∈ [some "[", some "#", some "*"]))

def modifiers : Parse Unit :=
  discard <| many do
    discard (keywords memberModifiers)
    require (← ahead beforeKey)

def staticBlock : Parse Tree := do
  keyword "static"
  block sub

def indexSignature : Parse Tree := do
  let m ← indexMember sub
  separator
  pure m

def methodOfClass : Parse Tree :=
  let rest : Parse (List Tree) := do
    let k ← methodKey sub
    discard (optional (anySign ["?", "!"]))
    pure (k :: (← functionRest sub))
  tree .method do
    let decorators ← many (decorator sub .methodDecorator)
    modifiers
    pure (decorators ++ (← (do methodMarks; rest) <|> rest))

def fieldOfClass : Parse Tree :=
  tree .field do
    let decorators ← many (decorator sub .decorator)
    modifiers
    let k ← key sub
    discard (optional (anySign ["?", "!"]))
    ofType? sub
    let value ← optional do
      sign "="
      assigned sub
    semicolon
    pure (decorators ++ k :: value.toList)

def classMember : Parse (List Tree) :=
  (do sign ";"; pure []) <|> (do
    pure [← staticBlock sub <|> (do modifiers; indexSignature sub) <|> methodOfClass sub
      <|> fieldOfClass sub])

def classBody : Parse Tree :=
  tree .classBody do
    sign "\x7b"
    let members ← upTo (sign "\x7d") (classMember sub)
    pure members.flatten

def className : Parse String := do
  let n ← name
  require (n ≠ "implements")
  pure n

/-- The name, the heritage and the body of a class. -/
def classRest : Parse (String × List Tree) := do
  keyword "class"
  let n ← optional className
  typeParameters? sub
  let h ← heritage sub
  pure (n.getD "", h ++ [← classBody sub])

def classExpression : Parse Tree :=
  named .classExpression do
    let decorators ← many (decorator sub .decorator)
    let (n, parts) ← classRest sub
    pure (n, decorators ++ parts)

def arrowBody (place : Place) : Parse Tree := block sub <|> sub (.assignment place)

/-- Parameters, and the type of what is returned, up to the arrow. -/
def arrowHead (place : Place) : Parse Tree := do
  let ps ← parameters sub .parameters
  unless place.bareArrows do ofType? sub
  pure ps

def singleParameter : Parse Tree :=
  tree .parameters do pure [← named .bindingName do pure (← name, [])]

/-- In a file with elements, type parameters show by a bound or a comma. -/
def arrowTypeParameters : Parse Unit := do
  let shown ← ahead do
    char '<'
    discard (optional (keyword "const"))
    discard name
    keyword "extends" <|> sign ","
  require (!elements || shown)
  typeParameters sub

def arrow (place : Place) : Parse Tree :=
  let single : Parse Tree := do
    let p ← singleParameter
    sameLine
    pure p
  let full : Parse Tree := do
    discard (optional (arrowTypeParameters elements sub))
    arrowHead sub place
  let headed (p : Parse Tree) : Parse (List Tree) := do
    let ps ← p
    sameLine
    sign "=>"
    pure [ps, ← arrowBody sub place]
  tree .arrow <| (do keyword "async"; sameLine; headed (full <|> single)) <|> headed single
    <|> headed full

/-! ### Elements in angle brackets -/

def tagWord : Parse String :=
  lexeme fun cs =>
    match cs with
    | c :: rest => if isWordStart c then 1 + Scan.run (fun c => isWordPart c || c = '-') rest else 0
    | [] => 0

/-- The name of an element: a name, a chain of members, or a name within a name space. -/
def tagName : Parse (List Tree) := do
  let t ← named .identifier do pure (← tagWord, [])
  let members ← many do
    sign "."
    discard tagWord
  let colon ← optional do
    sign ":"
    discard tagWord
  pure (if members.isEmpty && colon.isSome then [] else [t])

def tagText : List Char → Nat
  | q :: cs =>
    if q = '"' ∨ q = '\'' then
      let n := Scan.run (· ≠ q) cs
      if n < cs.length then n + 2 else 0
    else 0
  | [] => 0

def inBraces (p : Parse (List Tree)) : Parse (List Tree) := do
  sign "\x7b"
  let l ← p
  closeHole
  pure l

/-- An element, without what is blank after it. -/
def elementValue : Parse (List Tree) := do
  let e ← sub .element
  modify Cursor.skip
  pure [e]

def tagProperty : Parse (List Tree) :=
  (do
    let l ← inBraces do pure [← spread sub]
    modify Cursor.skip
    pure l) <|> do
    discard tagWord
    discard <| optional do
      sign ":"
      discard tagWord
    let value ← optional do
      sign "="
      (do discard (lexeme tagText); pure []) <|> (do
        let l ← inBraces do pure [← expression sub]
        modify Cursor.skip
        pure l) <|> elementValue sub
    pure (value.getD [])

def elementText : List Char → Nat := fun cs => Scan.run (fun c => c ≠ '{' && c ≠ '<') cs

def skipElementText : Parse Unit := fun c => some ((), c.raw (elementText c.rest))

def closeAngle : Parse Unit := fun c =>
  if c.rest.head? = some '>' then some ((), c.raw 1) else none

def endTag : Parse (List Tree) := do
  char '<'
  char '/'
  let n ← optional tagName
  closeAngle
  pure (n.getD [])

def child : Parse (List Tree) :=
  (inBraces do pure (← optional (spread sub <|> expression sub)).toList)
    <|> (do pure [← sub .element])

/-- The end tag must be seen before another element is tried. -/
def children : Parse (List Tree) := do
  skipElementText
  let groups ← many do
    require (!(← ahead endTag))
    let l ← child sub
    skipElementText
    pure l
  pure (groups.flatten ++ (← endTag))

def element : Parse Tree :=
  tree .compound do
    char '<'
    let n ← optional tagName
    typeArguments? sub
    let properties ← match n with
      | some _ => many (tagProperty sub)
      | none => pure []
    let parts := n.getD [] ++ properties.flatten
    (do
      char '/'
      closeAngle
      require n.isSome
      pure parts) <|> do
      closeAngle
      pure (parts ++ (← children sub))

/-! ### Operands -/

def atomWords : List String := ["this", "super", "null", "true", "false"]

def identifier : Parse Tree := named .identifier do pure (← name, [])

/-- What a name stands before in brackets, or a target of `new` or of `import`. -/
def metaProperty (w : String) : Parse Tree :=
  named .atom do
    keyword w
    sign "."
    discard word
    pure ("", [])

/-- A member of a value, its call left aside. -/
def memberOf (start : Cursor) (t : Tree) : Parse Tree :=
  (do
    sign "."
    (do let w ← word; close start .member w [t]) <|> do
      char '#'
      discard word
      close start .access "" [t]) <|> (do
    let k ← bracketed'
    close start .access "" [t, k]) <|> (do
    sameLine
    sign "!"
    close start .compound "!" [t]) <|> do
    let text ← templateLiteral sub
    close start .tagged "" [t, text]
where
  bracketed' : Parse Tree := do
    sign "["
    let e ← expression sub
    sign "]"
    pure e

def optionalMember (start : Cursor) (t : Tree) : Parse Tree := do
  sign "?."
  (do
    typeArguments? sub
    let l ← arguments sub
    close start .optionalCall "" [t, l]) <|> (do
    sign "["
    let e ← expression sub
    sign "]"
    close start .access "" [t, e]) <|> do
    discard (optional (char '#'))
    discard word
    close start .access "" [t]

/-- Whether types in brackets may end before what comes next. -/
def endsTypeArguments : Parse Bool := fun c =>
  let ends : Bool :=
    match signOf c.rest with
    | some s =>
      if s ∈ ["<", ">", "+", "-"] then false
      else c.freshLine || s ∉ ["(", "[", "\x7b", "!", "~", "++", "--", "@", "/", "#"]
    | none =>
      match word c with
      | some (w, _) => c.freshLine || w ∈ ["instanceof", "in", "as", "satisfies"]
      | none => c.freshLine || c.rest.isEmpty
  some (ends, c)

/-- A call, or a value with types in brackets; a longer sign does not close those. -/
def callOf (start : Cursor) (t : Tree) : Parse Tree :=
  (do
    let l ← arguments sub
    close start .call "" [t, l]) <|> do
    typeArgumentsTo sub (sign ">")
    (do
      let l ← arguments sub
      close start .call "" [t, l]) <|> (do
      let text ← templateLiteral sub
      close start .tagged "" [t, text]) <|> do
      require (← endsTypeArguments)
      close start .compound "<>" [t]

def importCall : Parse Tree := do
  let start ← cursor
  keyword "import"
  let callee ← close start .atom "import" []
  let l ← arguments sub
  close start .call "" [callee, l]

def primaryFrom : Nat → Parse Tree
  | 0 => failure
  | fuel + 1 => do
    let w ← peekWord
    match w with
    | some "function" => functionExpression sub
    | some "async" => functionExpression sub <|> identifier
    | some "class" => classExpression sub
    | some "import" => metaProperty "import" <|> importCall sub
    | some "new" =>
      metaProperty "new" <|> tree .compound do
        keyword "new"
        let start ← cursor
        let callee ← primaryFrom fuel
        let callee ← extend (memberOf sub start) callee
        typeArguments? sub
        let l ← optional (arguments sub)
        pure (callee :: l.toList)
    | some w =>
      if w ∈ atomWords then named .atom do pure (← word, []) else identifier
    | none =>
      let c ← cursor
      match c.rest.head? with
      | some '(' => paren sub
      | some '[' => arrayLiteral sub
      | some '{' => objectLiteral sub
      | some '\x60' => templateLiteral sub
      | some '/' => named .atom do pure (← regex, [])
      | some '@' => classExpression sub
      | some '#' => tree .atom do char '#'; discard word; pure []
      | some '<' =>
        if elements then do
          let e ← sub .element
          modify Cursor.skip
          pure e
        else failure
      | _ =>
        (named .quoted do pure (← quoted, [])) <|> named .number do pure (← number, [])

def primary : Parse Tree := fun c => primaryFrom elements sub (c.rest.length + 1) c

def head : Parse Tree := do
  let start ← cursor
  let t ← primary elements sub
  extend (fun t => memberOf sub start t <|> optionalMember sub start t <|> callOf sub start t) t

def operandWords : List String := ["delete", "void", "typeof"]

def operand : Parse Tree :=
  let signed : Parse Tree :=
    named .unary do
      let s ← anySign ["+", "-", "~", "!"] <|> keywords operandWords
      pure (s, [← sub .operand])
  let stepped : Parse Tree :=
    tree .compound do
      discard (anySign ["++", "--"] <|> keywords ["await"])
      pure [← sub .operand]
  let asserted : Parse Tree :=
    tree .compound do
      require (!elements)
      (do char '<'; keyword "const"; char '>') <|> typeArguments sub
      pure [← sub .operand]
  let plain : Parse Tree := do
    let start ← cursor
    let t ← head elements sub
    let step ← optional do
      sameLine
      anySign ["++", "--"]
    if step.isSome then close start .compound "" [t] else pure t
  signed <|> stepped <|> asserted <|> plain

/-! ### Operators -/

def operators : List String :=
  ["||", "&&", "??", "|", "^", "&", "==", "!=", "===", "!==", "<", ">", "<=", ">=", "<<", ">>",
    ">>>", "+", "-", "*", "/", "%", "**"]

def operator (place : Place) : Parse Unit :=
  discard (anySign operators) <|> keyword "instanceof" <|> (do
    require (!place.noIn)
    keyword "in")

def operation (place : Place) (start : Cursor) (t : Tree) : Parse Tree :=
  (do
    operator place
    let u ← sub .operand
    close start .compound "" [t, u]) <|> do
    sameLine
    discard (keywords ["as", "satisfies"])
    keyword "const" <|> skipType sub
    close start .compound "as" [t]

def operations (place : Place) : Parse Tree := do
  let start ← cursor
  let t ← sub .operand
  extend (operation sub place start) t

/-- A choice. Between question mark and colon an arrow with a type must not take the colon away. -/
def conditional (place : Place) : Parse Tree := do
  let start ← cursor
  let t ← operations sub place
  let branches (bare : Bool) : Parse (List Tree) := do
    sign "?"
    let yes ← sub (.assignment ⟨false, bare⟩)
    sign ":"
    pure [yes, ← sub (.assignment place)]
  let l ← optional (branches false <|> branches true)
  match l with
  | some l => close start .compound "?" (t :: l)
  | none => pure t

def assignments : List String :=
  ["=", "+=", "-=", "*=", "/=", "%=", "**=", "<<=", ">>=", ">>>=", "&=", "|=", "^=", "&&=", "||=",
    "??="]

/-- What can stand left of an equals sign. -/
def isTarget (t : Tree) : Bool :=
  match t.node with
  | .identifier | .member | .access | .array | .object | .paren => true
  | .compound => t.text = "!" || t.text = "as"
  | _ => false

def yielded : Parse Tree :=
  tree .compound do
    keyword "yield"
    let value ← optional do
      sameLine
      discard (optional (sign "*"))
      assigned sub
    pure value.toList

def assignment (place : Place) : Parse Tree :=
  arrow elements sub place <|> yielded sub <|> do
    let start ← cursor
    let target ← conditional sub place
    let assigned ← optional do
      require (isTarget target)
      let op ← anySign assignments
      pure (op, ← sub (.assignment place))
    match assigned with
    | some (op, value) =>
      let target := if op = "=" then target.asPattern else target
      close start .assign op [target, value]
    | none => pure target

end StaticGql.Script.Grammar
