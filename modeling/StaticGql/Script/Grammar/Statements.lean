import StaticGql.Script.Grammar.Expressions

/-!
Statements and declarations. Words that are keywords in some places only are first taken for
keywords, then for names.
-/

namespace StaticGql.Script.Grammar

open Parse

variable (sub : Reader)

/-! ### Variables -/

def declarator (noIn : Bool) : Parse Tree :=
  tree .declarator do
    let target ← sub .binding
    discard (optional (sign "!"))
    ofType? sub
    let value ← optional do
      sign "="
      sub (.assignment ⟨noIn, false⟩)
    pure (target :: value.toList)

def variableWord : Parse Unit :=
  discard (keywords ["var", "const"]) <|> (do
    keyword "let"
    require (← ahead (sub .binding)))

def variablesIn (noIn : Bool) : Parse Tree :=
  tree .variableList do
    variableWord sub
    let first ← declarator sub noIn
    let more ← many do
      sign ","
      declarator sub noIn
    pure (first :: more)

/-- A resource that is given back at the end of its block; it enters no name. -/
def resource : Parse Tree :=
  tree .statement do
    discard <| optional do
      keyword "await"
      sameLine
    keyword "using"
    sameLine
    discard name
    ofType? sub
    sign "="
    pure [← assigned sub]

def terminated (p : Parse Tree) : Parse Tree := do
  let t ← p
  semicolon
  pure t

/-! ### Declarations -/

def functionDeclaration : Parse Tree :=
  named .function do
    discard <| optional do
      keyword "async"
      sameLine
    keyword "function"
    discard (optional (sign "*"))
    let n ← name
    pure (n, ← functionRest sub)

def classDeclaration : Parse Tree :=
  named .classDeclaration do
    let decorators ← many (decorator sub .decorator)
    discard <| optional do
      keyword "abstract"
      sameLine
    let (n, parts) ← classRest sub
    pure (n, decorators ++ parts)

def namedClass : Parse Tree := do
  let t ← classDeclaration sub
  require (t.text ≠ "")
  pure t

def interfaceDeclaration : Parse Tree :=
  named .interface do
    keyword "interface"
    sameLine
    let n ← name
    typeParameters? sub
    let bases ← optional do
      keyword "extends"
      let first ← typeNames sub
      let more ← many do
        sign ","
        typeNames sub
      pure (first ++ more.flatten)
    let start ← cursor
    let bases ← close start .typeNames "" (bases.getD [])
    pure (n, bases :: (← typeMembers sub))

def aliasDeclaration : Parse Tree :=
  named .alias do
    keyword "type"
    sameLine
    let n ← name
    typeParameters? sub
    sign "="
    let t ← sub .type
    pure (n, [t])

def enumMember : Parse Tree :=
  named .enumMember do
    let k ← key sub
    let value ← optional do
      sign "="
      assigned sub
    pure (keyText k, value.toList)

def enumDeclaration : Parse Tree :=
  named .enumeration do
    discard (optional (keyword "const"))
    keyword "enum"
    let n ← name
    sign "\x7b"
    pure (n, ← commas (sign "\x7d") (enumMember sub))

def namespaceDeclaration : Parse Tree :=
  tree .namespace do
    discard (keywords ["namespace", "module"])
    sameLine
    discard quoted <|> do
      discard name
      discard qualifiers
    let body ← optional (block sub)
    if body.isNone then semicolon
    pure body.toList

def globalDeclaration : Parse Tree :=
  tree .namespace do
    keyword "global"
    pure [← block sub]

def typeDeclaration : Parse Tree :=
  interfaceDeclaration sub <|> terminated (aliasDeclaration sub) <|> enumDeclaration sub
    <|> namespaceDeclaration sub

def plainDeclaration : Parse Tree :=
  typeDeclaration sub <|> terminated (variablesIn sub false) <|> functionDeclaration sub
    <|> namedClass sub

def ambientDeclaration : Parse Tree :=
  tree .ambient do
    keyword "declare"
    sameLine
    pure [← plainDeclaration sub <|> globalDeclaration sub]

def declaration : Parse Tree := plainDeclaration sub <|> ambientDeclaration sub

/-! ### Control -/

def condition : Parse Tree := do
  sign "("
  let e ← expression sub
  sign ")"
  pure e

def conditionalStatement : Parse Tree :=
  tree .statement do
    keyword "if"
    let c ← condition sub
    let yes ← sub .statement
    let no ← optional do
      keyword "else"
      sub .statement
    pure (c :: yes :: no.toList)

/-- The head of a loop over the entries of something. -/
def iterationHead : Parse (List Tree) := do
  let declared : Parse Tree :=
    tree .loopBinding do
      variableWord sub <|> discard (keywords ["using"])
      pure [← sub .binding]
  let target : Parse Tree := do
    let t ← sub .head
    pure t.asPattern
  (do
    let t ← declared <|> target
    keyword "of"
    let e ← assigned sub
    pure [t, e]) <|> do
    let t ← declared <|> target
    keyword "in"
    let e ← expression sub
    pure [t, e]

def iterationStatement : Parse Tree :=
  tree .iteration do
    keyword "for"
    discard (optional (keyword "await"))
    sign "("
    let l ← iterationHead sub
    sign ")"
    pure (l ++ [← sub .statement])

def countedStatement : Parse Tree :=
  tree .statement do
    keyword "for"
    sign "("
    let first ← optional (variablesIn sub true <|> expressionIn sub ⟨true, false⟩)
    sign ";"
    let test ← optional (expression sub)
    sign ";"
    let step ← optional (expression sub)
    sign ")"
    pure (first.toList ++ test.toList ++ step.toList ++ [← sub .statement])

def whileStatement : Parse Tree :=
  tree .statement do
    discard (keywords ["while", "with"])
    let c ← condition sub
    pure [c, ← sub .statement]

def doStatement : Parse Tree :=
  tree .doWhile do
    keyword "do"
    let body ← sub .statement
    keyword "while"
    let c ← condition sub
    discard (optional (sign ";"))
    pure [body, c]

def caseOf : Parse (List Tree) := do
  let test ← (do
    keyword "case"
    pure [← expression sub]) <|> (do
    keyword "default"
    pure [])
  sign ":"
  let body ← many do
    require (!(← ahead (keywords ["case", "default"])))
    sub .statement
  pure (test ++ body)

def switchStatement : Parse Tree :=
  tree .statement do
    keyword "switch"
    let subject ← condition sub
    sign "\x7b"
    let cases ← upTo (sign "\x7d") (caseOf sub)
    pure (subject :: cases.flatten)

def catchClause : Parse (List Tree) := do
  keyword "catch"
  let parameter ← optional <| tree .catchParameter do
    sign "("
    let target ← sub .binding
    ofType? sub
    sign ")"
    pure [target]
  pure (parameter.toList ++ [← block sub])

def tryStatement : Parse Tree :=
  tree .statement do
    keyword "try"
    let body ← block sub
    let handler ← optional (catchClause sub)
    let last ← optional do
      keyword "finally"
      block sub
    require (handler.isSome || last.isSome)
    pure (body :: handler.getD [] ++ last.toList)

def returnStatement : Parse Tree :=
  tree .result do
    keyword "return"
    let value ← optional do
      sameLine
      expression sub
    semicolon
    pure value.toList

def throwStatement : Parse Tree :=
  tree .statement do
    keyword "throw"
    sameLine
    let value ← expression sub
    semicolon
    pure [value]

/-- A jump to a label or out of a loop holds no name. -/
def jumpStatement : Parse Tree :=
  tree .statement do
    discard (keywords ["break", "continue", "debugger"])
    discard <| optional do
      sameLine
      name
    semicolon
    pure []

def labelled : Parse Tree :=
  tree .statement do
    discard name
    sign ":"
    pure [← sub .statement]

def emptyStatement : Parse Tree :=
  tree .statement do
    sign ";"
    pure []

def expressionStatement : Parse Tree :=
  tree .statement do
    let e ← expression sub
    semicolon
    pure [e]

end StaticGql.Script.Grammar
