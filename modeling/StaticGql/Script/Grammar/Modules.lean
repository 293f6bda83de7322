import StaticGql.Script.Grammar.Statements

/-!
Import and export statements.
-/

namespace StaticGql.Script.Grammar

open Parse

variable (elements : Bool) (sub : Reader)

def quotedTree : Parse Tree := named .quoted do pure (← quoted, [])

/-- The name of what is exported: any word, or a text. -/
def exportedName : Parse Tree := valueName <|> quotedTree

/-- The names in a specifier. A first `type` is a mark unless it is itself the name. -/
def specifierNames : List Tree → Option (Tree × Tree)
  | [n] => some (n, n)
  | [t, n] => if t.text = "type" then some (n, n) else none
  | [n, w, m] => if w.text = "as" then some (n, m) else none
  | [t, n, w, m] => if t.text = "type" ∧ w.text = "as" then some (n, m) else none
  | _ => none

def specifier (make : Tree → Tree → Parse Tree) : Parse Tree := do
  match specifierNames (← many exportedName) with
  | some (n, m) => make n m
  | none => failure

def source : Parse Tree := do
  keyword "from"
  quotedTree

/-- What the importing program says on the kind of a module. -/
def attributes? : Parse Unit :=
  discard <| optional do
    keyword "with" <|> (do sameLine; keyword "assert")
    discard (objectLiteral sub)

/-! ### Imports -/

def importDefault : Parse Tree := named .importDefault do pure (← name, [])

def importAll : Parse Tree :=
  named .importAll do
    sign "*"
    keyword "as"
    pure (← name, [])

def importNames : Parse (List Tree) := do
  sign "\x7b"
  commas (sign "\x7d") do
    let start ← cursor
    specifier fun n m => close start .importName m.text [n]

def importClause : Parse (List Tree) := do
  let first ← optional importDefault
  match first with
  | none => (do pure [← importAll]) <|> importNames
  | some d =>
    let more ← optional do
      sign ","
      (do pure [← importAll]) <|> importNames
    pure (d :: more.getD [])

/-- A name for a module or for a part of a namespace. -/
def importAlias : Parse Tree :=
  tree .statement do
    keyword "import"
    discard (optional (do keyword "type"; require (← ahead name)))
    discard name
    sign "="
    discard (expression sub)
    semicolon
    pure []

def importBinding : Parse Tree :=
  tree .importStatement do
    keyword "import"
    let clause (p : Parse Unit) : Parse (List Tree) := do
      p
      let specifiers ← importClause
      let s ← source
      pure (s :: specifiers)
    let parts ← clause (pure ()) <|> clause (keyword "type")
    attributes? sub
    semicolon
    pure parts

def importEffect : Parse Tree :=
  tree .importStatement do
    keyword "import"
    let s ← quotedTree
    attributes? sub
    semicolon
    pure [s]

def importStatement : Parse Tree := importEffect sub <|> importBinding sub <|> importAlias sub

/-! ### Exports -/

def exportNames : Parse Tree :=
  tree .exportNames do
    keyword "export"
    discard (optional (keyword "type"))
    sign "\x7b"
    let names ← commas (sign "\x7d") do
      let start ← cursor
      specifier fun n m => close start .exportName "" [n, m]
    let s ← optional do
      let s ← source
      attributes? sub
      pure s
    semicolon
    pure (s.toList ++ names)

def exportAll : Parse Tree := do
  let start ← cursor
  keyword "export"
  discard (optional (keyword "type"))
  sign "*"
  let n ← optional do
    keyword "as"
    exportedName
  let s ← source
  attributes? sub
  semicolon
  match n with
  | some n => close start .exportAllAs "" [s, n]
  | none => close start .exportAll "" [s]

/-- What is exported whole, a global name for the module, or an alias: none names an export. -/
def exportWhole : Parse Tree :=
  tree .statement do
    keyword "export"
    (do
      sign "="
      discard (expression sub)
      semicolon) <|> (do
      keyword "as"
      keyword "namespace"
      discard name
      semicolon) <|> discard (importAlias sub)
    pure []

def defaultValue : Parse Tree :=
  interfaceDeclaration sub <|> functionDeclaration sub <|> classDeclaration sub
    <|> (named .functionExpression do
      discard <| optional do
        keyword "async"
        sameLine
      keyword "function"
      discard (optional (sign "*"))
      pure ("", ← functionRest sub))
    <|> terminated (assigned sub)

def exportDefault : Parse Tree :=
  tree .exportDefault do
    keyword "export"
    keyword "default"
    pure [← defaultValue sub]

def exportDeclaration : Parse Tree :=
  tree .exportDeclaration do
    discard (many (decorator sub .decorator))
    keyword "export"
    pure [← declaration sub]

def exportStatement : Parse Tree :=
  exportDefault sub <|> exportNames sub <|> exportAll sub <|> exportDeclaration sub
    <|> exportWhole sub

/-! ### All statements -/

def contextual (p : Parse Tree) : Parse Tree :=
  p <|> labelled sub <|> expressionStatement sub

def statement : Parse Tree := do
  let w ← peekWord
  match w with
  | none =>
    let c ← cursor
    match c.rest.head? with
    | some '{' => block sub
    | some ';' => emptyStatement
    | some '@' => exportDeclaration sub <|> namedClass sub
    | _ => expressionStatement sub
  | some "import" => importStatement sub <|> expressionStatement sub
  | some "export" => exportStatement sub
  | some "var" => terminated (variablesIn sub false)
  | some "const" => enumDeclaration sub <|> terminated (variablesIn sub false)
  | some "let" => contextual sub (terminated (variablesIn sub false))
  | some "function" => functionDeclaration sub
  | some "async" => contextual sub (functionDeclaration sub)
  | some "class" => namedClass sub
  | some "if" => conditionalStatement sub
  | some "for" => iterationStatement sub <|> countedStatement sub
  | some "while" | some "with" => whileStatement sub
  | some "do" => doStatement sub
  | some "switch" => switchStatement sub
  | some "try" => tryStatement sub
  | some "return" => returnStatement sub
  | some "throw" => throwStatement sub
  | some "break" | some "continue" | some "debugger" => jumpStatement
  | some "enum" => enumDeclaration sub
  | some "abstract" => contextual sub (namedClass sub)
  | some "interface" | some "type" | some "namespace" | some "module" =>
    contextual sub (typeDeclaration sub)
  | some "declare" => contextual sub (ambientDeclaration sub)
  | some "await" | some "using" => contextual sub (terminated (resource sub))
  | some _ => contextual sub failure

end StaticGql.Script.Grammar
