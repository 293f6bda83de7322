import StaticGql.Script.Grammar.Goal

/-!
Types. Of a type only the names that stand for values are kept.
-/

namespace StaticGql.Script.Grammar

open Parse

variable (sub : Reader)

def valueName : Parse Tree := named .identifier do pure (← word, [])

/-- The names behind a first one, each after a dot. -/
def qualifiers : Parse (List Unit) :=
  many do
    sign "."
    discard (word <|> (do char '#'; word))

def quotedType : Parse (List Tree) := do
  discard quoted
  pure []

def numberType : Parse (List Tree) := do
  discard (optional (sign "-"))
  discard number
  pure []

/-- What stands between the holes of a template: characters and escapes. -/
def templateText : List Char → Nat
  | '\\' :: _ :: cs => templateText cs + 2
  | '\x60' :: _ | '$' :: '{' :: _ | [] => 0
  | _ :: cs => templateText cs + 1

def skipTemplateText : Parse Unit := fun c => some ((), c.raw (templateText c.rest))

/-- A back quote, without what is blank after it. -/
def openTemplate : Parse Unit := fun c =>
  if c.rest.head? = some '\x60' then some ((), c.raw 1) else none

def closeHole : Parse Unit := fun c =>
  if c.rest.head? = some '}' then some ((), c.raw 1) else none

def openHole : Parse Unit := fun c =>
  if ['$', '{'].isPrefixOf c.rest then some ((), c.advance 2) else none

/-- A template with holes of some kind. -/
def template (hole : Parse Tree) : Parse (List Tree) := do
  openTemplate
  skipTemplateText
  upTo (char '\x60') do
    openHole
    let t ← hole
    closeHole
    skipTemplateText
    pure t

def templateType : Parse (List Tree) := do
  let holes ← template (sub .type)
  pure (holes.flatMap (·.children))

def importType : Parse (List Tree) := do
  keyword "import"
  sign "("
  skipType sub
  discard <| optional do
    sign ","
    discard (assigned sub)
  sign ")"
  discard qualifiers
  typeArguments? sub
  pure []

def queryType : Parse (List Tree) := do
  keyword "typeof"
  importType sub <|> do
    let n ← valueName
    discard qualifiers
    discard (optional (do sameLine; typeArguments sub))
    pure [n]

/-- Whether something is of a type, or that it is. -/
def predicateType : Parse (List Tree) := do
  discard (optional (do keyword "asserts"; sameLine; require (← ahead word)))
  let n ← valueName
  sameLine
  keyword "is"
  pure (n :: (← typeNames sub))

def assertionType : Parse (List Tree) := do
  keyword "asserts"
  sameLine
  pure [← valueName]

def wordTypes : List String := ["void", "null", "this", "true", "false"]

def namedType : Parse (List Tree) := do
  let start ← cursor
  let w ← word
  require (w ∈ wordTypes || w ∉ reserved)
  let n ← close start .identifier w []
  let further ← qualifiers
  discard (optional (do sameLine; typeArguments sub))
  pure (if further.isEmpty then [] else [n])

def tupleEntry : Parse (List Tree) := do
  discard (optional (sign "..."))
  (do
    let n ← valueName
    discard (optional (sign "?"))
    sign ":"
    pure (n :: (← typeNames sub))) <|> do
    let t ← typeNames sub
    discard (optional (sign "?"))
    pure t

def tupleType : Parse (List Tree) := do
  sign "["
  let groups ← commas (sign "]") (tupleEntry sub)
  pure groups.flatten

/-! ### Members of object types -/

def separator : Parse Unit := sign "," <|> semicolon

def plusOrMinus : Parse Unit := discard (anySign ["+", "-"])

/-- A member under a name that ranges over keys, or one for each key of a type. -/
def indexMember : Parse Tree :=
  tree .indexSignature do
    discard (optional plusOrMinus)
    discard (optional (do keyword "readonly"; require (← ahead (sign "["))))
    sign "["
    let n ← valueName
    let names ← (do ofType sub; pure [n]) <|> do
      keyword "in"
      let l ← typeNames sub
      discard <| optional do
        keyword "as"
        skipType sub
      pure l
    sign "]"
    discard (optional plusOrMinus)
    discard (optional (sign "?"))
    ofType? sub
    pure names

def methodSignature : Parse (List Tree) := do
  typeParameters? sub
  let ps ← parameters sub .signatureParameters
  ofType? sub
  pure [ps]

def callMember : Parse Tree :=
  named .signature do
    discard (optional (keyword "new"))
    pure ("", ← methodSignature sub)

def keyText (k : Tree) : String :=
  match k.node with
  | .propertyName => k.text
  | _ => ""

def propertyMember (modifiers : List String) : Parse Tree :=
  named .signature do
    unless modifiers.isEmpty do discard (keywords modifiers)
    let k ← key sub
    discard (optional (sign "?"))
    let rest ← methodSignature sub <|> (do ofType? sub; pure [])
    let keyParts := match k.node with | .computed => [k] | _ => []
    pure (keyText k, keyParts ++ rest)

def typeMember : Parse Tree := do
  let m ← indexMember sub <|> callMember sub <|> propertyMember sub ["get", "set", "readonly"]
    <|> propertyMember sub []
  separator
  pure m

def typeMembers : Parse (List Tree) := do
  sign "\x7b"
  upTo (sign "\x7d") (typeMember sub)

/-- Of an object type only the keys that are computed, and ranging names, count. -/
def objectType : Parse (List Tree) := do
  let members ← typeMembers sub
  pure (members.flatMap fun m =>
    match m.node with
    | .indexSignature => m.children
    | _ => m.children.filter fun c => c.node = .computed)

/-! ### Composed types -/

def parenType : Parse (List Tree) := do
  sign "("
  let t ← typeNames sub
  sign ")"
  pure t

def functionType : Parse (List Tree) := do
  discard (optional (do keyword "abstract"; require (← ahead (keyword "new"))))
  discard (optional (keyword "new"))
  typeParameters? sub
  discard (parameters sub .parameters)
  sign "=>"
  typeNames sub

def primaryType : Parse (List Tree) :=
  quotedType <|> numberType <|> templateType sub <|> objectType sub <|> tupleType sub
    <|> parenType sub <|> queryType sub <|> importType sub <|> namedType sub

/-- Brackets behind a type: a list of it, or what it has under a key. -/
def typeSuffix : Parse (List Tree) := do
  sameLine
  sign "["
  let k ← optional (typeNames sub)
  sign "]"
  pure (k.getD [])

def suffixedType : Parse (List Tree) := do
  let t ← primaryType sub
  let l ← many (typeSuffix sub)
  pure (t ++ l.flatten)

def typeOperators : List String := ["keyof", "unique", "readonly"]

/-- A type to be found. Where it is no bound itself, a question mark behind what seems its bound
makes that the bound of a choice. -/
def inferredType (inBound : Bool) : Parse (List Tree) := do
  keyword "infer"
  discard name
  discard <| optional do
    keyword "extends"
    skipType sub
    require (inBound || !(← ahead (sign "?")))
  pure []

def operatorTypeFrom (inBound : Bool) : Nat → Parse (List Tree)
  | 0 => failure
  | fuel + 1 =>
    (do discard (keywords typeOperators); operatorTypeFrom inBound fuel)
      <|> inferredType sub inBound <|> suffixedType sub

def operatorType (inBound : Bool) : Parse (List Tree) := fun c =>
  operatorTypeFrom sub inBound (c.rest.length + 1) c

/-- Types joined by one sign, which may also stand first. -/
def joinedType (s : String) (p : Parse (List Tree)) : Parse (List Tree) := do
  discard (optional (sign s))
  let first ← p
  let l ← many do
    sign s
    p
  pure (first ++ l.flatten)

def unionType (inBound : Bool) : Parse (List Tree) :=
  functionType sub
    <|> joinedType "|" (joinedType "&" (functionType sub <|> operatorType sub inBound))

def conditionalType : Parse (List Tree) := do
  let t ← unionType sub false
  let further ← optional do
    sameLine
    keyword "extends"
    let bound ← unionType sub true
    sign "?"
    let yes ← typeNames sub
    sign ":"
    let no ← typeNames sub
    pure (bound ++ yes ++ no)
  pure (t ++ further.getD [])

def type : Parse Tree :=
  tree .typeNames (predicateType sub <|> assertionType <|> conditionalType sub)

end StaticGql.Script.Grammar
