import StaticGql.Proofs.Scan.Indexed.Table

/-!
The scan of a text by the numbers of its tokens: imports, literal values, names, marker calls, and the
walk through statements and expressions.
-/

namespace StaticGql.Scan.Indexed

/-- The answers of a task whose steps may end in a fault; `fuel` bounds how deep tasks lead to tasks. -/
def unfold {ε τ : Type} (step : τ → Checked (List (ε ⊕ τ))) : Nat → τ → Checked (List ε)
  | 0, _ => .error .endless
  | fuel + 1, task => do
    let answers ← (← step task).mapM (Sum.elim (fun answer => .ok [answer]) (unfold step fuel))
    return answers.flatten

namespace Table

variable (s : Table)

/-! ### Imports and the clauses of exports -/

/-- A word or a string that names what is imported or exported. -/
def bindingName? (i : Nat) : Checked (Option String) :=
  if s.is .word i then do return some (← s.textAt i)
  else if s.is .str i then do return Literal.string? (← s.textAt i)
  else .ok none

/-- After the source of an import or export: attributes and a semicolon. -/
def clauseTail (i : Nat) : Checked Nat := do
  let marked := (← s.isWord "with" i) || (← s.isWord "assert" i)
  let attributes ← given (marked && s.is .openBrace (i + 1)) (do return !(← s.startsLine i)) false
  let i ← given attributes (s.past (i + 1)) i
  return if s.is .semicolon i then i + 1 else i

/-- `[type] name [as local]` -/
def specifier? (start stop : Nat) : Checked (Option Specifier) := do
  let i := if (← s.isWord "type" start) && start + 1 < stop then start + 1 else start
  match ← s.bindingName? i with
  | none => return none
  | some imported =>
    let renamed := (← s.isWord "as" (i + 1)) && i + 2 < stop
    let localName ← given renamed (s.textAt (i + 2)) imported
    return some ⟨localName, imported⟩

def isImport (i : Nat) : Checked Bool := do
  return (← s.isWord "import" i) && !s.isMember i && !s.is .openParen (i + 1) && !s.is .dot (i + 1)

/-- Over the keyword `type` of an import of types. -/
def skipType (i : Nat) : Checked Nat := do
  let named := (← s.isWord "from" (i + 1)) && s.is .str (i + 2)
  let typed := s.is .word (i + 1) || s.is .openBrace (i + 1) || s.is .operator (i + 1)
  return if (← s.isWord "type" i) && !named && typed then i + 1 else i

/-- The default name of an import, if there is one, and the number behind its comma; none for
`import x = …`. -/
def defaultName? (i : Nat) : Checked (Option (List Specifier × Nat)) := do
  if s.is .word i && !(← s.isWord "from" i) then
    if s.is .assign (i + 1) then return none
    else
      let name ← s.textAt i
      return some ([⟨name, "default"⟩], if s.is .comma (i + 1) then i + 2 else i + 1)
  else return some ([], i)

def otherNames? (i : Nat) : Checked (Option (List Specifier × Nat)) := do
  if ← s.isOperator "*" i then
    if (← s.isWord "as" (i + 1)) && s.is .word (i + 2) then
      return some ([⟨← s.textAt (i + 2), "*"⟩], i + 3)
    else return none
  else if s.is .openBrace i then
    let close ← s.partner i
    let names ← (← s.split (i + 1) close).mapM fun part => s.specifier? part.1 part.2
    return some (names.filterMap id, close + 1)
  else return some ([], i)

/-- The source and the names of the import at a number, and the number behind it. -/
def import? (i : Nat) : Checked (Option (String × List Specifier × Nat)) := do
  let i := i + 1
  if s.is .str i then
    match Literal.string? (← s.textAt i) with
    | none => return none
    | some source => return some (source, [], ← s.clauseTail (i + 1))
  else
    match ← s.defaultName? (← s.skipType i) with
    | none => return none
    | some (first, i) =>
      match ← s.otherNames? i with
      | none => return none
      | some (others, i) =>
        if (← s.isWord "from" i) && s.is .str (i + 1) then
          match Literal.string? (← s.textAt (i + 1)) with
          | none => return none
          | some source => return some (source, first ++ others, ← s.clauseTail (i + 2))
        else return none

def importsFrom : Nat → Nat → Checked (List ImportEvent)
  | 0, _ => .error .endless
  | fuel + 1, i =>
    if i < s.marks.length then
      if s.isOpen i then do importsFrom fuel (← s.past i)
      else do
        if ← s.isImport i then
          match ← s.import? i with
          | some (source, specifiers, next) =>
            let event : ImportEvent := ⟨source, specifiers, (← s.mark i).start, (← s.mark (next - 1)).stop⟩
            return event :: (← importsFrom fuel next)
          | none => importsFrom fuel (i + 1)
        else importsFrom fuel (i + 1)
    else .ok []

/-- The imports of a module, in their order. -/
def imports : Checked (List ImportEvent) := s.importsFrom s.fuel 0

/-- `name [as exported]`, passed on from a source if there is one. -/
def exportOf? (source : Option String) (start stop : Nat) : Checked (Option Export) := do
  let i := if (← s.isWord "type" start) && start + 1 < stop then start + 1 else start
  match ← s.bindingName? i with
  | none => return none
  | some localName =>
    let renamed := (← s.isWord "as" (i + 1)) && i + 2 < stop
    let exported ← given renamed (do return (← s.bindingName? (i + 2)).getD localName) localName
    return some (match source with
      | some source => .reExport exported localName source
      | none => .named exported localName)

/-- The exports of the clause between two braces, and the number behind the statement. -/
def exports (i : Nat) : Checked (List Export × Nat) := do
  let close ← s.partner i
  let sourced := (← s.isWord "from" (close + 1)) && s.is .str (close + 2)
  let source ← given sourced (do return Literal.string? (← s.textAt (close + 2))) none
  let exports ← (← s.split (i + 1) close).mapM fun part => s.exportOf? source part.1 part.2
  return (exports.filterMap id, ← s.clauseTail (if sourced then close + 3 else close + 1))

/-- The export of everything from the source that follows, under a name if there is one; the number itself
where no source follows. -/
def exportFrom? (name : Option String) (i : Nat) : Checked (Nat ⊕ (List Export × Nat)) := do
  if (← s.isWord "from" i) && s.is .str (i + 1) then
    let e := (Literal.string? (← s.textAt (i + 1))).map fun source =>
      match name with
      | some exported => Export.reExport exported "*" source
      | none => .reExportAll source
    return .inr (e.toList, ← s.clauseTail (i + 2))
  else return .inl i

/-- The export of everything; `i` is behind the star. -/
def exportAll? (i : Nat) : Checked (Nat ⊕ (List Export × Nat)) := do
  let named ← s.isWord "as" i
  s.exportFrom? (← given named (s.bindingName? (i + 1)) none) (if named then i + 2 else i)

/-! ### Literal values -/

def key? (i : Nat) : Checked (Option String) :=
  if s.is .word i then do return some (← s.textAt i)
  else if s.is .str i then do return Literal.string? (← s.textAt i)
  else .ok none

/-- The field of an object between two numbers, its value read by `value`. -/
def field? (value : Nat → Nat → Checked (Option Json)) (start stop : Nat) :
    Checked (Option (String × Json)) :=
  if s.is .colon (start + 1) then do
    let key ← s.key? start
    let value ← value (start + 2) stop
    return key.bind fun k => value.map fun v => (k, v)
  else .ok none

/-- The literal fields of the object that begins here. -/
def objectWith (value : Nat → Nat → Checked (Option Json)) (i : Nat) : Checked (List (String × Json)) := do
  let fields ← (← s.split (i + 1) (← s.partner i)).mapM fun part => s.field? value part.1 part.2
  return (fields.filterMap id).foldl (fun acc f => Json.insertField f.1 f.2 acc) []

def tokenValue? (i : Nat) : Checked (Option Json) :=
  if s.is .str i then do return (Literal.string? (← s.textAt i)).map .str
  else if s.is .number i then do return (Literal.number? (← s.textAt i)).bind Literal.numberJson?
  else if s.is .word i then do
    let word ← s.textAt i
    return if word = "true" then some (.bool true)
      else if word = "false" then some (.bool false)
      else if word = "null" then some .null
      else none
  else .ok none

/-- The literal that a range consists of. -/
def literal? : Nat → Nat → Nat → Checked (Option Json)
  | 0, _, _ => .error .endless
  | fuel + 1, start, stop => do
    if stop = start + 1 then s.tokenValue? start
    else if (stop = start + 2 && s.is .number (start + 1)) && (← s.isOperator "-" start) then
      return (Literal.number? (← s.textAt (start + 1))).bind fun x => Literal.numberJson? x.neg
    else if ← s.spans .openBrace start stop then
      return some (.obj (← s.objectWith (literal? fuel) start))
    else if ← s.spans .openBracket start stop then
      let items ← (← s.split (start + 1) (stop - 1)).mapM fun part => literal? fuel part.1 part.2
      return (items.mapM id).map .arr
    else return none

/-! ### Names -/

namespace Names

inductive Job where
  | stretch (start stop : Nat)
  /-- The inside of the object between two braces. -/
  | object (opening close : Nat)

abbrev Part := String ⊕ Job

def stretch (start stop : Nat) : Part := .inr (.stretch start stop)

def skipStar (i : Nat) : Checked Nat := do return if ← s.isOperator "*" i then i + 1 else i

def skipWord (i : Nat) : Nat := if s.is .word i then i + 1 else i

def skipAnnotation (stop : Nat) (stops : List TokenKind) (i : Nat) : Checked Nat :=
  if s.is .colon i then s.findKind stops stop i else .ok i

def afterVariable (stop i : Nat) : Checked Nat := do
  let i ← given (s.isOpen i) (s.past i) (skipWord s i)
  skipAnnotation s stop [.assign, .semicolon, .comma] i

def afterFunction (stop i : Nat) : Checked Nat := do
  let i ← s.skipTypeArguments (skipWord s (← skipStar s i))
  let i ← given (s.is .openParen i) (s.past i) i
  skipAnnotation s stop [.openBrace] i

def afterCast (stop i : Nat) : Checked Nat := do
  s.skipTypeArguments (← s.find (fun j => .ok !(s.is .word j || s.is .dot j)) stop i)

/-- What the word at a number refers to, and the number to go on from. -/
def ofWord (stop i : Nat) : Checked (List String × Nat) := do
  if s.isMember i then return ([], i + 1)
  else
    let word ← s.textAt i
    let before := s.previous? i
    if word = "const" ∨ word = "let" ∨ word = "var" then return ([], ← afterVariable s stop (i + 1))
    else if word = "function" then return ([], ← afterFunction s stop (i + 1))
    else if word = "class" then
      return ([], if s.is .word (i + 1) && !(← s.isWord "extends" (i + 1)) then i + 2 else i + 1)
    else if (word = "as" ∨ word = "satisfies") ∧ before.any (· ∈ Names.beforeCast) then
      return ([], ← afterCast s stop (i + 1))
    else if word ∈ Names.reserved then return ([], i + 1)
    else if s.is .arrow (i + 1) then return ([], i + 1)
    else if s.is .colon (i + 1) ∧ (before = some .openBrace ∨ before = some .semicolon) then
      return ([], i + 2)
    else return ([word], i + 1)

def stretchStep (start stop : Nat) : Checked (List Part) :=
  if start < stop then
    if s.is .word start then do
      let (names, next) ← ofWord s stop start
      return names.map .inl ++ [stretch next stop]
    else if s.is .openParen start then do
      let close ← s.partner start
      let parameters := (← s.closesArrowParameters close) || (← s.follows "catch" start)
      return (if parameters then [] else [stretch (start + 1) close]) ++ [stretch (close + 1) stop]
    else if s.is .openBrace start then do
      let close ← s.partner start
      let inside := if ← s.opensObject start then .inr (.object start close) else stretch (start + 1) close
      return [inside, stretch (close + 1) stop]
    else if s.is .openBracket start then do
      let close ← s.partner start
      return [stretch (start + 1) close, stretch (close + 1) stop]
    else if s.is .operator start then do
      if (← s.textAt start).startsWith "<" then
        match ← s.typeArguments? start with
        | some next => return [stretch (if s.is .openParen next then next else start + 1) stop]
        | none => return [stretch (start + 1) stop]
      else return [stretch (start + 1) stop]
    else .ok [stretch (start + 1) stop]
  else .ok []

/-- A method: its key and its parameters are passed over. -/
def methodStep (start stop : Nat) : Checked (List Part) := do
  let paren ← s.findKind [.openParen] stop start
  let i ← given (paren < stop) (s.past paren) paren
  let body ← s.findKind [.openBrace] stop i
  if body < stop then return [stretch (body + 1) (← s.partner body)] else return []

def fieldStep (start stop : Nat) : Checked (List Part) := do
  if s.is .ellipsis start then return [stretch (start + 1) stop]
  else if (s.is .word start || s.is .str start || s.is .number start) && s.is .colon (start + 1) then
    return [stretch (start + 2) stop]
  else if ← given (s.is .openBracket start) (do return s.is .colon (← s.past start)) false then
    let close ← s.partner start
    return [stretch (start + 1) close, stretch (close + 2) stop]
  else if s.is .word start && stop = start + 1 then
    let word ← s.textAt start
    return if word ∈ Names.reserved then [] else [.inl word]
  else methodStep s start stop

def step : Job → Checked (List Part)
  | .stretch start stop => stretchStep s start stop
  | .object opening close => do
    return (← (← s.split (opening + 1) close).mapM fun part => fieldStep s part.1 part.2).flatten

/-- The names between two numbers, in the order in which they stand. -/
def between (start stop : Nat) : Checked (List String) := unfold (step s) s.fuel (.stretch start stop)

end Names

/-! ### Marker calls -/

namespace Call

/-- What a function yields, as numbers: the block of its body, or the range of its value. -/
inductive Body where
  | block (opening : Nat)
  | value (start stop : Nat)

def arrowBody? (start stop : Nat) : Checked (Option Body) := do
  if stop ≤ start then return none
  else if ← s.spans .openBrace start stop then
    return some (.block start)
  else return some (.value start stop)

/-- Over the blocks that are types of what is returned. -/
def lastBlock? (stop : Nat) : Nat → Nat → Checked (Option Body)
  | 0, _ => .error .endless
  | fuel + 1, i =>
    if s.is .openBrace i then do
      let next ← s.past i
      if next < stop then lastBlock? stop fuel next
      else return if next = stop then some (.block i) else none
    else .ok none

def functionBody? (stop i : Nat) : Checked (Option Body) := do
  let i ← s.skipTypeArguments (Names.skipWord s (← Names.skipStar s i))
  if s.is .openParen i then
    let body ← s.findKind [.openBrace] stop (← s.past i)
    lastBlock? s stop s.fuel body
  else return none

/-- The body of the function that a range consists of. -/
def body? (start stop : Nat) : Checked (Option Body) := do
  let asyncFirst := (← s.isWord "async" start) && !s.is .arrow (start + 1) && start + 1 < stop
  let i := if asyncFirst then start + 1 else start
  if ← s.isWord "function" i then functionBody? s stop (i + 1)
  else
    let i ← s.skipTypeArguments i
    if s.is .word i && s.is .arrow (i + 1) then arrowBody? s (i + 2) stop
    else if ← given (s.is .openParen i) (do s.closesArrowParameters (← s.partner i)) false then
      let arrow ← s.findKind [.arrow] stop (← s.past i)
      arrowBody? s (arrow + 1) stop
    else return none

def firstReturnFrom (close : Nat) : Nat → Nat → Checked (Option (Nat × Nat))
  | 0, _ => .error .endless
  | fuel + 1, i =>
    if i < close then do
      if (← s.isWord "return" i) && !s.isMember i then
        return some (i + 1, ← s.statementEnd false close (i + 1))
      else firstReturnFrom close fuel (← s.skip i)
    else .ok none

/-- What the first return statement of the block that begins here returns. -/
def firstReturn? (i : Nat) : Checked (Option (Nat × Nat)) := do
  firstReturnFrom s (← s.partner i) s.fuel (i + 1)

/-- A range without the parentheses around it. -/
def unwrap : Nat → Nat → Nat → Checked (Nat × Nat)
  | 0, _, _ => .error .endless
  | fuel + 1, start, stop => do
    if ← given (start < stop) (s.spans .openParen start stop) false then
      unwrap fuel (start + 1) (stop - 1)
    else return (start, stop)

/-- The options of a call: its first argument, if that is an object. -/
def options (i : Nat) : Checked (List (String × Json)) := do
  match ← s.split (i + 1) (← s.partner i) with
  | (start, stop) :: _ =>
    if ← s.spans .openBrace start stop then
      s.objectWith (s.literal? s.fuel) start
    else return []
  | [] => return []

/-- The builder call that a range consists of. -/
def builder (start stop : Nat) : Checked CallShape := do
  let (start, stop) ← unwrap s s.fuel start stop
  if s.is .word start then
    if (← s.textAt start) ∈ ["this", "super", "new"] then return Call.noChain
    else
      let (chain, i) ← s.chain start
      let i ← s.skipTypeArguments i
      if ← s.spans .openParen i stop then
        return .builder (some chain) (← options s i)
      else return Call.noChain
  else return Call.noChain

def shape (opening close : Nat) : Checked CallShape := do
  match ← s.split (opening + 1) close with
  | [(start, stop)] =>
    match ← body? s start stop with
    | some (.block i) =>
      match ← firstReturn? s i with
      | some (start, stop) => builder s start stop
      | none => return Call.noChain
    | some (.value start stop) => builder s start stop
    | none => return .notAFunction
  | _ => return .notAFunction

/-- The marker call that begins at a word, and the number behind it. -/
def marker? (scope : Marker.Scope) (i : Nat) : Checked (Option (Event × Nat)) := do
  if (← s.textAt i) ∈ ["this", "super", "new", "function"] then return none
  else if (← s.follows "new" i) || (← s.follows "function" i) then return none
  else
    let (chain, next) ← s.chain i
    let opening ← s.skipTypeArguments next
    if s.is .openParen opening then
      let close ← s.partner opening
      let start := (← s.mark i).start
      let stop := (← s.mark close).stop
      match chain with
      | [root] => return if scope.isRoot root then some (.directCall start stop, close + 1) else none
      | chain =>
        if scope.matchesCallee chain then
          let shape ← shape s opening close
          let names ← Names.between s i (close + 1)
          return some (.call chain shape names start stop, close + 1)
        else return none
    else return none

end Call

/-! ### Statements and expressions -/

namespace Walk

inductive Job where
  | expression (start stop : Nat)
  | statements (start stop : Nat) (top : Bool)

abbrev Part := Event ⊕ Job

/-- What one construct gives, and the number behind it. -/
abbrev Step := Checked (List Part × Nat)

def expr (start stop : Nat) : Part := .inr (.expression start stop)

def block (start stop : Nat) : Part := .inr (.statements start stop false)

def exportsName (name : String) : Part := .inl (.exported (.named name name))

def exportsDefault (name : Option String) : Part :=
  .inl (.exported (.named "default" (name.getD "default")))

def entering (name : String) (parts : List Part) : List Part :=
  .inl (.enter name) :: parts ++ [.inl .exit]

def bindingIf (top : Bool) (name : String) : List Part := if top then [.inl (.binding name)] else []

def namedIf (name : Option String) : List Part := name.toList.map exportsName

def withName (name : Option String) (step : Step) : Step := do
  let (parts, next) ← step
  return (namedIf name ++ parts, next)

def skipStatement (stop i : Nat) : Step := do return ([], (← s.statementEnd false stop i) + 1)

def expressionStatement (stop i : Nat) : Step := do
  let e ← s.statementEnd false stop i
  return ([expr i e], e + 1)

/-- Over everything up to a body in braces, and over that. -/
def skipBody (stop i : Nat) : Checked Nat := do
  let body ← s.findKind [.openBrace] stop i
  if stop ≤ body then return stop else s.past body

/-- The name or the pattern that a declarator begins with, and the number behind it. -/
def declared? (i : Nat) : Checked (Option (Option String × Nat)) :=
  if s.is .word i then do return some (some (← s.textAt i), i + 1)
  else if s.is .openBrace i || s.is .openBracket i then do return some (none, ← s.past i)
  else .ok none

/-- Over the mark and the type of what is declared. -/
def behindType (stop i : Nat) : Checked Nat := do
  let i := if ← s.isOperator "!" i then i + 1 else i
  given (s.is .colon i) (s.findKind [.assign, .comma, .semicolon] stop (i + 1)) i

def bound (top exported : Bool) : Option String → List Part
  | some name => bindingIf top name ++ (if exported then [exportsName name] else [])
  | none => []

/-- The value that a declarator gives. -/
def value (name : Option String) (stop i : Nat) : Step :=
  if s.is .assign i then do
    let e ← s.statementEnd true stop (i + 1)
    return (match name with
      | some name => entering name [expr (i + 1) e]
      | none => [.inl .enterAnonymous, expr (i + 1) e, .inl .exit], e)
  else .ok ([], i)

/-- One declarator after another. -/
def declarators (top exported : Bool) (stop : Nat) : Nat → Nat → Step
  | 0, _ => .error .endless
  | fuel + 1, i => do
    match ← declared? s i with
    | none => return ([], if s.is .semicolon i then i + 1 else i)
    | some (name, i) =>
      let (parts, i) ← value s name stop (← behindType s stop i)
      if s.is .comma i then
        let (more, next) ← declarators top exported stop fuel (i + 1)
        return (bound top exported name ++ parts ++ more, next)
      else return (bound top exported name ++ parts, if s.is .semicolon i then i + 1 else i)

def variableStatement (top exported : Bool) (stop i : Nat) : Step :=
  declarators s top exported stop s.fuel i

/-- Over the blocks that are types of what is returned. -/
def bodyBlock : Nat → Nat → Checked Nat
  | 0, _ => .error .endless
  | fuel + 1, i =>
    if s.is .openBrace i then do
      let next ← s.past i
      if s.is .openBrace next then bodyBlock fuel next else return i
    else .ok i

/-- Type parameters, parameters, the type returned and the body of a function. -/
def functionRest (stop i : Nat) : Step := do
  let i ← s.skipTypeArguments i
  if s.is .openParen i then
    let close ← s.partner i
    let body ← bodyBlock s s.fuel (← s.findKind [.openBrace, .semicolon] stop (close + 1))
    if s.is .openBrace body then
      let bodyEnd ← s.partner body
      return ([expr (i + 1) close, block (body + 1) bodyEnd], bodyEnd + 1)
    else return ([expr (i + 1) close], if s.is .semicolon body then body + 1 else body)
  else return ([], i)

/-- A function declaration; `i` is behind its keyword. -/
def function (top : Bool) (stop i : Nat) : Step := do
  let i ← Names.skipStar s i
  match ← s.word? i with
  | some name =>
    let (parts, next) ← functionRest s stop (i + 1)
    return (bindingIf top name ++ entering name parts, next)
  | none => functionRest s stop i

def functionName? (i : Nat) : Checked (Option String) := do s.word? (← Names.skipStar s i)

/-- The heritage and the body of a class. -/
def classRest (stop i : Nat) : Step := do
  let body ← s.findKind [.openBrace] stop i
  if stop ≤ body then return ([expr i body], stop)
  else
    let close ← s.partner body
    return ([expr i body, block (body + 1) close], close + 1)

def className? (i : Nat) : Checked (Option String) := do
  return (← s.word? i).filter fun w => w ≠ "extends" && w ≠ "implements"

def classDeclaration (top : Bool) (stop i : Nat) : Step := do
  match ← className? s i with
  | some name =>
    let (parts, next) ← classRest s stop (i + 1)
    return (bindingIf top name ++ parts, next)
  | none => classRest s stop i

def defaultValue (stop i : Nat) : Step := do
  let i := if (← s.isWord "async" i) && (← s.isWord "function" (i + 1)) then i + 1 else i
  let i := if (← s.isWord "abstract" i) && (← s.isWord "class" (i + 1)) then i + 1 else i
  if ← s.isWord "function" i then
    let name ← functionName? s (i + 1)
    let (parts, next) ← function s false stop (i + 1)
    return (exportsDefault name :: name.toList.flatMap (bindingIf true) ++ parts, next)
  else if ← s.isWord "class" i then
    let name ← className? s (i + 1)
    let (parts, next) ← classRest s stop (if name.isSome then i + 2 else i + 1)
    return (exportsDefault name :: name.toList.flatMap (bindingIf true) ++ parts, next)
  else if (← s.textAt i) = "interface" && s.is .word (i + 1) then
    return ([exportsDefault (some (← s.textAt (i + 1)))], ← skipBody s stop i)
  else
    let e ← s.statementEnd false stop i
    if e = i + 1 && s.is .word i then
      return ([exportsDefault (some (← s.textAt i))], e + 1)
    else return ([exportsDefault none, expr i e], e + 1)

/-- What follows the word `export`; a statement of another kind is left to `statement`. -/
def exported (statement : Nat → Step) (top : Bool) (stop i : Nat) : Step := do
  let i := if (← s.isWord "type" i) && s.is .openBrace (i + 1) then i + 1 else i
  let i := if ← s.isWord "declare" i then i + 1 else i
  if s.is .openBrace i then
    let (es, next) ← s.exports i
    return (es.map fun e => .inl (.exported e), next)
  else if ← s.isOperator "*" i then
    match ← s.exportAll? (i + 1) with
    | .inr (es, next) => return (es.map fun e => .inl (.exported e), next)
    | .inl i => skipStatement s stop i
  else if s.is .word i then
    let word ← s.textAt i
    if word = "default" then
      let (parts, next) ← defaultValue s stop (i + 1)
      return (entering "default" parts, next)
    else if word = "const" && (← s.isWord "enum" (i + 1)) then
      withName (← s.word? (i + 2)) do return ([], ← skipBody s stop i)
    else if word = "const" || word = "let" || word = "var" then variableStatement s top true stop (i + 1)
    else if word = "async" && (← s.isWord "function" (i + 1)) then
      withName (← functionName? s (i + 2)) (function s top stop (i + 2))
    else if word = "function" then withName (← functionName? s (i + 1)) (function s top stop (i + 1))
    else if word = "abstract" && (← s.isWord "class" (i + 1)) then
      withName (← s.word? (i + 2)) (classDeclaration s top stop (i + 2))
    else if word = "class" then withName (← s.word? (i + 1)) (classDeclaration s top stop (i + 1))
    else if word = "interface" || word = "enum" then
      withName (← s.word? (i + 1)) do return ([], ← skipBody s stop i)
    else if word = "type" then withName (← s.word? (i + 1)) (skipStatement s stop i)
    else statement i
  else skipStatement s stop i

/-- The first opening brace from a number on, also inside other brackets. -/
def seekBrace (stop : Nat) : Nat → Nat → Checked Nat
  | 0, _ => .error .endless
  | fuel + 1, i => if i < stop && !s.is .openBrace i then seekBrace stop fuel (i + 1) else .ok i

/-- An expression in parentheses, as conditions and the heads of loops are. -/
def condition (i : Nat) : Step := do
  let close ← s.partner i
  return ([expr (i + 1) close], close + 1)

/-- A statement that begins with the word `w` and is no export. -/
def wordStatement (top : Bool) (w : String) (stop i : Nat) : Step := do
  let named := s.is .word (i + 1)
  if w = "import" && (← s.isImport i) then
    match ← s.import? i with
    | some (_, _, next) => return ([], next)
    | none => skipStatement s stop i
  else if (w = "const" || w = "let" || w = "var") &&
      (named || s.is .openBrace (i + 1) || s.is .openBracket (i + 1)) then
    variableStatement s top false stop (i + 1)
  else if w = "async" && (← s.isWord "function" (i + 1)) then function s top stop (i + 2)
  else if w = "function" then function s top stop (i + 1)
  else if w = "class" then classDeclaration s top stop (i + 1)
  else if (w = "declare" || w = "abstract") && named then return ([], i + 1)
  else if (w = "interface" || w = "enum") && named then return ([], ← skipBody s stop i)
  else if w = "type" && named then skipStatement s stop i
  else if (w = "namespace" || w = "module") && (named || s.is .str (i + 1)) then
    let brace ← seekBrace s stop s.fuel (i + 1)
    if stop ≤ brace then return ([], brace)
    else
      let close ← s.partner brace
      return ([block (brace + 1) close], close + 1)
  else if w ∈ Walk.conditionWords && s.is .openParen (i + 1) then condition s (i + 1)
  else if w = "for" && (← s.isWord "await" (i + 1)) && s.is .openParen (i + 2) then condition s (i + 2)
  else if w ∈ ["else", "do", "try", "finally"] then return ([], i + 1)
  else if w = "return" || w = "throw" then expressionStatement s stop (i + 1)
  else if w = "case" then
    let colon ← s.findKind [.colon] stop (i + 1)
    return ([expr (i + 1) colon], colon + 1)
  else if s.is .colon (i + 1) then return ([], i + 2)
  else expressionStatement s stop i

/-- One statement of the level that ends at `stop`. -/
def statement (top : Bool) (stop : Nat) : Nat → Nat → Step
  | 0, _ => .error .endless
  | fuel + 1, i => do
    if s.is .semicolon i then return ([], i + 1)
    else if s.is .openBrace i then
      let close ← s.partner i
      return ([block (i + 1) close], close + 1)
    else if s.is .word i then
      let word ← s.textAt i
      if word = "export" then exported s (statement false stop fuel) top stop (i + 1)
      else wordStatement s top word stop i
    else expressionStatement s stop i

/-- A statement always takes at least one token. -/
def statementsStep (start stop : Nat) (top : Bool) : Checked (List Part) :=
  if start < stop then do
    let (parts, next) ← statement s top stop s.fuel start
    return parts ++ [.inr (.statements (max next (start + 1)) stop top)]
  else .ok []

def assignedName? : List String → Option String
  | ["exports", name] | ["module", "exports", name] => some name
  | _ => none

/-- An assignment to a property of `exports`. -/
def assignedExport? (stop i : Nat) : Checked (Option (List Part × Nat)) := do
  let (chain, next) ← s.chain i
  match assignedName? chain with
  | some name =>
    if s.is .assign next then
      let e ← s.statementEnd true stop (next + 1)
      return some (.inl (.assignedExport name) :: entering name [expr (next + 1) e], e)
    else return none
  | none => return none

def wordExpression (scope : Marker.Scope) (stop i : Nat) : Step := do
  if s.isMember i then return ([], i + 1)
  else
    match ← Call.marker? s scope i with
    | some (e, next) => return ([.inl e], next)
    | none =>
      match ← assignedExport? s stop i with
      | some step => return step
      | none =>
        let word ← s.textAt i
        if word = "function" then
          functionRest s stop (Names.skipWord s (← Names.skipStar s (i + 1)))
        else if word = "class" then classDeclaration s false stop (i + 1)
        else return ([], i + 1)

/-- One field of an object. -/
def field (start stop : Nat) : Checked (List Part) := do
  if s.is .ellipsis start then return [expr (start + 1) stop]
  else if (s.is .word start || s.is .str start || s.is .number start) && s.is .colon (start + 1) then
    let key ← s.key? start
    return match key with
      | some key => entering key [expr (start + 2) stop]
      | none => [expr (start + 2) stop]
  else if ← given (s.is .openBracket start) (do return s.is .colon (← s.past start)) false then
    let close ← s.partner start
    return [expr (start + 1) close, expr (close + 2) stop]
  else return [expr start stop]

/-- A token or a group in an expression. -/
def piece (scope : Marker.Scope) (stop i : Nat) : Step :=
  if s.is .word i then wordExpression s scope stop i
  else if s.is .openBrace i then do
    let close ← s.partner i
    if ← s.opensObject i then
      let fields ← (← s.split (i + 1) close).mapM fun part => field s part.1 part.2
      return (fields.flatten, close + 1)
    else return ([block (i + 1) close], close + 1)
  else if s.is .openParen i || s.is .openBracket i then do
    let close ← s.partner i
    return ([expr (i + 1) close], close + 1)
  else .ok ([], i + 1)

def expressionStep (scope : Marker.Scope) (start stop : Nat) : Checked (List Part) :=
  if start < stop then do
    let (parts, next) ← piece s scope stop start
    return parts ++ [expr next stop]
  else .ok []

def step (scope : Marker.Scope) : Job → Checked (List Part)
  | .expression start stop => expressionStep s scope start stop
  | .statements start stop top => statementsStep s start stop top

/-- What the tokens of a table report. -/
def events (scope : Marker.Scope) : Checked (List Event) :=
  unfold (step s scope) (2 * s.marks.length + 2) (.statements 0 s.marks.length true)

end Walk
end Table

/-- The analysis of a text by the numbers of its tokens. -/
def analyze (marker : Marker) (file text : String) : Checked (Except Nat Analysis) := do
  match ← Table.ofText text with
  | .error offset => return .error offset
  | .ok s =>
    let imports ← s.imports
    let events ← Table.Walk.events s (marker.scope (imports.map fun i => (i.source, i.specifiers)))
    return .ok (Analysis.ofEvents marker file text imports fun _ => events)

end StaticGql.Scan.Indexed
