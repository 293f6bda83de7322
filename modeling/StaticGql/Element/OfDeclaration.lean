import StaticGql.Value

/-!
The element of a declaration, derived from the literal options of its builder and the elements it
refers to.
-/

namespace StaticGql

/-! ### Variables -/

namespace Variables

/-- The declared types of variables, by names without the dollar sign. -/
def ofFields (fields : List (String × Json)) : Outcome (Dict String) :=
  (Dict.ofList fields).toList.foldlM (fun acc (name, type) =>
    match type.asStr? with
    | some t => .ok (acc.insert (String.ofList (name.toList.dropWhile (· = '$'))) t)
    | none => .error (.failed s!"variable ${name} must have a type string")) ∅

def own (b : Builder) : Outcome (Dict String) :=
  match b.option? "variables" with
  | none => .ok ∅
  | some (.obj fields) => ofFields fields
  | some _ => .error (.failed "'variables' must be an object")

/-- One more variable, which may be there already with the same type. -/
def add (acc : Dict String) (name type : String) : Outcome (Dict String) :=
  match acc.get? name with
  | some existing =>
    if existing = type then .ok acc
    else .error (.failed s!"variable ${name} is declared as both {existing} and {type}")
  | none => .ok (acc.insert name type)

def merge (acc more : Dict String) : Outcome (Dict String) :=
  more.toList.foldlM (fun acc (name, type) => add acc name type) acc

def mergeAll (acc : Dict String) (elements : List Element) : Outcome (Dict String) :=
  elements.foldlM (fun acc e => merge acc e.variableTypes) acc

end Variables

/-! ### Documents -/

namespace Element

def fragment? : Element → Option FragmentElement
  | fragment e | model e => some e
  | _ => none

def slice? : Element → Option SliceElement
  | slice e => some e
  | _ => none

/-- A selection of fields and of fragments; an empty one asks for the type's name. -/
def selection (fields spreads : List String) : String :=
  let items := fields ++ spreads.map ("..." ++ ·)
  if items.isEmpty then "\x7b __typename \x7d"
  else "\x7b " ++ " ".intercalate items ++ " \x7d"

/-- A list with what of another is not in it yet. -/
def union (l more : List String) : List String :=
  more.foldl (fun l s => if s ∈ l then l else l ++ [s]) l

/-- The definitions of all fragments needed, one for each name, in the order of the names. -/
def definitions (c : Context) : List String :=
  (Dict.ofList ((c.allElements.filterMap fragment?).map fun e => (e.name, e.definition))).values

def spreads (c : Context) : List String :=
  Dict.sortedTexts ((c.directElements.filterMap fragment?).map (·.name))

def joinDocument (parts : List String) : String := "\n\n".intercalate parts

/-- The type that a fragment is on if nothing names one. -/
def rootTypename : String := "Query"

def fragmentOf (d : Declaration) (c : Context) : Outcome FragmentElement := do
  let typename := (d.builder.typename <|> d.builder.optionText? "typename").getD rootTypename
  let kind := if d.kind = .model then "Model" else "Fragment"
  let name := (d.builder.optionText? "name").getD (typename ++ kind)
  let fields := d.builder.optionTexts "fields"
  let definition := s!"fragment {name} on {typename} " ++ selection fields (spreads c)
  let variableTypes ← Variables.own d.builder
  return { name, typename, fields, variableTypes, definition
           document := joinDocument (definition :: (definitions c).filter (· ≠ definition))
           dependencies := d.references }

/-- The declaration's own fields, and those of the slices in it that are not among them. -/
def sliceFields (d : Declaration) (c : Context) : List String :=
  (c.directElements.filterMap slice?).foldl (fun l s => union l s.fields)
    (d.builder.optionTexts "fields")

def sliceSpreads (c : Context) : List String :=
  Dict.sortedTexts (spreads c ++ (c.directElements.filterMap slice?).flatMap (·.spreads))

def operationType (d : Declaration) : String := d.builder.operationType.getD "query"

def sliceOf (d : Declaration) (c : Context) : Outcome SliceElement := do
  let fields := sliceFields d c
  let spreads := sliceSpreads c
  let variableTypes ← Variables.mergeAll (← Variables.own d.builder) c.directElements
  return { operationType := operationType d, fields, spreads, variableTypes
           document := selection fields spreads
           dependencies := d.references }

/-- The parameters of an operation. -/
def signature (variableTypes : Dict String) : String :=
  if variableTypes.isEmpty then ""
  else "(" ++ ", ".intercalate (variableTypes.toList.map fun (name, type) => s!"${name}: {type}") ++ ")"

def operationOf (d : Declaration) (c : Context) : Outcome OperationElement := do
  match d.builder.optionText? "name" with
  | none => .error (.failed "operation requires a 'name' option")
  | some name =>
    let variableTypes ← Variables.mergeAll (← Variables.own d.builder) c.allElements
    let operationType := operationType d
    let head := s!"{operationType} {name}{signature variableTypes} " ++
      selection (sliceFields d c) (sliceSpreads c)
    return { operationType, operationName := name, variableTypes
             document := joinDocument (head :: definitions c)
             dependencies := d.references }

end Element

namespace Declaration

def value (d : Declaration) (c : Context) : Outcome Value :=
  match d.kind with
  | .fragment => (Element.fragmentOf d c).map fun e => .element (.fragment e)
  | .model => (Element.fragmentOf d c).map fun e => .element (.model e)
  | .slice => (Element.sliceOf d c).map fun e => .element (.slice e)
  | .operation => (Element.operationOf d c).map fun e => .element (.operation e)
  | .define => .ok (.define (.obj d.builder.options))

/-- The factory that derives the value from the declaration alone. -/
def factory (d : Declaration) : Factory := fun c => .ready (d.value c)

end Declaration
end StaticGql
