import StaticGql.Analysis.OfEvents
import StaticGql.Script.Call
import StaticGql.Script.Grammar.Modules

/-!
Programs. The constructs that contain one another are read with as much fuel as the text is long:
between two readings of one of them at the same place only a few others stand.

Walking through a program, part by part.
-/

namespace StaticGql.Script

open Parse

def Goal.read (elements : Bool) (sub : Reader) : Goal → Parse Tree
  | .assignment place => Grammar.assignment elements sub place
  | .operand => Grammar.operand elements sub
  | .head => Grammar.head elements sub
  | .type => Grammar.type sub
  | .binding => Grammar.binding sub
  | .element => Grammar.element sub
  | .statement => Grammar.statement sub

/-- Constructs nested at most so deep. -/
def reader (elements : Bool) : Nat → Reader
  | 0, _ => failure
  | depth + 1, goal => goal.read elements (reader elements depth)

/-- The most constructs that begin at one place without one inside another. -/
def nestingPerCharacter : Nat := 4

def program (elements : Bool) (depth : Nat) : Parse Tree :=
  tree .module (upTo ended (reader elements depth .statement))

/-- The program that a text spells out; none where it spells out no program. -/
def parse? (elements : Bool) (text : String) : Option Tree :=
  let start := Cursor.ofText text
  let depth := nestingPerCharacter * (start.rest.length + 2)
  ((program elements depth).run start).map (·.1)

/-- The name by which a module knows something. -/
def moduleName? (t : Tree) : Option String :=
  match t.node with
  | .identifier => some t.text
  | .quoted => Literal.string? t.text
  | _ => none

/-! ### Imports -/

def specifier? : Tree → Option Specifier
  | .mk .importDefault name _ _ _ => some ⟨name, "default"⟩
  | .mk .importAll name _ _ _ => some ⟨name, "*"⟩
  | .mk .importName name _ _ [imported] => (moduleName? imported).map fun n => ⟨name, n⟩
  | _ => none

def import? : Tree → Option ImportEvent
  | .mk .importStatement _ start stop (source :: specifiers) =>
    (Literal.string? source.text).map fun s => ⟨s, specifiers.filterMap specifier?, start, stop⟩
  | _ => none

/-! ### Exports -/

def exportName? (source : Option String) : Tree → Option Export
  | .mk .exportName _ _ _ [own, exported] => do
    let own ← moduleName? own
    let exported ← moduleName? exported
    match source with
    | some s => some (.reExport exported own s)
    | none => some (.named exported own)
  | _ => none

/-- What an export list exports; its source stands first. -/
def exportNames (l : List Tree) : List Event :=
  let source := (l.find? (·.node = .quoted)).bind moduleName?
  (l.filterMap (exportName? source)).map .exported

def exportAll (l : List Tree) : List Event :=
  ((l.head?.bind moduleName?).map fun s => Event.exported (.reExportAll s)).toList

def exportAllAs : List Tree → List Event
  | [source, name] =>
    match moduleName? source, moduleName? name with
    | some s, some n => [.exported (.reExport n "*" s)]
    | _, _ => []
  | _ => []

/-- A declaration of a name: what it binds at the top, and exports under its own name. -/
def declares (top exported : Bool) (name : String) : List Event :=
  (if exported then [.exported (.named name name)] else []) ++ if top then [.binding name] else []

def exportsDefault (name : String) : Event := .exported (.named "default" name)

/-- What a default export stands for, and what it binds. -/
def defaultNames (form : Form) (t : Tree) : List Event :=
  match t.node with
  | .identifier =>
    [exportsDefault (if form = .concrete && t.text = "undefined" then "default" else t.text)]
  | .interface => [exportsDefault t.text]
  | .function | .classDeclaration =>
    if t.text = "" then [exportsDefault "default"] else [exportsDefault t.text, .binding t.text]
  | _ => [exportsDefault "default"]

/-- The property of the exports that an assignment sets. -/
def assignedName? (op : String) (target : Tree) : Option String :=
  if op = "=" then
    match target.chain? with
    | some ["exports", name] | some ["module", "exports", name] => some name
    | _ => none
  else none

def entering (name : String) (events : List Event) : List Event :=
  .enter name :: events ++ [.exit]

variable (scope : Marker.Scope) (form : Form)

mutual

/-- What a tree reports; `top` at the top of the module, `exported` right behind an export. -/
def walk (top exported : Bool) : Tree → List Event
  | .mk node text start stop l =>
    match node, l with
    | .importStatement, _ => []
    | .interface, _ | .alias, _ | .enumeration, _ => declares false exported text
    | .module, l => walkAll true false l
    | .variableList, l | .ambient, l => walkAll top exported l
    | .exportDeclaration, l => walkAll top true l
    | .declarator, target :: value =>
      let inside := walkAll false false value
      if target.node = .bindingName then
        declares top exported target.text ++
          if value.isEmpty then [] else entering target.text inside
      else if value.isEmpty then []
      else .enterAnonymous :: inside ++ [.exit]
    | .function, l => declares top exported text ++ entering text (walkAll false false l)
    | .classDeclaration, l =>
      (if text = "" then [] else declares top exported text) ++ walkAll false false l
    | .exportNames, l => exportNames l
    | .exportAll, l => exportAll l
    | .exportAllAs, l => exportAllAs l
    | .exportDefault, [value] =>
      entering "default" <| defaultNames form value ++
        if value.node = .interface then [] else walk false false value
    | .pair, key :: value =>
      let inside := walk false false key ++ walkAll false false value
      match key.key? with
      | some name => entering name inside
      | none => inside
    | .assign, target :: value =>
      match assignedName? text target with
      | some name => .assignedExport name :: entering name (walkAll false false value)
      | none => walk false false target ++ walkAll false false value
    | .call, l =>
      match Tree.markerCall? scope form (.mk .call text start stop l) with
      | some e => [e]
      | none => walkAll false false l
    | _, l => walkAll false false l

def walkAll (top exported : Bool) : List Tree → List Event
  | [] => []
  | t :: l => walk top exported t ++ walkAll top exported l

end

/-- The analysis of a text as a program; none where it is no program. -/
def analyze? (form : Form) (elements : Bool) (marker : Marker) (file text : String) :
    Option Analysis :=
  (parse? elements text).map fun program =>
    Analysis.ofEvents marker file text (program.children.filterMap import?) fun scope =>
      walk scope form true false (program.inForm form)

end StaticGql.Script
