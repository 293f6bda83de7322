import StaticGql.Event
import StaticGql.Literal
import StaticGql.Marker
import StaticGql.Script.Tree

/-!
The two forms in which a program is walked through. The concrete form has the order of the text;
the abstract form has the order in which a construct lists its parts.

The names that stand in an expression for something outside it. Parameters, names of members and
types are none; on the names of some declarations the two forms differ.

Calls of the marker in a program, and the builder calls that the functions passed to it yield.
-/

namespace StaticGql.Script

inductive Form where
  | abstract
  | concrete
  deriving DecidableEq, Repr

/-- The parts that satisfy `p` before the others. -/
def placedFirst (p : Node → Bool) (l : List Tree) : List Tree :=
  l.filter (fun t => p t.node) ++ l.filter fun t => !p t.node

/-- The parts of a construct in its abstract order: the body of a class before what it extends, the
condition of a loop before its body, decorators of a method after its parameters, those of a field
at the end. -/
def abstractOrder (node : Node) (l : List Tree) : List Tree :=
  match node with
  | .classDeclaration | .classExpression =>
    placedFirst (· = .decorator) (placedFirst (· = .classBody) l)
  | .method => placedFirst (fun n => n = .methodKey || n = .parameters) l
  | .field => placedFirst (· ≠ .decorator) l
  | .doWhile => l.reverse
  | _ => l

mutual

def Tree.arranged : Tree → Tree
  | .mk node s a b l => .mk node s a b (abstractOrder node (arrangedAll l))

def arrangedAll : List Tree → List Tree
  | [] => []
  | t :: l => t.arranged :: arrangedAll l

end

def Tree.inForm (t : Tree) : Form → Tree
  | .abstract => t.arranged
  | .concrete => t

/-- Names that count in one form only. -/
def onlyIn (wanted form : Form) (names : List String) : List String :=
  if form = wanted then names.filter (· ≠ "") else []

mutual

def Tree.names (form : Form) : Tree → List String
  | .mk node text _ _ l =>
    match node, l with
    | .identifier, _ | .bindingName, _ => [text]
    | .shorthand, l => text :: namesAll form l
    | .shorthandTarget, l => onlyIn .abstract form [text] ++ namesAll form l
    | .parameters, _ | .catchParameter, _ | .methodKey, _ => []
    | .methodDecorator, l | .loopBinding, l | .typeNames, l => onlyIn .concrete form (namesAll form l)
    | .signatureParameters, l => onlyIn .abstract form (namesAll form l)
    | .declarator, _ :: value => namesAll form value
    | .function, [_] => onlyIn .concrete form [text]
    | .enumeration, l => text :: namesAll form l
    | .interface, l | .alias, l | .signature, l | .enumMember, l =>
      onlyIn .abstract form [text] ++ namesAll form l
    | _, l => namesAll form l

def namesAll (form : Form) : List Tree → List String
  | [] => []
  | t :: l => t.names form ++ namesAll form l

end

namespace Tree

/-- A key that is known without running the program. -/
def key? (t : Tree) : Option String :=
  match t.node with
  | .propertyName => some t.text
  | .quoted => Literal.string? t.text
  | _ => none

def atomValue? (text : String) : Option Json :=
  if text = "true" then some (.bool true)
  else if text = "false" then some (.bool false)
  else if text = "null" then some .null
  else none

mutual

/-- The value of an expression made of literals. An object keeps the fields that are known; a list
is known only as a whole. -/
def value? : Tree → Option Json
  | .mk .quoted s _ _ _ => (Literal.string? s).map .str
  | .mk .number s _ _ _ => (Literal.number? s).bind Literal.numberJson?
  | .mk .atom s _ _ _ => atomValue? s
  | .mk .unary "-" _ _ [.mk .number s _ _ _] =>
    (Literal.number? s).bind fun x => Literal.numberJson? x.neg
  | .mk .object _ _ _ l => some (.obj (fields l))
  | .mk .array _ _ _ l => (values? l).map .arr
  | _ => none

def values? : List Tree → Option (List Json)
  | [] => some []
  | t :: l => do return (← value? t) :: (← values? l)

/-- The field that a part of an object gives. -/
def field? : Tree → Option (String × Json)
  | .mk .pair _ _ _ [k, v] => do return (← k.key?, ← value? v)
  | _ => none

def fieldList : List Tree → List (Option (String × Json))
  | [] => []
  | t :: l => field? t :: fieldList l

def fields (l : List Tree) : List (String × Json) :=
  (fieldList l).reduceOption.foldl (fun acc f => Json.insertField f.1 f.2 acc) []

end

/-- The literal fields of the first argument. -/
def options (arguments : List Tree) : List (String × Json) :=
  match arguments with
  | .mk .object _ _ _ l :: _ => fields l
  | _ => []

/-- The builder call that an expression is, in whatever parentheses. In the concrete form a tagged
template is a call without options. -/
def builder (form : Form) : Tree → CallShape
  | .mk .paren _ _ _ [e] => e.builder form
  | .mk .call _ _ _ [callee, arguments] =>
    match callee.chain? with
    | some names => .builder (some names) (options arguments.children)
    | none => .builder none []
  | .mk .tagged _ _ _ [callee, _] =>
    match form, callee.chain? with
    | .concrete, some names => .builder (some names) []
    | _, _ => .builder none []
  | _ => .builder none []

/-- What a function yields: the value of its body, or what the body returns first. -/
def yielded? (body : Tree) : Option Tree :=
  match body.node with
  | .block => (body.children.find? (·.node = .result)).bind (·.children.head?)
  | _ => some body

def shape (form : Form) (arguments : List Tree) : CallShape :=
  match arguments with
  | [.mk .arrow _ _ _ [_, body]] | [.mk .functionExpression _ _ _ [_, body]] =>
    match body.yielded? with
    | some e => e.builder form
    | none => .builder none []
  | _ => .notAFunction

/-- The event that a call of the marker is. -/
def markerCall? (scope : Marker.Scope) (form : Form) (t : Tree) : Option Event :=
  match t with
  | .mk .call _ start stop [callee, arguments] =>
    match callee.chain? with
    | none => none
    | some [name] => if scope.isRoot name then some (.directCall start stop) else none
    | some chain =>
      if scope.matchesCallee chain then
        some (.call chain (shape form arguments.children) (t.names form) start stop)
      else none
  | _ => none

end Tree
end StaticGql.Script
