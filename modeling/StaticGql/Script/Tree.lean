/-!
Programs as trees. A tree keeps the constructs of the language that bind, export, call or name
something; of a type it keeps only the names that stand for values in it.
-/

namespace StaticGql.Script

/-- What a tree stands for, with the order of its parts where they differ in kind. -/
inductive Node where
  -- expressions
  | identifier
  | quoted
  | number
  /-- `true`, `false`, `null`, `this` and other words and signs with nothing inside. -/
  | atom
  | template
  /-- The tag, then the template. -/
  | tagged
  | array
  | object
  /-- The key, then the value. -/
  | pair
  /-- A property that is the name of its value, with the default it may have in a pattern. -/
  | shorthand
  | spread
  /-- Decorators, the key, parameters, then the body if there is one. -/
  | method
  | methodKey
  | methodDecorator
  /-- Parameters, then the body. -/
  | arrow
  | functionExpression
  | classExpression
  | arguments
  /-- What is called, then its arguments. -/
  | call
  | optionalCall
  /-- The object of a member with a plain name. -/
  | member
  /-- Any other way to a member: optional, private, computed. -/
  | access
  | paren
  | unary
  /-- The target, then the value. -/
  | assign
  /-- An expression of other constructs with its operands. -/
  | compound
  -- keys
  | propertyName
  | computed
  -- patterns
  | bindingName
  | pattern
  | patternPair
  | shorthandTarget
  | parameters
  -- declarations and statements
  | variableList
  /-- The target, then the value if there is one. -/
  | declarator
  | function
  | classDeclaration
  | classBody
  | heritage
  | decorator
  /-- Decorators, the key, then the value if there is one. -/
  | field
  | interface
  | alias
  | enumeration
  | enumMember
  /-- A part of an interface, by its key. -/
  | signature
  | signatureParameters
  | indexSignature
  /-- The names for values in a type. -/
  | typeNames
  | ambient
  | namespace
  | block
  | result
  /-- The body, then the condition. -/
  | doWhile
  /-- The head, the iterated expression, then the body. -/
  | iteration
  | loopBinding
  | catchParameter
  | statement
  -- modules
  | module
  | importStatement
  | importDefault
  | importAll
  | importName
  | exportNames
  | exportName
  | exportAll
  | exportAllAs
  | exportDeclaration
  | exportDefault
  deriving DecidableEq, Repr

inductive Tree where
  | mk (node : Node) (text : String) (start stop : Nat) (children : List Tree)

namespace Tree

def node : Tree → Node
  | .mk n .. => n

def text : Tree → String
  | .mk _ s .. => s

def start : Tree → Nat
  | .mk _ _ a .. => a

def stop : Tree → Nat
  | .mk _ _ _ b _ => b

def children : Tree → List Tree
  | .mk _ _ _ _ l => l

/-- The names of a plain chain of members. -/
def chain? : Tree → Option (List String)
  | .mk .identifier name _ _ _ => some [name]
  | .mk .member name _ _ (object :: _) => object.chain?.map (· ++ [name])
  | _ => none

mutual

/-- An expression as the target of an assignment. -/
def asPattern : Tree → Tree
  | .mk .array s a b l => .mk .pattern s a b (asPatterns l)
  | .mk .object s a b l => .mk .pattern s a b (asPatterns l)
  | .mk .pair s a b (key :: value) => .mk .patternPair s a b (key :: asPatterns value)
  | .mk .spread s a b l => .mk .pattern s a b (asPatterns l)
  | .mk .shorthand s a b l => .mk .shorthandTarget s a b l
  | .mk .assign s a b (target :: value) => .mk .pattern s a b (target.asPattern :: value)
  | t => t

def asPatterns : List Tree → List Tree
  | [] => []
  | t :: l => t.asPattern :: asPatterns l

end

end Tree
end StaticGql.Script
