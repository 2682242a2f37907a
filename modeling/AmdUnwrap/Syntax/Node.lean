import AmdUnwrap.Syntax.Punct
import AmdUnwrap.Text.Basic

/-!
The syntax tree. Every node has a kind, a span and its children in source order, so that a
question about a program is a question about lists of nodes. Parentheses and optional chains are
nodes of their own.
-/

namespace AmdUnwrap

inductive BindingKeyword where
  | varKeyword
  | letKeyword
  | constKeyword
  deriving DecidableEq, Repr

inductive Node.Form where
  | value
  | shorthand
  /-- A name with a default, which only a pattern may hold. -/
  | defaulted
  | method
  | getter
  | setter
  deriving DecidableEq, Repr

inductive Node.Kind where
  | program
  | directive
  -- statements
  | block
  | emptyStatement
  | expressionStatement
  | variableDeclaration (keyword : BindingKeyword)
  | declarator
  | ifStatement
  | whileStatement
  | doWhileStatement
  | forStatement
  | forInStatement
  | forOfStatement (awaits : Bool)
  | continueStatement
  | breakStatement
  | returnStatement
  | withStatement
  | switchStatement
  | switchCase
  | labeledStatement
  | throwStatement
  | tryStatement
  | catchClause
  | debuggerStatement
  -- modules
  | importDeclaration
  | importSpecifier
  | namespaceSpecifier
  | exportAll
  | exportNamed
  | exportDefault
  | exportSpecifier
  | importAttribute
  -- functions and classes
  | function (async generator : Bool)
  | arrow (async concise : Bool)
  | parameters
  | parameter
  | restParameter
  | functionBody
  | classDefinition
  | classBody
  | method (static : Bool) (form : Node.Form)
  | field (static : Bool)
  | staticBlock
  -- names
  | identifier (name : Text)
  | binding (name : Text)
  | label (name : Text)
  | propertyName (name : Text)
  | computedName
  | privateName (name : Text)
  -- expressions
  | literal
  | string (raw : Text)
  | regex
  | template
  | taggedTemplate
  | thisExpression
  | superExpression
  | array (trailingComma : Bool)
  | elision
  | object (trailingComma : Bool)
  | property (form : Node.Form)
  | spread
  | unary
  | update
  | binary (operator : Option Punct)
  | logical (operator : Punct)
  | assignment (operator : Punct)
  | conditional
  | sequence
  | parenthesized
  | call
  | construct
  | member
  | chain
  | importCall
  | metaProperty
  | yieldExpression
  | awaitExpression
  -- patterns
  | arrayPattern
  | objectPattern
  | bindingProperty
  | defaultedPattern
  | rest
  deriving Repr

inductive Node where
  | mk (kind : Node.Kind) (span : Span) (children : List Node)
  deriving Repr

namespace Node

def kind : Node → Kind
  | mk kind _ _ => kind

def span : Node → Span
  | mk _ span _ => span

def children : Node → List Node
  | mk _ _ children => children

mutual
def preorder : Node → List Node
  | mk kind span children => mk kind span children :: preorderAll children

def preorderAll : List Node → List Node
  | [] => []
  | n :: rest => preorder n ++ preorderAll rest
end

def unparenthesized : Node → Node
  | mk .parenthesized _ [inner] => unparenthesized inner
  | n => n

theorem preorderAll_eq_flatMap (nodes : List Node) :
    preorderAll nodes = nodes.flatMap preorder := by
  induction nodes with
  | nil => rfl
  | cons n rest ih => simp [preorderAll, ih]

end Node
end AmdUnwrap
