import BlockScope.Number.Binary64
import BlockScope.Source.Span
/-!
# Expressions

Expressions are one layer deep: the parts of an expression are named by their place in an `Arena`, so
later stages can attach tables to nodes. A cascade names its receiver once, and each of its messages is
a send to that same node. Nothing here rules out shared or cyclic parts; the parser makes neither,
apart from the receiver of a cascade.
-/
namespace BlockScope

/-- A node by its place in an arena. -/
structure NodeId where
  index : Nat
  deriving DecidableEq, Repr, Inhabited

/-- As `e` and the place. -/
def NodeId.text (id : NodeId) : String := s!"e{id.index}"

/-- A declared name: a parameter, a temporary, or a variable of an instance or a class. -/
structure Declaration where
  name : String
  span : Span
  deriving DecidableEq, Repr

/-- A constant. -/
inductive Literal where
  | integer (value : Int64)
  | float (value : Binary64)
  | string (value : String)
  | symbol (name : String)
  | character (value : Char)
  | nil
  | true
  | false
  deriving DecidableEq, Repr

inductive Expr where
  | literal (value : Literal)
  /-- A name, `self` and `super` included. -/
  | ident (name : String)
  | assign (target value : NodeId)
  /-- A message with its full selector, as in `at:put:` or `+`. -/
  | send (receiver : NodeId) (selector : String) (args : List NodeId)
  /-- Several messages to one receiver. -/
  | cascade (receiver : NodeId) (messages : List NodeId)
  | block (params temps : List Declaration) (body : List NodeId)
  | paren (inner : NodeId)
  /-- An array built from the values of its elements. -/
  | array (elements : List NodeId)
  | ret (value : NodeId)
  deriving DecidableEq, Repr

/-- The nodes an expression names, in order. -/
def Expr.children : Expr → List NodeId
  | .literal _ | .ident _ => []
  | .assign target value => [target, value]
  | .send receiver _ args => receiver :: args
  | .cascade receiver messages => receiver :: messages
  | .block _ _ body => body
  | .paren inner => [inner]
  | .array elements => elements
  | .ret value => [value]

/-- An expression and where it stands. -/
structure Node where
  expr : Expr
  span : Span
  deriving DecidableEq, Repr

/-- The expressions of a program, each under its place. -/
structure Arena where
  nodes : Array Node
  deriving DecidableEq, Repr

namespace Arena

def empty : Arena := ⟨#[]⟩

def size (a : Arena) : Nat := a.nodes.size

def get? (a : Arena) (id : NodeId) : Option Node := a.nodes[id.index]?

def expr? (a : Arena) (id : NodeId) : Option Expr := (a.get? id).map (·.expr)

/-- Where a node stands; the beginning of the text for a node that is not there. -/
def span (a : Arena) (id : NodeId) : Span := ((a.get? id).map (·.span)).getD default

/-- The parts of a node. -/
def children (a : Arena) (id : NodeId) : List NodeId := ((a.expr? id).map Expr.children).getD []

/-- Adds a node under the next free place. -/
def push (a : Arena) (node : Node) : NodeId × Arena := (⟨a.size⟩, ⟨a.nodes.push node⟩)

/-- Every place in use, ascending. -/
def ids (a : Arena) : List NodeId := (List.range a.size).map NodeId.mk

end Arena
end BlockScope
