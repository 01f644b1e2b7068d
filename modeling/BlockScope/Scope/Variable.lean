import BlockScope.Source.Span
/-!
# Variables

What a name is bound to, where it lives, and how far away it is used. The level of remote access only
ever rises. A name declared by an inlined block stands for a slot of the scope around it, and that slot
is never itself such a name.
-/
namespace BlockScope

/-- A scope by its place in a tree. -/
structure ScopeId where
  index : Nat
  deriving DecidableEq, Repr, Inhabited

/-- As `s` and the place. -/
def ScopeId.text (id : ScopeId) : String := s!"s{id.index}"

/-- A variable by its place in a tree. -/
structure VarId where
  index : Nat
  deriving DecidableEq, Repr, Inhabited

inductive VarKind where
  | argument
  /-- A temporary on the stack. -/
  | temporary
  /-- An argument or temporary moved to the heap. -/
  | heap
  /-- A name declared by an inlined block. -/
  | inlined
  /-- An instance variable, of instances or of a class itself. -/
  | slot
  /-- A class. -/
  | member
  /-- The receiver, `self` and `super`. -/
  | receiver
  deriving DecidableEq, Repr

/-- What an error message calls this kind of variable. -/
def VarKind.describe : VarKind → String
  | .argument => "argument"
  | .temporary => "local"
  | .heap => "heap variable"
  | .inlined => "inlined block local"
  | .slot => "instance variable"
  | .member => "namespace member"
  | .receiver => "self"

/-- How a variable is used across the boundary of a closure. -/
inductive RemoteAccess where
  | none
  | read
  | written
  deriving DecidableEq, Repr

/-- The higher of two levels: written over read over none. -/
def RemoteAccess.max : RemoteAccess → RemoteAccess → RemoteAccess
  | .written, _ | _, .written => .written
  | .read, _ | _, .read => .read
  | .none, .none => .none

structure Variable where
  name : String
  /-- The scope that owns it. -/
  scope : ScopeId
  kind : VarKind
  /-- The kind it was declared as; for a name of an inlined block, what the name stands for. -/
  declaredAs : VarKind
  remote : RemoteAccess
  /-- The slot that a name of an inlined block stands for. -/
  aliasOf : Option VarId
  /-- The place of an instance variable among all of its object, or of a class in its program. -/
  index : Option Nat
  span : Option Span
  deriving DecidableEq, Repr

namespace Variable

/-- A variable not yet used anywhere. -/
def new (name : String) (scope : ScopeId) (kind : VarKind) (span : Option Span) (index : Option Nat) :
    Variable :=
  { name, scope, kind, declaredAs := kind, remote := .none, aliasOf := none, index, span }

/-- Records a use across a closure boundary. -/
def mark (v : Variable) (forWrite : Bool) : Variable :=
  { v with remote := v.remote.max (if forWrite then .written else .read) }

/-- May be assigned to. -/
def writable (v : Variable) : Bool :=
  match v.kind with
  | .temporary | .heap | .slot => true
  | .inlined => v.declaredAs = .temporary
  | .argument | .member | .receiver => false

/-- Was declared as a parameter. -/
def isParameter (v : Variable) : Bool := v.declaredAs = .argument

end Variable
end BlockScope
