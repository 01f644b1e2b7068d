import BlockScope.Expr
/-!
# Programs

What one source text declares: classes with the variables and methods of their instances and of
themselves, and the arena that holds the bodies of all methods.
-/
namespace BlockScope

structure Method where
  /-- Understood by the class itself instead of its instances. -/
  classSide : Bool
  selector : String
  params : List Declaration
  temps : List Declaration
  body : List NodeId
  span : Span
  deriving DecidableEq, Repr

structure ClassDefinition where
  name : String
  /-- None when the superclass is written `nil`. -/
  superName : Option String
  superSpan : Span
  instanceVars : List Declaration
  classVars : List Declaration
  instanceMethods : List Method
  classMethods : List Method
  span : Span
  deriving DecidableEq, Repr

/-- The instance methods, then the class methods. -/
def ClassDefinition.methods (c : ClassDefinition) : List Method := c.instanceMethods ++ c.classMethods

structure Program where
  arena : Arena
  classes : List ClassDefinition
  deriving DecidableEq, Repr

end BlockScope
