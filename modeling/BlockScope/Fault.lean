import BlockScope.Scope.Variable
/-!
# What makes a program invalid

A fault is a cause; an error is a fault with the place it was found at, if that is known yet. The first
place given stays.
-/
namespace BlockScope

inductive AnalysisFault where
  | unresolvedSuperclass (className superName : String)
  | undeclaredName (name : String)
  | invalidAssignment (name : String) (kind : VarKind)
  | duplicateClass (name : String)
  | duplicateDeclaration (name : String)
  | cyclicInheritance (name : String)
  deriving DecidableEq, Repr

def AnalysisFault.message : AnalysisFault → String
  | .unresolvedSuperclass className superName => s!"superclass `{superName}` of `{className}` is not declared"
  | .undeclaredName name => s!"reference to undeclared name `{name}`"
  | .invalidAssignment name kind => s!"cannot assign to {kind.describe} `{name}`"
  | .duplicateClass name => s!"class `{name}` is declared more than once"
  | .duplicateDeclaration name => s!"`{name}` is declared more than once"
  | .cyclicInheritance name => s!"cyclic superclass chain through `{name}`"

structure AnalysisError where
  fault : AnalysisFault
  span : Option Span
  deriving DecidableEq, Repr

namespace AnalysisError

/-- Gives the place unless one is known. -/
def located (e : AnalysisError) (span : Span) : AnalysisError := { e with span := e.span.or (some span) }

/-- The message, and where if that is known. -/
def text (e : AnalysisError) : String :=
  match e.span with
  | some span => s!"{e.fault.message} at {span.text}"
  | none => e.fault.message

end AnalysisError
end BlockScope
