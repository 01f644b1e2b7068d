import BlockScope.Expr
/-!
# Sends compiled in place

Two control-flow messages are not sent when their arguments have the right form: a conditional with two
blocks without parameters, and a counting loop whose last argument is a block with one. The blocks are
then compiled in place. Only a block written directly as the argument counts.
-/
namespace BlockScope

inductive Intrinsic where
  | conditional
  | countingLoop
  deriving DecidableEq, Repr

def Intrinsic.selector : Intrinsic → String
  | .conditional => "ifTrue:ifFalse:"
  | .countingLoop => "to:do:"

/-- The positions of the arguments that are compiled in place. -/
def Intrinsic.inlinedArgs : Intrinsic → List Nat
  | .conditional => [0, 1]
  | .countingLoop => [1]

/-- How a send is carried out. -/
inductive SendShape where
  | plain
  | inlined (intrinsic : Intrinsic)
  deriving DecidableEq, Repr

def SendShape.isInlined : SendShape → Bool
  | .plain => false
  | .inlined _ => true

namespace Arena

/-- The number of parameters of a block. -/
def blockArity? (arena : Arena) (id : NodeId) : Option Nat :=
  match arena.expr? id with
  | some (.block params _ _) => some params.length
  | _ => none

/-- The intrinsic that a selector and its arguments make. -/
def intrinsic? (arena : Arena) (selector : String) (args : List NodeId) : Option Intrinsic :=
  match args with
  | [first, second] =>
    if selector = Intrinsic.conditional.selector ∧ arena.blockArity? first = some 0 ∧
        arena.blockArity? second = some 0 then some .conditional
    else if selector = Intrinsic.countingLoop.selector ∧ arena.blockArity? second = some 1 then
      some .countingLoop
    else none
  | _ => none

/-- The shape of a send; none of anything else. -/
def sendShape? (arena : Arena) (id : NodeId) : Option SendShape :=
  match arena.expr? id with
  | some (.send _ selector args) =>
    some (match arena.intrinsic? selector args with
      | some intrinsic => .inlined intrinsic
      | none => .plain)
  | _ => none

end Arena
end BlockScope
