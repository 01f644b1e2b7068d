import BlockScope.Scope.Tree
/-!
# Finding a name

`find` searches from a scope outwards and changes nothing; `lookup` also records the use. Within a
method or block the variables on the heap come first, then arguments, locals and the names of inlined
blocks. Once the search has left a closure, what it finds in a method or block is used remotely, and the
slot behind it is marked so.
-/
namespace BlockScope

/-- Where a name was found. -/
inductive Place where
  /-- In a method or block, and whether on the far side of a closure. -/
  | frame (owner : ScopeId) (remote : Bool)
  | receiver
  | slot
  | member
  deriving DecidableEq, Repr

structure Found where
  var : VarId
  place : Place
  deriving DecidableEq, Repr

namespace ScopeTree

/-- A name among the variables of a frame. -/
def findInFrame (t : ScopeTree) (frame : Frame) (name : String) : Option VarId :=
  t.findNamed (frame.heapvars ++ frame.arguments ++ frame.locals ++ frame.inlined) name

/-- A name in one scope. -/
def findIn (t : ScopeTree) (id : ScopeId) (s : Scope) (name : String) (remote : Bool) : Option Found :=
  match s.body with
  | .code _ frame => (t.findInFrame frame name).map (⟨·, .frame id remote⟩)
  | .side _ _ receiver slots =>
    if name = "self" ∨ name = "super" then some ⟨receiver, .receiver⟩
    else (t.findNamed slots name).map (⟨·, .slot⟩)
  | .root members => (t.findNamed members name).map (⟨·, .member⟩)

/-- A name in the first of these scopes that has it. -/
def findAlong (t : ScopeTree) (name : String) : (remote : Bool) → List ScopeId → Option Found
  | _, [] => none
  | remote, id :: outer =>
    match t.scope? id with
    | none => none
    | some s => (t.findIn id s name remote).or (findAlong t name (remote || s.isTrueBlock) outer)

/-- A name from a scope outwards. -/
def find (t : ScopeTree) (scope : ScopeId) (name : String) (remote : Bool) : Option Found :=
  t.findAlong name remote (t.chain scope)

/-- Records that something found is used. -/
def markFound (t : ScopeTree) (found : Found) (forWrite : Bool) : ScopeTree :=
  match found.place with
  | .frame _ true => t.modifyVar (t.realVar found.var) (·.mark forWrite)
  | _ => t

end ScopeTree

/-- Finds a name from a scope outwards and records its use. -/
def Scoping.lookup (scope : ScopeId) (name : String) (forWrite remote : Bool) : Scoping Found := do
  match (← get).find scope name remote with
  | some found =>
    modify (·.markFound found forWrite)
    return found
  | none => throw ⟨.undeclaredName name, none⟩

end BlockScope
