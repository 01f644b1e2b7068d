import BlockScope.Expr
import BlockScope.Scope.Tree
/-!
# Storage

Declaring the variables of methods and blocks, moving them to the heap, and handing them to closures.
An inlined block owns no storage: each name it declares is an alias of a fresh local of the nearest
scope that is no inlined block, under a name that no source text can spell. A name is checked before
anything is made for it.
-/
namespace BlockScope
namespace ScopeTree

/-- The name of the `n`th slot of a frame, made for a name of an inlined block. -/
def slotName (name : String) (n : Nat) : String := s!"{name}#{n}"

/-- Adds a variable to a scope and lists it in its frame. -/
def addListed (t : ScopeTree) (v : Variable) (list : VarId → Frame → Frame) : VarId × ScopeTree :=
  let (id, t) := t.addVar v
  (id, t.modifyFrame v.scope (list id))

def listArgument (id : VarId) (f : Frame) : Frame := { f with arguments := f.arguments ++ [id] }

def listLocal (id : VarId) (f : Frame) : Frame := { f with locals := f.locals ++ [id] }

def listInlined (id : VarId) (f : Frame) : Frame := { f with inlined := f.inlined ++ [id] }

/-- The slot of a name of an inlined block, the `n`th of its host. -/
def slotFor (d : Declaration) (host : ScopeId) (n : Nat) : Variable :=
  .new (slotName d.name n) host .temporary (some d.span) none

/-- The number of the next slot in the host of an inlined block. -/
def slotNumber (t : ScopeTree) (s : ScopeId) : Nat :=
  ((t.frame? (t.realScope s)).map fun f => f.arguments.length + f.locals.length).getD 0

/-- The name of an inlined block that stands for a slot. -/
def inlinedName (d : Declaration) (s : ScopeId) (declaredAs : VarKind) (slot : VarId) : Variable :=
  { Variable.new d.name s .inlined (some d.span) none with declaredAs, aliasOf := some slot }

end ScopeTree

namespace Scoping
open ScopeTree

/-- Declares a name of an inlined block, after its slot. -/
def addInlined (scope : ScopeId) (d : Declaration) (isParameter : Bool) : Scoping VarId := do
  let t ← get
  match t.frame? scope with
  | none => throw ⟨.undeclaredName d.name, none⟩
  | some frame =>
    if (t.findNamed frame.inlined d.name).isSome then throw ⟨.duplicateDeclaration d.name, some d.span⟩
    else
      let slot ← modifyGet (·.addListed (slotFor d (t.realScope scope) (t.slotNumber scope)) listLocal)
      let declaredAs := if isParameter then VarKind.argument else .temporary
      modifyGet (·.addListed (inlinedName d scope declaredAs slot) listInlined)

/-- Declares a parameter or a temporary. -/
def declare (scope : ScopeId) (d : Declaration) (isParameter : Bool) : Scoping VarId := do
  let t ← get
  if t.scopeIs (·.isInlined) scope then addInlined scope d isParameter
  else match t.frame? scope with
    | none => throw ⟨.undeclaredName d.name, none⟩
    | some frame =>
      if (t.findNamed (frame.arguments ++ frame.locals) d.name).isSome then
        throw ⟨.duplicateDeclaration d.name, some d.span⟩
      else if isParameter then
        modifyGet (·.addListed (.new d.name scope .argument (some d.span) none) listArgument)
      else modifyGet (·.addListed (.new d.name scope .temporary (some d.span) none) listLocal)

end Scoping

/-! ## Closures -/

/-- The elements not there yet, at the end. -/
def appendNew {α : Type} [DecidableEq α] (xs : List α) (new : List α) : List α :=
  new.foldl (fun xs x => if x ∈ xs then xs else xs ++ [x]) xs

/-- Moves variables of a frame to its heap record. -/
def Frame.moveToHeap (f : Frame) (ids : List VarId) : Frame :=
  { f with
    arguments := f.arguments.filter (· ∉ ids)
    locals := f.locals.filter (· ∉ ids)
    heapvars := appendNew f.heapvars ids }

namespace ScopeTree

/-- The variable is written from the far side of a closure. -/
def isWrittenRemotely (t : ScopeTree) (id : VarId) : Bool := (t.var? id).any (·.remote = .written)

/-- Moves every variable of a scope that is written remotely to the heap, and tells which. -/
def promote (t : ScopeTree) (scope : ScopeId) : List VarId × ScopeTree :=
  match t.frame? scope with
  | none => ([], t)
  | some frame =>
    let ids := (frame.arguments ++ frame.locals).filter t.isWrittenRemotely
    let t := ids.foldl (fun t id => t.modifyVar id fun v => { v with kind := .heap }) t
    (ids, if ids.isEmpty then t else t.modifyFrame scope (·.moveToHeap ids))

/-- Hands the heap record of one scope to another. -/
def addUsing (t : ScopeTree) (scope source : ScopeId) : ScopeTree :=
  t.modifyFrame scope fun f => { f with usingHeapvarsFrom := appendNew f.usingHeapvarsFrom [source] }

/-- Hands a variable to a scope by value. -/
def addCopying (t : ScopeTree) (scope : ScopeId) (var : VarId) : ScopeTree :=
  t.modifyFrame scope fun f => { f with copyingVars := appendNew f.copyingVars [var] }

end ScopeTree
end BlockScope
