import BlockScope.Analysis.Basic
import BlockScope.Program.Walk
import BlockScope.Scope.Storage
/-!
# Converting closures

The second pass over the bodies, when every remote access of the whole program is known. `sites` lists
what matters in a body, in order and each with the scope it stands in; `Work.atSite` acts on one site,
and the pass is a fold. On entry to a scope its remotely written variables move to the heap. A use of a
variable on the heap hands the record of its owner to every closure in between; a use of a variable that
is only read remotely hands over its value. A return out of a closure is non-local, and its method then
keeps its context on the heap.
-/
namespace BlockScope

/-- A place in a body that matters, with the scope it stands in. -/
inductive Site where
  | enter (scope : ScopeId)
  | use (scope : ScopeId) (id : NodeId)
  | ret (scope : ScopeId) (id : NodeId)
  deriving DecidableEq, Repr

/-- The sites of one node, those of its parts by `visit`. A block without a scope has none. -/
def sitesOfNode (arena : Arena) (blockScopes : Table ScopeId) (visit : ScopeId → NodeId → List Site)
    (scope : ScopeId) (id : NodeId) : List Site :=
  match arena.expr? id with
  | none | some (.literal _) => []
  | some (.ident _) => [.use scope id]
  | some (.assign target value) => [target, value].flatMap (visit scope)
  | some (.send receiver _ args) => (receiver :: args).flatMap (visit scope)
  | some (.cascade receiver messages) => (arena.cascadeParts receiver messages).flatMap (visit scope)
  | some (.block _ _ body) =>
    match blockScopes.get? id with
    | some inner => .enter inner :: body.flatMap (visit inner)
    | none => []
  | some (.paren inner) => visit scope inner
  | some (.array elements) => elements.flatMap (visit scope)
  | some (.ret value) => .ret scope id :: visit scope value

/-- The sites of a node with its parts down to some depth. -/
def sitesWithin (arena : Arena) (blockScopes : Table ScopeId) : Nat → ScopeId → NodeId → List Site
  | 0, _, _ => []
  | n + 1, scope, id => sitesOfNode arena blockScopes (sitesWithin arena blockScopes n) scope id

/-- The sites of a method, its own entry first. -/
def methodSites (arena : Arena) (blockScopes : Table ScopeId) (scope : ScopeId) (m : Method) : List Site :=
  .enter scope :: m.body.flatMap (sitesWithin arena blockScopes (arena.size + 1) scope)

/-- Hands a variable used in a scope to every closure on the way. -/
def ScopeTree.capture (t : ScopeTree) (scope : ScopeId) (var : VarId) : ScopeTree :=
  let real := t.realVar var
  match t.var? real with
  | none => t
  | some v =>
    let closures := t.trueBlocksUntil scope v.scope
    match v.kind, v.remote with
    | .heap, _ => closures.foldl (·.addUsing · v.scope) t
    | .argument, .read | .temporary, .read => closures.foldl (·.addCopying · real) t
    | _, _ => t

namespace Work

/-- Moves variables of a scope to the heap. -/
def enter (w : Work) (scope : ScopeId) : Work :=
  let (ids, t) := w.analysis.scopes.promote scope
  (w.withScopes t).tell (ids.map fun id => .promoted (t.nameOf id) scope)

/-- Captures the variable a name is bound to. -/
def use (w : Work) (scope : ScopeId) (id : NodeId) : Work :=
  match w.analysis.bindings.get? id with
  | some var => w.withScopes (w.analysis.scopes.capture scope var)
  | none => w

/-- Keeps the context of a method on the heap. -/
def keepContext (w : Work) (method : ScopeId) (span : Span) : Work :=
  match w.analysis.scopes.frame? method with
  | none => w
  | some frame =>
    let w := if frame.needsHeapContext then w else w.tell [.nonLocalReturn span method]
    w.withScopes (w.analysis.scopes.modifyFrame method ({ · with needsHeapContext := true }))

/-- Records the kind of a return. -/
def returnFrom (arena : Arena) (w : Work) (scope : ScopeId) (id : NodeId) : Work :=
  let t := w.analysis.scopes
  let left := (t.methodOf scope).filter fun m => !(t.trueBlocksUntil scope m).isEmpty
  let kind := if left.isSome then ReturnKind.nonLocal else .near
  let w := w.mapAnalysis fun a => { a with returns := a.returns.insert id kind }
  match left with
  | some method => w.keepContext method (arena.span id)
  | none => w

/-- Acts on a site. -/
def atSite (arena : Arena) (w : Work) : Site → Work
  | .enter scope => w.enter scope
  | .use scope id => w.use scope id
  | .ret scope id => returnFrom arena w scope id

/-- Converts the closures of a class, method by method. -/
def convertClass (arena : Arena) (w : Work) (entry : ClassDefinition × Nat) : Work :=
  let (c, index) := entry
  let scopes := (w.analysis.classes[index]?.map ClassInfo.methods).getD []
  let sites := (c.methods.zip scopes).flatMap fun (m, scope) =>
    methodSites arena w.analysis.blockScopes scope m
  sites.foldl (atSite arena) (w.tell [.converting c.name])

end Work

/-- Converts the closures of every class. -/
def convert (p : Program) : Stage Unit :=
  modify fun w => p.classes.zipIdx.foldl (Work.convertClass p.arena) w

end BlockScope
