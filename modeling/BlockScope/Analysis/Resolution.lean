import BlockScope.Analysis.Basic
import BlockScope.Program.Walk
import BlockScope.Scope.Storage
/-!
# Resolving names

The first pass over the bodies. It makes a scope for every method and block, declares what they declare,
binds every name to a variable and marks the variables that are used across a closure. Blocks that are
arguments of an inlined send get an inlined scope; the messages of a cascade are never inlined. An
assignment is checked before the value it assigns is looked at.
-/
namespace BlockScope
open Stage

/-- Declares one parameter or temporary. -/
def declareIn (scope : ScopeId) (isParameter : Bool) (d : Declaration) : Stage Unit := do
  let var ← tryScopes (.declare scope d isParameter)
  let scopes := (← analysis).scopes
  match (scopes.var? var).bind (·.aliasOf) with
  | some slot => tell [.inlinedLocal d.name scope slot (scopes.realScope scope)]
  | none => return

/-- Declares what a scope declares, then visits its statements in it. -/
def enterScope (visit : ScopeId → NodeId → Stage Unit) (scope : ScopeId) (params temps : List Declaration)
    (body : List NodeId) : Stage Unit := do
  params.forM (declareIn scope true)
  temps.forM (declareIn scope false)
  body.forM (visit scope)

/-- Finds a name; an error is located at the node. -/
def lookupAt (arena : Arena) (scope : ScopeId) (id : NodeId) (name : String) (forWrite : Bool) : Stage VarId :=
  tryCatch (lookup scope name forWrite) fun e => throw (e.located (arena.span id))

/-- Binds a name that is read. -/
def resolveIdent (arena : Arena) (scope : ScopeId) (id : NodeId) (name : String) : Stage Unit := do
  let var ← lookupAt arena scope id name false
  update fun a => { a with bindings := a.bindings.insert id var }

/-- Binds a name that is assigned to, which takes a variable that may be. -/
def resolveTarget (arena : Arena) (scope : ScopeId) (id : NodeId) (name : String) : Stage Unit := do
  let var ← lookupAt arena scope id name true
  match (← analysis).scopes.var? var with
  | some v =>
    if v.writable then update fun a => { a with bindings := a.bindings.insert id var }
    else
      let kind := if v.kind = .inlined then v.declaredAs else v.kind
      throw ⟨.invalidAssignment name kind, some (arena.span id)⟩
  | none => return

/-- Makes the scope of a block inside another and enters it. -/
def resolveBlock (visit : ScopeId → NodeId → Stage Unit) (outer : ScopeId) (kind : CodeKind) (id : NodeId)
    (params temps : List Declaration) (body : List NodeId) : Stage Unit := do
  let scope ← onScopes (·.addScope (some outer) (.code kind .empty))
  update fun a => { a with blockScopes := a.blockScopes.insert id scope }
  enterScope visit scope params temps body

/-- Resolves an argument of an inlined send. -/
def resolveInlinedArg (arena : Arena) (visit : ScopeId → NodeId → Stage Unit) (scope : ScopeId)
    (intrinsic : Intrinsic) (entry : NodeId × Nat) : Stage Unit := do
  let (arg, position) := entry
  if position ∈ intrinsic.inlinedArgs then
    match arena.expr? arg with
    | some (.block params temps body) => resolveBlock visit scope .inlinedBlock arg params temps body
    | _ => visit scope arg
  else visit scope arg

/-- Resolves one node, its parts by `visit`. -/
def resolveNode (arena : Arena) (visit : ScopeId → NodeId → Stage Unit) (scope : ScopeId) (id : NodeId) :
    Stage Unit := do
  match arena.expr? id with
  | none | some (.literal _) => return
  | some (.ident name) => resolveIdent arena scope id name
  | some (.assign target value) =>
    match arena.expr? target with
    | some (.ident name) => resolveTarget arena scope target name
    | _ => pure ()
    visit scope value
  | some (.send receiver _ args) =>
    let shape := (arena.sendShape? id).getD .plain
    update fun a => { a with sends := a.sends.insert id shape }
    match shape with
    | .plain => (receiver :: args).forM (visit scope)
    | .inlined intrinsic =>
      tell [.inlining intrinsic (arena.span id)]
      visit scope receiver
      args.zipIdx.forM (resolveInlinedArg arena visit scope intrinsic)
  | some (.cascade receiver messages) =>
    update fun a => { a with sends := messages.foldl (·.insert · .plain) a.sends }
    (arena.cascadeParts receiver messages).forM (visit scope)
  | some (.block params temps body) => resolveBlock visit scope .block id params temps body
  | some (.paren inner) => visit scope inner
  | some (.array elements) => elements.forM (visit scope)
  | some (.ret value) => visit scope value

/-- Resolves a node with its parts down to some depth. -/
def resolveWithin (arena : Arena) : Nat → ScopeId → NodeId → Stage Unit
  | 0, _, _ => return
  | n + 1, scope, id => resolveNode arena (resolveWithin arena n) scope id

/-- Resolves a method of the class at a place of the program. -/
def resolveMethod (arena : Arena) (index : Nat) (m : Method) : Stage Unit := do
  match (← analysis).classes[index]? with
  | none => return
  | some info =>
    tell [.method info.name m.selector]
    let side := if m.classSide then info.classScope else info.instanceScope
    let scope ← onScopes (·.addScope (some side) (.code .method .empty))
    update (·.modifyClass index fun c =>
      if m.classSide then { c with classMethods := c.classMethods ++ [scope] }
      else { c with instanceMethods := c.instanceMethods ++ [scope] })
    enterScope (resolveWithin arena (arena.size + 1)) scope m.params m.temps m.body

/-- Resolves every method of a class. -/
def resolveClass (arena : Arena) (entry : ClassDefinition × Nat) : Stage Unit := do
  let (c, index) := entry
  tell [.resolving c.name]
  c.methods.forM (resolveMethod arena index)

/-- Resolves every class. -/
def resolve (p : Program) : Stage Unit := p.classes.zipIdx.forM (resolveClass p.arena)

end BlockScope
