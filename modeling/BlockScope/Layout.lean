import BlockScope.Analysis.Basic
import BlockScope.Program.Walk
import BlockScope.Scope.Storage
/-!
# Layout

What code generation needs from an analysis, with names attached: per class its size, its methods and
the selectors it sends, and a frame for every method and every block that becomes a closure, blocks in
the order in which they open. A method is named for its class and selector; a block for its method, the
letters of the scopes from the method down to it, and its number among the blocks of the method.
-/
namespace BlockScope

inductive FrameKind where
  | method
  | block
  deriving DecidableEq, Repr

structure FrameLayout where
  scope : ScopeId
  name : String
  kind : FrameKind
  needsHeapContext : Bool
  arguments : List String
  locals : List String
  heapvars : List String
  /-- The name of the heap record, if there is one. -/
  heapvarsName : Option String
  /-- The heap records handed over at creation. -/
  usingHeapvarsFrom : List String
  /-- The values handed over, each after the name of the frame that owns it. -/
  copyingVars : List String
  deriving DecidableEq, Repr

structure MethodEntry where
  selector : String
  entryPoint : String
  deriving DecidableEq, Repr

structure ClassLayout where
  name : String
  superName : Option String
  instanceSize : Nat
  classSize : Nat
  instanceMethods : List MethodEntry
  classMethods : List MethodEntry
  /-- The selectors of all sends that are dispatched, each once, by first use. -/
  symbolReferences : List String
  frames : List FrameLayout
  deriving DecidableEq, Repr

structure Layout where
  classes : List ClassLayout
  deriving DecidableEq, Repr

/-! ## Names -/

/-- The name of a method: its side, its class and its selector with colons as underscores. -/
def Method.entryPoint (className : String) (m : Method) : String :=
  (if m.classSide then "_c_" else "_i_") ++ className ++ "__" ++
    String.ofList (m.selector.toList.map fun c => if c = ':' then '_' else c)

/-- The letter of a scope in the name of a block. -/
def Scope.letter? (s : Scope) : Option Char :=
  match s.codeKind? with
  | some .method => some 'M'
  | some .block => some 'B'
  | _ => none

/-- The letters of the scopes from the method down to a block. -/
def ScopeTree.path (t : ScopeTree) (id : ScopeId) : String :=
  String.ofList ((t.chain id).filterMap fun s => (t.scope? s).bind (·.letter?)).reverse

/-- Names given to scopes, the latest first. -/
abbrev FrameNames := List (ScopeId × String)

/-- The name of a scope; one without a name goes by its place. -/
def FrameNames.nameOf (names : FrameNames) (id : ScopeId) : String :=
  ((List.find? (·.1 = id) names).map (·.2)).getD id.text

/-- The names of a method and its blocks. -/
def frameNames (t : ScopeTree) (entryPoint : String) (method : ScopeId) (blocks : List ScopeId) : FrameNames :=
  blocks.zipIdx.foldl (fun names (block, number) =>
    (block, s!"{entryPoint}_{t.path block}{number}") :: names) [(method, entryPoint)]

/-! ## Frames -/

def heapvarsNameOf (frame : String) : String := frame ++ "_heapvars"

/-- The frame of a method or block. -/
def frameLayout (t : ScopeTree) (names : FrameNames) (id : ScopeId) : FrameLayout :=
  let frame := (t.frame? id).getD .empty
  let name := names.nameOf id
  let varNames := List.map t.nameOf
  { scope := id
    name
    kind := if t.scopeIs (·.isMethod) id then .method else .block
    needsHeapContext := frame.needsHeapContext
    arguments := varNames frame.arguments
    locals := varNames frame.locals
    heapvars := varNames frame.heapvars
    heapvarsName := if frame.heapvars.isEmpty then none else some (heapvarsNameOf name)
    usingHeapvarsFrom := frame.usingHeapvarsFrom.map fun s => heapvarsNameOf (names.nameOf s)
    copyingVars := frame.copyingVars.filterMap fun id =>
      (t.var? id).map fun v => names.nameOf v.scope ++ v.name }

/-- The closures that open during some visits. -/
def Analysis.closuresIn (a : Analysis) (visits : List Visit) : List ScopeId :=
  visits.filterMap fun
    | .block id => (a.blockScopes.get? id).filter (a.scopes.scopeIs (·.isTrueBlock))
    | _ => none

/-- The selector of a send. -/
def Arena.selector? (arena : Arena) (id : NodeId) : Option String :=
  match arena.expr? id with
  | some (.send _ selector _) => some selector
  | _ => none

/-- The selectors dispatched during some visits: of plain sends and of all messages of cascades. -/
def Analysis.dispatchedIn (a : Analysis) (arena : Arena) (visits : List Visit) : List String :=
  visits.flatMap fun
    | .send id =>
      match a.sends.get? id with
      | some .plain => (arena.selector? id).toList
      | _ => []
    | .cascade id =>
      match arena.expr? id with
      | some (.cascade _ messages) => messages.filterMap arena.selector?
      | _ => []
    | _ => []

/-! ## Classes -/

/-- The layout of one method. -/
structure MethodLayout where
  classSide : Bool
  entry : MethodEntry
  dispatched : List String
  frames : List FrameLayout

def methodLayout (p : Program) (a : Analysis) (className : String) (m : Method) (scope : ScopeId) :
    MethodLayout :=
  let entryPoint := m.entryPoint className
  let visits := p.arena.visits m.body
  let blocks := a.closuresIn visits
  let names := frameNames a.scopes entryPoint scope blocks
  { classSide := m.classSide
    entry := ⟨m.selector, entryPoint⟩
    dispatched := a.dispatchedIn p.arena visits
    frames := (scope :: blocks).map (frameLayout a.scopes names) }

def classLayout (p : Program) (a : Analysis) (c : ClassDefinition) (info : ClassInfo) : ClassLayout :=
  let methods := (c.methods.zip info.methods).map fun (m, scope) => methodLayout p a c.name m scope
  { name := c.name
    superName := (info.superClass.bind (a.classes[·]?)).map (·.name)
    instanceSize := info.instanceVars.length
    classSize := info.classVars.length
    instanceMethods := (methods.filter (!·.classSide)).map (·.entry)
    classMethods := (methods.filter (·.classSide)).map (·.entry)
    symbolReferences := appendNew [] (methods.flatMap (·.dispatched))
    frames := methods.flatMap (·.frames) }

/-- The layout of an analysed program. -/
def Program.layout (p : Program) (a : Analysis) : Layout :=
  ⟨(p.classes.zip a.classes.toList).map fun (c, info) => classLayout p a c info⟩

end BlockScope
