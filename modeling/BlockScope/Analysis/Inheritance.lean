import BlockScope.Analysis.Basic
import BlockScope.Program
/-!
# Classes and inheritance

`register` enters the classes of a program into the root, each with a scope for its instances and one
for itself. `link` finds the superclasses, refuses a chain of them that does not end, and lays out the
variables of both sides, those of the topmost class first. A chain that ends has no more classes than
the program, so one that is longer than that does not.
-/
namespace BlockScope
open Stage

/-- Enters a class. -/
def registerClass (entry : ClassDefinition × Nat) : Stage Unit := do
  let (c, index) := entry
  let a ← analysis
  if (a.classNamed? c.name).isSome then throw ⟨.duplicateClass c.name, some c.span⟩
  let member ← onScopes (·.addMember (.new c.name a.root .member (some c.span) (some index)))
  let instanceScope ← onScopes (·.addSide a.root index false)
  let classScope ← onScopes (·.addSide a.root index true)
  tell [.registered c.name instanceScope classScope]
  let info : ClassInfo := {
    name := c.name, superClass := none, member, instanceScope, classScope,
    instanceMethods := [], classMethods := [], instanceVars := [], classVars := [] }
  update fun a => { a with classes := a.classes.push info }

/-- Enters every class, starting from a fresh analysis. -/
def register (p : Program) : Stage Unit := p.classes.zipIdx.forM registerClass

/-- Finds the superclass of a class. -/
def linkClass (entry : ClassDefinition × Nat) : Stage Unit := do
  let (c, index) := entry
  match c.superName with
  | none => return
  | some superName =>
    let a ← analysis
    let member ← tryCatch (lookup a.root superName false) fun _ =>
      throw ⟨.unresolvedSuperclass c.name superName, some c.superSpan⟩
    let a ← analysis
    let superClass := (a.scopes.var? member).bind (·.index)
    update (·.modifyClass index ({ · with superClass := superClass }))
    tell [.linked c.name superName]

/-- At most `n` classes from this one upwards. -/
def Analysis.ancestorsWithin (a : Analysis) : Nat → Nat → List Nat
  | 0, _ => []
  | n + 1, index =>
    match a.classes[index]?.bind (·.superClass) with
    | some parent => index :: ancestorsWithin a n parent
    | none => [index]

/-- A class and all it inherits from, the class first. -/
def Analysis.ancestors (a : Analysis) (index : Nat) : List Nat := a.ancestorsWithin a.classes.size index

/-- The chain of superclasses does not end. -/
def Analysis.isCyclic (a : Analysis) (index : Nat) : Bool :=
  a.classes.size < (a.ancestorsWithin (a.classes.size + 1) index).length

/-- Refuses a class whose chain of superclasses does not end. -/
def checkAcyclic (entry : ClassDefinition × Nat) : Stage Unit := do
  let (c, index) := entry
  if (← analysis).isCyclic index then throw ⟨.cyclicInheritance c.name, some c.span⟩

/-- Adds one variable to those of a side made so far. -/
def declareSlot (scope : ScopeId) (made : List VarId) (d : Declaration) : Stage (List VarId) := do
  let a ← analysis
  if (a.scopes.findNamed made d.name).isSome then throw ⟨.duplicateDeclaration d.name, some d.span⟩
  let var ← onScopes (·.addVar (.new d.name scope .slot (some d.span) (some made.length)))
  return made ++ [var]

/-- Makes the variables of a side in the order of their places. -/
def declareSlots (scope : ScopeId) (ds : List Declaration) : Stage (List VarId) := do
  let vars ← ds.foldlM (declareSlot scope) []
  onScopes fun t => ((), t.modifyScope scope (·.withSlots vars))
  return vars

/-- The declarations of a class and all it inherits from, the topmost class first. -/
def inherited (p : Program) (ancestors : List Nat) (own : ClassDefinition → List Declaration) :
    List Declaration :=
  ancestors.reverse.flatMap fun c => (p.classes[c]?.map own).getD []

/-- Lays out the variables of both sides of a class. -/
def layOutClass (p : Program) (entry : ClassDefinition × Nat) : Stage Unit := do
  let (c, index) := entry
  let a ← analysis
  match a.classes[index]? with
  | none => return
  | some info =>
    let ancestors := a.ancestors index
    let instanceVars ← declareSlots info.instanceScope (inherited p ancestors (·.instanceVars))
    update (·.modifyClass index ({ · with instanceVars := instanceVars }))
    let classVars ← declareSlots info.classScope (inherited p ancestors (·.classVars))
    update (·.modifyClass index ({ · with classVars := classVars }))
    tell [.laidOut c.name instanceVars.length classVars.length]

/-- Finds every superclass, then refuses cycles, then lays out every class. -/
def link (p : Program) : Stage Unit := do
  p.classes.zipIdx.forM linkClass
  p.classes.zipIdx.forM checkAcyclic
  p.classes.zipIdx.forM (layOutClass p)

end BlockScope
