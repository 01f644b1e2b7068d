import BlockScope.Program.Inlining
import BlockScope.Analysis.Journal
import BlockScope.Analysis.Table
/-!
# What the analysis of a program knows

The scopes of a program, its classes, and tables for the nodes: the variable of every name, the scope of
every block, the shape of every send and the kind of every return. A stage is a step on that knowledge
which also keeps a journal; what it did stays done when it fails.
-/
namespace BlockScope

inductive ReturnKind where
  /-- From the activation it is written in. -/
  | near
  /-- From the method around it, out of a closure. -/
  | nonLocal
  deriving DecidableEq, Repr

/-- What is known of a class. -/
structure ClassInfo where
  name : String
  /-- The place of the superclass in the program. -/
  superClass : Option Nat
  /-- The variable that names the class. -/
  member : VarId
  instanceScope : ScopeId
  classScope : ScopeId
  instanceMethods : List ScopeId
  classMethods : List ScopeId
  /-- Variables in the order of their places, inherited ones first. -/
  instanceVars : List VarId
  classVars : List VarId
  deriving DecidableEq, Repr

/-- The scopes of the methods, in the order of the methods themselves. -/
def ClassInfo.methods (c : ClassInfo) : List ScopeId := c.instanceMethods ++ c.classMethods

structure Analysis where
  scopes : ScopeTree
  /-- The scope of the classes. -/
  root : ScopeId
  /-- In the order of the program. -/
  classes : Array ClassInfo
  bindings : Table VarId
  blockScopes : Table ScopeId
  sends : Table SendShape
  returns : Table ReturnKind
  deriving DecidableEq, Repr

namespace Analysis

/-- A root without classes. -/
def fresh : Analysis :=
  let (root, scopes) := ScopeTree.empty.addScope none (.root [])
  { scopes, root, classes := #[], bindings := .empty, blockScopes := .empty, sends := .empty, returns := .empty }

def classNamed? (a : Analysis) (name : String) : Option ClassInfo := a.classes.toList.find? (·.name == name)

/-- Changes what is known of a class. -/
def modifyClass (a : Analysis) (index : Nat) (f : ClassInfo → ClassInfo) : Analysis :=
  { a with classes := a.classes.modify index f }

end Analysis

/-- An analysis under way and what was told of it. -/
structure Work where
  analysis : Analysis
  journal : Array Entry

def Work.tell (w : Work) (entries : List Entry) : Work := { w with journal := w.journal ++ entries }

def Work.mapAnalysis (w : Work) (f : Analysis → Analysis) : Work := { w with analysis := f w.analysis }

def Work.withScopes (w : Work) (scopes : ScopeTree) : Work := w.mapAnalysis ({ · with scopes := scopes })

/-- A step of an analysis. -/
abbrev Stage := ExceptT AnalysisError (StateM Work)

namespace Stage

/-- The outcome on an analysis, and the work after it. -/
def runOn {α : Type} (stage : Stage α) (a : Analysis) : Except AnalysisError α × Work :=
  (ExceptT.run stage).run ⟨a, #[]⟩

def analysis : Stage Analysis := do return (← get).analysis

def tell (entries : List Entry) : Stage Unit := modify (·.tell entries)

def update (f : Analysis → Analysis) : Stage Unit := modify (·.mapAnalysis f)

/-- Changes the scopes. -/
def onScopes {α : Type} (f : ScopeTree → α × ScopeTree) : Stage α := do
  let w ← get
  let (result, scopes) := f w.analysis.scopes
  set (w.withScopes scopes)
  return result

/-- Changes the scopes by a step that may fail. The scopes are what the step leaves, also then. -/
def tryScopes {α : Type} (step : Scoping α) : Stage α := do
  let w ← get
  let (outcome, scopes) := step.runOn w.analysis.scopes
  set (w.withScopes scopes)
  match outcome with
  | .ok result => return result
  | .error e => throw e

/-- Finds a name from a scope outwards and records its use. -/
def lookup (scope : ScopeId) (name : String) (forWrite : Bool) : Stage VarId := do
  let found ← tryScopes (.lookup scope name forWrite false)
  tell (Entry.ofFound name scope found)
  return found.var

end Stage
end BlockScope
