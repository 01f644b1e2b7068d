import BlockScope.Scope.Variable
import BlockScope.Fault
/-!
# Scopes

A tree of scopes and the variables they own, each under its place. The root holds the classes of a
program; under it hang two sides per class, and under those the methods and blocks. Every scope but the
root has an outer scope made before it, so a chain of outer scopes is no longer than the tree, which
bounds the walk outwards.
-/
namespace BlockScope

/-- What a method or block keeps for one activation, and what it is handed at creation. -/
structure Frame where
  arguments : List VarId
  locals : List VarId
  heapvars : List VarId
  /-- The names an inlined block declares. -/
  inlined : List VarId
  needsHeapContext : Bool
  /-- Scopes whose heap records are handed over. -/
  usingHeapvarsFrom : List ScopeId
  /-- Variables handed over by value. -/
  copyingVars : List VarId
  deriving DecidableEq, Repr

def Frame.empty : Frame := ⟨[], [], [], [], false, [], []⟩

inductive CodeKind where
  | method
  /-- A block that becomes a closure. -/
  | block
  /-- A block compiled in place. -/
  | inlinedBlock
  deriving DecidableEq, Repr

inductive ScopeBody where
  /-- The classes of a program. -/
  | root (members : List VarId)
  /-- One side of a class: its receiver and all its variables, inherited ones first. -/
  | side (classIndex : Nat) (classSide : Bool) (receiver : VarId) (slots : List VarId)
  | code (kind : CodeKind) (frame : Frame)
  deriving DecidableEq, Repr

structure Scope where
  outer : Option ScopeId
  body : ScopeBody
  deriving DecidableEq, Repr

namespace Scope

def frame? (s : Scope) : Option Frame :=
  match s.body with
  | .code _ frame => some frame
  | _ => none

def codeKind? (s : Scope) : Option CodeKind :=
  match s.body with
  | .code kind _ => some kind
  | _ => none

def isMethod (s : Scope) : Bool := s.codeKind? = some .method

/-- Is a block that becomes a closure. -/
def isTrueBlock (s : Scope) : Bool := s.codeKind? = some .block

def isInlined (s : Scope) : Bool := s.codeKind? = some .inlinedBlock

/-- What a dump calls this kind of scope. -/
def describe (s : Scope) : String :=
  match s.body with
  | .root _ => "namespace"
  | .side _ _ _ _ => "class"
  | .code .method _ => "method"
  | .code .block _ => "block"
  | .code .inlinedBlock _ => "optimised block"

/-- Changes the frame, if there is one. -/
def mapFrame (f : Frame → Frame) (s : Scope) : Scope :=
  match s.body with
  | .code kind frame => { s with body := .code kind (f frame) }
  | _ => s

/-- Lists a class in the root, or an instance variable in its side. -/
def listMember (id : VarId) (s : Scope) : Scope :=
  match s.body with
  | .root members => { s with body := .root (members ++ [id]) }
  | .side classIndex classSide receiver slots =>
    { s with body := .side classIndex classSide receiver (slots ++ [id]) }
  | .code _ _ => s

/-- Gives the instance variables of a side. -/
def withSlots (ids : List VarId) (s : Scope) : Scope :=
  match s.body with
  | .side classIndex classSide receiver _ => { s with body := .side classIndex classSide receiver ids }
  | _ => s

end Scope

structure ScopeTree where
  scopes : Array Scope
  vars : Array Variable
  deriving DecidableEq, Repr

namespace ScopeTree

def empty : ScopeTree := ⟨#[], #[]⟩

def scope? (t : ScopeTree) (id : ScopeId) : Option Scope := t.scopes[id.index]?

def var? (t : ScopeTree) (id : VarId) : Option Variable := t.vars[id.index]?

def frame? (t : ScopeTree) (id : ScopeId) : Option Frame := (t.scope? id).bind (·.frame?)

/-- The scope is there and has the property. -/
def scopeIs (t : ScopeTree) (p : Scope → Bool) (id : ScopeId) : Bool := (t.scope? id).any p

/-- The name of a variable. -/
def nameOf (t : ScopeTree) (id : VarId) : String := ((t.var? id).map (·.name)).getD ""

/-- Adds a scope. -/
def addScope (t : ScopeTree) (outer : Option ScopeId) (body : ScopeBody) : ScopeId × ScopeTree :=
  (⟨t.scopes.size⟩, { t with scopes := t.scopes.push ⟨outer, body⟩ })

/-- Adds a variable that no scope lists yet. -/
def addVar (t : ScopeTree) (v : Variable) : VarId × ScopeTree :=
  (⟨t.vars.size⟩, { t with vars := t.vars.push v })

/-- Adds one side of a class with its receiver. -/
def addSide (t : ScopeTree) (outer : ScopeId) (classIndex : Nat) (classSide : Bool) : ScopeId × ScopeTree :=
  let (receiver, t) := t.addVar (.new "self" ⟨t.scopes.size⟩ .receiver none none)
  t.addScope (some outer) (.side classIndex classSide receiver [])

/-- Changes a scope. -/
def modifyScope (t : ScopeTree) (id : ScopeId) (f : Scope → Scope) : ScopeTree :=
  { t with scopes := t.scopes.modify id.index f }

/-- Changes the frame of a method or block. -/
def modifyFrame (t : ScopeTree) (id : ScopeId) (f : Frame → Frame) : ScopeTree :=
  t.modifyScope id (·.mapFrame f)

/-- Changes a variable. -/
def modifyVar (t : ScopeTree) (id : VarId) (f : Variable → Variable) : ScopeTree :=
  { t with vars := t.vars.modify id.index f }

/-- Adds a class to the root, or an instance variable to a side. -/
def addMember (t : ScopeTree) (v : Variable) : VarId × ScopeTree :=
  let (id, t) := t.addVar v
  (id, t.modifyScope v.scope (·.listMember id))

/-! ## Outwards -/

/-- At most `n` scopes from this one outwards. -/
def chainWithin (t : ScopeTree) : Nat → ScopeId → List ScopeId
  | 0, _ => []
  | n + 1, id =>
    match (t.scope? id).bind (·.outer) with
    | some outer => id :: chainWithin t n outer
    | none => [id]

/-- A scope and all those around it, the innermost first. -/
def chain (t : ScopeTree) (id : ScopeId) : List ScopeId := t.chainWithin (t.scopes.size + 1) id

/-- The nearest scope that is no inlined block. -/
def realScope (t : ScopeTree) (id : ScopeId) : ScopeId :=
  ((t.chain id).find? fun s => !t.scopeIs (·.isInlined) s).getD id

/-- The method around a scope. -/
def methodOf (t : ScopeTree) (id : ScopeId) : Option ScopeId :=
  (t.chain id).find? (t.scopeIs (·.isMethod))

/-- The scopes from one outwards, up to but without another. -/
def chainUntil (t : ScopeTree) (id stop : ScopeId) : List ScopeId := (t.chain id).takeWhile (· ≠ stop)

/-- The closures between a scope and one around it, the first scope included. -/
def trueBlocksUntil (t : ScopeTree) (id stop : ScopeId) : List ScopeId :=
  (t.chainUntil id stop).filter (t.scopeIs (·.isTrueBlock))

/-- The slot that a name stands for. A name is made after what it stands for, which bounds the walk. -/
def realVar (t : ScopeTree) (id : VarId) : VarId :=
  match (t.var? id).bind (·.aliasOf) with
  | some slot => if slot.index < id.index then t.realVar slot else slot
  | none => id
termination_by id.index

/-- The first of some variables that has this name. -/
def findNamed (t : ScopeTree) (ids : List VarId) (name : String) : Option VarId :=
  ids.find? fun id => (t.var? id).any (·.name == name)

end ScopeTree

/-- A step on a tree that may fail. What it did stays done when it fails. -/
abbrev Scoping := ExceptT AnalysisError (StateM ScopeTree)

/-- The outcome of a step, and the tree it leaves. -/
def Scoping.runOn {α : Type} (step : Scoping α) (t : ScopeTree) : Except AnalysisError α × ScopeTree :=
  (ExceptT.run step).run t

end BlockScope
