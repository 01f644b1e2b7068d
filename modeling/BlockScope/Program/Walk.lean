import BlockScope.Program
/-!
# Walking a program

The order in which the parts of a program are visited: classes, their methods, declarations before
statements, and every expression before its parts. A walk tells each visit to `note`, in any monad;
where that fails the walk stops. A cascade visits its receiver once, then the arguments of each message,
and never a message itself. In a program without cyclic parts no descent is longer than the arena, and
`Walk.expr` goes that deep.
-/
namespace BlockScope

/-- A visit. -/
inductive Visit where
  | program
  | classDefinition (name : String)
  | method (selector : String)
  | declaration (name : String)
  | expr (id : NodeId)
  | block (id : NodeId)
  | inlinedBlock (id : NodeId)
  | send (id : NodeId)
  | cascade (id : NodeId)
  | assign (id : NodeId)
  | ret (id : NodeId)
  | ident (id : NodeId) (name : String)
  deriving DecidableEq, Repr

/-- The arguments of a send; none of anything else. -/
def Arena.argsOf (arena : Arena) (id : NodeId) : List NodeId :=
  match arena.expr? id with
  | some (.send _ _ args) => args
  | _ => []

/-- What a cascade visits: its receiver and the arguments of its messages. -/
def Arena.cascadeParts (arena : Arena) (receiver : NodeId) (messages : List NodeId) : List NodeId :=
  receiver :: messages.flatMap arena.argsOf

namespace Walk
variable {m : Type → Type} [Monad m] (note : Visit → m Unit) (arena : Arena)

def declarations (ds : List Declaration) : m Unit := ds.forM fun d => note (.declaration d.name)

/-! Each of the following visits one node, then its parts by `visit`. The node may be of another kind
than the name says; it then has no parts. -/

def blockNode (visit : NodeId → m Unit) (id : NodeId) : m Unit := do
  note (.block id)
  match arena.expr? id with
  | some (.block params temps body) =>
    declarations note (params ++ temps)
    body.forM visit
  | _ => pure ()

def inlinedBlockNode (visit : NodeId → m Unit) (id : NodeId) : m Unit := do
  note (.inlinedBlock id)
  blockNode note arena visit id

def sendNode (visit : NodeId → m Unit) (id : NodeId) : m Unit := do
  note (.send id)
  match arena.expr? id with
  | some (.send receiver _ args) => (receiver :: args).forM visit
  | _ => pure ()

def cascadeNode (visit : NodeId → m Unit) (id : NodeId) : m Unit := do
  note (.cascade id)
  match arena.expr? id with
  | some (.cascade receiver messages) => (arena.cascadeParts receiver messages).forM visit
  | _ => pure ()

def assignNode (visit : NodeId → m Unit) (id : NodeId) : m Unit := do
  note (.assign id)
  match arena.expr? id with
  | some (.assign target value) => [target, value].forM visit
  | _ => pure ()

def retNode (visit : NodeId → m Unit) (id : NodeId) : m Unit := do
  note (.ret id)
  match arena.expr? id with
  | some (.ret value) => visit value
  | _ => pure ()

/-- Visits an expression, then as what it is. -/
def exprNode (visit : NodeId → m Unit) (id : NodeId) : m Unit := do
  note (.expr id)
  match arena.expr? id with
  | none | some (.literal _) => pure ()
  | some (.ident name) => note (.ident id name)
  | some (.assign _ _) => assignNode note arena visit id
  | some (.send _ _ _) => sendNode note arena visit id
  | some (.cascade _ _) => cascadeNode note arena visit id
  | some (.block _ _ _) => blockNode note arena visit id
  | some (.paren inner) => visit inner
  | some (.array elements) => elements.forM visit
  | some (.ret _) => retNode note arena visit id

/-- Visits an expression with its parts down to some depth. -/
def exprWithin : Nat → NodeId → m Unit
  | 0, _ => pure ()
  | n + 1, id => exprNode note arena (exprWithin n) id

/-- Visits an expression with all its parts. -/
def expr (id : NodeId) : m Unit := exprWithin note arena (arena.size + 1) id

def method (d : Method) : m Unit := do
  note (.method d.selector)
  declarations note (d.params ++ d.temps)
  d.body.forM (expr note arena)

def classDefinition (c : ClassDefinition) : m Unit := do
  note (.classDefinition c.name)
  c.methods.forM (method note arena)

def program (p : Program) : m Unit := do
  note .program
  p.classes.forM (classDefinition note p.arena)

end Walk

/-! ## Recording -/

/-- A walk that records visits and may stop at one. -/
abbrev Recording := ExceptT Visit (StateM (Array Visit))

/-- Records a visit if it is shown, and stops at it if it is shown and fails. -/
def Recording.note (shown fails : Visit → Bool) (v : Visit) : Recording Unit := do
  if shown v then
    modify (·.push v)
    if fails v then throw v

/-- What a walk recorded, and where it stopped if it did. -/
def Recording.outcome (walk : Recording Unit) : List Visit × Option Visit :=
  match (ExceptT.run walk).run #[] with
  | (.ok (), visits) => (visits.toList, none)
  | (.error v, visits) => (visits.toList, some v)

/-- Records every visit. -/
def collect (v : Visit) : StateM (Array Visit) Unit := modify (·.push v)

/-- Every visit of some expressions, in order. -/
def Arena.visits (arena : Arena) (body : List NodeId) : List Visit :=
  ((body.forM (Walk.expr collect arena)).run #[]).2.toList

end BlockScope
