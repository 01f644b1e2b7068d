import BlockScope.Analysis.Basic
/-!
# The scope tree as text

One line per scope, each under the scope around it and two blanks further in, scopes of one parent in
the order they were made.
-/
namespace BlockScope

/-- What a dump says of remote access. -/
def RemoteAccess.remark : RemoteAccess → String
  | .none => ""
  | .read => " read remotely"
  | .written => " written remotely"

/-- A variable in a dump: an instance variable with its place, any other with its remote access. -/
def Variable.summary (v : Variable) : String :=
  match v.kind, v.index with
  | .slot, some index => s!"{v.name}@{index}"
  | _, _ => v.name ++ v.remote.remark

namespace ScopeTree

def summaries (t : ScopeTree) (ids : List VarId) : String :=
  ", ".intercalate (ids.filterMap fun id => (t.var? id).map (·.summary))

/-- A remark with a list in brackets, left out if the list is empty. -/
def listRemark (title : String) (items : List String) : String :=
  if items.isEmpty then "" else title ++ " [" ++ ", ".intercalate items ++ "]"

def frameText (t : ScopeTree) (f : Frame) : String :=
  s!": args [{t.summaries f.arguments}] locals [{t.summaries f.locals}] heapvars [{t.summaries f.heapvars}]"
    ++ (if f.inlined.isEmpty then "" else s!" inlined [{t.summaries f.inlined}]")
    ++ listRemark " using heapvars from" (f.usingHeapvarsFrom.map (·.text))
    ++ (if f.copyingVars.isEmpty then "" else s!" copying [{t.summaries f.copyingVars}]")
    ++ (if f.needsHeapContext then " needs heap context" else "")

/-- What a dump says of a scope; classes are named by `className`. -/
def bodyText (t : ScopeTree) (className : Nat → String) : ScopeBody → String
  | .root members => ": " ++ t.summaries members
  | .side classIndex classSide _ slots =>
    " " ++ className classIndex ++ (if classSide then " (class side): " else " (instance side): ")
      ++ t.summaries slots
  | .code _ frame => t.frameText frame

/-- The scopes directly inside one, in the order they were made. -/
def inner (t : ScopeTree) (id : ScopeId) : List ScopeId :=
  ((List.range t.scopes.size).map ScopeId.mk).filter (t.scopeIs (·.outer = some id))

/-- The lines of a scope and those inside it down to some depth. -/
def dumpWithin (t : ScopeTree) (className : Nat → String) : Nat → (indent : Nat) → ScopeId → List String
  | 0, _, _ => []
  | n + 1, indent, id =>
    match t.scope? id with
    | none => []
    | some s =>
      let line := String.ofList (List.replicate indent ' ') ++ id.text ++ " " ++ s.describe
        ++ t.bodyText className s.body ++ "\n"
      line :: (t.inner id).flatMap (dumpWithin t className n (indent + 2))

/-- A scope and all those inside it as text. -/
def dump (t : ScopeTree) (className : Nat → String) (id : ScopeId) : String :=
  String.join (t.dumpWithin className (t.scopes.size + 1) 0 id)

end ScopeTree

/-- All scopes of an analysis as text. -/
def Analysis.dump (a : Analysis) : String :=
  a.scopes.dump (fun index => ((a.classes[index]?).map (·.name)).getD "") a.root

end BlockScope
