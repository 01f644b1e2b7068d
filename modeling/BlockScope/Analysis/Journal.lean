import BlockScope.Program.Inlining
import BlockScope.Scope.Lookup
import BlockScope.Text.Plain
/-!
# The journal

What the stages tell about their work, as data. Each entry has a level, the part of the program that
tells it, and a message; how much of it is shown is up to the command line.
-/
namespace BlockScope

/-- From important to detailed. -/
inductive Level where
  | info
  | debug
  | trace
  deriving DecidableEq, Repr

def Level.rank : Level → Nat
  | .info => 1
  | .debug => 2
  | .trace => 3

/-- The name of a level, five characters wide. -/
def Level.text : Level → String
  | .info => "INFO "
  | .debug => "DEBUG"
  | .trace => "TRACE"

inductive Entry where
  | parsing (file : String)
  | parsed (file : String) (classes : Nat)
  | globalNames
  | semantics
  | closures
  | registered (name : String) (instanceScope classScope : ScopeId)
  | linked (name superName : String)
  | laidOut (name : String) (instanceVars classVars : Nat)
  | resolving (name : String)
  | method (className selector : String)
  | inlining (intrinsic : Intrinsic) (span : Span)
  | foundInFrame (name : String) (source : ScopeId) (var : VarId) (owner : ScopeId) (remote : Bool)
  | foundSlot (name : String) (source : ScopeId) (var : VarId)
  | foundMember (name : String) (source : ScopeId) (var : VarId)
  | inlinedLocal (name : String) (scope : ScopeId) (slot : VarId) (owner : ScopeId)
  | converting (name : String)
  | promoted (name : String) (scope : ScopeId)
  | nonLocalReturn (span : Span) (method : ScopeId)
  deriving DecidableEq, Repr

namespace Entry

/-- What is told of finding a name; of the receiver, nothing. -/
def ofFound (name : String) (source : ScopeId) (found : Found) : List Entry :=
  match found.place with
  | .frame owner remote => [.foundInFrame name source found.var owner remote]
  | .slot => [.foundSlot name source found.var]
  | .member => [.foundMember name source found.var]
  | .receiver => []

def level : Entry → Level
  | .parsing _ | .globalNames | .semantics | .closures => .info
  | .inlining .. | .foundInFrame .. | .foundSlot .. | .foundMember .. | .inlinedLocal .. => .trace
  | _ => .debug

/-- The part of the program that tells it. -/
def topic : Entry → String
  | .parsing _ | .parsed .. => "valutron"
  | .globalNames | .semantics | .closures => "analysis"
  | .registered .. | .linked .. | .laidOut .. => "analysis::registrar"
  | .resolving _ | .method .. | .inlining .. => "analysis::remote"
  | .foundInFrame .. | .foundSlot .. | .foundMember .. | .inlinedLocal .. => "analysis::scope"
  | .converting _ | .promoted .. | .nonLocalReturn .. => "analysis::closure"

def varText (id : VarId) : String := s!"VarId({id.index})"

def boolText (b : Bool) : String := if b then "true" else "false"

def message : Entry → String
  | .parsing file => s!"parsing {file}"
  | .parsed file classes => s!"{classes} classes in {file}"
  | .globalNames => "analysing global names"
  | .semantics => "semantic analysis"
  | .closures => "closure analysis"
  | .registered name instanceScope classScope =>
    s!"registered class {name} ({instanceScope.text} / {classScope.text})"
  | .linked name superName => s!"linked {name} to superclass {superName}"
  | .laidOut name instanceVars classVars =>
    s!"class {name}: {instanceVars} instance variables, {classVars} class-side variables"
  | .resolving name => s!"resolving names in class {name}"
  | .method className selector => s!"method {className}>>{selector}"
  | .inlining intrinsic span => s!"inlining {intrinsic.selector} at {span.text}"
  | .foundInFrame name source var owner remote =>
    s!"lookup `{name}` from {source.text} found {varText var} in {owner.text} (remote: {boolText remote})"
  | .foundSlot name source var =>
    s!"lookup `{name}` from {source.text} found instance variable {varText var}"
  | .foundMember name source var =>
    s!"lookup `{name}` from {source.text} found namespace member {varText var}"
  | .inlinedLocal name scope slot owner =>
    s!"inlined block local `{name}` in {scope.text} backed by {varText slot} in {owner.text}"
  | .converting name => s!"closure conversion of class {name}"
  | .promoted name scope => s!"promoted `{name}` to a heapvar of {scope.text}"
  | .nonLocalReturn span owner => s!"non-local return at {span.text}: {owner.text} needs a heap context"

/-- Every line of a message but the first is indented. -/
def indented (message : String) : String := "\n    ".intercalate (message.splitOn "\n")

/-- As it is shown, in plain text. -/
def text (e : Entry) : String := Text.plain s!"[{e.level.text} {e.topic}] {indented e.message}\n"

end Entry
end BlockScope
