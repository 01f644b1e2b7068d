import BlockScope.Program
import BlockScope.Text.Quoted
/-!
# Programs as graphs

A program drawn in the dot language: a box per class, per method and per expression a method body
reaches, and an arrow to every part. Expressions are drawn depth first, each once, so shared and even
cyclic parts do no harm; a path of expressions drawn for the first time cannot be longer than the
arena, which bounds the descent.
-/
namespace BlockScope

/-- A box of the graph. -/
inductive Vertex where
  | classBox (position : Nat)
  | methodBox (classPosition position : Nat)
  | exprBox (id : NodeId)
  deriving DecidableEq, Repr

inductive GraphLine where
  | box (vertex : Vertex) (label : String)
  | arrow (source target : Vertex)
  deriving DecidableEq, Repr

/-- What has been drawn: for each place of the arena whether its node has, and the lines. -/
structure Drawing where
  seen : Array Bool
  lines : Array GraphLine

namespace Drawing

/-- Nothing yet of an arena of some size. -/
def blank (size : Nat) : Drawing := ⟨Array.replicate size false, #[]⟩

def draw (d : Drawing) (line : GraphLine) : Drawing := { d with lines := d.lines.push line }

/-- A node is there to be drawn, and has not been. -/
def isNew (d : Drawing) (id : NodeId) : Bool := d.seen[id.index]? = some false

def see (d : Drawing) (id : NodeId) : Drawing := { d with seen := d.seen.setIfInBounds id.index true }

end Drawing

def Literal.label : Literal → String
  | .integer value => toString value.toInt
  | .float value => value.text
  | .string value => Text.quote value
  | .symbol name => "#" ++ name
  | .character value => "$" ++ value.toString
  | .nil => "nil"
  | .true => "true"
  | .false => "false"

/-- The names of declarations between blanks. -/
def declaredNames (ds : List Declaration) : String := " ".intercalate (ds.map (·.name))

def Expr.label : Expr → String
  | .literal value => value.label
  | .ident name => name
  | .assign _ _ => ":="
  | .send _ selector _ => "send " ++ selector
  | .cascade _ _ => "cascade"
  | .block params temps _ => s!"block [{declaredNames params}] | {declaredNames temps} |"
  | .paren _ => "( )"
  | .array elements => s!"#( ) [{elements.length}]"
  | .ret _ => "^"

namespace Drawing

/-- Draws an expression and all it reaches, unless it is drawn already. -/
def node (arena : Arena) : Nat → Drawing → NodeId → Drawing
  | 0, d, _ => d
  | n + 1, d, id =>
    match arena.expr? id with
    | none => d
    | some e =>
      if d.isNew id then
        let boxed := (d.see id).draw (.box (.exprBox id) e.label)
        e.children.foldl (fun d child => node arena n (d.draw (.arrow (.exprBox id) (.exprBox child))) child)
          boxed
      else d

/-- Draws a method of a class and the statements of its body. -/
def method (arena : Arena) (c : Nat) (d : Drawing) (entry : Method × Nat) : Drawing :=
  let (m, position) := entry
  let box := Vertex.methodBox c position
  let label := (if m.classSide then "class " else "") ++ m.selector
  let headed := (d.draw (.box box label)).draw (.arrow (.classBox c) box)
  m.body.foldl (fun d id => node arena (arena.size + 1) (d.draw (.arrow box (.exprBox id))) id) headed

/-- Draws a class and its methods. -/
def classDefinition (arena : Arena) (d : Drawing) (entry : ClassDefinition × Nat) : Drawing :=
  let (c, position) := entry
  let label := "class " ++ c.name ++ " : " ++ c.superName.getD "nil"
  c.methods.zipIdx.foldl (method arena position) (d.draw (.box (.classBox position) label))

end Drawing

/-- The lines of a program's graph, in the order they are drawn. -/
def Program.graph (p : Program) : List GraphLine :=
  (p.classes.zipIdx.foldl (Drawing.classDefinition p.arena) (.blank p.arena.size)).lines.toList

/-! ## As text -/

/-- A label between quotes: the quote and the backslash get a backslash in front. -/
def escapeLabel (label : String) : String :=
  String.join (label.toList.map fun c =>
    if c = '\\' then "\\\\" else if c = '"' then "\\\"" else c.toString)

def Vertex.text : Vertex → String
  | .classBox position => s!"c{position}"
  | .methodBox classPosition position => s!"c{classPosition}m{position}"
  | .exprBox id => id.text

def GraphLine.text : GraphLine → String
  | .box vertex label => "  " ++ vertex.text ++ " [label=\"" ++ escapeLabel label ++ "\"];\n"
  | .arrow source target => "  " ++ source.text ++ " -> " ++ target.text ++ ";\n"

/-- A program in the dot language. -/
def Program.dot (p : Program) : String :=
  "digraph ast \x7b\n  node [shape=box];\n" ++ String.join (p.graph.map (·.text)) ++ "\x7d\n"

end BlockScope
