import BlockScope.Layout
/-!
# Layouts as text

One paragraph per class: its sizes, its methods, the selectors it sends, and its frames. A list that is
empty is left out, except for what is on the stack.
-/
namespace BlockScope

def commaList (items : List String) : String := ", ".intercalate items

def methodTableText (title : String) (entries : List MethodEntry) : String :=
  if entries.isEmpty then ""
  else s!"  {title}:\n" ++ String.join (entries.map fun e => s!"    {e.selector} -> {e.entryPoint}\n")

def FrameKind.text : FrameKind → String
  | .method => "method"
  | .block => "block"

def FrameLayout.text (f : FrameLayout) : String :=
  s!"  frame {f.name} ({f.kind.text})\n"
    ++ s!"    stack: args [{commaList f.arguments}] locals [{commaList f.locals}]\n"
    ++ (match f.heapvarsName with
      | some record => s!"    heapvars {record}: [{commaList f.heapvars}]\n"
      | none => "")
    ++ (if f.usingHeapvarsFrom.isEmpty then "" else s!"    using: [{commaList f.usingHeapvarsFrom}]\n")
    ++ (if f.copyingVars.isEmpty then "" else s!"    copying: [{commaList f.copyingVars}]\n")
    ++ (if f.needsHeapContext then "    needs heap context\n" else "")

def ClassLayout.text (c : ClassLayout) : String :=
  "class " ++ c.name ++ " : " ++ c.superName.getD "nil"
    ++ s!" (instance size {c.instanceSize}, class size {c.classSize})\n"
    ++ methodTableText "instance methods" c.instanceMethods
    ++ methodTableText "class methods" c.classMethods
    ++ (if c.symbolReferences.isEmpty then ""
      else "  symbols: " ++ " ".intercalate c.symbolReferences ++ "\n")
    ++ String.join (c.frames.map (·.text))

def Layout.text (l : Layout) : String := String.join (l.classes.map (·.text))

end BlockScope
