import BlockScope.Program.Grammar.Expression
import BlockScope.Token.Lexer
/-!
# The grammar of definitions

Methods, classes and whole programs. A class is `Name : Super [ … ]` with variables and methods between
the brackets, in any order; the word `class` turns to the class side. Classes can be read one at a time
with `nextClass`, or all at once.
-/
namespace BlockScope
namespace Parser

/-! ## Methods and classes -/

/-- The temporaries and statements of a method, between brackets. -/
def methodBody (classSide : Bool) (selector : String) (params : List Declaration) (start : Span) :
    Parser Method := do
  let _ ← expect .leftBracket
  let bound ← remaining
  let temps ← optionalVariables bound
  let body ← statements (expressionWithin bound) bound
  let closing ← expect .rightBracket
  return { classSide, selector, params, temps, body, span := start.merge closing.span }

/-- The keyword parts of a method pattern with their parameters. -/
def patternParts : Nat → Parser (List (String × Declaration))
  | 0 => return []
  | n + 1 => do
    match ← peek with
    | .keyword part =>
      let _ ← advance
      let param ← identifier .keywordParameter
      return (part, param) :: (← patternParts n)
    | _ => return []

/-- A message pattern: the selector of a method and its parameters. -/
def pattern : Parser (String × List Declaration) := do
  let t ← advance
  match t.kind with
  | .identifier name => return (name, [])
  | .operator name => return (name, [← identifier .binaryParameter])
  | .keyword part =>
    let first ← identifier .keywordParameter
    let parts := (part, first) :: (← patternParts (← remaining))
    return (String.join (parts.map (·.1)), parts.map (·.2))
  | _ => throw (t.unexpected .methodPattern)

def method (classSide : Bool) (start : Span) : Parser Method := do
  let (selector, params) ← pattern
  methodBody classSide selector params start

/-- What a class declares between its brackets. -/
structure ClassItems where
  instanceVars : List Declaration := []
  classVars : List Declaration := []
  instanceMethods : List Method := []
  classMethods : List Method := []

/-- What the word `class` starts: variables or a method of the class side, or, right before a body,
an instance method of that name. -/
def classSideItem (items : ClassItems) : Parser ClassItems := do
  let word ← advance
  match ← peek with
  | .mark .bar =>
    let vars ← variableList (← remaining)
    return { items with classVars := items.classVars ++ vars }
  | .mark .leftBracket =>
    let m ← methodBody false "class" [] word.span
    return { items with instanceMethods := items.instanceMethods ++ [m] }
  | kind =>
    if kind = doubleBar then
      let _ ← advance
      return items
    else
      let m ← method true word.span
      return { items with classMethods := items.classMethods ++ [m] }

/-- The items of a class up to its closing bracket. -/
def classItems : Nat → ClassItems → Parser ClassItems
  | 0, items => return items
  | n + 1, items => do
    let kind ← peek
    if kind = .mark .rightBracket then return items
    else if kind = .mark .bar ∨ kind = doubleBar then
      let vars ← variableList (← remaining)
      classItems n { items with instanceVars := items.instanceVars ++ vars }
    else if kind = .identifier "class" then classItems n (← classSideItem items)
    else
      let start ← peekSpan
      let m ← method false start
      classItems n { items with instanceMethods := items.instanceMethods ++ [m] }

/-- The part before the colons at the end. -/
def withoutColons (part : String) : String :=
  String.ofList (part.toList.reverse.dropWhile (· = ':')).reverse

/-- The name of a class and the colon after it, which may have been read as one keyword. -/
def className : Parser Declaration := do
  let head ← advance
  match head.kind with
  | .identifier name =>
    let _ ← expect .colon
    return ⟨name, head.span⟩
  | .keyword part => return ⟨withoutColons part, head.span⟩
  | _ => throw (head.unexpected .className)

/-- The name of a superclass, or `nil`. -/
def superclass : Parser (Option String × Span) := do
  let t ← advance
  match t.kind with
  | .identifier name => return (some name, t.span)
  | .reserved .nil => return (none, t.span)
  | _ => throw (t.unexpected .superclass)

/-- `Name : Super [ | vars | class | vars | methods ]` -/
def classDefinition : Parser ClassDefinition := do
  let head ← className
  let (superName, superSpan) ← superclass
  let _ ← expect .leftBracket
  let items ← classItems (← remaining) {}
  let closing ← expect .rightBracket
  return {
    name := head.name, superName, superSpan,
    instanceVars := items.instanceVars, classVars := items.classVars,
    instanceMethods := items.instanceMethods, classMethods := items.classMethods,
    span := head.span.merge closing.span }

/-! ## Whole programs -/

/-- Every class up to the end of input. -/
def classes : Nat → Parser (List ClassDefinition)
  | 0 => return []
  | n + 1 => do
    if (← peek).isEnd then return []
    else
      let first ← classDefinition
      return first :: (← classes n)

/-- The next class, one at a time; none at the end of input, and none after a failure. -/
def nextClass : Parser (Option ClassDefinition) := do
  if (← get).atEnd then return none
  else if (← peek).isEnd then
    modify fun s => { s with atEnd := true }
    return none
  else
    tryCatch (some <$> classDefinition) fun e => do
      modify fun s => { s with atEnd := true }
      throw e

end Parser

namespace Program

/-- The program that tokens spell. -/
def ofTokens (tokens : List Token) : Except ParseError Program :=
  let (result, state) := Parser.runFrom (do Parser.classes (← Parser.remaining)) (.start tokens)
  result.map fun classes => ⟨state.arena, classes⟩

/-- The program that a source text spells. -/
def ofBytes (bytes : List UInt8) : Except ParseError Program := ofTokens (tokenize bytes)

/-- The program spelled by what a reader delivers. -/
def ofReader (r : ByteReader) : Except ParseError Program := ofBytes r.delivered

end Program
end BlockScope
