import BlockScope.Program.Grammar.Definition
/-!
# The grammar without bounds

The same productions once more, but nothing counts how often they repeat or how deep they nest: a loop goes on until its closing
token comes, whatever that takes. A run that never ends has no outcome at all, which is why these parsers are least
solutions of their own equations. They also give up where parsing relies on something being so. A token that is read has to be
the one that was looked at, and a node that is looked up has to be there; if not, the parser halts for that reason and no other.

Recursive calls are made by `apply`: a call that is written out keeps its place in the file inside the definition.
-/
namespace BlockScope
open BlockScope.Parser (peek peekSpan advance check expect identifier makeNode doubleBar atVariables precedence atom? className
  superclass ClassItems)

/-- Why a parser without a bound stops short. -/
inductive Halt where
  /-- The tokens form no program. -/
  | fault (e : ParseError)
  /-- The token that was read is not the one that was looked at. -/
  | impossible
  /-- There is no such node. -/
  | missing (id : NodeId)
  deriving DecidableEq, Repr

/-- A parser that may go on for ever. -/
abbrev Unbounded := ExceptT Halt (StateT ParserState Option)

namespace Unbounded

/-- What comes of the parser from a state, and the state after; nothing if it goes on for ever. -/
def runFrom {α : Type} (q : Unbounded α) (s : ParserState) : Option (Except Halt α × ParserState) := (ExceptT.run q).run s

/-- The outcome of a parser as one that may also halt for other reasons. -/
def outcome {α : Type} : Except ParseError α × ParserState → Except Halt α × ParserState
  | (.ok x, s) => (.ok x, s)
  | (.error e, s) => (.error (.fault e), s)

/-- Steps that neither repeat nor look at nodes are taken over. -/
instance : MonadLift Parser Unbounded where
  monadLift p := ExceptT.mk fun s => some (outcome (p.runFrom s))

/-! ## Nodes -/

/-- The node under this number, which has to be there. -/
def nodeAt (id : NodeId) : Unbounded Node := do
  match (← get).arena.get? id with
  | some node => return node
  | none => throw (.missing id)

def spanOf (id : NodeId) : Unbounded Span := do return (← nodeAt id).span

def spanAcross (first last : NodeId) : Unbounded Span := do return (← spanOf first).merge (← spanOf last)

/-! ## Variables -/

def namesToBar : Unbounded (List Declaration) := do
  if ← check .bar then
    let _ ← advance
    return []
  else
    let name ← identifier .variableName
    let others : List Declaration ← by apply namesToBar
    return name :: others
partial_fixpoint

def variableList : Unbounded (List Declaration) := do
  if (← peek) = doubleBar then
    let _ ← advance
    return []
  else
    let _ ← expect .bar
    namesToBar

def optionalVariables : Unbounded (List Declaration) := do
  if ← atVariables then variableList else return []

/-- The parameters of a block; each is taken from the token that was read. -/
def blockParams : Unbounded (List Declaration) := do
  match ← peek with
  | .argument _ =>
    let t ← advance
    match t.kind with
    | .argument name =>
      let others : List Declaration ← by apply blockParams
      return ⟨name, t.span⟩ :: others
    | _ => throw .impossible
  | _ => return []
partial_fixpoint

def paramsEnd : Unbounded (List Declaration) := do
  if (← peek) = doubleBar then
    let _ ← advance
    namesToBar
  else
    let _ ← expect .bar
    return []

/-! ## Expressions -/

/-- Unary messages to a node; each selector is taken from the token that was read. -/
def unaryMessages (receiver : NodeId) : Unbounded NodeId := do
  match ← peek with
  | .identifier _ =>
    let t ← advance
    match t.kind with
    | .identifier selector =>
      let span := (← spanOf receiver).merge t.span
      let send ← makeNode (.send receiver selector []) span
      by apply unaryMessages; exact send
    | _ => throw .impossible
  | _ => return receiver
partial_fixpoint

mutual

def statement : Unbounded NodeId := do
  if ← check .caret then
    let caret ← advance
    let value : NodeId ← by apply expression
    let span := caret.span.merge (← spanOf value)
    makeNode (.ret value) span
  else by apply expression
partial_fixpoint

def statements : Unbounded (List NodeId) := do
  match ← peek with
  | .mark .dot =>
    let _ ← advance
    by apply statements
  | .mark .rightBracket => return []
  | _ =>
    let first : NodeId ← by apply statement
    match ← peek with
    | .mark .dot | .mark .rightBracket =>
      let others : List NodeId ← by apply statements
      return first :: others
    | _ => throw (.fault ((← advance).unexpected .statementEnd))
partial_fixpoint

def block : Unbounded NodeId := do
  let opening ← expect .leftBracket
  let params ← blockParams
  let early ← if params.isEmpty then pure [] else paramsEnd
  let temps ← if early.isEmpty then optionalVariables else pure early
  let body : List NodeId ← by apply statements
  let closing ← expect .rightBracket
  makeNode (.block params temps body) (opening.span.merge closing.span)
partial_fixpoint

def elements : Unbounded (List NodeId) := do
  if ← check .rightParen then return []
  else
    let first : NodeId ← by apply expression
    if ← check .dot then
      let _ ← advance
      let others : List NodeId ← by apply elements
      return first :: others
    else return [first]
partial_fixpoint

def array : Unbounded NodeId := do
  let opening ← expect .hashParen
  let parts : List NodeId ← by apply elements
  let closing ← expect .rightParen
  makeNode (.array parts) (opening.span.merge closing.span)
partial_fixpoint

def paren : Unbounded NodeId := do
  let opening ← advance
  let inner : NodeId ← by apply expression
  let closing ← expect .rightParen
  makeNode (.paren inner) (opening.span.merge closing.span)
partial_fixpoint

def primary : Unbounded NodeId := do
  match ← peek with
  | .mark .leftBracket => by apply block
  | .mark .hashParen => by apply array
  | .mark .leftParen => by apply paren
  | _ =>
    let t ← advance
    match atom? t.kind with
    | some atom => makeNode atom t.span
    | none => throw (.fault (t.unexpected .expression))
partial_fixpoint

def unaryLevel : Unbounded NodeId := do
  let receiver : NodeId ← by apply primary
  unaryMessages receiver
partial_fixpoint

def binaryMessages (least : Nat) (left : NodeId) : Unbounded NodeId := do
  match ← peek with
  | .operator selector =>
    if precedence selector < least then return left
    else
      let _ ← advance
      let right : NodeId ← by apply unaryLevel
      let right : NodeId ← by apply binaryMessages; exact precedence selector + 1; exact right
      let span ← spanAcross left right
      let send ← makeNode (.send left selector [right]) span
      by apply binaryMessages; exact least; exact send
  | _ => return left
partial_fixpoint

def binaryLevel : Unbounded NodeId := do
  let left : NodeId ← by apply unaryLevel
  by apply binaryMessages; exact 0; exact left
partial_fixpoint

def keywordParts : Unbounded (List (String × NodeId)) := do
  match ← peek with
  | .keyword part =>
    let _ ← advance
    let arg : NodeId ← by apply binaryLevel
    let others : List (String × NodeId) ← by apply keywordParts
    return (part, arg) :: others
  | _ => return []
partial_fixpoint

def keywordMessage (receiver : NodeId) : Unbounded NodeId := do
  let start ← spanOf receiver
  let parts : List (String × NodeId) ← by apply keywordParts
  let args := parts.map (·.2)
  let stop ← spanOf (args.getLast?.getD receiver)
  makeNode (.send receiver (String.join (parts.map (·.1))) args) (start.merge stop)
partial_fixpoint

def optionalKeywordMessage (receiver : NodeId) : Unbounded NodeId := do
  match ← peek with
  | .keyword _ => by apply keywordMessage; exact receiver
  | _ => return receiver
partial_fixpoint

def keywordLevel : Unbounded NodeId := do
  let receiver : NodeId ← by apply binaryLevel
  by apply optionalKeywordMessage; exact receiver
partial_fixpoint

def cascadeMessage (receiver : NodeId) : Unbounded NodeId := do
  let result ← match ← peek with
    | .identifier _ => do
      let inner ← unaryMessages receiver
      by apply binaryMessages; exact 0; exact inner
    | .operator _ => by apply binaryMessages; exact 0; exact receiver
    | .keyword _ => pure receiver
    | _ => do throw (.fault ⟨.cascadeMessage, ← peekSpan⟩)
  by apply optionalKeywordMessage; exact result
partial_fixpoint

def cascadeMessages (receiver : NodeId) : Unbounded (List NodeId) := do
  if ← check .semicolon then
    let _ ← advance
    let first : NodeId ← by apply cascadeMessage; exact receiver
    let others : List NodeId ← by apply cascadeMessages; exact receiver
    return first :: others
  else return []
partial_fixpoint

def cascadeLevel : Unbounded NodeId := do
  let first : NodeId ← by apply keywordLevel
  if ← check .semicolon then
    match (← nodeAt first).expr with
    | .send receiver _ _ =>
      let others : List NodeId ← by apply cascadeMessages; exact receiver
      let span ← spanAcross receiver (others.getLast?.getD first)
      makeNode (.cascade receiver (first :: others)) span
    | _ => throw (.fault ⟨.cascadeMessage, ← spanOf first⟩)
  else return first
partial_fixpoint

def assignmentTail (target : NodeId) : Unbounded NodeId := do
  if ← check .assign then
    let mark ← advance
    match (← nodeAt target).expr with
    | .ident _ =>
      let value : NodeId ← by apply expression
      makeNode (.assign target value) (← spanAcross target value)
    | _ => throw (.fault ⟨.assignmentTarget, (← spanOf target).merge mark.span⟩)
  else return target
partial_fixpoint

def expression : Unbounded NodeId := do
  let left : NodeId ← by apply cascadeLevel
  by apply assignmentTail; exact left
partial_fixpoint

end

/-! ## Methods and classes -/

def methodBody (classSide : Bool) (selector : String) (params : List Declaration) (start : Span) : Unbounded Method := do
  let _ ← expect .leftBracket
  let temps ← optionalVariables
  let body ← statements
  let closing ← expect .rightBracket
  return { classSide, selector, params, temps, body, span := start.merge closing.span }

def patternParts : Unbounded (List (String × Declaration)) := do
  match ← peek with
  | .keyword part =>
    let _ ← advance
    let param ← identifier .keywordParameter
    let others : List (String × Declaration) ← by apply patternParts
    return (part, param) :: others
  | _ => return []
partial_fixpoint

def pattern : Unbounded (String × List Declaration) := do
  let t ← advance
  match t.kind with
  | .identifier name => return (name, [])
  | .operator name => return (name, [← identifier .binaryParameter])
  | .keyword part =>
    let first ← identifier .keywordParameter
    let parts := (part, first) :: (← patternParts)
    return (String.join (parts.map (·.1)), parts.map (·.2))
  | _ => throw (.fault (t.unexpected .methodPattern))

def method (classSide : Bool) (start : Span) : Unbounded Method := do
  let (selector, params) ← pattern
  methodBody classSide selector params start

def classSideItem (items : ClassItems) : Unbounded ClassItems := do
  let word ← advance
  match ← peek with
  | .mark .bar =>
    let vars ← variableList
    return { items with classVars := items.classVars ++ vars }
  | .mark .leftBracket =>
    let m ← methodBody false "class" [] word.span
    return { items with instanceMethods := items.instanceMethods ++ [m] }
  | kind =>
    if kind = doubleBar then
      let _ ← advance
      return items
    else
      let m ← method true word.span
      return { items with classMethods := items.classMethods ++ [m] }

def classItems (items : ClassItems) : Unbounded ClassItems := do
  let kind ← peek
  if kind = .mark .rightBracket then return items
  else if kind = .mark .bar ∨ kind = doubleBar then
    let vars ← variableList
    by apply classItems; exact { items with instanceVars := items.instanceVars ++ vars }
  else if kind = .identifier "class" then
    let items ← classSideItem items
    by apply classItems; exact items
  else
    let start ← peekSpan
    let m ← method false start
    by apply classItems; exact { items with instanceMethods := items.instanceMethods ++ [m] }
partial_fixpoint

def classDefinition : Unbounded ClassDefinition := do
  let head ← className
  let (superName, superSpan) ← superclass
  let _ ← expect .leftBracket
  let items ← classItems {}
  let closing ← expect .rightBracket
  return {
    name := head.name, superName, superSpan,
    instanceVars := items.instanceVars, classVars := items.classVars,
    instanceMethods := items.instanceMethods, classMethods := items.classMethods,
    span := head.span.merge closing.span }

def classes : Unbounded (List ClassDefinition) := do
  if (← peek).isEnd then return []
  else
    let first ← classDefinition
    let others : List ClassDefinition ← by apply classes
    return first :: others
partial_fixpoint

def nextClass : Unbounded (Option ClassDefinition) := do
  if (← get).atEnd then return none
  else if (← peek).isEnd then
    modify fun s => { s with atEnd := true }
    return none
  else
    tryCatch (some <$> classDefinition) fun e => do
      modify fun s => { s with atEnd := true }
      throw e

/-- The program that tokens spell, if reading them comes to an end. -/
def ofTokens (tokens : List Token) : Option (Except Halt Program) :=
  (classes.runFrom (.start tokens)).map fun (result, s) => result.map fun cs => ⟨s.arena, cs⟩

end Unbounded
end BlockScope
