import BlockScope.Program.Parser
/-!
# The grammar of expressions

One production per definition. A production below expressions takes the parser for a whole expression
as its argument, and `expressionWithin` ties the knot. What repeats or nests does so at most `bound`
times. `expression` gives a bound that no input reaches: every repetition and every nested expression
comes after a token of its own, and the bound exceeds the number of tokens left.

From loosest to tightest: assignment, cascade, keyword message, binary operators, unary messages. The
operators `*`, `/` and `\\` bind tighter than the others, and all group to the left.
-/
namespace BlockScope
namespace Parser

/-! ## Variables -/

/-- Two bars without a blank between them read as one operator. -/
def doubleBar : TokenKind := .operator "||"

/-- A list of variables follows, or an empty one. -/
def atVariables : Parser Bool := do
  let kind ← peek
  return kind = .mark .bar ∨ kind = doubleBar

/-- Names up to the closing bar. -/
def namesToBar : Nat → Parser (List Declaration)
  | 0 => return []
  | n + 1 => do
    if ← check .bar then
      let _ ← advance
      return []
    else
      let name ← identifier .variableName
      return name :: (← namesToBar n)

/-- `| a b c |`, or `||` for none. -/
def variableList (bound : Nat) : Parser (List Declaration) := do
  if (← peek) = doubleBar then
    let _ ← advance
    return []
  else
    let _ ← expect .bar
    namesToBar bound

/-- Variables if a list of them follows. -/
def optionalVariables (bound : Nat) : Parser (List Declaration) := do
  if ← atVariables then variableList bound else return []

/-! ## Messages -/

/-- Unary messages to a node. -/
def unaryMessages : Nat → NodeId → Parser NodeId
  | 0, receiver => return receiver
  | n + 1, receiver => do
    match ← peek with
    | .identifier selector =>
      let t ← advance
      let span := (← spanOf receiver).merge t.span
      unaryMessages n (← makeNode (.send receiver selector []) span)
    | _ => return receiver

/-- How tightly an operator binds. -/
def precedence (operator : String) : Nat := if operator ∈ ["*", "/", "\\\\"] then 2 else 1

/-- Binary messages of at least this precedence to a node. -/
def binaryMessages (operand : Parser NodeId) : Nat → (least : Nat) → NodeId → Parser NodeId
  | 0, _, left => return left
  | n + 1, least, left => do
    match ← peek with
    | .operator selector =>
      if precedence selector < least then return left
      else
        let _ ← advance
        let right ← operand
        let right ← binaryMessages operand n (precedence selector + 1) right
        let span ← spanAcross left right
        binaryMessages operand n least (← makeNode (.send left selector [right]) span)
    | _ => return left

/-- Keyword parts with their arguments. -/
def keywordParts (argument : Parser NodeId) : Nat → Parser (List (String × NodeId))
  | 0 => return []
  | n + 1 => do
    match ← peek with
    | .keyword part =>
      let _ ← advance
      let arg ← argument
      return (part, arg) :: (← keywordParts argument n)
    | _ => return []

/-- One keyword message to a node. -/
def keywordMessage (bound : Nat) (argument : Parser NodeId) (receiver : NodeId) : Parser NodeId := do
  let parts ← keywordParts argument bound
  let args := parts.map (·.2)
  let span ← spanAcross receiver (args.getLast?.getD receiver)
  makeNode (.send receiver (String.join (parts.map (·.1))) args) span

/-- A keyword message to a node, if one follows. -/
def optionalKeywordMessage (bound : Nat) (argument : Parser NodeId) (receiver : NodeId) : Parser NodeId := do
  match ← peek with
  | .keyword _ => keywordMessage bound argument receiver
  | _ => return receiver

/-! ## Primaries -/

/-- A return or an expression. -/
def statement (expr : Parser NodeId) : Parser NodeId := do
  if ← check .caret then
    let caret ← advance
    let value ← expr
    let span := caret.span.merge (← spanOf value)
    makeNode (.ret value) span
  else expr

/-- Statements between dots, up to the closing bracket. -/
def statements (expr : Parser NodeId) : Nat → Parser (List NodeId)
  | 0 => return []
  | n + 1 => do
    match ← peek with
    | .mark .dot =>
      let _ ← advance
      statements expr n
    | .mark .rightBracket => return []
    | _ =>
      let first ← statement expr
      match ← peek with
      | .mark .dot | .mark .rightBracket => return first :: (← statements expr n)
      | _ => throw ((← advance).unexpected .statementEnd)

/-- The parameters of a block. -/
def blockParams : Nat → Parser (List Declaration)
  | 0 => return []
  | n + 1 => do
    match ← peek with
    | .argument name =>
      let t ← advance
      return ⟨name, t.span⟩ :: (← blockParams n)
    | _ => return []

/-- What closes the parameters of a block: a bar, or two that also open its temporaries. -/
def paramsEnd (bound : Nat) : Parser (List Declaration) := do
  if (← peek) = doubleBar then
    let _ ← advance
    namesToBar bound
  else
    let _ ← expect .bar
    return []

/-- `[:a :b | | t | statements]` -/
def block (bound : Nat) (expr : Parser NodeId) : Parser NodeId := do
  let opening ← expect .leftBracket
  let params ← blockParams bound
  let early ← if params.isEmpty then pure [] else paramsEnd bound
  let temps ← if early.isEmpty then optionalVariables bound else pure early
  let body ← statements expr bound
  let closing ← expect .rightBracket
  makeNode (.block params temps body) (opening.span.merge closing.span)

/-- Elements between dots, up to the closing parenthesis. -/
def elements (expr : Parser NodeId) : Nat → Parser (List NodeId)
  | 0 => return []
  | n + 1 => do
    if ← check .rightParen then return []
    else
      let first ← expr
      if ← check .dot then
        let _ ← advance
        return first :: (← elements expr n)
      else return [first]

/-- `#(e1. e2. e3)`, a dot allowed at the end. -/
def array (bound : Nat) (expr : Parser NodeId) : Parser NodeId := do
  let opening ← expect .hashParen
  let parts ← elements expr bound
  let closing ← expect .rightParen
  makeNode (.array parts) (opening.span.merge closing.span)

/-- An expression in parentheses. -/
def paren (expr : Parser NodeId) : Parser NodeId := do
  let opening ← advance
  let inner ← expr
  let closing ← expect .rightParen
  makeNode (.paren inner) (opening.span.merge closing.span)

/-- The expression that a single token is. -/
def atom? : TokenKind → Option Expr
  | .integer value => some (.literal (.integer value))
  | .float value => some (.literal (.float value))
  | .string value => some (.literal (.string value))
  | .symbol name => some (.literal (.symbol name))
  | .character value => some (.literal (.character value))
  | .reserved .nil => some (.literal .nil)
  | .reserved .true => some (.literal .true)
  | .reserved .false => some (.literal .false)
  | .reserved .self => some (.ident "self")
  | .reserved .super => some (.ident "super")
  | .identifier name => some (.ident name)
  | _ => none

def primary (bound : Nat) (expr : Parser NodeId) : Parser NodeId := do
  match ← peek with
  | .mark .leftBracket => block bound expr
  | .mark .hashParen => array bound expr
  | .mark .leftParen => paren expr
  | _ =>
    let t ← advance
    match atom? t.kind with
    | some atom => makeNode atom t.span
    | none => throw (t.unexpected .expression)

/-! ## Expressions -/

/-- A primary with its unary messages. -/
def unaryLevel (bound : Nat) (expr : Parser NodeId) : Parser NodeId := do
  let receiver ← primary bound expr
  unaryMessages bound receiver

/-- Operands with binary messages between them. -/
def binaryLevel (bound : Nat) (expr : Parser NodeId) : Parser NodeId := do
  let left ← unaryLevel bound expr
  binaryMessages (unaryLevel bound expr) bound 0 left

/-- At most one keyword message. -/
def keywordLevel (bound : Nat) (expr : Parser NodeId) : Parser NodeId := do
  let receiver ← binaryLevel bound expr
  optionalKeywordMessage bound (binaryLevel bound expr) receiver

/-- One more message of a cascade, with messages to its result. -/
def cascadeMessage (bound : Nat) (expr : Parser NodeId) (receiver : NodeId) : Parser NodeId := do
  let result ← match ← peek with
    | .identifier _ => do
      let inner ← unaryMessages bound receiver
      binaryMessages (unaryLevel bound expr) bound 0 inner
    | .operator _ => binaryMessages (unaryLevel bound expr) bound 0 receiver
    | .keyword _ => pure receiver
    | _ => do throw ⟨.cascadeMessage, ← peekSpan⟩
  optionalKeywordMessage bound (binaryLevel bound expr) result

/-- The messages after the first of a cascade, each read by `message`. -/
def cascadeMessages (message : Parser NodeId) : Nat → Parser (List NodeId)
  | 0 => return []
  | n + 1 => do
    if ← check .semicolon then
      let _ ← advance
      let first ← message
      return first :: (← cascadeMessages message n)
    else return []

/-- Makes a cascade of a send that a semicolon follows. -/
def cascadeLevel (bound : Nat) (expr : Parser NodeId) : Parser NodeId := do
  let first ← keywordLevel bound expr
  if ← check .semicolon then
    match (← get).arena.expr? first with
    | some (.send receiver _ _) =>
      let others ← cascadeMessages (cascadeMessage bound expr receiver) bound
      let span ← spanAcross receiver (others.getLast?.getD first)
      makeNode (.cascade receiver (first :: others)) span
    | _ => throw ⟨.cascadeMessage, ← spanOf first⟩
  else return first

/-- The value assigned to a node, if an assignment follows. -/
def assignmentTail (expr : Parser NodeId) (target : NodeId) : Parser NodeId := do
  if ← check .assign then
    let mark ← advance
    match (← get).arena.expr? target with
    | some (.ident _) =>
      let value ← expr
      makeNode (.assign target value) (← spanAcross target value)
    | _ => throw ⟨.assignmentTarget, (← spanOf target).merge mark.span⟩
  else return target

/-- An expression in which nothing repeats or nests more often than so. -/
def expressionWithin : (bound : Nat) → Parser NodeId
  | 0 => do throw ((← advance).unexpected .expression)
  | n + 1 => do
    let left ← cascadeLevel (n + 1) (expressionWithin n)
    assignmentTail (expressionWithin n) left

def expression : Parser NodeId := do expressionWithin (← remaining)

end Parser
end BlockScope
