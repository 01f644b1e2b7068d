import BlockScope.Program
import BlockScope.Token
/-!
# The token side of parsing

A parser is a step on a state that a failure keeps: the tokens left, the nodes made so far, and where
the last token stood. Comments are passed over wherever a token is looked at. All access to the tokens
goes through `peek`, `peekSpan`, `advance` and what is built on them. Past its last token the input
reads as ended, at the span of the last token.
-/
namespace BlockScope

/-- What would have been right in place of a token. -/
inductive Expectation where
  | mark (mark : Mark)
  | className
  | superclass
  | variableName
  | binaryParameter
  | keywordParameter
  | methodPattern
  | statementEnd
  | expression
  deriving DecidableEq, Repr

def Expectation.describe : Expectation → String
  | .mark m => (TokenKind.mark m).describe
  | .className => "class name"
  | .superclass => "superclass name or `nil`"
  | .variableName => "variable name or `|`"
  | .binaryParameter => "binary method parameter"
  | .keywordParameter => "keyword method parameter"
  | .methodPattern => "method pattern"
  | .statementEnd => "`.` or `]`"
  | .expression => "expression"

/-- Why tokens form no program. -/
inductive ParseFault where
  /-- The text was no token to begin with. -/
  | lexical (message : String)
  | unexpected (expected : Expectation) (found : TokenKind)
  | assignmentTarget
  | cascadeMessage
  deriving DecidableEq, Repr

def ParseFault.message : ParseFault → String
  | .lexical message => message
  | .unexpected expected found => s!"expected {expected.describe}, found {found.describe}"
  | .assignmentTarget => "assignment target must be a variable name"
  | .cascadeMessage => "expected cascade message"

structure ParseError where
  fault : ParseFault
  span : Span
  deriving DecidableEq, Repr

/-- The message and where. -/
def ParseError.text (e : ParseError) : String := s!"{e.fault.message} at {e.span.text}"

/-- The error of finding a token where something else is due; a token that is none says why itself. -/
def Token.unexpected (t : Token) (expected : Expectation) : ParseError :=
  match t.kind with
  | .error message => ⟨.lexical message, t.span⟩
  | kind => ⟨.unexpected expected kind, t.span⟩

/-- Where parsing stands. -/
structure ParserState where
  /-- Not read yet. -/
  tokens : List Token
  arena : Arena
  /-- The last token read or passed over. -/
  lastSpan : Span
  /-- The end of input has been read. -/
  atEnd : Bool
  deriving DecidableEq, Repr

/-- At the front of the tokens, with no nodes. -/
def ParserState.start (tokens : List Token) : ParserState := ⟨tokens, .empty, .point .origin, false⟩

/-- A step that reads tokens and makes nodes; what it did stays done when it fails. -/
abbrev Parser := ExceptT ParseError (StateM ParserState)

namespace Parser

/-- The outcome from a state, and the state after. -/
def runFrom {α : Type} (p : Parser α) (s : ParserState) : Except ParseError α × ParserState :=
  (ExceptT.run p).run s

/-- The tokens after leading comments, and the span of the last one passed over. -/
def dropComments : List Token → Span → List Token × Span
  | [], last => ([], last)
  | t :: ts, last => if t.kind.isComment then dropComments ts t.span else (t :: ts, last)

def skipComments : Parser Unit := modify fun s =>
  let (tokens, last) := dropComments s.tokens s.lastSpan
  { s with tokens := tokens, lastSpan := last }

/-- The kind of the next token. -/
def peek : Parser TokenKind := do
  skipComments
  match (← get).tokens with
  | t :: _ => return t.kind
  | [] => return .endOfInput

/-- Where the next token stands. -/
def peekSpan : Parser Span := do
  skipComments
  let s ← get
  match s.tokens with
  | t :: _ => return t.span
  | [] => return s.lastSpan

/-- Reads the next token. -/
def advance : Parser Token := do
  skipComments
  let s ← get
  match s.tokens with
  | t :: ts =>
    set { s with tokens := ts, lastSpan := t.span, atEnd := s.atEnd || t.kind.isEnd }
    return t
  | [] =>
    set { s with atEnd := true }
    return ⟨.endOfInput, s.lastSpan, ""⟩

/-- The next token is this mark. -/
def check (m : Mark) : Parser Bool := do return (← peek) = .mark m

/-- Reads a mark that is due. -/
def expect (m : Mark) : Parser Token := do
  let t ← advance
  if t.kind = .mark m then return t else throw (t.unexpected (.mark m))

/-- Reads a name that is due. -/
def identifier (due : Expectation) : Parser Declaration := do
  let t ← advance
  match t.kind with
  | .identifier name => return ⟨name, t.span⟩
  | _ => throw (t.unexpected due)

/-- A bound on what can still be read: every step that reads a token lowers it. -/
def remaining : Parser Nat := do return (← get).tokens.length + 1

/-- Adds a node. -/
def makeNode (expr : Expr) (span : Span) : Parser NodeId := modifyGet fun s =>
  let (id, arena) := s.arena.push ⟨expr, span⟩
  (id, { s with arena := arena })

def spanOf (id : NodeId) : Parser Span := do return (← get).arena.span id

/-- The span from one node to another. -/
def spanAcross (first last : NodeId) : Parser Span := do return (← spanOf first).merge (← spanOf last)

end Parser
end BlockScope
