import BlockScope.Number.Binary64
import BlockScope.Source.Span
/-!
# Tokens

The lexical elements of class definitions. `Reserved` and `Mark` are the kinds with one spelling each;
every other kind carries what was written. A token that `endsOperand` turns a following minus into an
operator instead of a sign.
-/
namespace BlockScope

/-- The five words that are no identifiers. -/
inductive Reserved where
  | self
  | super
  | nil
  | true
  | false
  deriving DecidableEq, Repr

def Reserved.spelling : Reserved → String
  | .self => "self"
  | .super => "super"
  | .nil => "nil"
  | .true => "true"
  | .false => "false"

def Reserved.all : List Reserved := [.self, .super, .nil, .true, .false]

/-- The reserved word spelled so, if any. -/
def Reserved.ofSpelling? (word : String) : Option Reserved :=
  Reserved.all.find? (·.spelling == word)

/-- Punctuation. -/
inductive Mark where
  | assign
  | colon
  | hashParen
  | leftParen
  | rightParen
  | leftBracket
  | rightBracket
  | bar
  | dot
  | semicolon
  | caret
  deriving DecidableEq, Repr

def Mark.spelling : Mark → String
  | .assign => ":="
  | .colon => ":"
  | .hashParen => "#("
  | .leftParen => "("
  | .rightParen => ")"
  | .leftBracket => "["
  | .rightBracket => "]"
  | .bar => "|"
  | .dot => "."
  | .semicolon => ";"
  | .caret => "^"

inductive TokenKind where
  | integer (value : Int64)
  | float (value : Binary64)
  | string (value : String)
  /-- A symbol literal without its `#`. -/
  | symbol (name : String)
  | character (value : Char)
  | identifier (name : String)
  /-- A selector part with its colon, as in `at:`. -/
  | keyword (part : String)
  /-- A block parameter without its colon, as in `:each`. -/
  | argument (name : String)
  | reserved (word : Reserved)
  | operator (name : String)
  | mark (mark : Mark)
  | lineComment (text : String)
  | blockComment (text : String)
  | endOfInput
  /-- Text that is no token, with the reason. -/
  | error (message : String)
  deriving DecidableEq, Repr

namespace TokenKind

/-- What an error message calls this kind of token. -/
def describe : TokenKind → String
  | .integer _ => "integer"
  | .float _ => "float"
  | .string _ => "string"
  | .symbol _ => "symbol"
  | .character _ => "character"
  | .identifier _ => "identifier"
  | .keyword _ => "keyword"
  | .argument _ => "argument name"
  | .reserved word => "`" ++ word.spelling ++ "`"
  | .operator _ => "operator"
  | .mark m => "`" ++ m.spelling ++ "`"
  | .lineComment _ => "line comment"
  | .blockComment _ => "block comment"
  | .endOfInput => "end of input"
  | .error _ => "error"

def isComment : TokenKind → Bool
  | .lineComment _ | .blockComment _ => true
  | _ => false

def isEnd : TokenKind → Bool
  | .endOfInput => true
  | _ => false

/-- Can be the last token of an operand. -/
def endsOperand : TokenKind → Bool
  | .integer _ | .float _ | .string _ | .symbol _ | .character _ | .identifier _ | .reserved _ => true
  | .mark .rightParen | .mark .rightBracket => true
  | _ => false

end TokenKind

/-- A token and where it stands. -/
structure Token where
  kind : TokenKind
  span : Span
  /-- The text it was read from; string and comment bytes appear as one character each. -/
  lexeme : String
  deriving DecidableEq, Repr

end BlockScope
