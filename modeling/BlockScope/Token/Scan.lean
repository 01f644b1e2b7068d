import BlockScope.Text.Letter
import BlockScope.Text.Quoted
import BlockScope.Text.Utf8
import BlockScope.Token
/-!
# Scanning one token

`scan` reads one token from a non-empty input that starts with no blank: its kind, its lexeme and how
many bytes it takes. It always takes the first byte. A minus directly before a digit is a sign unless
the token before it can end an operand.
-/
namespace BlockScope
open Text

/-- Why a stretch of text is no token. -/
inductive LexicalFault where
  | unterminatedComment
  | unterminatedString
  | unterminatedEscape
  | missingSymbol
  | missingCharacter
  /-- The digits written before the `r`. -/
  | invalidBase (digits : String)
  | invalidRadixDigit
  | radixOverflow
  | missingRadixDigits
  | integerTooLarge
  | integerTooSmall
  | unexpectedCharacter (char : Char)
  deriving DecidableEq, Repr

def LexicalFault.message : LexicalFault → String
  | .unterminatedComment => "unterminated block comment"
  | .unterminatedString => "unterminated string"
  | .unterminatedEscape => "unterminated string escape"
  | .missingSymbol => "expected symbol name after `#`"
  | .missingCharacter => "expected character after `$`"
  | .invalidBase digits => "invalid number base: " ++ digits
  | .invalidRadixDigit => "invalid digit for radix literal"
  | .radixOverflow => "radix literal overflow"
  | .missingRadixDigits => "missing digits for radix literal"
  | .integerTooLarge => "invalid integer: number too large to fit in target type"
  | .integerTooSmall => "invalid integer: number too small to fit in target type"
  | .unexpectedCharacter char => "unexpected character: " ++ quote char.toString

/-- One scanned token: what it is, how it reads, and how many bytes it takes after its first. -/
structure Scan where
  kind : TokenKind
  lexeme : String
  more : Nat
  deriving Repr

/-- A scan that found no token. -/
def Scan.fault (why : LexicalFault) (lexeme : String) (more : Nat) : Scan :=
  ⟨.error why.message, lexeme, more⟩

/-! ## Classes of bytes and characters -/

/-- The byte of an ASCII character. -/
def byte (c : Char) : UInt8 := c.toNat.toUInt8

def isBlank (b : UInt8) : Bool := b = 0x20 || (0x09 ≤ b && b ≤ 0x0D)

def isDigit (b : UInt8) : Bool := byte '0' ≤ b && b ≤ byte '9'

/-- May stand in an operator. -/
def isOperatorByte (b : UInt8) : Bool :=
  ['!', '@', '%', '&', '*', '-', '+', '=', '~', '/', '?', '<', '>', ',', '|', '\\'].any (b = byte ·)

/-- May start a word. -/
def startsWord (c : Char) : Bool := isLetter c || c = '_'

/-- May continue a word. -/
def isWordChar (c : Char) : Bool := isLetter c || isNumeral c || c = '_'

/-- The input begins with a character that may start a word. -/
def atWord (bytes : List UInt8) : Bool := (decode bytes).any (startsWord ·.1)

/-- The input begins with a byte of the class. -/
def atByte (p : UInt8 → Bool) (bytes : List UInt8) : Bool := bytes.head?.any p

/-- The longest run of characters of a class, and the number of bytes it takes. -/
def charRun (p : Char → Bool) (bytes : List UInt8) : List Char × Nat :=
  match bytes, decode bytes with
  | _ :: rest, some (c, more) =>
    if p c then
      let (chars, taken) := charRun p (rest.drop more)
      (c :: chars, taken + more + 1)
    else ([], 0)
  | _, _ => ([], 0)
  termination_by bytes.length
  decreasing_by simp only [List.length_cons, List.length_drop]; omega

/-! ## Comments, strings, symbols and characters -/

/-- What stands after `//`, up to the end of the line. -/
def scanLineComment (rest : List UInt8) : Scan :=
  let text := rest.tail.takeWhile (· ≠ 0x0A)
  ⟨.lineComment (latin1 text), "//" ++ latin1 text, text.length + 1⟩

/-- The inside of a block comment: its text, the bytes taken up to and with the closing mark, and
whether there is one. -/
structure CommentBody where
  text : List UInt8
  taken : Nat
  closed : Bool

/-- More text in front. -/
def CommentBody.after (text : List UInt8) (body : CommentBody) : CommentBody :=
  ⟨text ++ body.text, text.length + body.taken, body.closed⟩

/-- Reads a comment body in which `depth` inner comments are open. -/
def commentBody : (depth : Nat) → List UInt8 → CommentBody
  | _, [] => ⟨[], 0, false⟩
  | _, [a] => ⟨[a], 1, false⟩
  | depth, a :: b :: rest =>
    if a = byte '/' ∧ b = byte '*' then (commentBody (depth + 1) rest).after [a, b]
    else if a = byte '*' ∧ b = byte '/' then
      match depth with
      | 0 => ⟨[], 2, true⟩
      | depth + 1 => (commentBody depth rest).after [a, b]
    else (commentBody depth (b :: rest)).after [a]

/-- A block comment, after its first slash. Comments nest. -/
def scanBlockComment (rest : List UInt8) : Scan :=
  let body := commentBody 0 rest.tail
  let text := latin1 body.text
  if body.closed then ⟨.blockComment text, "/*" ++ text ++ "*/", body.taken + 1⟩
  else .fault .unterminatedComment ("/*" ++ text) (body.taken + 1)

/-- The inside of a string: its bytes with the escapes replaced, the same with the backslashes kept,
the bytes taken, and what is wrong with its end. -/
structure StringBody where
  value : List UInt8
  raw : List UInt8
  taken : Nat
  fault : Option LexicalFault

/-- The byte that a backslash and this one stand for. -/
def unescape (b : UInt8) : UInt8 :=
  if b = byte 'n' then 0x0A else if b = byte 't' then 0x09
  else if b = byte 'r' then 0x0D else if b = byte '0' then 0x00 else b

/-- Reads a string after its opening quote. -/
def stringBody : List UInt8 → StringBody
  | [] => ⟨[], [], 0, some .unterminatedString⟩
  | a :: rest =>
    if a = byte '"' then ⟨[], [a], 1, none⟩
    else if a = byte '\\' then
      match rest with
      | [] => ⟨[], [a], 1, some .unterminatedEscape⟩
      | b :: rest =>
        let body := stringBody rest
        ⟨unescape b :: body.value, a :: unescape b :: body.raw, body.taken + 2, body.fault⟩
    else
      let body := stringBody rest
      ⟨a :: body.value, a :: body.raw, body.taken + 1, body.fault⟩

/-- A string literal, after its opening quote. -/
def scanString (rest : List UInt8) : Scan :=
  let body := stringBody rest
  let lexeme := "\"" ++ latin1 body.raw
  match body.fault with
  | none => ⟨.string (String.ofList (lossy body.value)), lexeme, body.taken⟩
  | some why => .fault why lexeme body.taken

/-- What a `#` starts: an array literal, a word with colons, or a run of operator bytes. -/
def scanSymbol (rest : List UInt8) : Scan :=
  if atByte (· = byte '(') rest then ⟨.mark .hashParen, Mark.hashParen.spelling, 1⟩
  else if atWord rest then
    let (chars, taken) := charRun (fun c => isWordChar c || c = ':') rest
    ⟨.symbol (String.ofList chars), "#" ++ String.ofList chars, taken⟩
  else if atByte isOperatorByte rest then
    let run := rest.takeWhile isOperatorByte
    ⟨.symbol (latin1 run), "#" ++ latin1 run, run.length⟩
  else .fault .missingSymbol "#" 0

/-- The one character after a `$`. -/
def scanCharacter (rest : List UInt8) : Scan :=
  match decode rest with
  | some (c, more) => ⟨.character c, "$" ++ c.toString, more + 1⟩
  | none => .fault .missingCharacter "$" 0

/-! ## Numbers -/

/-- A run of digits and underscores. -/
def digitRun (bytes : List UInt8) : List UInt8 := bytes.takeWhile fun b => isDigit b || b = byte '_'

/-- The value of a byte as a digit of some base up to thirty-six. -/
def digitValue (b : UInt8) : Option Nat :=
  if isDigit b then some (b.toNat - '0'.toNat)
  else if byte 'a' ≤ b ∧ b ≤ byte 'z' then some (b.toNat - 'a'.toNat + 10)
  else if byte 'A' ≤ b ∧ b ≤ byte 'Z' then some (b.toNat - 'A'.toNat + 10)
  else none

/-- The number written by the decimal digits of a run; everything else in it is skipped. -/
def decimalValue (bytes : List UInt8) : Nat :=
  (bytes.filter isDigit).foldl (fun n b => n * 10 + (b.toNat - '0'.toNat)) 0

/-- One more than the largest integer of sixty-four bits; its negative still is one. -/
def integerLimit : Nat := 0x8000000000000000

/-- Reads digits in `base` onto `value`: the bytes taken, and the number or what is wrong. A digit
that is too large or makes the number too large is still taken. -/
def radixDigits (base : Nat) : (value : Nat) → (seen : Bool) → List UInt8 → Nat × Except LexicalFault Nat
  | value, seen, [] => (0, if seen then .ok value else .error .missingRadixDigits)
  | value, seen, b :: rest =>
    if b = byte '_' then
      let (taken, result) := radixDigits base value seen rest
      (taken + 1, result)
    else match digitValue b with
      | none => (0, if seen then .ok value else .error .missingRadixDigits)
      | some digit =>
        if base ≤ digit then (1, .error .invalidRadixDigit)
        else if integerLimit ≤ value * base + digit then (1, .error .radixOverflow)
        else
          let (taken, result) := radixDigits base (value * base + digit) true rest
          (taken + 1, result)

/-- A literal in a given base: `head` is the sign and the base, `rest` stands after the `r`. -/
def scanRadix (negative : Bool) (head rest : List UInt8) : Scan :=
  let base := decimalValue head
  if 2 ≤ base ∧ base ≤ 36 then
    let (taken, result) := radixDigits base 0 false rest
    let lexeme := latin1 (head ++ byte 'r' :: rest.take taken)
    match result with
    | .ok value =>
      ⟨.integer (Int64.ofInt (if negative then -value else value)), lexeme, head.length + taken⟩
    | .error why => .fault why lexeme (head.length + taken)
  else .fault (.invalidBase (latin1 (head.filter isDigit))) (latin1 head) head.length

/-- The fraction at the front of the input with its point; a point needs a digit after it. -/
def fractionRun : List UInt8 → List UInt8
  | p :: d :: rest => if p = byte '.' ∧ isDigit d then p :: digitRun (d :: rest) else []
  | _ => []

/-- The exponent at the front of the input with its mark and sign, the mark in lower case. -/
def exponentRun : List UInt8 → List UInt8
  | e :: rest =>
    if e = byte 'e' ∨ e = byte 'E' then
      let sign := (rest.take 1).filter fun s => s = byte '+' || s = byte '-'
      let digits := rest.drop sign.length
      if atByte isDigit digits then byte 'e' :: (sign ++ digitRun digits) else []
    else []
  | [] => []

/-- A whole number that fits in sixty-four bits with its sign. -/
def integerKind (negative : Bool) (magnitude : Nat) : TokenKind :=
  if negative then
    if magnitude ≤ integerLimit then .integer (Int64.ofInt (-magnitude))
    else .error LexicalFault.integerTooSmall.message
  else if magnitude < integerLimit then .integer (Int64.ofInt magnitude)
  else .error LexicalFault.integerTooLarge.message

/-- The literal with these digits before and after the point and this exponent. -/
def floatKind (negative : Bool) (whole fraction exponent : List UInt8) : TokenKind :=
  let power : Int := decimalValue exponent
  let power := if exponent.contains (byte '-') then -power else power
  .float (.ofDecimal negative (decimalValue (whole ++ fraction))
    (power - ((fraction.filter isDigit).length : Int)))

/-- A number, from its sign or first digit on. -/
def scanNumber (bytes : List UInt8) : Scan :=
  let sign := (bytes.take 1).filter (· = byte '-')
  let negative := !sign.isEmpty
  let whole := digitRun (bytes.drop sign.length)
  let head := sign ++ whole
  let rest := bytes.drop head.length
  if atByte (fun b => b = byte 'r' || b = byte 'R') rest then scanRadix negative head rest.tail
  else
    let fraction := fractionRun rest
    let exponent := exponentRun (rest.drop fraction.length)
    let raw := head ++ fraction ++ exponent
    let kind :=
      if fraction.isEmpty && exponent.isEmpty then integerKind negative (decimalValue whole)
      else floatKind negative whole fraction exponent
    ⟨kind, latin1 raw, raw.length - 1⟩

/-! ## Words, colons and operators -/

/-- A word: a keyword if a colon follows that does not start `:=`, else a reserved word or a name. -/
def scanWord (bytes : List UInt8) : Scan :=
  let (chars, taken) := charRun isWordChar bytes
  let word := String.ofList chars
  let rest := bytes.drop taken
  if atByte (· = byte ':') rest && !atByte (· = byte '=') rest.tail then
    ⟨.keyword (word ++ ":"), word ++ ":", taken⟩
  else
    let kind := match Reserved.ofSpelling? word with
      | some reserved => .reserved reserved
      | none => .identifier word
    ⟨kind, word, taken - 1⟩

/-- What a colon starts: `:=`, a block parameter, or nothing more. -/
def scanColon (rest : List UInt8) : Scan :=
  if atByte (· = byte '=') rest then ⟨.mark .assign, Mark.assign.spelling, 1⟩
  else if atWord rest then
    let (chars, taken) := charRun isWordChar rest
    ⟨.argument (String.ofList chars), ":" ++ String.ofList chars, taken⟩
  else ⟨.mark .colon, Mark.colon.spelling, 0⟩

/-- The input starts a comment after a slash. -/
def opensComment (rest : List UInt8) : Bool := atByte (fun b => b = byte '/' || b = byte '*') rest

/-- Operator bytes up to a slash that starts a comment. -/
def operatorRun : List UInt8 → List UInt8
  | [] => []
  | b :: rest =>
    if isOperatorByte b && !(b = byte '/' && opensComment rest) then b :: operatorRun rest else []

/-- An operator from its first byte on. -/
def scanOperator (first : UInt8) (rest : List UInt8) : Scan :=
  let run := operatorRun rest
  ⟨.operator (latin1 (first :: run)), latin1 (first :: run), run.length⟩

/-- A character that starts no token. -/
def scanUnexpected (bytes : List UInt8) : Scan :=
  match decode bytes with
  | some (c, more) => .fault (.unexpectedCharacter c) c.toString more
  | none => .fault (.unexpectedCharacter replacement) "" 0

/-! ## Dispatch -/

/-- The mark a single byte spells on its own. -/
def soleMark (b : UInt8) : Option Mark :=
  [Mark.leftParen, .rightParen, .leftBracket, .rightBracket, .dot, .semicolon, .caret].find? fun m =>
    latin1 [b] == m.spelling

/-- The token at the front of `first :: rest`. -/
def scan (afterOperand : Bool) (first : UInt8) (rest : List UInt8) : Scan :=
  if first = byte '/' ∧ atByte (· = byte '/') rest then scanLineComment rest
  else if first = byte '/' ∧ atByte (· = byte '*') rest then scanBlockComment rest
  else if first = byte '"' then scanString rest
  else if first = byte '#' then scanSymbol rest
  else if first = byte '$' then scanCharacter rest
  else match soleMark first with
  | some mark => ⟨.mark mark, mark.spelling, 0⟩
  | none =>
    if first = byte '|' ∧ !atByte isOperatorByte rest then ⟨.mark .bar, Mark.bar.spelling, 0⟩
    else if isDigit first ∨ (first = byte '-' ∧ !afterOperand ∧ atByte isDigit rest) then
      scanNumber (first :: rest)
    else if first = byte ':' then scanColon rest
    else if isOperatorByte first then scanOperator first rest
    else if atWord (first :: rest) then scanWord (first :: rest)
    else scanUnexpected (first :: rest)

end BlockScope
