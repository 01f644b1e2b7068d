import BlockScope.Proofs.Token.Stepwise
import BlockScope.Proofs.Token.Windowed
import BlockScope.Program.Grammar.Definition
/-!
# Tokens out of a reader

A lexer that holds a window and nothing else of the input. Its routines find what those over all bytes find and leave the window
behind the token (`Window.lex_eq`), so calls for tokens are answered by the tokens of the bytes that the reader delivers, in turn, and
by none after them (`Streamed.answers_eq`). What a reader does where its bytes end, and whatever it would say if it were asked again,
makes no difference.
-/
namespace BlockScope
open Text

/-- A token found through a window, and the window behind it. -/
structure Lexed where
  kind : TokenKind
  lexeme : String
  window : Window

/-- No token. -/
def Lexed.fault (why : LexicalFault) (lexeme : String) (w : Window) : Lexed := ⟨.error why.message, lexeme, w⟩

/-- What a scan finds at a place of the bytes. -/
def Scan.lexed (s : Scan) (r : ByteReader) (k : Nat) : Lexed := ⟨s.kind, s.lexeme, r.windowAt (k + 1 + s.more)⟩

/-! ## Routines -/

namespace Window

def lexLineComment (w : Window) : Lexed :=
  let (text, w) := takeBytes (· ≠ 0x0A) (w.after 2)
  ⟨.lineComment (latin1 text), "//" ++ latin1 text, w⟩

def lexBlockComment (w : Window) : Lexed :=
  let (text, closed, w) := takeComment 0 (w.after 2)
  if closed then ⟨.blockComment (latin1 text), "/*" ++ latin1 text ++ "*/", w⟩
  else .fault .unterminatedComment ("/*" ++ latin1 text) w

def lexString (w : Window) : Lexed :=
  let (value, raw, fault, w) := takeString w.step
  let lexeme := "\"" ++ latin1 raw
  match fault with
  | none => ⟨.string (String.ofList (lossy value)), lexeme, w⟩
  | some why => .fault why lexeme w

def lexSymbol (w : Window) : Lexed :=
  let w := w.step
  if w.sees 0 (· = byte '(') then ⟨.mark .hashParen, Mark.hashParen.spelling, w.step⟩
  else if w.seesWord then
    let (chars, w) := takeChars (fun c => isWordChar c || c = ':') w
    ⟨.symbol (String.ofList chars), "#" ++ String.ofList chars, w⟩
  else if w.sees 0 isOperatorByte then
    let (run, w) := takeBytes isOperatorByte w
    ⟨.symbol (latin1 run), "#" ++ latin1 run, w⟩
  else .fault .missingSymbol "#" w

def lexCharacter (w : Window) : Lexed :=
  let w := w.step
  match w.peekChar with
  | some (c, n) => ⟨.character c, "$" ++ c.toString, w.after n⟩
  | none => .fault .missingCharacter "$" w

/-- Digits and underscores. -/
def takeDigits (w : Window) : List UInt8 × Window := takeBytes (fun b => isDigit b || b = byte '_') w

/-- A point with digits, if a digit is behind it. -/
def takeFraction (w : Window) : List UInt8 × Window :=
  if w.sees 0 (· = byte '.') && w.sees 1 isDigit then
    let (digits, w) := takeDigits w.step
    (byte '.' :: digits, w)
  else ([], w)

/-- An exponent, if a digit is behind its mark and its sign. -/
def takeExponent (w : Window) : List UInt8 × Window :=
  let follows := w.sees 1 isDigit || w.sees 1 (fun s => s = byte '+' || s = byte '-') && w.sees 2 isDigit
  if w.sees 0 (fun e => e = byte 'e' || e = byte 'E') && follows then
    let (sign, w) := takeOne (fun s => s = byte '+' || s = byte '-') w.step
    let (digits, w) := takeDigits w
    (byte 'e' :: (sign ++ digits), w)
  else ([], w)

/-- Behind the `r` of a number with a base. -/
def lexRadix (negative : Bool) (head : List UInt8) (w : Window) : Lexed :=
  let base := decimalValue head
  if 2 ≤ base ∧ base ≤ 36 then
    let (digits, result, w) := takeRadix base 0 false w
    let lexeme := latin1 (head ++ byte 'r' :: digits)
    match result with
    | .ok value => ⟨.integer (Int64.ofInt (if negative then -value else value)), lexeme, w⟩
    | .error why => .fault why lexeme w
  else .fault (.invalidBase (latin1 (head.filter isDigit))) (latin1 head) w

def lexNumber (w : Window) : Lexed :=
  let (sign, w) := takeOne (· = byte '-') w
  let negative := !sign.isEmpty
  let (whole, w) := takeDigits w
  let head := sign ++ whole
  if w.sees 0 (fun b => b = byte 'r' || b = byte 'R') then lexRadix negative head w.step
  else
    let (fraction, w) := takeFraction w
    let (exponent, w) := takeExponent w
    let raw := head ++ fraction ++ exponent
    let kind :=
      if fraction.isEmpty && exponent.isEmpty then integerKind negative (decimalValue whole)
      else floatKind negative whole fraction exponent
    ⟨kind, latin1 raw, w⟩

def lexWord (w : Window) : Lexed :=
  let (chars, w) := takeChars isWordChar w
  let word := String.ofList chars
  if w.sees 0 (· = byte ':') && !w.sees 1 (· = byte '=') then ⟨.keyword (word ++ ":"), word ++ ":", w.step⟩
  else
    let kind := match Reserved.ofSpelling? word with
      | some reserved => .reserved reserved
      | none => .identifier word
    ⟨kind, word, w⟩

def lexColon (w : Window) : Lexed :=
  if w.sees 1 (· = byte '=') then ⟨.mark .assign, Mark.assign.spelling, w.after 2⟩
  else
    let w := w.step
    if w.seesWord then
      let (chars, w) := takeChars isWordChar w
      ⟨.argument (String.ofList chars), ":" ++ String.ofList chars, w⟩
    else ⟨.mark .colon, Mark.colon.spelling, w⟩

def lexOperator (first : UInt8) (w : Window) : Lexed :=
  let (run, w) := takeOperator w.step
  ⟨.operator (latin1 (first :: run)), latin1 (first :: run), w⟩

def lexUnexpected (w : Window) : Lexed :=
  match w.peekChar with
  | some (c, n) => .fault (.unexpectedCharacter c) c.toString (w.after n)
  | none => .fault (.unexpectedCharacter replacement) "" w

/-- The token that the first byte starts. -/
def lex (afterOperand : Bool) (first : UInt8) (w : Window) : Lexed :=
  if first = byte '/' ∧ w.sees 1 (· = byte '/') then w.lexLineComment
  else if first = byte '/' ∧ w.sees 1 (· = byte '*') then w.lexBlockComment
  else if first = byte '"' then w.lexString
  else if first = byte '#' then w.lexSymbol
  else if first = byte '$' then w.lexCharacter
  else match soleMark first with
  | some mark => ⟨.mark mark, mark.spelling, w.step⟩
  | none =>
    if first = byte '|' ∧ !w.sees 1 isOperatorByte then ⟨.mark .bar, Mark.bar.spelling, w.step⟩
    else if isDigit first ∨ (first = byte '-' ∧ !afterOperand ∧ w.sees 1 isDigit) then w.lexNumber
    else if first = byte ':' then w.lexColon
    else if isOperatorByte first then w.lexOperator first
    else if w.seesWord then w.lexWord
    else w.lexUnexpected

end Window

/-! ## What the routines find -/

namespace ByteReader
open Window
variable {r : ByteReader} {k m : Nat} {first : UInt8} {bytes rest : List UInt8}

theorem drop_succ (h : r.bytes.drop k = first :: rest) : r.bytes.drop (k + 1) = rest := drop_add h 1

theorem drop_two (h : r.bytes.drop k = first :: rest) : r.bytes.drop (k + 2) = rest.tail := by
  rw [drop_add (drop_succ h) 1, List.drop_one]

theorem lexed_of {s : Scan} (h : m = k + 1 + s.more) : ⟨s.kind, s.lexeme, r.windowAt m⟩ = s.lexed r k := by rw [h, Scan.lexed]

theorem lexLineComment_eq (h : r.bytes.drop k = first :: rest) : (r.windowAt k).lexLineComment = (scanLineComment rest).lexed r k := by
  rw [lexLineComment, after_windowAt, takeBytes_windowAt _ (drop_two h)]
  exact lexed_of (s := scanLineComment rest) (by simp only [scanLineComment]; omega)

theorem lexBlockComment_eq (h : r.bytes.drop k = first :: rest) :
    (r.windowAt k).lexBlockComment = (scanBlockComment rest).lexed r k := by
  have hwindow : k + 2 + (commentBody 0 rest.tail).taken = k + 1 + ((commentBody 0 rest.tail).taken + 1) := by omega
  rw [lexBlockComment, after_windowAt, takeComment_windowAt _ (drop_two h), scanBlockComment, hwindow]
  simp only
  split <;> rfl

theorem lexString_eq (h : r.bytes.drop k = first :: rest) : (r.windowAt k).lexString = (scanString rest).lexed r k := by
  rw [lexString, step_windowAt, takeString_windowAt (drop_succ h), scanString]
  cases (stringBody rest).fault <;> rfl

theorem lexSymbol_eq (h : r.bytes.drop k = first :: rest) : (r.windowAt k).lexSymbol = (scanSymbol rest).lexed r k := by
  have hrest := drop_succ h
  rw [lexSymbol, step_windowAt, scanSymbol]
  simp only [sees_of_drop hrest (n := 0) (by decide), seesWord_of_drop hrest, List.drop_zero, step_windowAt,
    takeChars_windowAt _ hrest, takeBytes_windowAt _ hrest, apply_ite (Scan.lexed · r k)]
  rfl

theorem lexCharacter_eq (h : r.bytes.drop k = first :: rest) : (r.windowAt k).lexCharacter = (scanCharacter rest).lexed r k := by
  rw [lexCharacter, step_windowAt, scanCharacter]
  simp only [peekChar_of_drop (drop_succ h), after_windowAt]
  cases decode rest <;> rfl

/-! ### Numbers -/

theorem takeDigits_windowAt (h : r.bytes.drop k = bytes) :
    takeDigits (r.windowAt k) = (digitRun bytes, r.windowAt (k + (digitRun bytes).length)) := takeBytes_windowAt _ h

theorem takeFraction_windowAt (h : r.bytes.drop k = bytes) :
    takeFraction (r.windowAt k) = (fractionRun bytes, r.windowAt (k + (fractionRun bytes).length)) := by
  rw [takeFraction, sees_of_drop h (by decide), sees_of_drop h (by decide), step_windowAt]
  match bytes with
  | [] => rfl
  | [p] =>
    rw [show atByte isDigit ([p].drop 1) = false from rfl, Bool.and_false]
    rfl
  | p :: d :: rest =>
    have hpoint : (atByte (· = byte '.') ((p :: d :: rest).drop 0) && atByte isDigit ((p :: d :: rest).drop 1)) = true ↔
        p = byte '.' ∧ isDigit d := by simp [atByte]
    rw [fractionRun, takeDigits_windowAt (drop_succ h)]
    by_cases hyes : p = byte '.' ∧ isDigit d
    · simp only [if_pos (hpoint.2 hyes), if_pos hyes, List.length_cons, windowAt_succ_add]
      rw [hyes.1]
    · rw [if_neg fun hno => hyes (hpoint.1 hno), if_neg hyes]
      rfl

/-- Whether digits follow the mark of an exponent is seen before anything is taken. -/
theorem exponent_follows (rest : List UInt8) :
    (atByte isDigit rest || atByte (fun s => s = byte '+' || s = byte '-') rest && atByte isDigit (rest.drop 1)) =
      atByte isDigit (rest.drop ((rest.take 1).filter fun s => s = byte '+' || s = byte '-').length) := by
  cases rest with
  | nil => rfl
  | cons s rest =>
    have hsign : (s = byte '+' || s = byte '-') → isDigit s = false := by
      intro hs
      rcases Bool.or_eq_true_iff.1 hs with hs | hs <;> rw [of_decide_eq_true hs] <;> rfl
    cases hs : (s = byte '+' || s = byte '-' : Bool) with
    | true => simp [atByte, hs, hsign hs]
    | false => simp [atByte, hs]

theorem takeExponent_windowAt (h : r.bytes.drop k = bytes) :
    takeExponent (r.windowAt k) = (exponentRun bytes, r.windowAt (k + (exponentRun bytes).length)) := by
  rw [takeExponent, sees_of_drop h (by decide), sees_of_drop h (by decide), sees_of_drop h (by decide), sees_of_drop h (by decide),
    step_windowAt]
  cases bytes with
  | nil => rfl
  | cons e rest =>
    have hsign := drop_add (drop_succ h) ((rest.take 1).filter fun s => s = byte '+' || s = byte '-').length
    have hmark : atByte (fun e => e = byte 'e' || e = byte 'E') (e :: rest) = true ↔ e = byte 'e' ∨ e = byte 'E' := by simp [atByte]
    rw [takeOne_windowAt _ (drop_succ h), exponentRun]
    simp only [List.drop_zero, List.drop_succ_cons, exponent_follows, takeDigits_windowAt hsign, Bool.and_eq_true, hmark]
    by_cases he : e = byte 'e' ∨ e = byte 'E'
    · simp only [he, true_and, if_true]
      split
      · rw [List.length_cons, List.length_append, Nat.add_assoc (k + 1), windowAt_succ_add]
      · rfl
    · simp only [he, false_and, if_false]
      rfl

theorem lexRadix_eq (negative : Bool) (head : List UInt8) (h : r.bytes.drop k = rest) (hk : k = m + head.length + 1) :
    lexRadix negative head (r.windowAt k) = (scanRadix negative head rest).lexed r m := by
  rw [lexRadix, takeRadix_windowAt _ _ _ h, scanRadix, hk]
  have hwindow : ∀ n, m + head.length + 1 + n = m + 1 + (head.length + n) := fun n => by omega
  simp only [hwindow]
  split
  · cases (radixDigits (decimalValue head) 0 false rest).2 <;> rfl
  · rw [Nat.add_right_comm]
    rfl

theorem lexNumber_eq (h : r.bytes.drop k = first :: rest) (hfirst : isDigit first ∨ first = byte '-') :
    (r.windowAt k).lexNumber = (scanNumber (first :: rest)).lexed r k := by
  have hsign := drop_add h (((first :: rest).take 1).filter (· = byte '-')).length
  rw [lexNumber, takeOne_windowAt _ h, scanNumber]
  simp only [takeDigits_windowAt hsign]
  have hpos : 0 < (((first :: rest).take 1).filter (· = byte '-') ++
      digitRun ((first :: rest).drop (((first :: rest).take 1).filter (· = byte '-')).length)).length := by
    by_cases hminus : first = byte '-'
    · simp [hminus]
    · simp [hminus, digitRun, hfirst.resolve_right hminus]
  generalize ((first :: rest).take 1).filter (· = byte '-') = sign at hpos
  generalize digitRun ((first :: rest).drop sign.length) = whole at hpos
  have hhead := drop_add h (sign ++ whole).length
  have hrest : r.bytes.drop (k + (sign ++ whole).length + 1) = ((first :: rest).drop (sign ++ whole).length).tail := by
    rw [drop_add hhead, List.drop_one]
  rw [Nat.add_assoc, ← List.length_append, sees_of_drop hhead (by decide), List.drop_zero, step_windowAt,
    takeFraction_windowAt hhead]
  generalize (first :: rest).drop (sign ++ whole).length = left at hhead hrest
  split
  · exact lexRadix_eq _ _ hrest rfl
  · simp only [takeExponent_windowAt (drop_add hhead _)]
    exact lexed_of (s := ⟨_, _, _⟩) (by simp only [List.length_append] at hpos ⊢; omega)

/-! ### Words, colons and operators -/

theorem lexWord_eq (h : r.bytes.drop k = bytes) (hword : atWord bytes) : (r.windowAt k).lexWord = (scanWord bytes).lexed r k := by
  have hpos := charRun_pos hword
  have hrest := drop_add h (charRun isWordChar bytes).2
  rw [lexWord, takeChars_windowAt _ h, scanWord]
  simp only [sees_of_drop hrest (n := 0) (by decide), sees_of_drop hrest (n := 1) (by decide), List.drop_zero, List.drop_one,
    step_windowAt, apply_ite (Scan.lexed · r k)]
  have hkeyword : k + (charRun isWordChar bytes).2 + 1 = k + 1 + (charRun isWordChar bytes).2 := by omega
  have hplain : k + (charRun isWordChar bytes).2 = k + 1 + ((charRun isWordChar bytes).2 - 1) := by omega
  split
  · rw [hkeyword]
    rfl
  · rw [hplain]
    rfl

theorem lexColon_eq (h : r.bytes.drop k = first :: rest) : (r.windowAt k).lexColon = (scanColon rest).lexed r k := by
  have hrest := drop_succ h
  rw [lexColon, scanColon]
  simp only [sees_of_drop h (n := 1) (by decide), List.drop_succ_cons, List.drop_zero, step_windowAt, after_windowAt,
    seesWord_of_drop hrest, takeChars_windowAt _ hrest, apply_ite (Scan.lexed · r k)]
  rfl

theorem lexOperator_eq (h : r.bytes.drop k = first :: rest) :
    (r.windowAt k).lexOperator first = (scanOperator first rest).lexed r k := by
  rw [lexOperator, step_windowAt, takeOperator_windowAt (drop_succ h)]
  rfl

theorem lexUnexpected_eq (h : r.bytes.drop k = first :: rest) :
    (r.windowAt k).lexUnexpected = (scanUnexpected (first :: rest)).lexed r k := by
  obtain ⟨⟨c, more⟩, hd⟩ : ∃ found, decode (first :: rest) = some found := ⟨_, rfl⟩
  rw [lexUnexpected, peekChar_of_drop h, scanUnexpected, hd]
  simp only [Option.map_some, after_windowAt, ← windowAt_succ_add]
  rfl

theorem lex_eq (afterOperand : Bool) (h : r.bytes.drop k = first :: rest) :
    (r.windowAt k).lex afterOperand first = (scan afterOperand first rest).lexed r k := by
  have hsees : ∀ p, (r.windowAt k).sees 1 p = atByte p rest := fun p => sees_of_drop h (by decide) p
  unfold lex scan
  simp only [hsees, seesWord_of_drop h, step_windowAt, lexLineComment_eq h, lexBlockComment_eq h, lexString_eq h, lexSymbol_eq h,
    lexCharacter_eq h, lexColon_eq h, lexOperator_eq h, lexUnexpected_eq h, apply_ite (Scan.lexed · r k)]
  cases soleMark first with
  | some mark => rfl
  | none =>
    simp only [apply_ite (Scan.lexed · r k)]
    have hword : (if atWord (first :: rest) then (r.windowAt k).lexWord else (scanUnexpected (first :: rest)).lexed r k) =
        if atWord (first :: rest) then (scanWord (first :: rest)).lexed r k else (scanUnexpected (first :: rest)).lexed r k := by
      split
      · next hword => exact lexWord_eq h hword
      · rfl
    rw [hword]
    by_cases hnumber : isDigit first ∨ (first = byte '-' ∧ !afterOperand ∧ atByte isDigit rest)
    · rw [if_pos hnumber, if_pos hnumber, lexNumber_eq h (hnumber.imp_right And.left)]
      rfl
    · rw [if_neg hnumber, if_neg hnumber]
      rfl

theorem position_windowAt_add (h : r.bytes.drop k = bytes) (n : Nat) :
    (r.windowAt (k + n)).position = (r.windowAt k).position.advance (bytes.take n) := by
  simp only [windowAt]
  rw [List.take_add, h, Position.advance_append]

end ByteReader

/-! ## Tokens in turn -/

/-- A lexer that knows of its input only what a window shows. -/
structure Streamed where
  window : Window
  /-- The last token that is no comment can end an operand. -/
  afterOperand : Bool
  /-- The end of input has been told. -/
  ended : Bool

namespace Streamed

def ofReader (r : ByteReader) : Streamed := ⟨.ofReader r, false, false⟩

/-- The next token; at the end of input always the end again. -/
def nextToken (s : Streamed) : Token × Streamed :=
  let w := (s.window.takeBytes isBlank).2
  match w.peekAhead 0 with
  | none => (⟨.endOfInput, .point w.position, ""⟩, ⟨w, false, true⟩)
  | some first =>
    let found := w.lex s.afterOperand first
    let afterOperand := if found.kind.isComment then s.afterOperand else found.kind.endsOperand
    (⟨found.kind, ⟨w.position, found.window.position⟩, found.lexeme⟩, ⟨found.window, afterOperand, s.ended⟩)

/-- The answers to so many calls for a token, and the lexer after them. Once the end has been told there is none. -/
def answers : Nat → Streamed → List (Option Token) × Streamed
  | 0, s => ([], s)
  | n + 1, s =>
    let (first, s₁) := if s.ended then (none, s) else (some s.nextToken.1, s.nextToken.2)
    let (rest, s₂) := answers n s₁
    (first :: rest, s₂)

/-- Stands at the same place as a lexer over all the bytes that the reader delivers. -/
structure Over (r : ByteReader) (k : Nat) (s : Streamed) (l : Lexer) : Prop where
  window : s.window = r.windowAt k
  rest : l.rest = r.bytes.drop k
  position : l.position = (r.windowAt k).position
  afterOperand : l.afterOperand = s.afterOperand
  ended : l.ended = s.ended

variable {r : ByteReader} {k : Nat} {s : Streamed} {l : Lexer}

theorem Over.start (r : ByteReader) : (ofReader r).Over r 0 (.ofBytes r.bytes) := ⟨r.ofReader_eq, rfl, rfl, rfl, rfl⟩

/-- Both find the same token, and then both stand behind it. -/
theorem Over.nextToken (h : s.Over r k l) : s.nextToken.1 = l.nextToken.1 ∧ ∃ m, s.nextToken.2.Over r m l.nextToken.2 := by
  obtain ⟨w, afterOperand, ended⟩ := s
  obtain ⟨bytes, position, afterOperand', ended'⟩ := l
  obtain ⟨rfl, hrest, rfl, rfl, rfl⟩ := h
  have hblanks : bytes.takeWhile isBlank = bytes.take (bytes.takeWhile isBlank).length :=
    List.prefix_iff_eq_take.1 (List.takeWhile_prefix isBlank)
  have hleft : r.bytes.drop (k + (bytes.takeWhile isBlank).length) = bytes.dropWhile isBlank := by
    have hsplit : bytes = bytes.takeWhile isBlank ++ bytes.dropWhile isBlank := List.takeWhile_append_dropWhile.symm
    rw [ByteReader.drop_add hrest.symm]
    exact (congrArg (List.drop _) hsplit).trans List.drop_left
  have hstart : (r.windowAt k).position.advance (bytes.takeWhile isBlank) =
      (r.windowAt (k + (bytes.takeWhile isBlank).length)).position := by
    rw [ByteReader.position_windowAt_add hrest.symm, ← hblanks]
  unfold Streamed.nextToken Lexer.nextToken
  rw [ByteReader.takeBytes_windowAt _ hrest.symm, hstart]
  generalize k + (bytes.takeWhile isBlank).length = j at hleft
  simp only
  cases hnext : bytes.dropWhile isBlank with
  | nil =>
    rw [hnext] at hleft
    rw [ByteReader.peek_of_nil hleft]
    exact ⟨rfl, j, rfl, hleft.symm, rfl, rfl, rfl⟩
  | cons first rest =>
    rw [hnext] at hleft
    rw [ByteReader.peek_of_cons hleft]
    simp only [ByteReader.lex_eq _ hleft, Scan.lexed]
    generalize scan afterOperand' first rest = found
    have hstop : (r.windowAt j).position.advance (first :: rest.take found.more) = (r.windowAt (j + 1 + found.more)).position := by
      rw [ByteReader.windowAt_succ_add, ByteReader.position_windowAt_add hleft, List.take_succ_cons]
    exact ⟨by rw [hstop], _, rfl, (ByteReader.drop_add (ByteReader.drop_succ hleft) _).symm, hstop, rfl, rfl⟩

/-- Calls are answered by the tokens that are left, in turn, and the window only moves. -/
theorem Over.answers (h : s.Over r k l) (n : Nat) :
    (s.answers n).1 = (List.range n).map (fun i => l.run.1[i]?) ∧ ∃ m, (s.answers n).2.window = r.windowAt m := by
  induction n generalizing s l k with
  | zero => exact ⟨rfl, k, h.window⟩
  | succ n ih =>
    rw [List.range_succ_eq_map, List.map_cons, List.map_map]
    unfold Streamed.answers
    cases hended : s.ended with
    | true =>
      obtain ⟨hanswers, m, hwindow⟩ := ih h
      rw [Lexer.run_of_ended (h.ended.trans hended)] at hanswers ⊢
      refine ⟨?_, m, hwindow⟩
      simp only [if_true]
      rw [hanswers]
      rfl
    | false =>
      obtain ⟨htoken, m, hnext⟩ := h.nextToken
      obtain ⟨hanswers, m', hwindow⟩ := ih hnext
      rw [Lexer.run_of_not_ended (h.ended.trans hended)]
      refine ⟨?_, m', hwindow⟩
      simp only [Bool.false_eq_true, if_false]
      rw [hanswers, htoken]
      rfl

end Streamed

/-- Through the window of a reader, and however often it has been moved, one sees what stands at that place of the bytes that the
reader delivers before it first ends or fails. The reader is asked for no more than it takes to fill the window, once more than it has
bytes at most, and never again after that. So the tokens that a lexer over the reader gives are those of these bytes, and a reader that
fails after so many bytes gives the tokens of as many bytes alone. -/
theorem window_refines_indexing (r : ByteReader) :
    (∀ k, ((Window.ofReader r).after k).Shows r.bytes (min k r.bytes.length) ∧
      ((Window.ofReader r).after k).reader.attempts = r.attempts + min (k + 8) (r.bytes.length + 1) ∧
      (((Window.ofReader r).after k).ended ↔ r.bytes.length < k + 8) ∧
      (((Window.ofReader r).after k).ended →
        ∀ m, (((Window.ofReader r).after k).after m).reader = ((Window.ofReader r).after k).reader)) ∧
    (∀ n, ((Streamed.ofReader r).answers n).1 = (List.range n).map (fun i => (tokenize r.bytes)[i]?) ∧
      ((Streamed.ofReader r).answers n).2.window.reader.attempts ≤ r.attempts + (r.bytes.length + 1)) ∧
    Lexer.ofReader r = .ofBytes r.bytes ∧ Program.ofReader r = Program.ofBytes r.bytes ∧
    ∀ bytes limit n, ((Streamed.ofReader (.limited bytes limit)).answers n).1 =
      ((Streamed.ofReader (.ofBytes (bytes.take limit))).answers n).1 := by
  have hanswers : ∀ (r : ByteReader) (n : Nat),
      ((Streamed.ofReader r).answers n).1 = (List.range n).map (fun i => (tokenize r.bytes)[i]?) :=
    fun r n => ((Streamed.Over.start r).answers n).1
  refine ⟨fun k => ?_, fun n => ⟨hanswers r n, ?_⟩, ?_, ?_, fun bytes limit n => ?_⟩
  · rw [r.ofReader_eq, r.after_windowAt, Nat.zero_add]
    refine ⟨r.shows_windowAt k, rfl, decide_eq_true_iff, fun hended m => ?_⟩
    have hlt : r.bytes.length < k + 8 := of_decide_eq_true hended
    rw [r.after_windowAt, r.reader_windowAt hlt, r.reader_windowAt (Nat.lt_of_lt_of_le hlt (by unfold Window.capacity; omega))]
  · obtain ⟨-, m, hwindow⟩ := (Streamed.Over.start r).answers n
    rw [hwindow]
    exact Nat.add_le_add_left (Nat.min_le_right _ _) _
  · rw [Lexer.ofReader, r.delivered_eq]
  · rw [Program.ofReader, r.delivered_eq]
  · rw [hanswers, hanswers]
    rfl

end BlockScope
