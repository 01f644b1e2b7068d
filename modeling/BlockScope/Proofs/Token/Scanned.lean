import BlockScope.Proofs.Token.Lookahead
import BlockScope.Proofs.Token.Stepwise
/-!
# How each token came about

Every token of a text but the end of input was scanned where it stands, by one of a dozen routines. `Scanned` lists these with
what is known of the input when a routine is chosen, and `scanned_of_mem` finds the scan behind a token.
-/
namespace BlockScope

/-- A scan by the routine that made it, and what the input looked like to it. -/
inductive Scanned (first : UInt8) (rest : List UInt8) : Scan → Prop where
  | lineComment (h : first = byte '/') (hnext : atByte (· = byte '/') rest) : Scanned first rest (scanLineComment rest)
  | blockComment (h : first = byte '/') (hnext : atByte (· = byte '*') rest) : Scanned first rest (scanBlockComment rest)
  | string (h : first = byte '"') : Scanned first rest (scanString rest)
  | symbol (h : first = byte '#') : Scanned first rest (scanSymbol rest)
  | character (h : first = byte '$') : Scanned first rest (scanCharacter rest)
  | sole {mark : Mark} (h : soleMark first = some mark) : Scanned first rest ⟨.mark mark, mark.spelling, 0⟩
  | bar (h : first = byte '|') : Scanned first rest ⟨.mark .bar, Mark.bar.spelling, 0⟩
  | number (h : isDigit first ∨ first = byte '-' ∧ atByte isDigit rest) : Scanned first rest (scanNumber (first :: rest))
  | colon (h : first = byte ':') : Scanned first rest (scanColon rest)
  | operator (h : isOperatorByte first) : Scanned first rest (scanOperator first rest)
  | word (h : atWord (first :: rest)) : Scanned first rest (scanWord (first :: rest))
  | unexpected : Scanned first rest (scanUnexpected (first :: rest))

theorem scanned (afterOperand : Bool) (first : UInt8) (rest : List UInt8) :
    Scanned first rest (scan afterOperand first rest) := by
  unfold scan
  split
  · next h => exact .lineComment h.1 h.2
  split
  · next h => exact .blockComment h.1 h.2
  split
  · next h => exact .string h
  split
  · next h => exact .symbol h
  split
  · next h => exact .character h
  split
  · next h => exact .sole h
  split
  · next h => exact .bar h.1
  split
  · next h => exact .number (h.imp_right fun h => ⟨h.1, h.2.2⟩)
  split
  · next h => exact .colon h
  split
  · next h => exact .operator h
  split
  · next h => exact .word h
  · exact .unexpected

open Scan in
/-- Identifiers are scanned as words only. -/
theorem Scanned.of_identifier {first : UInt8} {rest : List UInt8} {found : Scan} {name : String} (h : Scanned first rest found)
    (hkind : found.kind = .identifier name) : atWord (first :: rest) ∧ found = scanWord (first :: rest) := by
  cases h with
  | word h => exact ⟨h, rfl⟩
  | blockComment => exact absurd hkind (noWord_blockComment name).1
  | string => exact absurd hkind (noWord_string name).1
  | symbol => exact absurd hkind (noWord_symbol name).1
  | character => exact absurd hkind (noWord_character name).1
  | number => exact absurd hkind (noWord_number name).1
  | colon => exact absurd hkind (noWord_colon name).1
  | unexpected => exact absurd hkind (noWord_unexpected name).1
  | lineComment | sole | bar | operator => cases hkind

open Scan in
/-- Parameters of blocks are scanned behind a colon only. -/
theorem Scanned.of_argument {first : UInt8} {rest : List UInt8} {found : Scan} {name : String} (h : Scanned first rest found)
    (hkind : found.kind = .argument name) : found = scanColon rest := by
  cases h with
  | colon => rfl
  | lineComment | sole | bar | operator => cases hkind
  | blockComment | string =>
    simp only [scanBlockComment, scanString] at hkind
    split at hkind <;> cases hkind
  | symbol =>
    unfold scanSymbol at hkind
    split at hkind
    · cases hkind
    · split at hkind
      · cases hkind
      · split at hkind <;> cases hkind
  | character | unexpected =>
    simp only [scanCharacter, scanUnexpected] at hkind
    split at hkind <;> cases hkind
  | word =>
    simp only [scanWord] at hkind
    split at hkind
    · cases hkind
    · simp only at hkind
      split at hkind <;> cases hkind
  | number =>
    simp only [scanNumber, scanRadix, integerKind] at hkind
    repeat' split at hkind
    all_goals cases hkind

/-! ## From a lexer to its next token -/

/-- The next token is found behind the blanks: what the scan says, and where that leaves the lexer. -/
structure Lexer.Finds (l : Lexer) (first : UInt8) (rest : List UInt8) (found : Scan) : Prop where
  scanned : Scanned first rest found
  kind : l.nextToken.1.kind = found.kind
  lexeme : l.nextToken.1.lexeme = found.lexeme
  start : l.nextToken.1.span.start = l.position.advance (l.rest.takeWhile isBlank)
  stop : l.nextToken.1.span.stop = l.nextToken.1.span.start.advance (first :: rest.take found.more)
  rest : l.nextToken.2.rest = rest.drop found.more
  position : l.nextToken.2.position = l.nextToken.1.span.stop

theorem Lexer.finds {l : Lexer} {first : UInt8} {rest : List UInt8} (h : l.rest.dropWhile isBlank = first :: rest) :
    l.Finds first rest (scan l.afterOperand first rest) := by
  have hscanned := BlockScope.scanned l.afterOperand first rest
  refine ⟨hscanned, ?_, ?_, ?_, ?_, ?_, ?_⟩
  all_goals
    unfold nextToken
    rw [h]

/-- The bytes of a text that a token stands on. -/
def Token.source (t : Token) (bytes : List UInt8) : List UInt8 :=
  (bytes.drop t.span.start.offset).take (t.span.stop.offset - t.span.start.offset)

/-- A token is the end of input, or it was scanned from the bytes it stands on. -/
theorem scanned_of_mem {bytes : List UInt8} {t : Token} (ht : t ∈ tokenize bytes) : t.kind = .endOfInput ∨
    ∃ first rest found, Scanned first rest found ∧ t.kind = found.kind ∧ t.source bytes = first :: rest.take found.more := by
  obtain ⟨ts, l, hreads, -, rfl⟩ := Lexer.Reads.of_mem_run ht
  have hbegin : (Lexer.ofBytes bytes).At bytes 0 := ⟨Nat.zero_le _, rfl, (placeAt_zero bytes).symm⟩
  obtain ⟨n, -, hat⟩ := hreads.at hbegin
  obtain ⟨hdrop, hstart⟩ := hat.start
  cases hahead : l.rest.dropWhile isBlank with
  | nil =>
    left
    rw [Lexer.nextToken, hahead]
  | cons first rest =>
    have hfinds := Lexer.finds hahead
    refine .inr ⟨first, rest, _, hfinds.scanned, hfinds.kind, ?_⟩
    have hoffset : l.nextToken.1.span.start.offset = n + (l.rest.takeWhile isBlank).length := congrArg Position.offset hstart
    have hsplit : first :: rest = (first :: rest.take (scan l.afterOperand first rest).more) ++
        rest.drop (scan l.afterOperand first rest).more := by
      rw [List.cons_append, List.take_append_drop]
    rw [Token.source, hfinds.stop, Position.offset_advance, Nat.add_sub_cancel_left, hoffset, hdrop, hahead, hsplit,
      List.take_left]

end BlockScope
