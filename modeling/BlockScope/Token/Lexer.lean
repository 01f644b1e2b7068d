import BlockScope.Source.Window
import BlockScope.Token.Scan
/-!
# Reading tokens from bytes

`Lexer.nextToken` skips blanks, scans a token and moves on. Since a scan always takes the first byte, the
input shrinks with every token, and `Lexer.run` needs no other bound. Comments are tokens, but do not
count where the sign of a number depends on the token before it.
-/
namespace BlockScope

/-- A lexer part way through its input. -/
structure Lexer where
  rest : List UInt8
  position : Position
  /-- The last token that is no comment can end an operand. -/
  afterOperand : Bool
  /-- The end of input has been told. -/
  ended : Bool

namespace Lexer

def ofBytes (bytes : List UInt8) : Lexer := ⟨bytes, .origin, false, false⟩

/-- A lexer over what a reader delivers. -/
def ofReader (r : ByteReader) : Lexer := ofBytes r.delivered

/-- The next token; at the end of input always the end again. -/
def nextToken (l : Lexer) : Token × Lexer :=
  let start := l.position.advance (l.rest.takeWhile isBlank)
  match l.rest.dropWhile isBlank with
  | [] => (⟨.endOfInput, .point start, ""⟩, ⟨[], start, false, true⟩)
  | first :: rest =>
    let found := scan l.afterOperand first rest
    let stop := start.advance (first :: rest.take found.more)
    let afterOperand := if found.kind.isComment then l.afterOperand else found.kind.endsOperand
    (⟨found.kind, ⟨start, stop⟩, found.lexeme⟩, ⟨rest.drop found.more, stop, afterOperand, l.ended⟩)

/-- The next token until the end of input has been told, and that last. -/
def next? (l : Lexer) : Option (Token × Lexer) := if l.ended then none else some l.nextToken

/-- What is left to do: every byte, and telling the end. -/
def pending (l : Lexer) : Nat := l.rest.length + (if l.ended then 0 else 1)

theorem length_dropWhile_le {α : Type} (p : α → Bool) (l : List α) :
    (l.dropWhile p).length ≤ l.length :=
  (List.dropWhile_sublist p).length_le

theorem pending_lt {l l' : Lexer} {t : Token} (h : l.next? = some (t, l')) :
    l'.pending < l.pending := by
  unfold next? at h
  split at h
  · cases h
  · rename_i hl
    have hblank := length_dropWhile_le isBlank l.rest
    simp only [Option.some.injEq, nextToken] at h
    split at h
    · simp only [Prod.mk.injEq] at h
      obtain ⟨-, rfl⟩ := h
      simp [pending, hl]
    · rename_i first rest heq
      simp only [Prod.mk.injEq] at h
      obtain ⟨-, rfl⟩ := h
      rw [heq] at hblank
      simp only [List.length_cons] at hblank
      simp only [pending, List.length_drop]
      omega

/-- Every token up to the end of input, and the lexer after it. -/
def run (l : Lexer) : List Token × Lexer :=
  match _h : l.next? with
  | none => ([], l)
  | some (t, l') =>
    let (ts, last) := l'.run
    (t :: ts, last)
  termination_by l.pending
  decreasing_by exact pending_lt (by assumption)

end Lexer

/-- Every token of a source text, comments and the end of input included. -/
def tokenize (bytes : List UInt8) : List Token := (Lexer.ofBytes bytes).run.1

end BlockScope
