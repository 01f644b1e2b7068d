import BlockScope.Text.Utf8
/-!
# Plain text

Text as it is written where no terminal shows it: without the sequences that direct a terminal and
without control characters other than blanks. A sequence starts at the escape character and runs
through a `Control` state until it is back in `text`.

A blank inside a sequence is shown, and so is the text after it, up to the next control character; the
sequence goes on from there.
-/
namespace BlockScope.Text

/-- What the next byte belongs to. -/
inductive Control where
  | text
  /-- Directly after an escape character. -/
  | escape
  /-- An escape sequence of more than one byte. -/
  | escapeMore
  /-- A control sequence, `ESC [` and on. -/
  | sequence
  /-- An operating system command, `ESC ]` and on, ended by a bell. -/
  | command
  /-- A device control string, `ESC P` and on, before its first parameter. -/
  | device
  | deviceParameter
  | deviceMore
  /-- The inside of a string whose contents do not matter. -/
  | string
  deriving DecidableEq, Repr

def isWithin (low high b : UInt8) : Bool := low ≤ b && b ≤ high

/-- A control character that is shown all the same. -/
def isBlankControl (b : UInt8) : Bool := b = 0x09 || b = 0x0A || b = 0x0C || b = 0x0D

namespace Control

/-- What a byte right after the escape character starts. -/
def introduced (b : UInt8) : Control :=
  if isWithin 0x20 0x2F b then .escapeMore
  else if b = 0x5B then .sequence
  else if b = 0x5D then .command
  else if b = 0x50 then .device
  else if b = 0x58 ∨ b = 0x5E ∨ b = 0x5F then .string
  else if isWithin 0x30 0x7E b then .text
  else .escape

/-- The state after a byte. An escape character starts anew in every state, and cancel and substitute
end whatever there was. -/
def next (s : Control) (b : UInt8) : Control :=
  if b = 0x1B then .escape
  else if b = 0x18 ∨ b = 0x1A then .text
  else match s with
  | .text => .text
  | .escape => introduced b
  | .escapeMore => if isWithin 0x30 0x7E b then .text else .escapeMore
  | .sequence => if isWithin 0x40 0x7E b then .text else .sequence
  | .command => if b = 0x07 then .text else .command
  | .device =>
    if isWithin 0x40 0x7E b then .string
    else if isWithin 0x30 0x3F b then .deviceParameter
    else if isWithin 0x20 0x2F b then .deviceMore
    else .device
  | .deviceParameter =>
    if isWithin 0x3C 0x7E b then .string
    else if isWithin 0x20 0x2F b then .deviceMore
    else .deviceParameter
  | .deviceMore => if isWithin 0x30 0x7E b then .string else .deviceMore
  | .string => if b = 0x9C then .text else .string

/-- The byte is shown in this state. -/
def shows (s : Control) (b : UInt8) : Bool :=
  match s with
  | .text => isWithin 0x20 0x7E b || isBlankControl b || isWithin 0xC2 0xF4 b
  | .escape | .escapeMore | .sequence => isBlankControl b
  | _ => false

end Control

/-- The bytes that are shown. Once one is, those after it are read as text, and a character of more
than one byte ends whatever sequence was left open. -/
def plainBytes : (showing : Bool) → Control → List UInt8 → List UInt8
  | _, _, [] => []
  | showing, s, b :: rest =>
    if showing && (Control.text.shows b || 0x80 ≤ b) || s.shows b then
      b :: plainBytes true (if 0x80 ≤ b then .text else s) rest
    else plainBytes false (s.next b) rest

/-- The text that is shown. -/
def plain (text : String) : String := String.ofList (lossy (plainBytes false .text (utf8 text)))

end BlockScope.Text
