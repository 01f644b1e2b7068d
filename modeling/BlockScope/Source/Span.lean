/-!
# Positions and spans

A position counts the bytes before it and gives its line and its column, both from 1 and the column
in bytes. `Position.advance` moves over bytes, so a position reached from the origin has the line and
column of its offset. A span is a start and an end; `Span.merge` covers two spans, and on equal offsets
it keeps the ends of the first.
-/
namespace BlockScope

/-- A place in a source text. -/
structure Position where
  /-- Bytes before this place. -/
  offset : Nat
  /-- Counted from 1. -/
  line : Nat
  /-- Counted from 1, in bytes. -/
  column : Nat
  deriving DecidableEq, Repr

namespace Position

/-- The very beginning of a text. -/
def origin : Position := ⟨0, 1, 1⟩

instance : Inhabited Position := ⟨origin⟩

/-- The place after one more byte; a line feed starts a line. -/
def next (p : Position) (b : UInt8) : Position :=
  if b = 0x0A then ⟨p.offset + 1, p.line + 1, 1⟩ else ⟨p.offset + 1, p.line, p.column + 1⟩

/-- The place after some more bytes. -/
def advance (p : Position) (bytes : List UInt8) : Position := bytes.foldl next p

/-- As `line:column`. -/
def text (p : Position) : String := s!"{p.line}:{p.column}"

@[simp] theorem offset_advance (p : Position) (bytes : List UInt8) :
    (p.advance bytes).offset = p.offset + bytes.length := by
  induction bytes generalizing p with
  | nil => rfl
  | cons b bs ih =>
    have : (p.next b).offset = p.offset + 1 := by unfold next; split <;> rfl
    simp only [advance, List.foldl_cons, List.length_cons] at ih ⊢
    rw [ih, this]; omega

theorem advance_append (p : Position) (xs ys : List UInt8) :
    p.advance (xs ++ ys) = (p.advance xs).advance ys := by
  simp [advance]

end Position

/-- A stretch of source text. -/
structure Span where
  start : Position
  stop : Position
  deriving DecidableEq, Repr

namespace Span

/-- The empty stretch at a place. -/
def point (p : Position) : Span := ⟨p, p⟩

instance : Inhabited Span := ⟨point .origin⟩

/-- The smallest stretch that covers both; where two ends coincide, those of `a`. -/
def merge (a b : Span) : Span where
  start := if a.start.offset ≤ b.start.offset then a.start else b.start
  stop := if b.stop.offset ≤ a.stop.offset then a.stop else b.stop

/-- As `start-stop`. -/
def text (s : Span) : String := s!"{s.start.text}-{s.stop.text}"

@[simp] theorem offset_start_merge (a b : Span) :
    (a.merge b).start.offset = min a.start.offset b.start.offset := by
  simp only [merge]; split <;> omega

@[simp] theorem offset_stop_merge (a b : Span) :
    (a.merge b).stop.offset = max a.stop.offset b.stop.offset := by
  simp only [merge]; split <;> omega

end Span
end BlockScope
