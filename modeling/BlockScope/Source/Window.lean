import BlockScope.Source.Span
/-!
# Reading through a window

A reader delivers bytes one at a time and then ends or fails. A window looks a few bytes ahead of where
reading stands: it asks for a byte only while it is not full, and never again after the reader has once
ended or failed. `pending` is what is still to come, in the window or behind it; filling the window
keeps it, and advancing takes its first byte, so `drain` ends.
-/
namespace BlockScope

/-- What one attempt to read a byte gives. -/
inductive ReadAnswer where
  | byte (b : UInt8)
  | ended
  | failed
  deriving DecidableEq, Repr

/-- Where bytes come from. -/
structure ByteReader where
  /-- Still to be delivered. -/
  bytes : List UInt8
  /-- Fails instead of ending. -/
  failing : Bool
  /-- Reads tried so far. -/
  attempts : Nat
  deriving DecidableEq, Repr

namespace ByteReader

def ofBytes (bytes : List UInt8) : ByteReader := ⟨bytes, false, 0⟩

/-- Fails as soon as `limit` bytes have been delivered, or ends before. -/
def limited (bytes : List UInt8) (limit : Nat) : ByteReader := ⟨bytes.take limit, limit ≤ bytes.length, 0⟩

/-- Tries to read a byte. -/
def read (r : ByteReader) : ReadAnswer × ByteReader :=
  match r.bytes with
  | b :: rest => (.byte b, { r with bytes := rest, attempts := r.attempts + 1 })
  | [] => (if r.failing then .failed else .ended, { r with attempts := r.attempts + 1 })

end ByteReader

/-- A few bytes of lookahead. -/
structure Window where
  reader : ByteReader
  buffer : List UInt8
  /-- The reader has ended or failed. -/
  ended : Bool
  /-- Where the first byte of the buffer stands. -/
  position : Position
  deriving DecidableEq, Repr

namespace Window

/-- How many bytes a window holds: two characters of the longest kind. -/
def capacity : Nat := 8

/-- Reads at most so many bytes into the buffer. -/
def fillBy : Nat → Window → Window
  | 0, w => w
  | n + 1, w =>
    if w.ended then w
    else match w.reader.read with
      | (.byte b, r) => fillBy n { w with reader := r, buffer := w.buffer ++ [b] }
      | (.ended, r) | (.failed, r) => { w with reader := r, ended := true }

/-- Reads until the window is full or the reader has no more. -/
def fill (w : Window) : Window := fillBy (capacity - w.buffer.length) w

/-- A window at the front of a reader. -/
def ofReader (r : ByteReader) : Window := fill ⟨r, [], false, .origin⟩

/-- The byte so many places ahead. -/
def peekAhead (w : Window) (n : Nat) : Option UInt8 := w.buffer[n]?

/-- Takes the first byte. -/
def advance (w : Window) : Option (UInt8 × Window) :=
  match w.buffer with
  | [] => none
  | b :: rest => some (b, { fill { w with buffer := rest } with position := w.position.next b })

/-- What is still to come. -/
def pending (w : Window) : List UInt8 := w.buffer ++ w.reader.bytes

theorem pending_fillBy (n : Nat) (w : Window) : (fillBy n w).pending = w.pending := by
  induction n generalizing w with
  | zero => rfl
  | succ n ih =>
    simp only [fillBy]
    split
    · rfl
    · obtain ⟨⟨bytes, failing, attempts⟩, buffer, ended, position⟩ := w
      cases bytes with
      | cons b rest => simp only [ByteReader.read]; rw [ih]; simp [pending]
      | nil => cases failing <;> simp [ByteReader.read, pending]

theorem pending_fill (w : Window) : w.fill.pending = w.pending := pending_fillBy _ w

theorem pending_advance {w w' : Window} {b : UInt8} (h : w.advance = some (b, w')) :
    w.pending = b :: w'.pending := by
  unfold advance at h
  split at h
  · cases h
  · rename_i first rest heq
    simp only [Option.some.injEq, Prod.mk.injEq] at h
    obtain ⟨rfl, rfl⟩ := h
    have hfill := pending_fill { w with buffer := rest }
    simp only [pending] at hfill ⊢
    rw [heq, hfill, List.cons_append]

/-- Every byte the window comes by. -/
def drain (w : Window) : List UInt8 :=
  match _h : w.advance with
  | none => []
  | some (b, w') => b :: w'.drain
  termination_by w.pending.length
  decreasing_by
    have := pending_advance (by assumption)
    simp [this]

end Window

/-- Every byte that a reader delivers before it ends or fails. -/
def ByteReader.delivered (r : ByteReader) : List UInt8 := (Window.ofReader r).drain

end BlockScope
