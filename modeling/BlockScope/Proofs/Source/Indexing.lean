import BlockScope.Source.Window
/-!
# A window is a place in the bytes

The window of a reader, moved over `k` bytes, is a function of the bytes and of `k` (`ByteReader.windowAt`): it holds the next eight
bytes or all that are left, it has tried to read as many bytes as that takes, and it knows that the reader has no more if it had to
ask for a byte that is not there. Filling the window is computed once (`Window.fillBy_eq`); that it starts at the front of the reader
and moves by one place with each byte follows, and so does all that can be seen through it.
-/
namespace BlockScope

namespace Window
variable {w : Window}

/-! ## Filling -/

/-- Reading some bytes moves them from the reader to the buffer. The reader is asked once more than it has bytes, if that often. -/
theorem fillBy_eq (n : Nat) (h : w.ended = false) : fillBy n w =
    { reader := ⟨w.reader.bytes.drop n, w.reader.failing, w.reader.attempts + min n (w.reader.bytes.length + 1)⟩
      buffer := w.buffer ++ w.reader.bytes.take n
      ended := w.reader.bytes.length < n
      position := w.position } := by
  induction n generalizing w with
  | zero =>
    obtain ⟨⟨bytes, failing, attempts⟩, buffer, ended, position⟩ := w
    cases h
    simp [fillBy]
  | succ n ih =>
    obtain ⟨⟨bytes, failing, attempts⟩, buffer, ended, position⟩ := w
    cases h
    cases bytes with
    | nil => cases failing <;> simp [fillBy, ByteReader.read]
    | cons b rest =>
      simp only [fillBy, Bool.false_eq_true, if_false, ByteReader.read]
      rw [ih rfl]
      simp [Nat.add_right_comm _ 1, Nat.add_assoc, Nat.add_min_add_right]

/-- Nothing is read once the reader has ended or failed. -/
theorem fillBy_of_ended (n : Nat) (h : w.ended = true) : fillBy n w = w := by
  cases n with
  | zero => rfl
  | succ n => rw [fillBy, if_pos h]

/-! ## Steps -/

/-- The window behind the next byte; the same one if there is none. -/
def step (w : Window) : Window := (w.advance.map (·.2)).getD w

/-- The window after so many calls for the next byte. -/
def after (w : Window) : Nat → Window
  | 0 => w
  | n + 1 => w.step.after n

end Window

namespace ByteReader
open Window

/-- The window that has moved over so many bytes of a reader. -/
def windowAt (r : ByteReader) (k : Nat) : Window where
  reader := ⟨r.bytes.drop (k + capacity), r.failing, r.attempts + min (k + capacity) (r.bytes.length + 1)⟩
  buffer := (r.bytes.drop k).take capacity
  ended := r.bytes.length < k + capacity
  position := Position.origin.advance (r.bytes.take k)

variable (r : ByteReader) (k : Nat)

theorem ofReader_eq : ofReader r = r.windowAt 0 := by
  rw [ofReader, fill, fillBy_eq _ rfl]
  simp [windowAt, Position.advance]

/-- Once the reader has been asked for a byte that is not there, it is left alone. -/
theorem reader_windowAt {k : Nat} (h : r.bytes.length < k + capacity) :
    (r.windowAt k).reader = ⟨[], r.failing, r.attempts + (r.bytes.length + 1)⟩ := by
  simp only [windowAt]
  rw [List.drop_of_length_le (Nat.le_of_lt h), Nat.min_eq_right h]

/-- Behind the last byte the window is empty. -/
theorem windowAt_of_le {k : Nat} (h : r.bytes.length ≤ k) :
    r.windowAt k = ⟨⟨[], r.failing, r.attempts + (r.bytes.length + 1)⟩, [], true, Position.origin.advance r.bytes⟩ := by
  have hlt : r.bytes.length < k + capacity := by
    unfold capacity
    omega
  rw [← r.reader_windowAt hlt]
  simp only [windowAt]
  rw [List.drop_of_length_le h, List.take_nil, List.take_of_length_le h, decide_eq_true hlt]

theorem windowAt_min : r.windowAt (min k r.bytes.length) = r.windowAt k := by
  rcases Nat.le_total k r.bytes.length with h | h
  · rw [Nat.min_eq_left h]
  · rw [Nat.min_eq_right h, r.windowAt_of_le h, r.windowAt_of_le (Nat.le_refl _)]

/-- Filling the window up again after its first byte has been taken. -/
theorem fill_behind {b : UInt8} {rest : List UInt8} (h : r.bytes.drop k = b :: rest) :
    { fill { r.windowAt k with buffer := rest.take (capacity - 1) } with position := (r.windowAt k).position.next b } =
      r.windowAt (k + 1) := by
  have hlength : r.bytes.length - k = rest.length + 1 := by rw [← List.length_drop, h, List.length_cons]
  have hrest : r.bytes.drop (k + 1) = rest := by rw [← List.drop_drop, h, List.drop_one, List.tail_cons]
  have hposition : (r.windowAt k).position.next b = Position.origin.advance (r.bytes.take (k + 1)) := by
    have htake : r.bytes.take (k + 1) = r.bytes.take k ++ [b] := by rw [List.take_add, h, List.take_succ_cons, List.take_zero]
    rw [htake, Position.advance_append]
    rfl
  rw [hposition]
  unfold capacity
  by_cases hended : r.bytes.length < k + 8
  · -- The reader has no more, and the buffer gets shorter.
    have hbehind := r.bytes.drop_of_length_le (Nat.le_of_lt hended)
    rw [fill, fillBy_of_ended _ (decide_eq_true hended)]
    simp only [windowAt, capacity, hrest, Window.mk.injEq, ByteReader.mk.injEq, and_true, true_and]
    refine ⟨⟨?_, ?_⟩, ?_, ?_⟩
    · rw [hbehind, List.drop_of_length_le (by omega)]
    · omega
    · rw [List.take_of_length_le (by omega), List.take_of_length_le (by omega)]
    · exact decide_eq_decide.2 (by omega)
  · -- There is room for one byte, and it is asked for.
    have hroom : capacity - (rest.take (8 - 1)).length = 1 := by
      rw [List.length_take]
      unfold capacity
      omega
    rw [fill, hroom, fillBy_eq _ (decide_eq_false hended)]
    simp only [windowAt, capacity, hrest, List.length_drop, List.drop_drop, Window.mk.injEq, ByteReader.mk.injEq, and_true, true_and]
    refine ⟨?_, ?_, ?_⟩
    · omega
    · have hnext : r.bytes.drop (k + 8) = rest.drop 7 := by rw [← hrest, List.drop_drop]
      rw [hnext, ← List.take_add]
    · exact decide_eq_decide.2 (by omega)

/-- Taking a byte moves the window by one place; there is none to take where the bytes end. -/
theorem advance_windowAt : (r.windowAt k).advance = r.bytes[k]?.map fun b => (b, r.windowAt (k + 1)) := by
  cases h : r.bytes.drop k with
  | nil =>
    have hnone : r.bytes[k]? = none := List.getElem?_eq_none (List.drop_eq_nil_iff.1 h)
    have hbuffer : (r.windowAt k).buffer = [] := by rw [windowAt, h, List.take_nil]
    rw [hnone, advance, hbuffer]
    rfl
  | cons b rest =>
    have hsome : r.bytes[k]? = some b := by rw [← List.head?_drop, h, List.head?_cons]
    have hbuffer : (r.windowAt k).buffer = b :: rest.take (capacity - 1) := by rw [windowAt, h]; rfl
    rw [hsome, advance, hbuffer, Option.map_some, ← fill_behind r k h]

theorem step_windowAt : (r.windowAt k).step = r.windowAt (k + 1) := by
  rw [step, advance_windowAt]
  cases h : r.bytes[k]? with
  | none =>
    have hle := List.getElem?_eq_none_iff.1 h
    rw [r.windowAt_of_le (Nat.le_succ_of_le hle), r.windowAt_of_le hle]
    rfl
  | some b => rfl

/-- The window behind so many bytes is the one that has moved over them. -/
theorem after_windowAt (n : Nat) : (r.windowAt k).after n = r.windowAt (k + n) := by
  induction n generalizing k with
  | zero => rfl
  | succ n ih => rw [after, step_windowAt, ih, Nat.add_right_comm, Nat.add_assoc]

/-! ## What is seen -/

theorem peekAhead_windowAt {n : Nat} (h : n < capacity) : (r.windowAt k).peekAhead n = r.bytes[k + n]? := by
  rw [peekAhead, windowAt, List.getElem?_take_of_lt h, List.getElem?_drop]

theorem pending_windowAt : (r.windowAt k).pending = r.bytes.drop k := by
  rw [pending, windowAt, ← List.drop_drop, List.take_append_drop]

theorem drain_windowAt : (r.windowAt k).drain = r.bytes.drop k := by
  generalize hn : r.bytes.length - k = n
  induction n generalizing k with
  | zero =>
    rw [drain.eq_def, advance_windowAt, List.getElem?_eq_none (by omega), List.drop_of_length_le (by omega)]
    rfl
  | succ n ih =>
    have hlt : k < r.bytes.length := by omega
    rw [drain.eq_def, advance_windowAt, List.getElem?_eq_getElem hlt, Option.map_some, List.drop_eq_getElem_cons hlt]
    simp only
    rw [ih _ (by omega)]

/-- All that a reader holds comes out of it. -/
theorem delivered_eq : r.delivered = r.bytes := by
  rw [delivered, ofReader_eq, drain_windowAt, List.drop_zero]

end ByteReader

/-- Shows the stretch of some bytes from an offset on. -/
structure Window.Shows (w : Window) (bytes : List UInt8) (offset : Nat) : Prop where
  stands : w.position.offset = offset
  filled : w.buffer.length = min 8 (bytes.length - offset)
  held : w.buffer = (bytes.drop offset).take w.buffer.length
  peeks : ∀ n < 8, w.peekAhead n = bytes[offset + n]?
  advances : w.advance.map (·.1) = bytes[offset]?

theorem ByteReader.shows_windowAt (r : ByteReader) (k : Nat) : (r.windowAt k).Shows r.bytes (min k r.bytes.length) := by
  rw [← windowAt_min]
  generalize hoffset : min k r.bytes.length = offset
  have hle : offset ≤ r.bytes.length := hoffset ▸ Nat.min_le_right _ _
  have hfilled : (r.windowAt offset).buffer.length = min 8 (r.bytes.length - offset) := by
    rw [windowAt, List.length_take, List.length_drop]
    rfl
  refine ⟨?_, hfilled, ?_, fun n hn => r.peekAhead_windowAt offset hn, ?_⟩
  · rw [windowAt, Position.offset_advance, List.length_take, Nat.min_eq_left hle]
    exact Nat.zero_add _
  · rw [hfilled, ← List.length_drop]
    exact List.take_eq_take_min
  · rw [advance_windowAt, Option.map_map]
    exact Option.map_id'

end BlockScope
