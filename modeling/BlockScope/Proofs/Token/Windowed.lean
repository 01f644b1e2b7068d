import BlockScope.Proofs.Source.Indexing
import BlockScope.Proofs.Token.Decoding
/-!
# Scanning through a window

The routines that scan a token, once more, with nothing to go by but a window: they look at most two bytes or one character ahead, and
take bytes off the front. Each finds what its counterpart finds in the list of all bytes to come, and leaves the window behind what
that takes (`takeBytes_windowAt` and its like). Loops end since each round takes a byte.
-/
namespace BlockScope
open Text

namespace Window
variable {w : Window} {b : UInt8} {c : Char} {n : Nat}

/-! ## Rounds -/

theorem exists_advance (h : w.peekAhead 0 = some b) : ∃ w', w.advance = some (b, w') := by
  unfold peekAhead at h
  unfold advance
  cases hbuffer : w.buffer with
  | nil => simp [hbuffer] at h
  | cons first rest =>
    rw [hbuffer] at h
    cases h
    exact ⟨_, rfl⟩

theorem pending_step_lt (h : w.peekAhead 0 = some b) : w.step.pending.length < w.pending.length := by
  obtain ⟨w', hw⟩ := exists_advance h
  have hstep : w.step = w' := by rw [step, hw]; rfl
  rw [hstep, pending_advance hw]
  exact Nat.lt_succ_self _

theorem pending_after_le (w : Window) (n : Nat) : (w.after n).pending.length ≤ w.pending.length := by
  induction n generalizing w with
  | zero => exact Nat.le_refl _
  | succ n ih =>
    refine Nat.le_trans (ih w.step) ?_
    unfold step
    cases hw : w.advance with
    | none => exact Nat.le_refl _
    | some next =>
      rw [Option.map_some, Option.getD_some, pending_advance hw]
      exact Nat.le_succ _

theorem pending_after_lt (h : w.peekAhead 0 = some b) (n : Nat) : (w.after (n + 1)).pending.length < w.pending.length :=
  Nat.lt_of_le_of_lt (pending_after_le w.step n) (pending_step_lt h)

/-- A character takes at least one byte. -/
theorem pending_peekChar_lt (h : w.peekChar = some (c, n)) : (w.after n).pending.length < w.pending.length := by
  unfold peekChar at h
  cases hbuffer : w.buffer with
  | nil => simp [hbuffer, decode] at h
  | cons first rest =>
    obtain ⟨⟨c', more⟩, -, hn⟩ := Option.map_eq_some_iff.1 h
    cases hn
    exact pending_after_lt (b := first) (by rw [peekAhead, hbuffer]; rfl) more

/-! ## Looking -/

/-- A byte of the class stands so many places ahead. -/
def sees (w : Window) (n : Nat) (p : UInt8 → Bool) : Bool := (w.peekAhead n).any p

/-- What is next may start a word. -/
def seesWord (w : Window) : Bool := w.peekChar.any (startsWord ·.1)

/-! ## Taking -/

/-- The bytes of a class that are next, and the window behind them. -/
def takeBytes (p : UInt8 → Bool) (w : Window) : List UInt8 × Window :=
  match _h : w.peekAhead 0 with
  | none => ([], w)
  | some b =>
    if p b then
      let (bytes, last) := takeBytes p w.step
      (b :: bytes, last)
    else ([], w)
  termination_by w.pending.length
  decreasing_by exact pending_step_lt (by assumption)

/-- The characters of a class that are next. -/
def takeChars (p : Char → Bool) (w : Window) : List Char × Window :=
  match _h : w.peekChar with
  | none => ([], w)
  | some (c, n) =>
    if p c then
      let (chars, last) := takeChars p (w.after n)
      (c :: chars, last)
    else ([], w)
  termination_by w.pending.length
  decreasing_by exact pending_peekChar_lt (by assumption)

/-- A byte of a class if it is next. -/
def takeOne (p : UInt8 → Bool) (w : Window) : List UInt8 × Window :=
  match w.peekAhead 0 with
  | none => ([], w)
  | some b => if p b then ([b], w.step) else ([], w)

/-- The text of a block comment in which `depth` inner comments are open, and whether it is closed. -/
def takeComment (depth : Nat) (w : Window) : List UInt8 × Bool × Window :=
  match _h : w.peekAhead 0 with
  | none => ([], false, w)
  | some a =>
    if a = byte '/' ∧ w.peekAhead 1 = some (byte '*') then
      let (text, closed, last) := takeComment (depth + 1) (w.after 2)
      (a :: byte '*' :: text, closed, last)
    else if a = byte '*' ∧ w.peekAhead 1 = some (byte '/') then
      match depth with
      | 0 => ([], true, w.after 2)
      | depth + 1 =>
        let (text, closed, last) := takeComment depth (w.after 2)
        (a :: byte '/' :: text, closed, last)
    else
      let (text, closed, last) := takeComment depth w.step
      (a :: text, closed, last)
  termination_by w.pending.length
  decreasing_by
    · exact pending_after_lt (by assumption) 1
    · exact pending_after_lt (by assumption) 1
    · exact pending_step_lt (by assumption)

/-- The inside of a string: its bytes, the same with the backslashes, and what is wrong with its end. -/
def takeString (w : Window) : List UInt8 × List UInt8 × Option LexicalFault × Window :=
  match _h : w.peekAhead 0 with
  | none => ([], [], some .unterminatedString, w)
  | some a =>
    if a = byte '"' then ([], [a], none, w.step)
    else if a = byte '\\' then
      match w.step.peekAhead 0 with
      | none => ([], [a], some .unterminatedEscape, w.step)
      | some b =>
        let (value, raw, fault, last) := takeString (w.after 2)
        (unescape b :: value, a :: unescape b :: raw, fault, last)
    else
      let (value, raw, fault, last) := takeString w.step
      (a :: value, a :: raw, fault, last)
  termination_by w.pending.length
  decreasing_by
    · exact pending_after_lt (by assumption) 1
    · exact pending_step_lt (by assumption)

/-- Digits in `base` onto `value`: the bytes taken, and the number or what is wrong. -/
def takeRadix (base value : Nat) (seen : Bool) (w : Window) : List UInt8 × Except LexicalFault Nat × Window :=
  match _h : w.peekAhead 0 with
  | none => ([], if seen then .ok value else .error .missingRadixDigits, w)
  | some b =>
    if b = byte '_' then
      let (bytes, result, last) := takeRadix base value seen w.step
      (b :: bytes, result, last)
    else match digitValue b with
      | none => ([], if seen then .ok value else .error .missingRadixDigits, w)
      | some digit =>
        if base ≤ digit then ([b], .error .invalidRadixDigit, w.step)
        else if integerLimit ≤ value * base + digit then ([b], .error .radixOverflow, w.step)
        else
          let (bytes, result, last) := takeRadix base (value * base + digit) true w.step
          (b :: bytes, result, last)
  termination_by w.pending.length
  decreasing_by all_goals exact pending_step_lt (by assumption)

/-- Operator bytes up to a slash that starts a comment. -/
def takeOperator (w : Window) : List UInt8 × Window :=
  match _h : w.peekAhead 0 with
  | none => ([], w)
  | some b =>
    if isOperatorByte b && !(b = byte '/' && w.sees 1 fun b => b = byte '/' || b = byte '*') then
      let (bytes, last) := takeOperator w.step
      (b :: bytes, last)
    else ([], w)
  termination_by w.pending.length
  decreasing_by exact pending_step_lt (by assumption)

end Window

/-! ## What is seen and taken -/

namespace ByteReader
open Window
variable {r : ByteReader} {k n : Nat} {bytes : List UInt8}

theorem drop_add (h : r.bytes.drop k = bytes) (n : Nat) : r.bytes.drop (k + n) = bytes.drop n := by rw [← List.drop_drop, h]

theorem windowAt_succ_add (r : ByteReader) (k n : Nat) : r.windowAt (k + 1 + n) = r.windowAt (k + (n + 1)) := by
  rw [Nat.add_assoc, Nat.add_comm 1]

theorem peekAhead_of_drop (h : r.bytes.drop k = bytes) (hn : n < capacity) : (r.windowAt k).peekAhead n = bytes[n]? := by
  rw [peekAhead_windowAt r k hn, ← List.getElem?_drop, h]

theorem peek_of_nil (h : r.bytes.drop k = []) : (r.windowAt k).peekAhead 0 = none := peekAhead_of_drop h (by decide)

theorem peek_of_cons {b : UInt8} {rest : List UInt8} (h : r.bytes.drop k = b :: rest) : (r.windowAt k).peekAhead 0 = some b :=
  peekAhead_of_drop h (by decide)

theorem peek_second {a : UInt8} {rest : List UInt8} (h : r.bytes.drop k = a :: rest) :
    (r.windowAt k).peekAhead 1 = rest.head? := by
  rw [peekAhead_of_drop h (by decide), List.getElem?_cons_succ, List.head?_eq_getElem?]

theorem sees_of_drop (h : r.bytes.drop k = bytes) (hn : n < capacity) (p : UInt8 → Bool) :
    (r.windowAt k).sees n p = atByte p (bytes.drop n) := by
  rw [sees, peekAhead_of_drop h hn, atByte, List.head?_drop]

theorem filled_windowAt (r : ByteReader) (k : Nat) : (r.windowAt k).Filled where
  ended h := List.drop_of_length_le (Nat.le_of_lt (of_decide_eq_true h))
  full := by
    simp only [windowAt, List.length_take, List.length_drop, List.drop_eq_nil_iff]
    omega

theorem peekChar_of_drop (h : r.bytes.drop k = bytes) :
    (r.windowAt k).peekChar = (decode bytes).map fun found => (found.1, found.2 + 1) := by
  rw [(r.filled_windowAt k).peekChar, pending_windowAt, h]

theorem seesWord_of_drop (h : r.bytes.drop k = bytes) : (r.windowAt k).seesWord = atWord bytes := by
  rw [seesWord, peekChar_of_drop h, atWord, Option.any_map]

theorem takeBytes_windowAt (p : UInt8 → Bool) (h : r.bytes.drop k = bytes) :
    takeBytes p (r.windowAt k) = (bytes.takeWhile p, r.windowAt (k + (bytes.takeWhile p).length)) := by
  induction bytes generalizing k with
  | nil =>
    rw [takeBytes.eq_def, peek_of_nil h]
    rfl
  | cons b rest ih =>
    rw [takeBytes.eq_def, peek_of_cons h, step_windowAt]
    simp only
    rw [ih (drop_add h 1), List.takeWhile_cons]
    split
    · rw [List.length_cons, windowAt_succ_add]
    · rfl

theorem takeChars_windowAt (p : Char → Bool) (h : r.bytes.drop k = bytes) :
    takeChars p (r.windowAt k) = ((charRun p bytes).1, r.windowAt (k + (charRun p bytes).2)) := by
  generalize hn : bytes.length = n
  induction n using Nat.strongRecOn generalizing k bytes with
  | _ n ih =>
    subst hn
    rw [takeChars.eq_def, peekChar_of_drop h, charRun.eq_def]
    cases bytes with
    | nil => rfl
    | cons b rest =>
      cases hd : decode (b :: rest) with
      | none => rfl
      | some found =>
        obtain ⟨c, more⟩ := found
        have hrest : r.bytes.drop (k + (more + 1)) = rest.drop more := by rw [drop_add h, List.drop_succ_cons]
        have hlt : (rest.drop more).length < (b :: rest).length := by
          rw [List.length_drop, List.length_cons]
          omega
        simp only [Option.map_some, after_windowAt]
        rw [ih _ hlt hrest rfl]
        split
        · exact congrArg (fun m => (c :: (charRun p (rest.drop more)).1, r.windowAt m)) (by omega)
        · rfl

theorem takeOne_windowAt (p : UInt8 → Bool) (h : r.bytes.drop k = bytes) :
    takeOne p (r.windowAt k) = ((bytes.take 1).filter p, r.windowAt (k + ((bytes.take 1).filter p).length)) := by
  rw [takeOne, peekAhead_of_drop h (by decide), step_windowAt]
  cases bytes with
  | nil => rfl
  | cons b rest =>
    rw [List.take_succ_cons, List.take_zero]
    cases hb : p b <;> simp [hb]

theorem takeComment_windowAt (depth : Nat) (h : r.bytes.drop k = bytes) : takeComment depth (r.windowAt k) =
    ((commentBody depth bytes).text, (commentBody depth bytes).closed, r.windowAt (k + (commentBody depth bytes).taken)) := by
  fun_induction commentBody depth bytes generalizing k with
  | case1 depth =>
    rw [takeComment.eq_def, peek_of_nil h]
    rfl
  | case2 depth a =>
    have hend : takeComment depth (r.windowAt (k + 1)) = ([], false, r.windowAt (k + 1)) := by
      rw [takeComment.eq_def, peek_of_nil (drop_add h 1)]
    rw [takeComment.eq_def, peek_of_cons h, peek_second h, step_windowAt]
    simp [hend]
  | case3 depth a b rest hopen ih =>
    rw [takeComment.eq_def, peek_of_cons h, peek_second h, after_windowAt]
    simp only [List.head?_cons, Option.some.injEq, if_pos hopen, ih (drop_add h 2)]
    rw [hopen.2, Nat.add_assoc]
    rfl
  | case4 a b rest hopen hclose =>
    rw [takeComment.eq_def, peek_of_cons h, peek_second h, after_windowAt]
    simp only [List.head?_cons, Option.some.injEq, if_neg hopen, if_pos hclose]
  | case5 a b rest hopen hclose depth ih =>
    rw [takeComment.eq_def, peek_of_cons h, peek_second h, after_windowAt]
    simp only [List.head?_cons, Option.some.injEq, if_neg hopen, if_pos hclose, ih (drop_add h 2)]
    rw [hclose.2, Nat.add_assoc]
    rfl
  | case6 depth a b rest hopen hclose ih =>
    rw [takeComment.eq_def, peek_of_cons h, peek_second h, step_windowAt]
    simp only [List.head?_cons, Option.some.injEq, if_neg hopen, if_neg hclose, ih (drop_add h 1)]
    rw [Nat.add_assoc]
    rfl

theorem takeString_windowAt (h : r.bytes.drop k = bytes) : takeString (r.windowAt k) =
    ((stringBody bytes).value, (stringBody bytes).raw, (stringBody bytes).fault, r.windowAt (k + (stringBody bytes).taken)) := by
  fun_induction stringBody bytes generalizing k with
  | case1 =>
    rw [takeString.eq_def, peek_of_nil h]
    rfl
  | case2 rest =>
    rw [takeString.eq_def, peek_of_cons h, step_windowAt]
    simp only [if_true]
  | case3 hquote =>
    rw [takeString.eq_def, peek_of_cons h, step_windowAt, peek_of_nil (drop_add h 1)]
    simp only [if_neg hquote, if_true]
  | case4 b rest body hquote =>
    rename_i ih
    rw [takeString.eq_def, peek_of_cons h, step_windowAt, peek_of_cons (drop_add h 1), after_windowAt]
    simp only [if_neg hquote, if_true, ih (drop_add h 2)]
    rw [Nat.add_assoc, Nat.add_comm 2]
  | case5 a rest hquote hescape body =>
    rename_i ih
    rw [takeString.eq_def, peek_of_cons h, step_windowAt]
    simp only [if_neg hquote, if_neg hescape, ih (drop_add h 1), windowAt_succ_add]
    rfl

theorem takeRadix_windowAt (base value : Nat) (seen : Bool) (h : r.bytes.drop k = bytes) : takeRadix base value seen (r.windowAt k) =
    (bytes.take (radixDigits base value seen bytes).1, (radixDigits base value seen bytes).2,
      r.windowAt (k + (radixDigits base value seen bytes).1)) := by
  induction bytes generalizing k value seen with
  | nil =>
    rw [takeRadix.eq_def, peek_of_nil h]
    rfl
  | cons b rest ih =>
    rw [takeRadix.eq_def, peek_of_cons h, step_windowAt, radixDigits]
    simp only [ih _ _ (drop_add h 1), windowAt_succ_add]
    by_cases hunderscore : b = byte '_'
    · simp only [if_pos hunderscore, List.take_succ_cons]
    simp only [if_neg hunderscore]
    cases hdigit : digitValue b with
    | none => rfl
    | some digit =>
      simp only
      by_cases hbase : base ≤ digit
      · simp only [if_pos hbase, List.take_succ_cons, List.take_zero]
      by_cases hlimit : integerLimit ≤ value * base + digit
      · simp only [if_neg hbase, if_pos hlimit, List.take_succ_cons, List.take_zero]
      · simp only [if_neg hbase, if_neg hlimit, List.take_succ_cons]

theorem takeOperator_windowAt (h : r.bytes.drop k = bytes) :
    takeOperator (r.windowAt k) = (operatorRun bytes, r.windowAt (k + (operatorRun bytes).length)) := by
  induction bytes generalizing k with
  | nil =>
    rw [takeOperator.eq_def, peek_of_nil h]
    rfl
  | cons b rest ih =>
    have hopens : (r.windowAt k).sees 1 (fun b => b = byte '/' || b = byte '*') = opensComment rest := sees_of_drop h (by decide) _
    rw [takeOperator.eq_def, peek_of_cons h, step_windowAt, operatorRun]
    simp only [hopens, ih (drop_add h 1), windowAt_succ_add]
    split <;> rfl

end ByteReader
end BlockScope
