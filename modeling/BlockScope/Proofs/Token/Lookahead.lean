import BlockScope.Proofs.Text.Encoding
import BlockScope.Token.Lexer
/-!
# How far a scan looks

Which routine scans a token is told by its first byte and a look at what comes next (`routeOf`). Words, numbers, colons and stray
characters end before anything that cannot go on with them. Where what follows begins with a space or a slash, or is nothing
at all (`Ends`), it might as well not be there: scanning finds the same token in what stands before it.
-/
namespace BlockScope
open Text

/-! ## Routines -/

/-- The routine that scans a token. -/
inductive Route where
  | lineComment
  | blockComment
  | string
  | symbol
  | character
  | sole (mark : Mark)
  | bar
  | number
  | colon
  | operator
  | word
  | unexpected
  deriving DecidableEq

def routeOf (afterOperand : Bool) (first : UInt8) (rest : List UInt8) : Route :=
  if first = byte '/' ∧ atByte (· = byte '/') rest then .lineComment
  else if first = byte '/' ∧ atByte (· = byte '*') rest then .blockComment
  else if first = byte '"' then .string
  else if first = byte '#' then .symbol
  else if first = byte '$' then .character
  else match soleMark first with
  | some mark => .sole mark
  | none =>
    if first = byte '|' ∧ !atByte isOperatorByte rest then .bar
    else if isDigit first ∨ (first = byte '-' ∧ !afterOperand ∧ atByte isDigit rest) then .number
    else if first = byte ':' then .colon
    else if isOperatorByte first then .operator
    else if atWord (first :: rest) then .word
    else .unexpected

def Route.scan (first : UInt8) (rest : List UInt8) : Route → Scan
  | .lineComment => scanLineComment rest
  | .blockComment => scanBlockComment rest
  | .string => scanString rest
  | .symbol => scanSymbol rest
  | .character => scanCharacter rest
  | .sole mark => ⟨.mark mark, mark.spelling, 0⟩
  | .bar => ⟨.mark .bar, Mark.bar.spelling, 0⟩
  | .number => scanNumber (first :: rest)
  | .colon => scanColon rest
  | .operator => scanOperator first rest
  | .word => scanWord (first :: rest)
  | .unexpected => scanUnexpected (first :: rest)

theorem scan_eq_route (afterOperand : Bool) (first : UInt8) (rest : List UInt8) :
    BlockScope.scan afterOperand first rest = (routeOf afterOperand first rest).scan first rest := by
  unfold BlockScope.scan routeOf
  cases soleMark first with
  | some mark =>
    simp only [apply_ite (Route.scan first rest)]
    rfl
  | none =>
    simp only [apply_ite (Route.scan first rest)]
    rfl

/-! ## Marks of one byte -/

theorem eq_byte_of_latin1 {b : UInt8} {c : Char} (h : latin1 [b] = String.ofList [c]) : b = byte c := by
  have hchar : Char.ofNat b.toNat = c := (List.cons.inj (String.ofList_injective h)).1
  rw [← hchar, byte, ofNat_toNat_byte, Nat.toUInt8_eq, UInt8.ofNat_toNat]

/-- The bytes that are a mark on their own. -/
def soleBytes : List UInt8 := ['(', ')', '[', ']', '.', ';', '^'].map byte

theorem soleMark_eq_none {b : UInt8} (h : b ∉ soleBytes) : soleMark b = none := by
  have hne : ∀ c : Char, byte c ∈ soleBytes → ¬ (latin1 [b] == String.ofList [c]) := by
    intro c hc heq
    rw [eq_byte_of_latin1 (eq_of_beq heq)] at h
    exact h hc
  refine List.find?_eq_none.2 ?_
  simp only [List.forall_mem_cons]
  exact ⟨hne '(' (by decide), hne ')' (by decide), hne '[' (by decide), hne ']' (by decide), hne '.' (by decide),
    hne ';' (by decide), hne '^' (by decide), nofun⟩

/-! ## Strings -/

theorem stringBody_cons (a : UInt8) (rest : List UInt8) : stringBody (a :: rest) =
    if a = byte '"' then ⟨[], [a], 1, none⟩
    else if a = byte '\\' then
      match rest with
      | [] => ⟨[], [a], 1, some .unterminatedEscape⟩
      | b :: rest => ⟨unescape b :: (stringBody rest).value, a :: unescape b :: (stringBody rest).raw, (stringBody rest).taken + 2,
          (stringBody rest).fault⟩
    else ⟨a :: (stringBody rest).value, a :: (stringBody rest).raw, (stringBody rest).taken + 1, (stringBody rest).fault⟩ :=
  stringBody.eq_def (a :: rest)

/-! ## What ends a token -/

/-- Begins, if at all, with a space or a slash. -/
def Ends (z : List UInt8) : Prop := ∀ b ∈ z.head?, b = 0x20 ∨ b = byte '/'

variable {z u : List UInt8} {p : Char → Bool} {q : UInt8 → Bool}

theorem ends_cons {b : UInt8} (h : b = 0x20 ∨ b = byte '/') (rest : List UInt8) : Ends (b :: rest) := by
  intro b' hb'
  cases hb'
  exact h

/-- The first byte is in no class that holds neither of the two. -/
theorem Ends.head (hz : Ends z) (hspace : q 0x20 = false) (hslash : q (byte '/') = false) : ∀ b ∈ z.head?, q b = false := by
  intro b hb
  rcases hz b hb with rfl | rfl
  · exact hspace
  · exact hslash

/-! ## Single bytes and runs of them -/

theorem atByte_ends (hz : Ends z) (hspace : q 0x20 = false) (hslash : q (byte '/') = false) : atByte q z = false := by
  cases z with
  | nil => rfl
  | cons b rest => exact hz.head hspace hslash b rfl

theorem atByte_append (hz : Ends z) (hspace : q 0x20 = false) (hslash : q (byte '/') = false) (u : List UInt8) :
    atByte q (u ++ z) = atByte q u := by
  cases u with
  | nil => exact atByte_ends hz hspace hslash
  | cons b u => rfl

theorem takeWhile_append_of_head {z : List UInt8} (hz : ∀ b ∈ z.head?, q b = false) (u : List UInt8) :
    (u ++ z).takeWhile q = u.takeWhile q := by
  induction u with
  | nil =>
    cases z with
    | nil => rfl
    | cons b rest => exact List.takeWhile_cons_of_neg (by simp [hz b rfl])
  | cons b u ih => rw [List.cons_append, List.takeWhile_cons, List.takeWhile_cons, ih]

theorem digitRun_append (hz : Ends z) (u : List UInt8) : digitRun (u ++ z) = digitRun u :=
  takeWhile_append_of_head (hz.head (by decide) (by decide)) u

theorem length_digitRun (u : List UInt8) : (digitRun u).length ≤ u.length := (List.takeWhile_sublist _).length_le

/-! ## Characters and words -/

theorem continued_append (hz : Ends z) (n bits : Nat) (u : List UInt8) : continued n bits (u ++ z) = continued n bits u := by
  induction n generalizing bits u with
  | zero => rfl
  | succ n ih =>
    cases u with
    | nil =>
      cases z with
      | nil => rfl
      | cons b rest => exact if_neg (by simp [hz.head (q := isContinuation) (by decide) (by decide) b rfl])
    | cons b u =>
      rw [List.cons_append, continued, continued]
      split
      · exact ih _ u
      · rfl

theorem decode_append (hz : Ends z) (b : UInt8) (u : List UInt8) : decode (b :: u ++ z) = decode (b :: u) := by
  rw [List.cons_append, decode, decode]
  simp only [decodeLong, continued_append hz]

theorem length_of_continued {n bits code : Nat} (h : continued n bits u = some code) : n ≤ u.length := by
  induction n generalizing bits u with
  | zero => exact Nat.zero_le _
  | succ n ih =>
    cases u with
    | nil => cases h
    | cons b u =>
      rw [continued] at h
      split at h
      · have := ih h
        rw [List.length_cons]
        omega
      · cases h

theorem decodeLong_le (n bits : Nat) (u : List UInt8) : (decodeLong n bits u).2 ≤ u.length := by
  unfold decodeLong
  split
  · next code h =>
    have := length_of_continued h
    split
    · exact this
    · exact Nat.zero_le _
  · exact Nat.zero_le _

/-- A character takes no more bytes than there are. -/
theorem length_of_decode {b : UInt8} {c : Char} {more : Nat} (h : decode (b :: u) = some (c, more)) : more ≤ u.length := by
  have hle : ∀ {r : Char × Nat}, some r = some (c, more) → r.2 ≤ u.length → more ≤ u.length := by
    intro r hr hle
    cases hr
    exact hle
  refine hle h ?_
  repeat' split
  all_goals first | exact Nat.zero_le _ | exact decodeLong_le _ _ u

theorem decode_ends {b : UInt8} (hb : b = 0x20 ∨ b = byte '/') (rest : List UInt8) :
    decode (b :: rest) = some (if b = 0x20 then ' ' else '/', 0) := by
  rcases hb with rfl | rfl <;> rfl

theorem atWord_append (hz : Ends z) (u : List UInt8) : atWord (u ++ z) = atWord u := by
  cases u with
  | nil =>
    cases z with
    | nil => rfl
    | cons b rest =>
      rw [List.nil_append, atWord, decode_ends (hz b rfl)]
      split <;> decide +kernel
  | cons b u => rw [atWord, decode_append hz, atWord]

theorem charRun_ends (hz : Ends z) (hspace : p ' ' = false) (hslash : p '/' = false) : charRun p z = ([], 0) := by
  cases z with
  | nil => rw [charRun.eq_def]
  | cons b rest =>
    rw [charRun.eq_def, decode_ends (hz b rfl)]
    simp only
    split <;> simp_all

/-- A run of characters ends with what stands before. -/
theorem charRun_append (hz : Ends z) (hspace : p ' ' = false) (hslash : p '/' = false) (u : List UInt8) :
    charRun p (u ++ z) = charRun p u := by
  generalize hn : u.length = n
  induction n using Nat.strongRecOn generalizing u with
  | _ n ih =>
    subst hn
    cases u with
    | nil =>
      rw [List.nil_append, charRun_ends hz hspace hslash, charRun.eq_def]
    | cons b u =>
      rw [charRun.eq_def, charRun.eq_def p (b :: u), decode_append hz]
      cases hd : decode (b :: u) with
      | none => rfl
      | some r =>
        obtain ⟨c, more⟩ := r
        have hle := length_of_decode hd
        simp only [List.cons_append]
        rw [List.drop_append_of_le_length hle, ih _ (by simp only [List.length_drop, List.length_cons]; omega) _ rfl]

theorem length_charRun (p : Char → Bool) (u : List UInt8) : (charRun p u).2 ≤ u.length := by
  generalize hn : u.length = n
  induction n using Nat.strongRecOn generalizing u with
  | _ n ih =>
    subst hn
    rw [charRun.eq_def]
    split
    · next b rest c more hd =>
      have hle := length_of_decode hd
      split
      · have := ih (rest.drop more).length (by simp only [List.length_drop, List.length_cons]; omega) _ rfl
        simp only [List.length_drop, List.length_cons] at this ⊢
        omega
      · exact Nat.zero_le _
    · exact Nat.zero_le _

theorem startsWord_wordChar {c : Char} (h : startsWord c) : isWordChar c := by
  rcases Bool.or_eq_true_iff.1 h with h | h
  · rw [isWordChar, h]
    rfl
  · rw [isWordChar, h, Bool.or_true]

/-- A run goes on over a character of the class, whatever form it has. -/
theorem charRun_form {c : Char} {form : List UInt8} (h : Form c form) (hc : p c) (rest : List UInt8) :
    charRun p (form ++ rest) = (c :: (charRun p rest).1, form.length + (charRun p rest).2) := by
  have hd := decode_form h rest
  cases form with
  | nil => cases h
  | cons b form =>
    rw [List.cons_append] at hd ⊢
    rw [charRun.eq_def, hd]
    simp only
    rw [if_pos hc, List.length_cons, Nat.add_sub_cancel, List.drop_left]
    simp only [Prod.mk.injEq, true_and]
    omega

/-- A run ends before a character of another class. -/
theorem charRun_of_decode {c : Char} {more : Nat} (hd : decode u = some (c, more)) (hc : p c = false) : charRun p u = ([], 0) := by
  cases u with
  | nil => cases hd
  | cons b u =>
    rw [charRun.eq_def, hd]
    exact if_neg (by rw [hc]; exact Bool.false_ne_true)

/-- Where a word starts, a run of word characters takes something. -/
theorem charRun_pos (h : atWord u) : 0 < (charRun isWordChar u).2 := by
  unfold atWord at h
  cases u with
  | nil => cases h
  | cons b u =>
    rw [charRun.eq_def]
    cases hd : decode (b :: u) with
    | none =>
      rw [hd] at h
      cases h
    | some r =>
      rw [hd] at h
      simp only
      rw [if_pos (startsWord_wordChar h)]
      exact Nat.succ_pos _

theorem wordChar_ends : isWordChar ' ' = false ∧ isWordChar '/' = false := by decide +kernel

theorem scanWord_append (hz : Ends z) (u : List UInt8) : scanWord (u ++ z) = scanWord u := by
  have hle := length_charRun isWordChar u
  unfold scanWord
  rw [charRun_append hz wordChar_ends.1 wordChar_ends.2]
  simp only
  rw [List.drop_append_of_le_length hle]
  -- A colon at the very end is followed by no equals sign.
  have hcolon : (atByte (· = byte ':') (u.drop (charRun isWordChar u).2 ++ z) &&
      !atByte (· = byte '=') (u.drop (charRun isWordChar u).2 ++ z).tail) =
      (atByte (· = byte ':') (u.drop (charRun isWordChar u).2) &&
        !atByte (· = byte '=') (u.drop (charRun isWordChar u).2).tail) := by
    cases u.drop (charRun isWordChar u).2 with
    | nil =>
      rw [List.nil_append, atByte_ends hz (by decide) (by decide)]
      rfl
    | cons b v =>
      rw [List.cons_append, List.tail_cons, List.tail_cons, atByte_append hz (by decide) (by decide)]
      rfl
  rw [hcolon]

theorem scanColon_append (hz : Ends z) (u : List UInt8) : scanColon (u ++ z) = scanColon u := by
  unfold scanColon
  rw [atByte_append hz (by decide) (by decide), atWord_append hz, charRun_append hz wordChar_ends.1 wordChar_ends.2]

theorem scanUnexpected_append (hz : Ends z) (b : UInt8) (u : List UInt8) :
    scanUnexpected (b :: u ++ z) = scanUnexpected (b :: u) := by
  unfold scanUnexpected
  rw [decode_append hz]

/-! ## Numbers -/

theorem radixDigits_append (hz : Ends z) (base value : Nat) (seen : Bool) (u : List UInt8) :
    radixDigits base value seen (u ++ z) = radixDigits base value seen u := by
  induction u generalizing value seen with
  | nil =>
    cases z with
    | nil => rfl
    | cons b rest =>
      rcases hz b rfl with rfl | rfl
      · rfl
      · rfl
  | cons b u ih =>
    rw [List.cons_append, radixDigits, radixDigits]
    simp only [ih]

theorem length_radixDigits (base value : Nat) (seen : Bool) (u : List UInt8) : (radixDigits base value seen u).1 ≤ u.length := by
  induction u generalizing value seen with
  | nil => exact Nat.zero_le _
  | cons b u ih =>
    rw [radixDigits, List.length_cons]
    split
    · exact Nat.succ_le_succ (ih value seen)
    · split
      · exact Nat.zero_le _
      · split
        · exact Nat.succ_le_succ (Nat.zero_le _)
        · split
          · exact Nat.succ_le_succ (Nat.zero_le _)
          · exact Nat.succ_le_succ (ih _ true)

theorem scanRadix_append (hz : Ends z) (negative : Bool) (head u : List UInt8) :
    scanRadix negative head (u ++ z) = scanRadix negative head u := by
  have hle := length_radixDigits (decimalValue head) 0 false u
  unfold scanRadix
  simp only [radixDigits_append hz]
  rw [List.take_append_of_le_length hle]

theorem fractionRun_append (hz : Ends z) (u : List UInt8) : fractionRun (u ++ z) = fractionRun u := by
  match u with
  | [] =>
    match z, hz with
    | [], _ => rfl
    | [_], _ => rfl
    | b :: d :: rest, hz =>
      rcases hz b rfl with rfl | rfl
      · rfl
      · rfl
  | [b] =>
    match z, hz with
    | [], _ => rfl
    | d :: rest, hz =>
      refine if_neg fun h => ?_
      rw [hz.head (q := isDigit) (by decide) (by decide) d rfl] at h
      cases h.2
  | b :: d :: u =>
    rw [List.cons_append, List.cons_append, fractionRun, fractionRun, ← List.cons_append, digitRun_append hz]

theorem length_fractionRun (u : List UInt8) : (fractionRun u).length ≤ u.length := by
  unfold fractionRun
  split
  · next b d rest =>
    split
    · exact Nat.succ_le_succ (length_digitRun (d :: rest))
    · exact Nat.zero_le _
  · exact Nat.zero_le _

/-- At most one byte is taken for a sign. -/
theorem take_filter_append (hz : Ends z) (hspace : q 0x20 = false) (hslash : q (byte '/') = false) (u : List UInt8) :
    ((u ++ z).take 1).filter q = (u.take 1).filter q ∧ ((u.take 1).filter q).length ≤ u.length := by
  cases u with
  | nil =>
    refine ⟨?_, Nat.le_refl _⟩
    cases z with
    | nil => rfl
    | cons b rest => exact List.filter_cons_of_neg (by simp [hz.head hspace hslash b rfl])
  | cons b u => exact ⟨rfl, Nat.le_trans (List.length_filter_le _ _) (by simp)⟩

theorem exponentRun_append (hz : Ends z) (u : List UInt8) : exponentRun (u ++ z) = exponentRun u := by
  cases u with
  | nil =>
    cases z with
    | nil => rfl
    | cons b rest =>
      rcases hz b rfl with rfl | rfl
      · rfl
      · rfl
  | cons e u =>
    obtain ⟨hsign, hle⟩ := take_filter_append (q := fun s => s = byte '+' || s = byte '-') hz (by decide) (by decide) u
    rw [List.cons_append, exponentRun, exponentRun]
    simp only [hsign]
    rw [List.drop_append_of_le_length hle, atByte_append hz (by decide) (by decide), digitRun_append hz]

theorem scanNumber_append (hz : Ends z) (u : List UInt8) : scanNumber (u ++ z) = scanNumber u := by
  obtain ⟨hsign, hle⟩ := take_filter_append (q := (· = byte '-')) hz (by decide) (by decide) u
  unfold scanNumber
  simp only [hsign]
  generalize (u.take 1).filter (· = byte '-') = sign at hle
  rw [List.drop_append_of_le_length hle, digitRun_append hz]
  generalize hwhole : digitRun (u.drop sign.length) = whole
  have hhead : (sign ++ whole).length ≤ u.length := by
    have := length_digitRun (u.drop sign.length)
    rw [hwhole, List.length_drop] at this
    rw [List.length_append]
    omega
  rw [List.drop_append_of_le_length hhead]
  generalize u.drop (sign ++ whole).length = rest
  rw [atByte_append hz (by decide) (by decide), fractionRun_append hz,
    List.drop_append_of_le_length (length_fractionRun rest), exponentRun_append hz]
  -- Only behind an `r` do digits of another base follow.
  by_cases hr : atByte (fun b => b = byte 'r' || b = byte 'R') rest
  · rw [if_pos hr, if_pos hr]
    cases rest with
    | nil => cases hr
    | cons b rest => exact scanRadix_append hz _ _ rest
  · rw [if_neg hr, if_neg hr]

end BlockScope
