import BlockScope.Proofs.Token.Spelling
import Mathlib.Data.Nat.Digits.Defs
/-!
# Whole numbers, plain and with a base

A whole number is written with a sign, perhaps a base, and digits with underscores between them. The two ways of reading it
reach the limits of an integer differently. Behind a base the digits are added up without the sign, so that the magnitude itself
has to stay below the limit; plain digits are read together with their sign. Both give the number that is written
(`literals_exact_unless_least`), and they part at one number only: the least integer has no spelling with a base.
-/
namespace BlockScope
open Text

/-! ## How whole numbers are written -/

/-- A digit of a base as it is written: beyond nine it is a letter of either case. -/
structure Figure (base : Nat) where
  value : Fin base
  upper : Bool

/-- The byte of a digit below thirty-six. -/
def figureByte (value : Nat) (upper : Bool) : UInt8 :=
  if value < 10 then ('0'.toNat + value).toUInt8
  else if upper then ('A'.toNat + (value - 10)).toUInt8
  else ('a'.toNat + (value - 10)).toUInt8

/-- Digits of a base, and underscores anywhere behind the first. -/
structure Numeral (base : Nat) where
  first : Figure base
  /-- What follows the first digit; an underscore is `none`. -/
  rest : List (Option (Figure base))

namespace Numeral
variable {base : Nat}

def items (n : Numeral base) : List (Option (Figure base)) := some n.first :: n.rest

/-- The byte of a digit or an underscore. -/
def itemByte : Option (Figure base) → UInt8
  | some figure => figureByte figure.value figure.upper
  | none => byte '_'

def bytes (n : Numeral base) : List UInt8 := n.items.map itemByte

/-- The digits from the first to the last. -/
def places (n : Numeral base) : List Nat := n.items.reduceOption.map (·.value)

/-- The number that is written. -/
def value (n : Numeral base) : Nat := Nat.ofDigits base n.places.reverse

end Numeral

/-- A number with its sign. -/
def signed (negative : Bool) (magnitude : Nat) : Int := if negative then -magnitude else magnitude

theorem signed_true (magnitude : Nat) : signed true magnitude = -magnitude := rfl

theorem signed_false (magnitude : Nat) : signed false magnitude = magnitude := rfl

/-- Is an integer of sixty-four bits. -/
def Fits (value : Int) : Prop := -2 ^ 63 ≤ value ∧ value < 2 ^ 63

instance (value : Int) : Decidable (Fits value) := inferInstanceAs (Decidable (_ ∧ _))

/-- A number in a base, behind the sign, the base itself and an `r`. -/
def radixLiteral {base : Nat} (negative : Bool) (n : Numeral base) : List UInt8 :=
  signOf negative ++ digits base ++ byte 'r' :: n.bytes

/-- A number behind its sign only. -/
def plainLiteral (negative : Bool) (n : Numeral 10) : List UInt8 := signOf negative ++ n.bytes

namespace Lexer

/-- The text is next, where a minus would be a sign if it starts with one, and a blank or the end follows. -/
structure Faces (l : Lexer) (negative : Bool) (text z : List UInt8) : Prop where
  ahead : l.rest.dropWhile isBlank = text ++ z
  sign : negative → l.afterOperand = false
  blank : ∀ b ∈ z.head?, isBlank b

/-- The next token is this integer, and what follows is left. -/
def ReadsInteger (l : Lexer) (value : Int) (z : List UInt8) : Prop :=
  ∃ i : Int64, i.toInt = value ∧ l.nextToken.1.kind = .integer i ∧ l.nextToken.2.rest = z

/-- The next token is an error. -/
def ReadsError (l : Lexer) : Prop := ∃ message, l.nextToken.1.kind = .error message

/-- The next token is this number if there is such an integer, and an error otherwise. -/
def ReadsExactly (l : Lexer) (value : Int) (z : List UInt8) : Prop :=
  (Fits value → l.ReadsInteger value z) ∧ (¬ Fits value → l.ReadsError)

end Lexer

/-! ## Digits one by one -/

section
variable {base : Nat} {negative : Bool} {z : List UInt8}

/-- A digit is read as its value, and is no underscore. -/
theorem digitValue_figureByte {value : Nat} (h : value < 36) (upper : Bool) :
    digitValue (figureByte value upper) = some value ∧ figureByte value upper ≠ byte '_' := by
  have hall : ∀ v < 36, ∀ u : Bool, digitValue (figureByte v u) = some v ∧ figureByte v u ≠ byte '_' := by decide +kernel
  exact hall value h upper

/-- The number that comes of reading more digits onto one. -/
def readOnto (value : Nat) (items : List (Option (Figure base))) : Nat :=
  (items.reduceOption.map fun figure => figure.value.val).foldl (fun n d => n * base + d) value

theorem readOnto_some (value : Nat) (figure : Figure base) (items : List (Option (Figure base))) :
    readOnto value (some figure :: items) = readOnto (value * base + figure.value) items := rfl

theorem readOnto_items (n : Numeral base) : readOnto 0 n.items = n.value := by
  rw [readOnto, Numeral.value, Nat.ofDigits_eq_foldr, List.foldr_reverse]
  simp only [Nat.cast_id, Nat.mul_comm, Nat.add_comm]
  rfl

/-- Digits never make a number smaller. -/
theorem le_readOnto (hbase : 0 < base) (value : Nat) (items : List (Option (Figure base))) : value ≤ readOnto value items := by
  induction items generalizing value with
  | nil => exact Nat.le_refl _
  | cons item items ih =>
    cases item with
    | none => exact ih value
    | some figure =>
      have hstep : value ≤ value * base := Nat.le_mul_of_pos_right value hbase
      have := ih (value * base + figure.value)
      rw [readOnto_some]
      omega

theorem radixDigits_underscore (value : Nat) (seen : Bool) (u : List UInt8) :
    radixDigits base value seen (byte '_' :: u) = ((radixDigits base value seen u).1 + 1, (radixDigits base value seen u).2) := rfl

/-- A digit of the base is added to the number unless that is too large then, whatever has been read. -/
theorem radixDigits_figure (hbase : base ≤ 36) (value : Nat) (seen : Bool) (figure : Figure base) (u : List UInt8) :
    radixDigits base value seen (Numeral.itemByte (some figure) :: u) =
      if integerLimit ≤ value * base + figure.value then (1, .error .radixOverflow)
      else ((radixDigits base (value * base + figure.value) true u).1 + 1,
        (radixDigits base (value * base + figure.value) true u).2) := by
  obtain ⟨hvalue, hplain⟩ := digitValue_figureByte (Nat.lt_of_lt_of_le figure.value.isLt hbase) figure.upper
  rw [Numeral.itemByte, radixDigits, if_neg hplain, hvalue]
  exact if_neg (Nat.not_le.2 figure.value.isLt)

theorem radixDigits_blank (hz : ∀ b ∈ z.head?, isBlank b) (value : Nat) : radixDigits base value true z = (0, .ok value) := by
  cases z with
  | nil => rfl
  | cons b z =>
    have hblank : ∀ b, isBlank b → b ≠ byte '_' ∧ digitValue b = none := forall_blank (by decide)
    obtain ⟨hplain, hnone⟩ := hblank b (hz b rfl)
    rw [radixDigits, if_neg hplain, hnone]
    rfl

/-- As long as what is read stays below the limit, all of it is taken. -/
theorem radixDigits_items (hbase : 0 < base ∧ base ≤ 36) (hz : ∀ b ∈ z.head?, isBlank b) {value : Nat}
    {items : List (Option (Figure base))} (h : readOnto value items < integerLimit) :
    radixDigits base value true (items.map Numeral.itemByte ++ z) = (items.length, .ok (readOnto value items)) := by
  induction items generalizing value with
  | nil => exact radixDigits_blank hz value
  | cons item items ih =>
    rw [List.map_cons, List.cons_append]
    cases item with
    | none =>
      rw [Numeral.itemByte, radixDigits_underscore, ih h]
      rfl
    | some figure =>
      have hle := le_readOnto hbase.1 (value * base + figure.value) items
      rw [readOnto_some] at h
      rw [radixDigits_figure hbase.2, if_neg (by omega), ih h]
      rfl

/-- Where what is read reaches the limit, there is a first digit that makes it too large. -/
theorem radixDigits_items_overflow (hbase : base ≤ 36) {value : Nat} (hvalue : value < integerLimit)
    {items : List (Option (Figure base))} (h : integerLimit ≤ readOnto value items) :
    (radixDigits base value true (items.map Numeral.itemByte ++ z)).2 = .error .radixOverflow := by
  induction items generalizing value with
  | nil => exact absurd hvalue (Nat.not_lt.2 h)
  | cons item items ih =>
    rw [List.map_cons, List.cons_append]
    cases item with
    | none => exact ih hvalue h
    | some figure =>
      rw [radixDigits_figure hbase]
      by_cases hover : integerLimit ≤ value * base + figure.value
      · rw [if_pos hover]
      · rw [if_neg hover]
        exact ih (Nat.not_le.1 hover) h

/-- The first digit is read the same whether or not a number has begun. -/
theorem radixDigits_bytes (hbase : base ≤ 36) (n : Numeral base) :
    radixDigits base 0 false (n.bytes ++ z) = radixDigits base 0 true (n.items.map Numeral.itemByte ++ z) := by
  rw [Numeral.bytes, Numeral.items, List.map_cons, List.cons_append, radixDigits_figure hbase, radixDigits_figure hbase]

/-! ## Plain digits -/

theorem figureByte_plain {value : Nat} (h : value < 10) (upper : Bool) :
    isDigit (figureByte value upper) ∧ (figureByte value upper).toNat - '0'.toNat = value := by
  have hall : ∀ v < 10, ∀ u : Bool, isDigit (figureByte v u) ∧ (figureByte v u).toNat - '0'.toNat = v := by decide +kernel
  exact hall value h upper

theorem isDigit_itemByte (item : Option (Figure 10)) : isDigit (Numeral.itemByte item) || Numeral.itemByte item = byte '_' := by
  cases item with
  | none => rfl
  | some figure => rw [Numeral.itemByte, (figureByte_plain figure.value.isLt figure.upper).1, Bool.true_or]

theorem decimalValue_numeral (n : Numeral 10) : decimalValue n.bytes = n.value := by
  have hfold : ∀ (items : List (Option (Figure 10))) (m : Nat),
      ((items.map Numeral.itemByte).filter isDigit).foldl (fun n b => n * 10 + (b.toNat - '0'.toNat)) m = readOnto m items := by
    intro items
    induction items with
    | nil => exact fun m => rfl
    | cons item items ih =>
      intro m
      cases item with
      | none => exact ih m
      | some figure =>
        obtain ⟨hdigit, hvalue⟩ := figureByte_plain figure.value.isLt figure.upper
        rw [List.map_cons, Numeral.itemByte, List.filter_cons_of_pos hdigit, List.foldl_cons, hvalue, ih]
        rfl
  rw [decimalValue, Numeral.bytes, hfold, readOnto_items]

/-! ## Scanning a number -/

theorem decimalValue_signed (n : Nat) : decimalValue (signOf negative ++ digits n) = n := by
  have hminus : (signOf negative ++ digits n).filter isDigit = (digits n).filter isDigit := by
    cases negative <;> rfl
  rw [decimalValue, hminus]
  exact decimalValue_digits n

theorem scanNumber_radixLiteral (n : Numeral base) :
    scanNumber (radixLiteral negative n ++ z) = scanRadix negative (signOf negative ++ digits base) (n.bytes ++ z) := by
  have hfirst : atByte isDigit (digits base) := List.append_nil (digits base) ▸ atByte_digits base []
  have hwhole : digitRun (digits base ++ byte 'r' :: (n.bytes ++ z)) = digits base :=
    digitRun_eq (fun b hb => by rw [isDigit_of_mem_digits hb]; rfl) fun b hb => by
      rw [← Option.mem_some_iff.1 hb]
      decide
  rw [radixLiteral, List.append_assoc, List.cons_append, scanNumber_digitRun hfirst hwhole]
  rfl

/-- A number with a base is scanned whole as long as its magnitude stays below the limit. -/
theorem scanRadix_numeral (negative : Bool) (hbase : 2 ≤ base ∧ base ≤ 36) (hz : ∀ b ∈ z.head?, isBlank b) {n : Numeral base}
    (h : n.value < integerLimit) : ∃ lexeme, scanRadix negative (signOf negative ++ digits base) (n.bytes ++ z) =
      ⟨.integer (Int64.ofInt (signed negative n.value)), lexeme, (signOf negative ++ digits base).length + n.bytes.length⟩ := by
  rw [← readOnto_items] at h
  rw [scanRadix, decimalValue_signed, if_pos hbase, radixDigits_bytes hbase.2, radixDigits_items ⟨by omega, hbase.2⟩ hz h,
    readOnto_items, Numeral.bytes, List.length_map]
  exact ⟨_, rfl⟩

theorem scanRadix_numeral_overflow (hbase : 2 ≤ base ∧ base ≤ 36) {n : Numeral base} (h : integerLimit ≤ n.value) :
    (scanRadix negative (signOf negative ++ digits base) (n.bytes ++ z)).kind = .error LexicalFault.radixOverflow.message := by
  rw [← readOnto_items] at h
  have hover := radixDigits_items_overflow (z := z) hbase.2 (by decide) h
  rw [scanRadix, decimalValue_signed, if_pos hbase, radixDigits_bytes hbase.2]
  simp only [hover]
  rfl

theorem scanNumber_plainLiteral (hz : ∀ b ∈ z.head?, isBlank b) (n : Numeral 10) :
    scanNumber (plainLiteral negative n ++ z) =
      ⟨integerKind negative n.value, latin1 (plainLiteral negative n), (plainLiteral negative n).length - 1⟩ := by
  have hblank : ∀ b, isBlank b → (isDigit b || b = byte '_') = false ∧ (b = byte 'r' || b = byte 'R') = false ∧ b ≠ byte '.' ∧
      b ≠ byte 'e' ∧ b ≠ byte 'E' := forall_blank (by decide)
  have hfirst : atByte isDigit n.bytes := (figureByte_plain n.first.value.isLt n.first.upper).1
  have hwhole : digitRun (n.bytes ++ z) = n.bytes :=
    digitRun_eq (fun b hb => by
      obtain ⟨item, -, rfl⟩ := List.mem_map.1 hb
      exact isDigit_itemByte item) fun b hb => (hblank b (hz b hb)).1
  -- Nothing that could go on with a number follows.
  have hnone : atByte (fun b => b = byte 'r' || b = byte 'R') z = false ∧ fractionRun z = [] ∧ exponentRun z = [] := by
    cases z with
    | nil => exact ⟨rfl, rfl, rfl⟩
    | cons b z =>
      obtain ⟨-, hr, hpoint, he, he'⟩ := hblank b (hz b rfl)
      refine ⟨hr, ?_, if_neg (by simp [he, he'])⟩
      cases z with
      | nil => rfl
      | cons d z => exact if_neg fun h => hpoint h.1
  obtain ⟨hr, hfraction, hexponent⟩ := hnone
  rw [plainLiteral, scanNumber_digitRun hfirst hwhole, hr, hfraction]
  simp only [List.length_nil, List.drop_zero, hexponent, List.isEmpty_nil, Bool.and_self, if_true, List.append_nil,
    decimalValue_numeral, Bool.false_eq_true, if_false]

/-! ## Reading a number -/

/-- Where a number is next, it is scanned as one. -/
theorem Lexer.Faces.scanned {l : Lexer} {text : List UInt8} (h : l.Faces negative (signOf negative ++ text) z)
    (hdigit : atByte isDigit text) (found : Scan) (hscan : scanNumber (signOf negative ++ text ++ z) = found) :
    l.nextToken.1.kind = found.kind ∧ l.nextToken.2.rest = (signOf negative ++ text ++ z).drop (found.more + 1) := by
  subst hscan
  have hnumber : ∀ first rest, signOf negative ++ text ++ z = first :: rest → routeOf l.afterOperand first rest = .number →
      l.nextToken.1.kind = (scanNumber (first :: rest)).kind ∧
        l.nextToken.2.rest = (first :: rest).drop ((scanNumber (first :: rest)).more + 1) := by
    intro first rest htext hroute
    obtain ⟨hkind, hrest, -⟩ := nextToken_of_rest (h.ahead.trans htext)
    rw [scan_eq_route, hroute] at hkind hrest
    exact ⟨hkind, hrest⟩
  cases text with
  | nil => cases hdigit
  | cons d text =>
    cases negative with
    | true =>
      refine hnumber (byte '-') (d :: text ++ z) rfl ?_
      rw [h.sign rfl]
      exact routeOf_minus hdigit
    | false => exact hnumber d (text ++ z) rfl (routeOf_digit hdigit _)

/-- The magnitude of an integer is below the limit, but for the least one. -/
theorem fits_signed_iff {magnitude : Nat} (h : signed negative magnitude ≠ -2 ^ 63) :
    Fits (signed negative magnitude) ↔ magnitude < integerLimit := by
  rw [Fits, integerLimit]
  cases negative with
  | true =>
    rw [signed_true] at h ⊢
    omega
  | false =>
    rw [signed_false]
    omega

theorem Lexer.ReadsInteger.of_fits {l : Lexer} {value : Int} (hfits : Fits value)
    (hkind : l.nextToken.1.kind = .integer (Int64.ofInt value)) (hrest : l.nextToken.2.rest = z) : l.ReadsInteger value z :=
  ⟨_, Int64.toInt_ofInt_of_le hfits.1 hfits.2, hkind, hrest⟩

/-- A number with a base is read as what it is if its magnitude is below the limit, and only then. -/
theorem Lexer.Faces.radix {l : Lexer} {n : Numeral base} (h : l.Faces negative (radixLiteral negative n) z)
    (hbase : 2 ≤ base ∧ base ≤ 36) :
    (n.value < integerLimit → l.ReadsInteger (signed negative n.value) z) ∧ (integerLimit ≤ n.value → l.ReadsError) := by
  have htext : radixLiteral negative n = signOf negative ++ (digits base ++ byte 'r' :: n.bytes) := List.append_assoc ..
  have hscanned := Faces.scanned (htext ▸ h) (atByte_digits base _)
  rw [← htext, scanNumber_radixLiteral] at hscanned
  refine ⟨fun hlt => ?_, fun hle => ⟨_, (hscanned _ rfl).1.trans (scanRadix_numeral_overflow hbase hle)⟩⟩
  obtain ⟨lexeme, hfound⟩ := scanRadix_numeral negative hbase h.blank hlt
  obtain ⟨hkind, hrest⟩ := hscanned _ hfound
  refine .of_fits ?_ hkind (hrest.trans (List.drop_left' ?_))
  · rw [integerLimit] at hlt
    rw [Fits, signed]
    split <;> omega
  · rw [radixLiteral, List.length_append, List.length_cons]
    rfl

theorem Lexer.Faces.radix_exact {l : Lexer} {n : Numeral base} (h : l.Faces negative (radixLiteral negative n) z)
    (hbase : 2 ≤ base ∧ base ≤ 36) (hleast : signed negative n.value ≠ -2 ^ 63) : l.ReadsExactly (signed negative n.value) z := by
  have hiff := fits_signed_iff hleast
  obtain ⟨hread, hrefused⟩ := h.radix hbase
  exact ⟨fun hfits => hread (hiff.1 hfits), fun hfits => hrefused (Nat.not_lt.1 (mt hiff.2 hfits))⟩

/-- Digits that are read with their sign give every integer there is. -/
theorem integerKind_signed (negative : Bool) (magnitude : Nat) :
    (Fits (signed negative magnitude) → integerKind negative magnitude = .integer (Int64.ofInt (signed negative magnitude))) ∧
      (¬ Fits (signed negative magnitude) → ∃ message, integerKind negative magnitude = .error message) := by
  unfold Fits integerKind integerLimit
  cases negative with
  | true =>
    rw [signed_true, if_pos rfl]
    exact ⟨fun h => if_pos (by omega), fun h => ⟨_, if_neg (by omega)⟩⟩
  | false =>
    rw [signed_false, if_neg Bool.false_ne_true]
    exact ⟨fun h => if_pos (by omega), fun h => ⟨_, if_neg (by omega)⟩⟩

theorem Lexer.Faces.plain {l : Lexer} {n : Numeral 10} (h : l.Faces negative (plainLiteral negative n) z) :
    l.ReadsExactly (signed negative n.value) z := by
  have hdigit : atByte isDigit n.bytes := (figureByte_plain n.first.value.isLt n.first.upper).1
  obtain ⟨hkind, hrest⟩ := Faces.scanned h hdigit _ (scanNumber_plainLiteral h.blank n)
  obtain ⟨hinteger, herror⟩ := integerKind_signed negative n.value
  refine ⟨fun hfits => .of_fits hfits (hkind.trans (hinteger hfits)) (hrest.trans (List.drop_left' ?_)), fun hfits => ?_⟩
  · have hlength : 0 < (plainLiteral negative n).length := by
      rw [plainLiteral, List.length_append]
      exact Nat.add_pos_right _ (Nat.succ_pos _)
    exact (Nat.sub_add_cancel hlength).symm
  · obtain ⟨message, hmessage⟩ := herror hfits
    exact ⟨message, hkind.trans hmessage⟩

end

/-- A whole number is read as exactly the number that is written, with a base or without, and refused if there is no such integer.
Only the least integer is refused behind a base, so apart from it a number is the same behind `10r` and on its own. -/
theorem literals_exact_unless_least {base : Nat} (hbase : 2 ≤ base ∧ base ≤ 36) (negative : Bool) (n : Numeral base)
    (d : Numeral 10) :
    (∀ (l : Lexer) z, l.Faces negative (radixLiteral negative n) z →
      (signed negative n.value ≠ -2 ^ 63 → l.ReadsExactly (signed negative n.value) z) ∧
      (signed negative n.value = -2 ^ 63 → l.ReadsError)) ∧
    (∀ (l : Lexer) z, l.Faces negative (plainLiteral negative d) z → l.ReadsExactly (signed negative d.value) z) ∧
    (signed negative d.value ≠ -2 ^ 63 → ∀ (l l' : Lexer) z z',
      l.Faces negative (radixLiteral negative d) z → l'.Faces negative (plainLiteral negative d) z' →
        (∃ value, l.ReadsInteger value z ∧ l'.ReadsInteger value z') ∨ (l.ReadsError ∧ l'.ReadsError)) := by
  refine ⟨fun l z h => ⟨h.radix_exact hbase, fun hleast => (h.radix hbase).2 ?_⟩, fun l z h => h.plain,
    fun hleast l l' z z' h h' => ?_⟩
  · cases negative with
    | true =>
      rw [signed_true] at hleast
      rw [integerLimit]
      omega
    | false =>
      rw [signed_false] at hleast
      omega
  · obtain ⟨hread, hrefused⟩ := h.radix_exact (by decide) hleast
    obtain ⟨hread', hrefused'⟩ := h'.plain
    by_cases hfits : Fits (signed negative d.value)
    · exact .inl ⟨_, hread hfits, hread' hfits⟩
    · exact .inr ⟨hrefused hfits, hrefused' hfits⟩

/-- Digits of both cases and an underscore, and the least integer, with a base and without. -/
theorem literals_exact_unless_least_hex : (Lexer.ofBytes (utf8 "16rF_f ")).ReadsInteger 255 [0x20] ∧
    (Lexer.ofBytes (utf8 "-16r8000000000000000")).ReadsError ∧
    (Lexer.ofBytes (utf8 "-9_223372036854775808")).ReadsInteger (-2 ^ 63) [] := by
  let few : Numeral 16 := ⟨⟨15, true⟩, [none, some ⟨15, false⟩]⟩
  let many : Numeral 16 := ⟨⟨8, false⟩, List.replicate 15 (some ⟨0, false⟩)⟩
  let plain : Numeral 10 :=
    ⟨⟨9, false⟩, none :: [2, 2, 3, 3, 7, 2, 0, 3, 6, 8, 5, 4, 7, 7, 5, 8, 0, 8].map fun d => some ⟨d, false⟩⟩
  have hfew : signed false few.value = 255 := by decide +kernel
  have hmany : signed true many.value = -2 ^ 63 := by decide +kernel
  have hplain : signed true plain.value = -2 ^ 63 := by decide +kernel
  obtain ⟨hread, -⟩ := literals_exact_unless_least (by decide) false few plain
  obtain ⟨hrefused, hread', -⟩ := literals_exact_unless_least (by decide) true many plain
  rw [hfew] at hread
  rw [hmany] at hrefused
  rw [hplain] at hread'
  refine ⟨((hread _ [0x20] ⟨?_, nofun, ?_⟩).1 ?_).1 ?_, (hrefused _ [] ⟨?_, fun _ => rfl, nofun⟩).2 rfl,
    (hread' _ [] ⟨?_, fun _ => rfl, nofun⟩).1 ?_⟩
  all_goals decide +kernel

end BlockScope
