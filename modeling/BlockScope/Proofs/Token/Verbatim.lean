import BlockScope.Proofs.Text.Boundaries
import BlockScope.Proofs.Token.Scanned
import BlockScope.Proofs.Token.Spelling
/-!
# Tokens stand on whole characters

Comments, strings and numbers are scanned byte by byte, words and symbols by characters. In an encoded text none of them ends
inside a character: what is scanned by bytes ends beside a byte of ASCII or with the text (`ByAscii`). Tokens of the other
kinds keep the text they stand on (`tokens_keep_characters`).
-/
namespace BlockScope
open Text

/-- Tokens that are read as they are written. -/
def TokenKind.isVerbatim : TokenKind → Bool
  | .symbol _ | .character _ | .identifier _ | .keyword _ | .argument _ | .reserved _ | .operator _ | .mark _ => true
  | .integer _ | .float _ | .string _ | .lineComment _ | .blockComment _ | .endOfInput | .error _ => false

/-- At the front of a text the scan takes whole characters, and it keeps them if it is to be read as written. -/
def Scan.Whole (s : Scan) (chars : List Char) : Prop :=
  ∃ taken left, chars = taken ++ left ∧ (encode chars).take (s.more + 1) = encode taken ∧
    (s.kind.isVerbatim → s.lexeme = String.ofList taken ∧ s.kind.spelling = String.ofList taken)

namespace Scan
variable {s : Scan} {chars : List Char} {ys rest : List UInt8}

theorem Whole.of_text (text left : List Char) (hmore : s.more + 1 = (encode text).length)
    (hlexeme : s.lexeme = String.ofList text) (hkind : s.kind.spelling = s.lexeme) : s.Whole (text ++ left) :=
  ⟨text, left, rfl, by rw [hmore, encode_append, List.take_left], fun _ => ⟨hlexeme, hkind.trans hlexeme⟩⟩

/-- What is not to be read as written only has to end beside a byte of ASCII. -/
theorem Whole.of_byAscii (hkind : s.kind.isVerbatim = false) (h : ByAscii (encode chars) (s.more + 1)) : s.Whole chars := by
  obtain ⟨taken, left, rfl, htaken, -⟩ := cut_of_byAscii h
  refine ⟨taken, left, rfl, htaken, fun hyes => ?_⟩
  rw [hkind] at hyes
  cases hyes

theorem Whole.of_ascii (xs : List UInt8) (h : encode chars = xs ++ ys) (hx : ∀ b ∈ xs, b.toNat < 0x80)
    (hmore : s.more + 1 = xs.length) (hlexeme : s.lexeme = latin1 xs) (hkind : s.kind.spelling = s.lexeme) : s.Whole chars := by
  obtain ⟨left, rfl, -⟩ := exists_of_ascii h hx
  exact .of_text _ left (by rw [encode_asciiChars hx, hmore]) hlexeme hkind

/-! ## Comments and strings -/

/-- A string ends with a quote, or with the text. -/
theorem byAscii_stringBody (u : List UInt8) : ByAscii u (stringBody u).taken := by
  fun_induction stringBody u with
  | case1 => exact byAscii_length []
  | case2 rest => exact byAscii_head (by decide) rest
  | case3 => exact byAscii_length [_]
  | case4 b rest _ _ ih => exact (ih.cons b).cons _
  | case5 a rest _ _ body ih => exact ih.cons a

/-- A comment ends with a slash, or with the text. -/
theorem byAscii_commentBody (depth : Nat) (u : List UInt8) : ByAscii u (commentBody depth u).taken := by
  fun_induction commentBody depth u with
  | case1 => exact byAscii_length []
  | case2 _ a => exact byAscii_length [a]
  | case3 _ a b _ _ ih => exact ih.append [a, b]
  | case4 a b rest _ h =>
    obtain ⟨-, rfl⟩ := h
    exact (byAscii_head (by decide) rest).cons a
  | case5 a b _ _ _ _ ih => exact ih.append [a, b]
  | case6 _ a _ _ _ _ ih => exact ih.append [a]

theorem whole_lineComment (h : encode chars = byte '/' :: rest) (hnext : atByte (· = byte '/') rest) :
    (scanLineComment rest).Whole chars := by
  refine .of_byAscii rfl ?_
  rw [h]
  cases rest with
  | nil => cases hnext
  | cons b u =>
    refine ByAscii.cons (ByAscii.cons (.inl fun d hd => ?_) b) _
    -- A line feed is next, if anything.
    have hdrop : u.drop (u.takeWhile (· ≠ 0x0A)).length = u.dropWhile (· ≠ 0x0A) := by
      have hleft : (u.takeWhile (· ≠ 0x0A) ++ u.dropWhile (· ≠ 0x0A)).drop (u.takeWhile (· ≠ 0x0A)).length = _ := List.drop_left
      rwa [List.takeWhile_append_dropWhile] at hleft
    rw [List.tail_cons, hdrop] at hd
    have hfeed := List.head?_dropWhile_not (· ≠ 0x0A) u
    rw [hd] at hfeed
    rw [show d = 0x0A by simpa using hfeed]
    decide

theorem whole_blockComment (h : encode chars = byte '/' :: rest) (hnext : atByte (· = byte '*') rest) :
    (scanBlockComment rest).Whole chars := by
  refine .of_byAscii ?_ ?_
  · simp only [scanBlockComment]
    split <;> rfl
  · have hmore : (scanBlockComment rest).more = (commentBody 0 rest.tail).taken + 1 := by
      simp only [scanBlockComment]
      split <;> rfl
    rw [hmore, h]
    cases rest with
    | nil => cases hnext
    | cons b u => exact ((byAscii_commentBody 0 u).cons b).cons _

theorem whole_string (h : encode chars = byte '"' :: rest) : (scanString rest).Whole chars := by
  refine .of_byAscii ?_ ?_
  · simp only [scanString]
    split <;> rfl
  · have hmore : (scanString rest).more = (stringBody rest).taken := by
      simp only [scanString]
      split <;> rfl
    rw [hmore, h]
    exact (byAscii_stringBody rest).cons _

/-! ## Characters and words -/

/-- A run of characters at the front of a text takes these characters. -/
theorem exists_of_charRun (p : Char → Bool) (chars : List Char) :
    ∃ taken left, chars = taken ++ left ∧ charRun p (encode chars) = (taken, (encode taken).length) := by
  induction chars with
  | nil =>
    refine ⟨[], [], rfl, ?_⟩
    rw [encode_nil, charRun.eq_def]
    rfl
  | cons c chars ih =>
    cases hc : p c with
    | true =>
      obtain ⟨taken, left, rfl, hrun⟩ := ih
      refine ⟨c :: taken, left, rfl, ?_⟩
      rw [encode_cons, charRun_form (encodes c).form hc, hrun, encode_cons, List.length_append]
    | false => exact ⟨[], c :: chars, rfl, charRun_of_decode (decode_encodes (encodes c) _) hc⟩

theorem exists_of_atByte {b : UInt8} (h : atByte (· = b) rest) : ∃ u, rest = b :: u := by
  cases rest with
  | nil => cases h
  | cons a u => exact ⟨u, by rw [of_decide_eq_true h]⟩

/-- A text that begins with a character of ASCII. -/
theorem exists_of_byte {c : Char} (hc : c.toNat < 0x80) (h : encode chars = byte c :: rest) :
    ∃ more, chars = c :: more ∧ rest = encode more := by
  obtain ⟨more, hchars, hrest⟩ := exists_of_head h (by rw [toNat_byte hc]; exact hc)
  exact ⟨more, by rw [hchars, asciiChar, toNat_byte hc, Char.ofNat_toNat], hrest⟩

/-- A character of ASCII and a run of others behind it. -/
theorem Whole.of_run {c : Char} {p : Char → Bool} (hc : c.toNat < 0x80) (hmore : s.more = (charRun p (encode chars)).2)
    (hlexeme : s.lexeme = String.ofList [c] ++ String.ofList (charRun p (encode chars)).1) (hkind : s.kind.spelling = s.lexeme) :
    s.Whole (c :: chars) := by
  obtain ⟨taken, left, rfl, hrun⟩ := exists_of_charRun p chars
  rw [hrun] at hmore hlexeme
  refine .of_text (c :: taken) left ?_ (hlexeme.trans String.ofList_append.symm) hkind
  rw [encode_cons, encodeChar_ascii hc, List.length_append, hmore, Nat.add_comm]
  rfl

theorem operatorByte_ascii : ∀ b, isOperatorByte b → b.toNat < 0x80 := forall_operator (by decide)

theorem whole_symbol (h : encode chars = byte '#' :: rest) : (scanSymbol rest).Whole chars := by
  unfold scanSymbol
  split
  · next hparen =>
    obtain ⟨u, rfl⟩ := exists_of_atByte hparen
    exact .of_ascii [byte '#', byte '('] h (List.all_iff_forall_prop.1 (by decide)) rfl (by decide) rfl
  split
  · obtain ⟨more, rfl, rfl⟩ := exists_of_byte (by decide) h
    exact .of_run (by decide) rfl rfl rfl
  split
  · -- The operator bytes behind the hash are all ASCII.
    have hhash : latin1 [byte '#'] = "#" := by decide
    have hsplit : encode chars = ([byte '#'] ++ rest.takeWhile isOperatorByte) ++ rest.dropWhile isOperatorByte := by
      rw [List.append_assoc, List.takeWhile_append_dropWhile, h]
      rfl
    refine .of_ascii _ hsplit ?_ rfl (by rw [latin1_append, hhash]) rfl
    intro b hb
    rcases List.mem_cons.1 hb with rfl | hb
    · decide
    · exact operatorByte_ascii b (List.all_eq_true.1 List.all_takeWhile b hb)
  · refine .of_byAscii rfl ?_
    rw [h]
    exact byAscii_head (by decide) rest

theorem whole_character (h : encode chars = byte '$' :: rest) : (scanCharacter rest).Whole chars := by
  obtain ⟨more, rfl, rfl⟩ := exists_of_byte (by decide) h
  cases more with
  | nil =>
    refine .of_byAscii rfl ?_
    rw [h]
    exact byAscii_head (by decide) _
  | cons c more =>
    rw [encode_cons, scanCharacter, decode_encodes (encodes c)]
    refine .of_text ['$', c] more ?_ String.ofList_append.symm rfl
    have hbytes : encode ['$', c] = byte '$' :: String.utf8EncodeChar c := by
      rw [encode_cons, encode_cons, encode_nil, List.append_nil, encodeChar_ascii (c := '$') (by decide)]
      rfl
    rw [hbytes, List.length_cons]
    exact congrArg (· + 1) (Nat.sub_add_cancel (encodes c).form.length_pos)

theorem whole_colon (h : encode chars = byte ':' :: rest) : (scanColon rest).Whole chars := by
  unfold scanColon
  split
  · next hequals =>
    obtain ⟨u, rfl⟩ := exists_of_atByte hequals
    exact .of_ascii [byte ':', byte '='] h (List.all_iff_forall_prop.1 (by decide)) rfl (by decide) rfl
  split
  · obtain ⟨more, rfl, rfl⟩ := exists_of_byte (by decide) h
    exact .of_run (by decide) rfl rfl rfl
  · exact .of_ascii [byte ':'] h (List.all_iff_forall_prop.1 (by decide)) rfl (by decide) rfl

/-- Punctuation of one byte. -/
theorem whole_sole {first : UInt8} {mark : Mark} (h : encode chars = first :: rest) (hmark : soleMark first = some mark) :
    Scan.Whole ⟨.mark mark, mark.spelling, 0⟩ chars := by
  have hspelling : latin1 [first] == mark.spelling := List.find?_some (p := fun m : Mark => latin1 [first] == m.spelling) hmark
  have hsole : first ∈ soleBytes := by
    refine Classical.byContradiction fun hnot => ?_
    rw [soleMark_eq_none hnot] at hmark
    cases hmark
  have hascii : ∀ b ∈ soleBytes, b.toNat < 0x80 := List.all_iff_forall_prop.1 (by decide)
  exact .of_ascii [first] h (fun b hb => hascii b (List.mem_singleton.1 hb ▸ hsole)) rfl (eq_of_beq hspelling).symm rfl

/-! ## Operators and words -/

theorem operatorRun_prefix (u : List UInt8) : operatorRun u <+: u := by
  induction u with
  | nil => exact List.nil_prefix
  | cons b u ih =>
    rw [operatorRun]
    split
    · exact (List.prefix_cons_inj b).2 ih
    · exact List.nil_prefix

theorem whole_operator {first : UInt8} (h : encode chars = first :: rest) (hfirst : isOperatorByte first) :
    (scanOperator first rest).Whole chars := by
  obtain ⟨left, hleft⟩ := operatorRun_prefix rest
  have hsplit : encode chars = (first :: operatorRun rest) ++ left := by rw [h, List.cons_append, hleft]
  refine .of_ascii _ hsplit (fun b hb => operatorByte_ascii b ?_) rfl rfl rfl
  rcases List.mem_cons.1 hb with rfl | hb
  · exact hfirst
  · exact operatorRun_all rest b hb

theorem whole_word (hword : atWord (encode chars)) : (scanWord (encode chars)).Whole chars := by
  obtain ⟨word, left, rfl, hrun⟩ := exists_of_charRun isWordChar chars
  have hpos := charRun_pos hword
  rw [hrun] at hpos
  unfold scanWord
  rw [hrun]
  simp only [encode_append, List.drop_left]
  split
  · next hcolon =>
    obtain ⟨u, hu⟩ := exists_of_atByte (Bool.and_eq_true_iff.1 hcolon).1
    obtain ⟨more, rfl, -⟩ := exists_of_byte (by decide) hu
    rw [← List.singleton_append, ← List.append_assoc]
    refine .of_text (word ++ [':']) more ?_ String.ofList_append.symm rfl
    rw [encode_append, List.length_append, encode_cons, encodeChar_ascii (by decide)]
    rfl
  · refine .of_text word left (Nat.sub_add_cancel hpos) rfl ?_
    simp only
    split
    · next reserved hreserved =>
      have hspelling : reserved.spelling == String.ofList word :=
        List.find?_some (p := fun r : Reserved => r.spelling == String.ofList word) hreserved
      exact eq_of_beq hspelling
    · rfl

theorem whole_unexpected (hne : encode chars ≠ []) : (scanUnexpected (encode chars)).Whole chars := by
  cases chars with
  | nil => exact absurd rfl hne
  | cons c chars =>
    rw [encode_cons, scanUnexpected, decode_encodes (encodes c)]
    refine ⟨[c], chars, rfl, ?_, fun hverbatim => absurd hverbatim Bool.false_ne_true⟩
    change List.take ((String.utf8EncodeChar c).length - 1 + 1) _ = _
    rw [Nat.sub_add_cancel (encodes c).form.length_pos, encode_cons, List.take_left]
    exact (List.append_nil _).symm

/-! ## Numbers -/

theorem ascii_of_le {b : UInt8} {c : Char} (h : b ≤ byte c) (hc : (byte c).toNat < 0x80) : b.toNat < 0x80 :=
  Nat.lt_of_le_of_lt (UInt8.le_iff_toNat_le.1 h) hc

theorem digit_ascii {b : UInt8} (h : isDigit b) : b.toNat < 0x80 :=
  ascii_of_le (of_decide_eq_true (Bool.and_eq_true_iff.1 h).2) (by decide)

theorem digitValue_ascii {b : UInt8} (h : (digitValue b).isSome) : b.toNat < 0x80 := by
  unfold digitValue at h
  split at h
  · next hdigit => exact digit_ascii hdigit
  · split at h
    · next hlower => exact ascii_of_le hlower.2 (by decide)
    · split at h
      · next hupper => exact ascii_of_le hupper.2 (by decide)
      · cases h

theorem asciiFor_digitRun (u : List UInt8) : AsciiFor u (digitRun u).length :=
  asciiFor_of_prefix (List.takeWhile_prefix _) fun b hb => by
    rcases Bool.or_eq_true_iff.1 (List.all_eq_true.1 List.all_takeWhile b hb) with hdigit | hunderscore
    · exact digit_ascii hdigit
    · rw [of_decide_eq_true hunderscore]
      decide

theorem asciiFor_radixDigits (base value : Nat) (seen : Bool) (u : List UInt8) :
    AsciiFor u (radixDigits base value seen u).1 := by
  induction u generalizing value seen with
  | nil => exact asciiFor_nil _
  | cons b u ih =>
    rw [radixDigits]
    split
    · next hb => exact (ih value seen).cons (hb ▸ by decide)
    · split
      · exact asciiFor_zero _
      · next digit hdigit =>
        have hb : b.toNat < 0x80 := digitValue_ascii (by rw [hdigit]; rfl)
        have hone : AsciiFor (b :: u) 1 := (asciiFor_zero u).cons hb
        split
        · exact hone
        · split
          · exact hone
          · exact (ih _ true).cons hb

theorem asciiFor_fractionRun (u : List UInt8) : AsciiFor u (fractionRun u).length := by
  unfold fractionRun
  split
  · next p d rest =>
    split
    · next h => exact (asciiFor_digitRun (d :: rest)).cons (h.1 ▸ by decide)
    · exact asciiFor_zero _
  · exact asciiFor_zero _

theorem asciiFor_sign {q : UInt8 → Bool} (hq : ∀ b, q b → b.toNat < 0x80) (u : List UInt8) :
    AsciiFor u ((u.take 1).filter q).length := by
  cases u with
  | nil => exact asciiFor_nil _
  | cons b u =>
    cases hb : q b with
    | true =>
      rw [List.take_succ_cons, List.take_zero, List.filter_cons_of_pos hb]
      exact (asciiFor_zero u).cons (hq b hb)
    | false =>
      rw [List.take_succ_cons, List.take_zero, List.filter_cons_of_neg (by simp [hb])]
      exact asciiFor_zero _

theorem asciiFor_exponentRun (u : List UInt8) : AsciiFor u (exponentRun u).length := by
  unfold exponentRun
  split
  · next e rest =>
    split
    · next he =>
      have hsign := asciiFor_sign (q := fun s => s = byte '+' || s = byte '-') (fun b hb => by
        rcases Bool.or_eq_true_iff.1 hb with hb | hb <;> rw [of_decide_eq_true hb] <;> decide) rest
      simp only
      split
      · rw [List.length_cons, List.length_append]
        exact (hsign.add (asciiFor_digitRun _)).cons (by rcases he with rfl | rfl <;> decide)
      · exact asciiFor_zero _
    · exact asciiFor_zero _
  · exact asciiFor_zero _

/-- Behind the `r` of a number with a base there are only more bytes of ASCII. -/
theorem more_scanRadix (negative : Bool) (head u : List UInt8) :
    ∃ n, (scanRadix negative head u).more = head.length + n ∧ AsciiFor u n := by
  simp only [scanRadix]
  split
  · refine ⟨_, ?_, asciiFor_radixDigits (decimalValue head) 0 false u⟩
    split <;> rfl
  · exact ⟨0, rfl, asciiFor_zero u⟩

/-- The sign and the digits that a number starts with are at least one byte, all of ASCII. -/
theorem asciiFor_numberHead {first : UInt8} {sign whole : List UInt8} (hfirst : isDigit first ∨ first = byte '-')
    (hsign : ((first :: rest).take 1).filter (· = byte '-') = sign) (hwhole : digitRun ((first :: rest).drop sign.length) = whole) :
    AsciiFor (first :: rest) (sign ++ whole).length ∧ 0 < (sign ++ whole).length := by
  constructor
  · rw [List.length_append, ← hwhole]
    refine AsciiFor.add ?_ (asciiFor_digitRun _)
    rw [← hsign]
    exact asciiFor_sign (fun b hb => by rw [of_decide_eq_true hb]; decide) _
  · by_cases hminus : first = byte '-'
    · obtain rfl : [byte '-'] = sign := by rw [← hsign, hminus]; rfl
      exact Nat.succ_pos _
    · have hdigit : isDigit first := hfirst.resolve_right hminus
      obtain rfl : [] = sign := by
        rw [← hsign, List.take_succ_cons, List.filter_cons_of_neg (by simp [hminus])]
        rfl
      rw [← hwhole, digitRun, List.length_nil, List.drop_zero, List.takeWhile_cons_of_pos (by rw [hdigit]; rfl)]
      exact Nat.succ_pos _

theorem asciiFor_number {first : UInt8} (hfirst : isDigit first ∨ first = byte '-') :
    AsciiFor (first :: rest) ((scanNumber (first :: rest)).more + 1) := by
  simp only [scanNumber]
  generalize hsign : ((first :: rest).take 1).filter (· = byte '-') = sign
  generalize hwhole : digitRun ((first :: rest).drop sign.length) = whole
  obtain ⟨hhead, hpos⟩ := asciiFor_numberHead hfirst hsign hwhole
  generalize sign ++ whole = head at hhead hpos
  have hgoes := fun m => hhead.add (m := m)
  generalize (first :: rest).drop head.length = left at hgoes
  split
  · next hr =>
    cases left with
    | nil => cases hr
    | cons r left =>
      obtain ⟨n, hmore, hn⟩ := more_scanRadix (!sign.isEmpty) head left
      have hmark : r.toNat < 0x80 := by
        rcases Bool.or_eq_true_iff.1 hr with h | h <;> rw [of_decide_eq_true h] <;> decide
      rw [List.tail_cons, hmore, Nat.add_assoc]
      exact hgoes _ (hn.cons hmark)
  · have hlength : (head ++ fractionRun left ++ exponentRun (left.drop (fractionRun left).length)).length - 1 + 1 =
        head.length + ((fractionRun left).length + (exponentRun (left.drop (fractionRun left).length)).length) := by
      rw [List.length_append, List.length_append]
      omega
    rw [hlength]
    exact hgoes _ ((asciiFor_fractionRun left).add (asciiFor_exponentRun _))

theorem number_not_verbatim (bytes : List UInt8) : (scanNumber bytes).kind.isVerbatim = false := by
  simp only [scanNumber]
  split
  · simp only [scanRadix]
    split
    · split <;> rfl
    · rfl
  · simp only
    split
    · unfold integerKind
      split <;> split <;> rfl
    · rfl

theorem whole_number {first : UInt8} (h : encode chars = first :: rest)
    (hnumber : isDigit first ∨ first = byte '-' ∧ atByte isDigit rest) : (scanNumber (first :: rest)).Whole chars := by
  refine .of_byAscii (number_not_verbatim _) ?_
  rw [h]
  exact (asciiFor_number (hnumber.imp_right And.left)).byAscii (List.cons_ne_nil _ _)

/-- Whatever is found at the front of a text takes whole characters of it. -/
theorem whole_of_scanned {first : UInt8} (hs : Scanned first rest s) (h : encode chars = first :: rest) : s.Whole chars := by
  cases hs with
  | lineComment hfirst hnext => exact whole_lineComment (hfirst ▸ h) hnext
  | blockComment hfirst hnext => exact whole_blockComment (hfirst ▸ h) hnext
  | string hfirst => exact whole_string (hfirst ▸ h)
  | symbol hfirst => exact whole_symbol (hfirst ▸ h)
  | character hfirst => exact whole_character (hfirst ▸ h)
  | sole hmark => exact whole_sole h hmark
  | bar hfirst =>
    subst hfirst
    exact .of_ascii [byte '|'] h (List.all_iff_forall_prop.1 (by decide)) rfl (by decide) rfl
  | number hnumber => exact whole_number h hnumber
  | colon hfirst => exact whole_colon (hfirst ▸ h)
  | operator hop => exact whole_operator h hop
  | word hword =>
    rw [← h] at hword ⊢
    exact whole_word hword
  | unexpected =>
    rw [← h]
    exact whole_unexpected (by rw [h]; exact List.cons_ne_nil _ _)

end Scan

/-! ## All tokens of a text -/

/-- A token stands on whole characters of a text, and keeps them if it is to be read as written. -/
def Token.KeepsIn (t : Token) (source : List Char) : Prop :=
  ∃ before text after, source = before ++ text ++ after ∧ t.span.start.offset = (encode before).length ∧
    t.span.stop.offset = (encode (before ++ text)).length ∧
    (t.kind.isVerbatim → t.lexeme = String.ofList text ∧ t.kind.spelling = String.ofList text)

/-- A lexer has read some characters of a text. -/
def Lexer.Within (l : Lexer) (source : List Char) : Prop :=
  ∃ done left, source = done ++ left ∧ l.rest = encode left ∧ l.position.offset = (encode done).length

/-- The next token of a lexer that stands between two characters, and the lexer behind it. -/
theorem Lexer.Within.nextToken {l : Lexer} {source : List Char} (h : l.Within source) :
    l.nextToken.1.KeepsIn source ∧ l.nextToken.2.Within source := by
  obtain ⟨done, left, rfl, hrest, hoffset⟩ := h
  -- Blanks are characters of ASCII.
  have hsplit : encode left = l.rest.takeWhile isBlank ++ l.rest.dropWhile isBlank := by
    rw [List.takeWhile_append_dropWhile, hrest]
  have hblank : ∀ b, isBlank b → b.toNat < 0x80 := forall_blank (by decide)
  have hascii : ∀ b ∈ l.rest.takeWhile isBlank, b.toNat < 0x80 :=
    fun b hb => hblank b (List.all_eq_true.1 List.all_takeWhile b hb)
  obtain ⟨ahead, rfl, hahead⟩ := exists_of_ascii hsplit hascii
  have hblanks := encode_asciiChars hascii
  generalize (l.rest.takeWhile isBlank).map asciiChar = blanks at hblanks hsplit hrest
  have hstart : (l.position.advance (l.rest.takeWhile isBlank)).offset = (encode (done ++ blanks)).length := by
    rw [Position.offset_advance, hoffset, ← hblanks, encode_append, List.length_append]
  cases hdrop : l.rest.dropWhile isBlank with
  | nil =>
    have hnone : ahead = [] := by
      cases ahead with
      | nil => rfl
      | cons c ahead =>
        rw [hdrop, encode_cons] at hahead
        exact absurd (List.append_eq_nil_iff.1 hahead.symm).1 String.utf8EncodeChar_ne_nil
    subst hnone
    rw [Lexer.nextToken, hdrop]
    refine ⟨⟨done ++ blanks, [], [], ?_, hstart, ?_, by simp [TokenKind.isVerbatim]⟩, done ++ blanks, [], ?_, rfl, hstart⟩
    · simp only [List.append_nil]
    · rw [List.append_nil]
      exact hstart
    · simp only [List.append_nil]
  | cons first rest =>
    have hfinds := Lexer.finds hdrop
    generalize scan l.afterOperand first rest = found at hfinds
    have hbytes := hahead.symm.trans hdrop
    obtain ⟨text, after, rfl, htaken, hverbatim⟩ := Scan.whole_of_scanned hfinds.scanned hbytes
    rw [hbytes, List.take_succ_cons] at htaken
    have hafter : rest.drop found.more = encode after := by
      rw [encode_append, ← htaken] at hbytes
      have hcut : first :: rest = (first :: rest.take found.more) ++ rest.drop found.more := by
        rw [List.cons_append, List.take_append_drop]
      exact (List.append_cancel_left (hbytes.trans hcut)).symm
    have hstop : l.nextToken.1.span.stop.offset = (encode (done ++ blanks ++ text)).length := by
      rw [hfinds.stop, hfinds.start, Position.offset_advance, hstart, htaken, encode_append (done ++ blanks), List.length_append]
    have hsource : done ++ (blanks ++ (text ++ after)) = done ++ blanks ++ text ++ after := by simp only [List.append_assoc]
    refine ⟨⟨done ++ blanks, text, after, hsource, hfinds.start ▸ hstart, hstop, ?_⟩, done ++ blanks ++ text, after, hsource, ?_, ?_⟩
    · rw [hfinds.kind, hfinds.lexeme]
      exact hverbatim
    · rw [hfinds.rest, hafter]
    · rw [hfinds.position, hstop]

theorem Lexer.Reads.within {l l₁ : Lexer} {ts : List Token} {source : List Char} (h : l.Reads ts l₁) (hl : l.Within source) :
    l₁.Within source := by
  induction h with
  | nil => exact hl
  | cons _ _ ih => exact ih hl.nextToken.2

/-- In a source text every token starts and ends between two characters. Names, keywords, parameters, reserved words, symbols,
characters, operators and punctuation keep the text they stand on, and that text is how they are written. -/
theorem tokens_keep_characters (source : String) (t : Token) (ht : t ∈ tokenize (utf8 source)) :
    ∃ before text after : String, source = before ++ text ++ after ∧ t.span.start.offset = before.utf8ByteSize ∧
      t.span.stop.offset = (before ++ text).utf8ByteSize ∧ (t.kind.isVerbatim → t.lexeme = text ∧ t.kind.spelling = text) := by
  obtain ⟨ts, l, hreads, -, rfl⟩ := Lexer.Reads.of_mem_run ht
  have hbegin : (Lexer.ofBytes (utf8 source)).Within source.toList := ⟨[], source.toList, rfl, utf8_eq_encode source, rfl⟩
  obtain ⟨before, text, after, hsource, hstart, hstop, hkept⟩ := (hreads.within hbegin).nextToken.1
  refine ⟨String.ofList before, String.ofList text, String.ofList after, ?_, ?_, ?_, hkept⟩
  · rw [← String.ofList_append, ← String.ofList_append, ← hsource, String.ofList_toList]
  · rw [hstart, ← length_encode, String.toList_ofList]
  · rw [hstop, ← length_encode, ← String.ofList_append, String.toList_ofList]

/-- A name and a character beyond ASCII. -/
theorem tokens_keep_characters_accents : ∃ name ∈ tokenize (utf8 "été $λ"), ∃ literal ∈ tokenize (utf8 "été $λ"),
    name.kind = .identifier "été" ∧ name.lexeme = "été" ∧ literal.kind = .character 'λ' ∧ literal.lexeme = "$λ" ∧
    ∃ before after : String, "été $λ" = before ++ literal.lexeme ++ after ∧ literal.span.start.offset = before.utf8ByteSize := by
  have htext : spell [.identifier "été", .character 'λ'] = "été $λ" := by decide +kernel
  have hkinds : (tokenize (utf8 "été $λ")).map (·.kind) = [.identifier "été", .character 'λ', .endOfInput] := by
    rw [← htext]
    refine run_spell (l := .ofBytes (utf8 (spell _))) rfl rfl ?_ (by decide +kernel) nofun
    simp only [List.forall_mem_cons]
    exact ⟨.identifier ⟨_, _, rfl, by decide +kernel, by decide +kernel⟩ (not_isReserved (by decide)), .character _, nofun⟩
  have hread : ∀ k ∈ [TokenKind.identifier "été", .character 'λ'], ∃ t ∈ tokenize (utf8 "été $λ"), t.kind = k := by
    intro k hk
    exact List.mem_map.1 (hkinds ▸ List.mem_append_left [TokenKind.endOfInput] hk)
  obtain ⟨name, hname, hkind⟩ := hread (.identifier "été") List.mem_cons_self
  obtain ⟨literal, hliteral, hkind'⟩ := hread (.character 'λ') (List.mem_cons_of_mem _ List.mem_cons_self)
  obtain ⟨-, text, -, -, -, -, hkept⟩ := tokens_keep_characters _ name hname
  obtain ⟨before, text', after, hsource, hstart, -, hkept'⟩ := tokens_keep_characters _ literal hliteral
  rw [hkind] at hkept
  rw [hkind'] at hkept'
  obtain ⟨hlexeme, hspelling⟩ := hkept rfl
  obtain ⟨hlexeme', hspelling'⟩ := hkept' rfl
  exact ⟨name, hname, literal, hliteral, hkind, hlexeme.trans hspelling.symm, hkind', hlexeme'.trans hspelling'.symm,
    before, after, hlexeme'.symm ▸ hsource, hstart⟩

end BlockScope
