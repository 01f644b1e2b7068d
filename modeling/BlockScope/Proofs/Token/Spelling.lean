import BlockScope.Proofs.Token.Lookahead
import BlockScope.Proofs.Token.Stepwise
import Mathlib.Data.Bool.AllAny
import Mathlib.Data.List.Chain
import Mathlib.Data.List.TakeWhile
/-!
# Writing tokens and reading them back

Tokens written one behind the other with a space between them are read back as they were. A token is read the same
whatever follows its text behind a space (`Spells`), so each kind is settled on its own. Only a minus needs a look back: behind
the end of an operand it is no sign, so no negative number can be written there.
-/
namespace BlockScope
open Text

/-! ## How tokens are written -/

/-- Starts as a word does and goes on with characters of a class. -/
def IsWord (p : Char → Bool) (name : String) : Prop :=
  ∃ c chars, name.toList = c :: chars ∧ startsWord c ∧ chars.all p

/-- May stand in a symbol. -/
def isSymbolChar (c : Char) : Bool := isWordChar c || c = ':'

/-- A run of operator characters. -/
def IsOperatorRun (name : String) : Prop := name ≠ "" ∧ name.toList.all isOperatorChar

/-- A backslash in front of every backslash and every quote. -/
def escaped (chars : List Char) : List Char := chars.flatMap fun c => if c = '"' ∨ c = '\\' then ['\\', c] else [c]

namespace TokenKind

/-- The text of a token. Floats are not written here, and comments, the end of input and errors are nothing to write. -/
def spelling : TokenKind → String
  | .integer value => toString value.toInt
  | .string value => "\"" ++ String.ofList (escaped value.toList) ++ "\""
  | .symbol name => "#" ++ name
  | .character value => "$" ++ value.toString
  | .identifier name | .keyword name | .operator name => name
  | .argument name => ":" ++ name
  | .reserved word => word.spelling
  | .mark m => m.spelling
  | .float _ | .lineComment _ | .blockComment _ | .endOfInput | .error _ => ""

/-- The tokens that can be written, by what a name of their kind may be. -/
inductive Writable : TokenKind → Prop where
  | integer (value : Int64) : Writable (.integer value)
  | string (value : String) : Writable (.string value)
  | character (value : Char) : Writable (.character value)
  | reserved (word : Reserved) : Writable (.reserved word)
  | mark (m : Mark) : Writable (.mark m)
  | identifier {name : String} (hword : IsWord isWordChar name) (hfree : ¬ IsReserved name) : Writable (.identifier name)
  | keyword {word : String} (hword : IsWord isWordChar word) : Writable (.keyword (word ++ ":"))
  | argument {name : String} (hword : IsWord isWordChar name) : Writable (.argument name)
  | symbol {name : String} (hword : IsWord isSymbolChar name) : Writable (.symbol name)
  | operatorSymbol {name : String} (hrun : IsOperatorRun name) : Writable (.symbol name)
  /-- A lone bar is a mark, and two of the pairs of operator characters open a comment. -/
  | operator {name : String} (hrun : IsOperatorRun name) (hbar : name ≠ "|") (hline : ¬ ['/', '/'] <:+: name.toList)
    (hblock : ¬ ['/', '*'] <:+: name.toList) : Writable (.operator name)

/-- Is written with a sign. -/
def isNegative : TokenKind → Bool
  | .integer value => value.toInt < 0
  | _ => false

/-- The tokens that can be written behind another: where an operand ends, a minus is no sign. -/
def MayPrecede (k next : TokenKind) : Prop := k.endsOperand → next.isNegative = false

instance : DecidableRel MayPrecede := fun k next => inferInstanceAs (Decidable (k.endsOperand → next.isNegative = false))

end TokenKind

/-- Some tokens with a space between them. -/
def spell (kinds : List TokenKind) : String := " ".intercalate (kinds.map TokenKind.spelling)

/-! ## Bytes -/

/-- A property of bytes that is checked for every one. -/
theorem forall_byte {P : UInt8 → Prop} (h : ∀ n < 256, P (UInt8.ofNat n)) (b : UInt8) : P b := by
  have := h b.toNat b.toNat_lt
  rwa [UInt8.ofNat_toNat] at this

/-- A property of blanks that is checked for every one. -/
theorem forall_blank {P : UInt8 → Prop} [DecidablePred P] (h : ([0x20, 0x09, 0x0A, 0x0B, 0x0C, 0x0D] : List UInt8).all fun b => P b)
    (b : UInt8) (hb : isBlank b) : P b :=
  List.all_iff_forall_prop.1 h b (mem_blanks hb)

/-- A property of operator bytes that is checked for every one. -/
theorem forall_operator {P : UInt8 → Prop} [DecidablePred P]
    (h : ['!', '@', '%', '&', '*', '-', '+', '=', '~', '/', '?', '<', '>', ',', '|', '\\'].all fun c => P (byte c)) (b : UInt8)
    (hb : isOperatorByte b) : P b := by
  obtain ⟨c, hc, heq⟩ := List.any_eq_true.1 hb
  rw [of_decide_eq_true heq]
  exact List.all_iff_forall_prop.1 h c hc

theorem toNat_byte {c : Char} (h : c.toNat < 0x80) : (byte c).toNat = c.toNat := by
  rw [byte, Nat.toUInt8_eq, UInt8.toNat_ofNat']
  omega

theorem encodeChar_ascii {c : Char} (h : c.toNat < 0x80) : String.utf8EncodeChar c = [byte c] := by
  obtain ⟨b, hb, henc⟩ := encodeChar_eq_singleton h
  rw [henc, UInt8.toNat_inj.1 (hb.trans (toNat_byte h).symm)]

theorem encode_ascii {chars : List Char} (h : ∀ c ∈ chars, c.toNat < 0x80) : encode chars = chars.map byte := by
  induction chars with
  | nil => rfl
  | cons c chars ih =>
    rw [encode_cons, encodeChar_ascii (h c List.mem_cons_self), ih fun d hd => h d (List.mem_cons_of_mem c hd)]
    rfl

theorem utf8_ascii {text : String} (h : text.toList.all (·.toNat < 0x80)) : utf8 text = text.toList.map byte := by
  rw [utf8_eq_encode, encode_ascii (List.all_iff_forall_prop.1 h)]

theorem latin1_ascii {chars : List Char} (h : ∀ c ∈ chars, c.toNat < 0x80) : latin1 (chars.map byte) = String.ofList chars := by
  have hchars : ∀ c ∈ chars, ((fun b : UInt8 => Char.ofNat b.toNat) ∘ byte) c = c := by
    intro c hc
    rw [Function.comp_apply, toNat_byte (h c hc), Char.ofNat_toNat]
  rw [latin1, List.map_map, List.map_congr_left hchars, List.map_id']

theorem byte_inj {c d : Char} (hc : c.toNat < 0x80) (hd : d.toNat < 0x80) (h : byte c = byte d) : c = d := by
  rw [← UInt8.toNat_inj, toNat_byte hc, toNat_byte hd] at h
  rw [← Char.ofNat_toNat c, h, Char.ofNat_toNat]

/-- The bytes that start anything but a word. -/
def isSpecial (b : UInt8) : Bool :=
  isBlank b || isDigit b || isOperatorByte b || soleBytes.contains b || b = byte '"' || b = byte '#' || b = byte '$' || b = byte ':'

theorem routeOf_plain {b : UInt8} (h : isSpecial b = false) (op : Bool) (rest : List UInt8) :
    routeOf op b rest = if atWord (b :: rest) then .word else .unexpected := by
  simp only [isSpecial, Bool.or_eq_false_iff, decide_eq_false_iff_not] at h
  obtain ⟨⟨⟨⟨⟨⟨⟨-, hdigit⟩, hop⟩, hmark⟩, hquote⟩, hhash⟩, hdollar⟩, hcolon⟩ := h
  have hsole := soleMark_eq_none (b := b) (by simpa using hmark)
  have hne : ∀ c, isOperatorByte (byte c) → b ≠ byte c := by
    rintro c hc rfl
    rw [hop] at hc
    cases hc
  unfold routeOf
  simp only [hne '/' (by decide), hne '|' (by decide), hne '-' (by decide), hquote, hhash, hdollar, hcolon, hsole, hdigit, hop,
    false_and, false_or, if_false, Bool.false_eq_true]

theorem startsWord_special {b : UInt8} (h : isSpecial b) : b.toNat < 0x80 ∧ startsWord (Char.ofNat b.toNat) = false := by
  have hchecked : ∀ b, isBlank b || isDigit b → b.toNat < 0x80 ∧ startsWord (Char.ofNat b.toNat) = false :=
    forall_byte (by decide +kernel)
  have hoperator : ∀ b, isOperatorByte b → b.toNat < 0x80 ∧ startsWord (Char.ofNat b.toNat) = false :=
    forall_operator (by decide)
  have hlisted : ∀ b ∈ soleBytes ++ [byte '"', byte '#', byte '$', byte ':'],
      b.toNat < 0x80 ∧ startsWord (Char.ofNat b.toNat) = false := List.all_iff_forall_prop.1 (by decide)
  by_cases hclass : isBlank b || isDigit b
  · exact hchecked b hclass
  by_cases hop : isOperatorByte b
  · exact hoperator b hop
  · refine hlisted b ?_
    simpa only [isSpecial, hclass, hop, Bool.false_or, Bool.or_eq_true_iff, decide_eq_true_iff, List.contains_iff_mem, or_assoc,
      List.mem_append, List.mem_cons, List.not_mem_nil, or_false] using h

/-! ## What follows a token -/

/-- Begins with a space if with anything. -/
def Spaced (z : List UInt8) : Prop := ∀ b ∈ z.head?, b = 0x20

/-- Read as one token of this kind, whatever follows behind a space. -/
structure Spells (op : Bool) (k : TokenKind) (first : UInt8) (rest : List UInt8) : Prop where
  visible : isBlank first = false
  found {z : List UInt8} (hz : Spaced z) : ∃ lexeme, scan op first (rest ++ z) = ⟨k, lexeme, rest.length⟩

section
variable {z : List UInt8} {name : String} {p : Char → Bool} {q : UInt8 → Bool} {op : Bool}

theorem Spaced.ends (hz : Spaced z) : Ends z := fun b hb => .inl (hz b hb)

theorem Spaced.cases (hz : Spaced z) : z = [] ∨ ∃ rest, z = 0x20 :: rest := by
  cases z with
  | nil => exact .inl rfl
  | cons b rest => exact .inr ⟨rest, by rw [hz b rfl]⟩

theorem Spaced.not_at (hz : Spaced z) (hspace : q 0x20 = false) : atByte q z = false := by
  rcases hz.cases with rfl | ⟨rest, rfl⟩
  · rfl
  · exact hspace

/-! ## Words -/

/-- The first byte of a word starts nothing else, and the text there is taken for a word. -/
theorem IsWord.leads (h : IsWord p name) :
    ∃ first rest, utf8 name = first :: rest ∧ isSpecial first = false ∧ ∀ z, atWord (first :: (rest ++ z)) := by
  obtain ⟨c, chars, hname, hc, -⟩ := h
  have henc := encodes c
  cases hbytes : String.utf8EncodeChar c with
  | nil => exact absurd hbytes String.utf8EncodeChar_ne_nil
  | cons first bytes =>
    rw [hbytes] at henc
    refine ⟨first, bytes ++ encode chars, by rw [utf8_eq_encode, hname, encode_cons, hbytes]; rfl, ?_, fun z => ?_⟩
    · -- A byte below 0x80 is the character itself.
      refine Bool.eq_false_iff.2 fun hspecial => ?_
      obtain ⟨hlt, hword⟩ := startsWord_special hspecial
      by_cases hascii : c.toNat < 0x80
      · rw [encodeChar_ascii hascii] at hbytes
        obtain rfl : byte c = first := (List.cons.inj hbytes).1
        rw [toNat_byte hascii, Char.ofNat_toNat, hc] at hword
        cases hword
      · exact absurd (henc.high (Nat.not_lt.1 hascii) first List.mem_cons_self) (Nat.not_le.2 hlt)
    · rw [atWord, List.append_assoc, ← List.cons_append, decode_encodes henc]
      exact hc

theorem charRun_encode {chars : List Char} (h : ∀ c ∈ chars, p c) (hz : charRun p z = ([], 0)) :
    charRun p (encode chars ++ z) = (chars, (encode chars).length) := by
  induction chars with
  | nil => exact hz
  | cons c chars ih =>
    rw [encode_cons, List.append_assoc, charRun_form (encodes c).form (h c List.mem_cons_self),
      ih fun d hd => h d (List.mem_cons_of_mem c hd), List.length_append]

theorem IsWord.run (h : IsWord p name) (hp : ∀ c, startsWord c → p c) (hz : charRun p z = ([], 0)) :
    charRun p (utf8 name ++ z) = (name.toList, (utf8 name).length) := by
  obtain ⟨c, chars, hname, hc, hchars⟩ := h
  rw [utf8_eq_encode]
  refine charRun_encode (fun d hd => ?_) hz
  rw [hname] at hd
  rcases List.mem_cons.1 hd with rfl | hd
  · exact hp d hc
  · exact List.all_eq_true.1 hchars d hd

theorem charRun_colon (z : List UInt8) : charRun isWordChar (byte ':' :: z) = ([], 0) :=
  charRun_of_decode (c := ':') rfl colon_not_wordChar

/-- What a word is that stands on its own. -/
def wordKind (name : String) : TokenKind :=
  match Reserved.ofSpelling? name with
  | some reserved => .reserved reserved
  | none => .identifier name

theorem scanWord_spaced (h : IsWord isWordChar name) (hz : Spaced z) :
    scanWord (utf8 name ++ z) = ⟨wordKind name, name, (utf8 name).length - 1⟩ := by
  have hrun := h.run (fun _ => startsWord_wordChar) (charRun_ends hz.ends wordChar_ends.1 wordChar_ends.2)
  unfold scanWord
  rw [hrun]
  simp only [String.ofList_toList, List.drop_left]
  rw [hz.not_at (by decide), Bool.false_and, if_neg Bool.false_ne_true]
  rfl

theorem scanWord_colon (h : IsWord isWordChar name) (hz : Spaced z) :
    scanWord (utf8 name ++ byte ':' :: z) = ⟨.keyword (name ++ ":"), name ++ ":", (utf8 name).length⟩ := by
  have hrun := h.run (fun _ => startsWord_wordChar) (charRun_colon z)
  unfold scanWord
  rw [hrun]
  simp only [String.ofList_toList, List.drop_left, List.tail_cons]
  rw [hz.not_at (by decide)]
  rfl

/-- Any scan that starts with a word. -/
theorem scan_word {first : UInt8} {rest : List UInt8} (h : isSpecial first = false) (hword : atWord (first :: rest)) :
    scan op first rest = scanWord (first :: rest) := by
  rw [scan_eq_route, routeOf_plain h, if_pos hword]
  rfl

theorem visible_of_not_special {first : UInt8} (h : isSpecial first = false) : isBlank first = false := by
  refine Bool.eq_false_iff.2 fun hblank => ?_
  rw [isSpecial, hblank] at h
  cases h

theorem spells_word {k : TokenKind} (h : IsWord isWordChar name) (hk : wordKind name = k) :
    ∃ first rest, utf8 name = first :: rest ∧ Spells op k first rest := by
  obtain ⟨first, rest, hname, hspecial, hword⟩ := h.leads
  refine ⟨first, rest, hname, visible_of_not_special hspecial, fun {z} hz => ⟨name, ?_⟩⟩
  rw [scan_word hspecial (hword z), ← List.cons_append, ← hname, scanWord_spaced h hz, hk, hname]
  rfl

theorem utf8_colon : utf8 ":" = [byte ':'] := utf8_ascii (by decide)

theorem spells_keyword (h : IsWord isWordChar name) : ∃ first rest, utf8 (name ++ ":") = first :: rest ∧
    Spells op (.keyword (name ++ ":")) first rest := by
  obtain ⟨first, rest, hname, hspecial, hword⟩ := h.leads
  refine ⟨first, rest ++ [byte ':'], by rw [utf8_append, hname, utf8_colon]; rfl, visible_of_not_special hspecial,
    fun {z} hz => ⟨name ++ ":", ?_⟩⟩
  rw [List.append_assoc, List.singleton_append, scan_word hspecial (hword _), ← List.cons_append, ← hname,
    scanWord_colon h hz, hname, List.length_append]
  rfl

/-- At a word there is no byte that starts anything else. -/
theorem IsWord.not_at (h : IsWord p name) {b : UInt8} (hb : isSpecial b) (z : List UInt8) :
    atByte (· = b) (utf8 name ++ z) = false := by
  obtain ⟨first, rest, hname, hspecial, -⟩ := h.leads
  rw [hname]
  refine decide_eq_false ?_
  rintro rfl
  rw [hspecial] at hb
  cases hb

theorem IsWord.at (h : IsWord p name) (z : List UInt8) : atWord (utf8 name ++ z) := by
  obtain ⟨first, rest, hname, -, hword⟩ := h.leads
  rw [hname]
  exact hword z

theorem scan_colon (rest : List UInt8) : scan op (byte ':') rest = scanColon rest := rfl

theorem scan_hash (rest : List UInt8) : scan op (byte '#') rest = scanSymbol rest := rfl

theorem spells_argument (h : IsWord isWordChar name) : Spells op (.argument name) (byte ':') (utf8 name) := by
  refine ⟨rfl, fun {z} hz => ⟨":" ++ name, ?_⟩⟩
  have hrun := h.run (fun _ => startsWord_wordChar) (charRun_ends hz.ends wordChar_ends.1 wordChar_ends.2)
  rw [scan_colon, scanColon, h.not_at (by decide), if_neg Bool.false_ne_true, if_pos (h.at z), hrun]
  simp only [String.ofList_toList]

theorem spells_symbol (h : IsWord isSymbolChar name) : Spells op (.symbol name) (byte '#') (utf8 name) := by
  have hends : isSymbolChar ' ' = false ∧ isSymbolChar '/' = false := by simp [isSymbolChar, wordChar_ends]
  refine ⟨rfl, fun {z} hz => ⟨"#" ++ name, ?_⟩⟩
  have hrun := h.run (fun c hc => by rw [isSymbolChar, startsWord_wordChar hc]; rfl) (charRun_ends hz.ends hends.1 hends.2)
  rw [scan_hash, scanSymbol, h.not_at (by decide), if_neg Bool.false_ne_true, if_pos (h.at z)]
  rw [show (fun c => isWordChar c || c = ':') = isSymbolChar from rfl, hrun]
  simp only [String.ofList_toList]

/-! ## Operators -/

theorem isOperatorChar_iff {c : Char} : isOperatorChar c ↔ c.toNat < 0x80 ∧ isOperatorByte (byte c) := by
  rw [isOperatorChar, Bool.and_eq_true_iff, decide_eq_true_iff]

theorem IsOperatorRun.chars (h : IsOperatorRun name) : ∀ c ∈ name.toList, isOperatorChar c := List.all_eq_true.1 h.2

theorem IsOperatorRun.ascii (h : IsOperatorRun name) : ∀ c ∈ name.toList, c.toNat < 0x80 :=
  fun c hc => (isOperatorChar_iff.1 (h.chars c hc)).1

theorem IsOperatorRun.bytes (h : IsOperatorRun name) : utf8 name = name.toList.map byte :=
  utf8_ascii (List.all_iff_forall_prop.2 h.ascii)

theorem IsOperatorRun.cons (h : IsOperatorRun name) : ∃ c chars, name.toList = c :: chars := by
  cases hname : name.toList with
  | nil => exact absurd (String.toList_eq_nil_iff.1 hname) h.1
  | cons c chars => exact ⟨c, chars, rfl⟩

theorem takeWhile_operator {chars : List Char} (h : ∀ c ∈ chars, isOperatorChar c) (hz : Spaced z) :
    (chars.map byte ++ z).takeWhile isOperatorByte = chars.map byte := by
  have hall : ∀ b ∈ chars.map byte, isOperatorByte b := by
    intro b hb
    obtain ⟨c, hc, rfl⟩ := List.mem_map.1 hb
    exact (isOperatorChar_iff.1 (h c hc)).2
  rw [List.takeWhile_append_of_pos hall]
  rcases hz.cases with rfl | ⟨rest, rfl⟩
  · exact List.append_nil _
  · rw [List.takeWhile_cons_of_neg (by decide), List.append_nil]

theorem IsOperatorRun.read (h : IsOperatorRun name) : latin1 (utf8 name) = name := by
  rw [h.bytes, latin1_ascii h.ascii, String.ofList_toList]

/-- At a run of operator characters there is neither a parenthesis nor a word. -/
theorem IsOperatorRun.leads (h : IsOperatorRun name) (z : List UInt8) : atByte (· = byte '(') (utf8 name ++ z) = false ∧
    atWord (utf8 name ++ z) = false ∧ atByte isOperatorByte (utf8 name ++ z) := by
  obtain ⟨c, chars, hname⟩ := h.cons
  have hc : isOperatorChar c := h.chars c (hname ▸ List.mem_cons_self)
  obtain ⟨hascii, hbyte⟩ := isOperatorChar_iff.1 hc
  have hd := decode_encodes (encodes c) (chars.map byte ++ z)
  rw [encodeChar_ascii hascii, List.singleton_append] at hd
  rw [h.bytes, hname, List.map_cons, List.cons_append]
  refine ⟨decide_eq_false fun hparen => ?_, Bool.eq_false_iff.2 fun hword => ?_, hbyte⟩
  · rw [hparen] at hbyte
    exact absurd hbyte (by decide)
  · rw [atWord, hd] at hword
    have := startsWord_wordChar hword
    rw [operatorChar_not_wordChar hc] at this
    cases this

theorem spells_operatorSymbol (h : IsOperatorRun name) : Spells op (.symbol name) (byte '#') (utf8 name) := by
  refine ⟨rfl, fun {z} hz => ⟨"#" ++ name, ?_⟩⟩
  obtain ⟨hparen, hword, hop⟩ := h.leads z
  have hrun := takeWhile_operator h.chars hz
  rw [← h.bytes] at hrun
  rw [scan_hash, scanSymbol, hparen, if_neg Bool.false_ne_true, hword, if_neg Bool.false_ne_true, if_pos hop]
  simp only [hrun, h.read]

/-- Operator characters without one of the two pairs are taken to their end. -/
theorem operatorRun_spaced {chars : List Char} (h : ∀ c ∈ chars, isOperatorChar c) (hline : ¬ ['/', '/'] <:+: chars)
    (hblock : ¬ ['/', '*'] <:+: chars) (hz : Spaced z) : operatorRun (chars.map byte ++ z) = chars.map byte := by
  induction chars with
  | nil =>
    rcases hz.cases with rfl | ⟨rest, rfl⟩
    · rfl
    · rfl
  | cons c chars ih =>
    obtain ⟨hascii, hbyte⟩ := isOperatorChar_iff.1 (h c List.mem_cons_self)
    have ih := ih (fun d hd => h d (List.mem_cons_of_mem c hd)) (fun hin => hline (hin.trans (List.suffix_cons c chars).isInfix))
      (fun hin => hblock (hin.trans (List.suffix_cons c chars).isInfix))
    have hopen : (byte c = byte '/' && opensComment (chars.map byte ++ z)) = false := by
      refine Bool.eq_false_iff.2 fun hopen => ?_
      obtain ⟨hslash, hopens⟩ := Bool.and_eq_true_iff.1 hopen
      obtain rfl : c = '/' := byte_inj hascii (by decide) (of_decide_eq_true hslash)
      cases chars with
      | nil =>
        rw [List.map_nil, List.nil_append, opensComment, hz.not_at (by decide)] at hopens
        cases hopens
      | cons d chars =>
        have hd := (isOperatorChar_iff.1 (h d (List.mem_cons_of_mem _ List.mem_cons_self))).1
        rcases Bool.or_eq_true_iff.1 hopens with heq | heq
        · rw [byte_inj hd (by decide) (of_decide_eq_true heq)] at hline
          exact hline ⟨[], chars, rfl⟩
        · rw [byte_inj hd (by decide) (of_decide_eq_true heq)] at hblock
          exact hblock ⟨[], chars, rfl⟩
    rw [List.map_cons, List.cons_append, operatorRun, hbyte, hopen, ih]
    rfl

theorem of_operatorRun_cons {b : UInt8} {rest run : List UInt8} (h : operatorRun (b :: rest) = b :: run) :
    isOperatorByte b ∧ (b = byte '/' → opensComment rest = false) ∧ operatorRun rest = run := by
  rw [operatorRun] at h
  split at h
  · next hb =>
    obtain ⟨hop, hopen⟩ := Bool.and_eq_true_iff.1 hb
    refine ⟨hop, fun hslash => ?_, (List.cons.inj h).2⟩
    simpa [hslash] using hopen
  · cases h

/-- An operator byte is in no other class. -/
theorem operator_classes : ∀ b, isOperatorByte b → isBlank b = false ∧ isDigit b = false ∧ b ∉ soleBytes ∧
    b ≠ byte '"' ∧ b ≠ byte '#' ∧ b ≠ byte '$' ∧ b ≠ byte ':' :=
  forall_operator (by decide)

theorem routeOf_operator {b : UInt8} {rest : List UInt8} (h : isOperatorByte b)
    (hcomment : b = byte '/' → opensComment rest = false) (hbar : b = byte '|' → atByte isOperatorByte rest)
    (hdigit : atByte isDigit rest = false) : routeOf op b rest = .operator := by
  obtain ⟨-, hnone, hmark, hquote, hhash, hdollar, hcolon⟩ := operator_classes b h
  have hopen : ∀ c : Char, c = '/' ∨ c = '*' → ¬ (b = byte '/' ∧ atByte (· = byte c) rest) := by
    rintro c hc ⟨hslash, hat⟩
    have hopens := hcomment hslash
    cases rest with
    | nil => cases hat
    | cons d rest =>
      rw [of_decide_eq_true hat] at hopens
      rcases hc with rfl | rfl <;> cases hopens
  have hbars : ¬ (b = byte '|' ∧ !atByte isOperatorByte rest) := by
    rintro ⟨heq, hat⟩
    rw [hbar heq] at hat
    cases hat
  rw [routeOf, if_neg (hopen '/' (.inl rfl)), if_neg (hopen '*' (.inr rfl)), if_neg hquote, if_neg hhash, if_neg hdollar,
    soleMark_eq_none hmark]
  simp only
  rw [if_neg hbars, hnone, hdigit, if_neg (by simp), if_neg hcolon, if_pos h]

theorem spells_operator (h : IsOperatorRun name) (hbar : name ≠ "|") (hline : ¬ ['/', '/'] <:+: name.toList)
    (hblock : ¬ ['/', '*'] <:+: name.toList) :
    ∃ first rest, utf8 name = first :: rest ∧ Spells op (.operator name) first rest := by
  obtain ⟨c, chars, hname⟩ := h.cons
  have hall := h.chars
  rw [hname] at hall
  have hbyte : ∀ d ∈ c :: chars, isOperatorByte (byte d) := fun d hd => (isOperatorChar_iff.1 (hall d hd)).2
  have hutf8 : utf8 name = byte c :: chars.map byte := by
    rw [h.bytes, hname]
    rfl
  refine ⟨byte c, chars.map byte, hutf8, (operator_classes _ (hbyte c List.mem_cons_self)).1, fun {z} hz => ⟨name, ?_⟩⟩
  have hrun := operatorRun_spaced h.chars hline hblock hz
  rw [hname, List.map_cons, List.cons_append] at hrun
  obtain ⟨hop, hcomment, hmore⟩ := of_operatorRun_cons hrun
  have hdigit : atByte isDigit (chars.map byte ++ z) = false := by
    cases chars with
    | nil => exact hz.not_at (by decide)
    | cons d chars => exact (operator_classes _ (hbyte d (List.mem_cons_of_mem c List.mem_cons_self))).2.1
  have hbars : byte c = byte '|' → atByte isOperatorByte (chars.map byte ++ z) := by
    intro heq
    cases chars with
    | nil =>
      have hc : c = '|' := byte_inj (isOperatorChar_iff.1 (hall c List.mem_cons_self)).1 (by decide) heq
      exact absurd (String.toList_injective (hname.trans (by rw [hc]; rfl))) hbar
    | cons d chars => exact hbyte d (List.mem_cons_of_mem c List.mem_cons_self)
  rw [scan_eq_route, routeOf_operator hop hcomment hbars hdigit, Route.scan, scanOperator, hmore, ← hutf8, h.read]

/-! ## Characters and strings -/

theorem scan_dollar (rest : List UInt8) : scan op (byte '$') rest = scanCharacter rest := rfl

theorem spells_character (c : Char) : Spells op (.character c) (byte '$') (String.utf8EncodeChar c) := by
  refine ⟨rfl, fun {z} _ => ⟨"$" ++ c.toString, ?_⟩⟩
  have hpos : 0 < (String.utf8EncodeChar c).length := List.length_pos_iff.2 String.utf8EncodeChar_ne_nil
  rw [scan_dollar, scanCharacter, decode_encodes (encodes c)]
  simp only
  rw [Nat.sub_add_cancel hpos]

/-- What a string is read as: its bytes and how many there are up to the closing quote. -/
def StringBody.Holds (body : StringBody) (value : List UInt8) (taken : Nat) : Prop :=
  body.value = value ∧ body.taken = taken ∧ body.fault = none

theorem StringBody.Holds.plain {bytes rest value : List UInt8} {taken : Nat} (h : ∀ b ∈ bytes, b ≠ byte '"' ∧ b ≠ byte '\\')
    (hrest : (stringBody rest).Holds value taken) : (stringBody (bytes ++ rest)).Holds (bytes ++ value) (bytes.length + taken) := by
  induction bytes with
  | nil =>
    rw [List.length_nil, Nat.zero_add]
    exact hrest
  | cons b bytes ih =>
    obtain ⟨hquote, hescape⟩ := h b List.mem_cons_self
    obtain ⟨hvalue, htaken, hfault⟩ := ih fun d hd => h d (List.mem_cons_of_mem b hd)
    rw [List.cons_append, stringBody_cons, if_neg hquote, if_neg hescape]
    exact ⟨congrArg (b :: ·) hvalue, (congrArg (· + 1) htaken).trans (Nat.succ_add _ _).symm, hfault⟩

theorem StringBody.Holds.escape {c : Char} (hc : c = '"' ∨ c = '\\') {rest value : List UInt8} {taken : Nat}
    (hrest : (stringBody rest).Holds value taken) :
    (stringBody (byte '\\' :: byte c :: rest)).Holds (byte c :: value) (taken + 2) := by
  obtain ⟨hvalue, htaken, hfault⟩ := hrest
  have hsame : unescape (byte c) = byte c := by rcases hc with rfl | rfl <;> rfl
  rw [stringBody_cons, if_neg (by decide), if_pos rfl]
  simp only [hsame]
  exact ⟨congrArg (byte c :: ·) hvalue, congrArg (· + 2) htaken, hfault⟩

/-- Only the two characters that are escaped have a byte that would be taken for one of them. -/
theorem encodeChar_plain {c : Char} (hc : ¬ (c = '"' ∨ c = '\\')) :
    ∀ b ∈ String.utf8EncodeChar c, b ≠ byte '"' ∧ b ≠ byte '\\' := by
  have hne : ∀ d : Char, d.toNat < 0x80 → c ≠ d → ∀ b ∈ String.utf8EncodeChar c, b ≠ byte d := by
    rintro d hd hcd b hb rfl
    by_cases hascii : c.toNat < 0x80
    · rw [encodeChar_ascii hascii, List.mem_singleton] at hb
      exact hcd (byte_inj hascii hd hb.symm)
    · have := (encodes c).high (Nat.not_lt.1 hascii) _ hb
      rw [toNat_byte hd] at this
      omega
  exact fun b hb => ⟨hne _ (by decide) (fun h => hc (.inl h)) b hb, hne _ (by decide) (fun h => hc (.inr h)) b hb⟩

theorem stringBody_escaped (chars : List Char) (z : List UInt8) :
    (stringBody (encode (escaped chars) ++ byte '"' :: z)).Holds (encode chars) ((encode (escaped chars)).length + 1) := by
  induction chars with
  | nil =>
    have hclosed : stringBody (encode (escaped []) ++ byte '"' :: z) = ⟨[], [byte '"'], 1, none⟩ := by
      rw [show encode (escaped []) = [] from rfl, List.nil_append, stringBody_cons, if_pos rfl]
    rw [hclosed]
    exact ⟨rfl, rfl, rfl⟩
  | cons c chars ih =>
    have hsplit : escaped (c :: chars) = (if c = '"' ∨ c = '\\' then ['\\', c] else [c]) ++ escaped chars := rfl
    rw [hsplit, encode_append, encode_cons]
    split
    · next hc =>
      have henc : String.utf8EncodeChar c = [byte c] := encodeChar_ascii (by rcases hc with rfl | rfl <;> decide)
      have hbytes : encode ['\\', c] = [byte '\\', byte c] := by
        rw [encode_cons, encode_cons, henc, encodeChar_ascii (by decide)]
        rfl
      rw [hbytes, henc]
      exact ih.escape hc
    · next hc =>
      have hbytes : encode [c] = String.utf8EncodeChar c := List.append_nil _
      have := ih.plain (encodeChar_plain hc)
      rw [hbytes, List.append_assoc, List.length_append, Nat.add_assoc]
      exact this

theorem scan_quote (rest : List UInt8) : scan op (byte '"') rest = scanString rest := rfl

theorem spells_string (text : String) :
    Spells op (.string text) (byte '"') (encode (escaped text.toList) ++ [byte '"']) := by
  refine ⟨rfl, fun {z} _ => ⟨"\"" ++ latin1 (stringBody (encode (escaped text.toList) ++ byte '"' :: z)).raw, ?_⟩⟩
  obtain ⟨hvalue, htaken, hfault⟩ := stringBody_escaped text.toList z
  rw [List.append_assoc, List.singleton_append, scan_quote, scanString, List.length_append]
  simp only [hfault, hvalue, htaken, lossy_encode, String.ofList_toList, List.length_singleton]

/-! ## Numbers -/

theorem isDigit_byte {c : Char} (h : c.isDigit) : c.toNat < 0x80 ∧ isDigit (byte c) := by
  have hrange : 48 ≤ c.toNat ∧ c.toNat ≤ 57 := by simpa [Char.isDigit, UInt32.le_iff_toNat_le] using h
  have hascii : c.toNat < 0x80 := by omega
  refine ⟨hascii, ?_⟩
  rw [isDigit, Bool.and_eq_true_iff, decide_eq_true_iff, decide_eq_true_iff, UInt8.le_iff_toNat_le, UInt8.le_iff_toNat_le,
    toNat_byte hascii]
  exact hrange

/-- The decimal digits of a number. -/
def digits (n : Nat) : List UInt8 := (Nat.toDigits 10 n).map byte

theorem isDigit_of_mem_digits {n : Nat} {b : UInt8} (h : b ∈ digits n) : isDigit b := by
  obtain ⟨c, hc, rfl⟩ := List.mem_map.1 h
  exact (isDigit_byte (Nat.isDigit_of_mem_toDigits (by decide) (by decide) hc)).2

theorem utf8_repr (n : Nat) : utf8 n.repr = digits n := by
  rw [utf8_eq_encode, Nat.toList_repr]
  exact encode_ascii fun c hc => (isDigit_byte (Nat.isDigit_of_mem_toDigits (by decide) (by decide) hc)).1

theorem decimalValue_digits (n : Nat) : decimalValue (digits n) = n := by
  have hfilter : (digits n).filter isDigit = digits n := List.filter_eq_self.2 fun b hb => isDigit_of_mem_digits hb
  have hfold : ∀ (chars : List Char) (m : Nat), (∀ c ∈ chars, c.isDigit) →
      (chars.map byte).foldl (fun n b => n * 10 + (b.toNat - '0'.toNat)) m = Nat.ofDigitChars 10 chars m := by
    intro chars
    induction chars with
    | nil => exact fun m _ => rfl
    | cons c chars ih =>
      intro m h
      rw [List.map_cons, List.foldl_cons, toNat_byte (isDigit_byte (h c List.mem_cons_self)).1, Nat.ofDigitChars_cons, Nat.mul_comm]
      exact ih _ fun d hd => h d (List.mem_cons_of_mem c hd)
  rw [decimalValue, hfilter, digits, hfold _ 0 fun c hc => Nat.isDigit_of_mem_toDigits (by decide) (by decide) hc,
    Nat.ofDigitChars_ten_toDigits]

theorem digits_ne_nil (n : Nat) : digits n ≠ [] := fun h => Nat.toDigits_ne_nil (List.map_eq_nil_iff.1 h)

/-- The sign of a number. -/
def signOf (negative : Bool) : List UInt8 := if negative then [byte '-'] else []

theorem digitRun_eq {whole u : List UInt8} (hwhole : ∀ b ∈ whole, isDigit b || b = byte '_')
    (hu : ∀ b ∈ u.head?, (isDigit b || b = byte '_') = false) :
    digitRun (whole ++ u) = whole := by
  rw [digitRun, takeWhile_append_of_head hu]
  exact List.takeWhile_eq_self_iff.2 hwhole

theorem atByte_digits (n : Nat) (u : List UInt8) : atByte isDigit (digits n ++ u) := by
  obtain ⟨b, more, hdigits⟩ := List.exists_cons_of_ne_nil (digits_ne_nil n)
  rw [hdigits]
  exact isDigit_of_mem_digits (hdigits ▸ List.mem_cons_self)

/-- A sign and the digits that follow it are told apart from the rest. -/
theorem scanNumber_digitRun {negative : Bool} {whole u : List UInt8} (hfirst : atByte isDigit whole) (hwhole : digitRun (whole ++ u) = whole) :
    scanNumber (signOf negative ++ whole ++ u) =
      if atByte (fun b => b = byte 'r' || b = byte 'R') u then scanRadix negative (signOf negative ++ whole) u.tail
      else
        let raw := signOf negative ++ whole ++ fractionRun u ++ exponentRun (u.drop (fractionRun u).length)
        ⟨if (fractionRun u).isEmpty && (exponentRun (u.drop (fractionRun u).length)).isEmpty then
            integerKind negative (decimalValue whole)
          else floatKind negative whole (fractionRun u) (exponentRun (u.drop (fractionRun u).length)),
          latin1 raw, raw.length - 1⟩ := by
  have hsign : ((signOf negative ++ whole ++ u).take 1).filter (· = byte '-') = signOf negative := by
    cases negative with
    | true => rfl
    | false =>
      cases whole with
      | nil => cases hfirst
      | cons b whole =>
        refine List.filter_cons_of_neg fun hminus => ?_
        have hdigit : isDigit b := hfirst
        rw [of_decide_eq_true hminus] at hdigit
        exact absurd hdigit (by decide)
  have hnegative : (!(signOf negative).isEmpty) = negative := by cases negative <;> rfl
  have hdrop : (signOf negative ++ whole ++ u).drop (signOf negative).length = whole ++ u := by
    rw [List.append_assoc, List.drop_left]
  unfold scanNumber
  simp only [hsign, hnegative, hdrop, hwhole, List.drop_left]

/-- A sign if there is one, and digits to the end. -/
theorem scanNumber_digits (negative : Bool) (n : Nat) : scanNumber (signOf negative ++ digits n) =
    ⟨integerKind negative n, latin1 (signOf negative ++ digits n), (signOf negative ++ digits n).length - 1⟩ := by
  have hfirst : atByte isDigit (digits n) := List.append_nil (digits n) ▸ atByte_digits n []
  have hwhole : digitRun (digits n ++ []) = digits n := digitRun_eq (fun b hb => by rw [isDigit_of_mem_digits hb]; rfl) nofun
  have hscan : scanNumber (signOf negative ++ digits n ++ []) = _ := scanNumber_digitRun hfirst hwhole
  rw [List.append_nil] at hscan
  rw [hscan, if_neg (by decide), decimalValue_digits]
  simp only [fractionRun, exponentRun, List.drop_nil, List.isEmpty_nil, Bool.and_self, if_true, List.append_nil]

theorem digit_classes : ∀ b, isDigit b → isBlank b = false ∧ b ∉ soleBytes ∧ b ≠ byte '/' ∧ b ≠ byte '"' ∧ b ≠ byte '#' ∧
    b ≠ byte '$' ∧ b ≠ byte '|' :=
  forall_byte (by decide +kernel)

theorem routeOf_digit {b : UInt8} (h : isDigit b) (rest : List UInt8) : routeOf op b rest = .number := by
  obtain ⟨-, hmark, hslash, hquote, hhash, hdollar, hbar⟩ := digit_classes b h
  rw [routeOf, if_neg fun hopen => hslash hopen.1, if_neg fun hopen => hslash hopen.1, if_neg hquote, if_neg hhash,
    if_neg hdollar, soleMark_eq_none hmark]
  simp only
  rw [if_neg fun hbars => hbar hbars.1, if_pos (.inl h)]

/-- Where no operand ends, a minus directly before a digit is a sign. -/
theorem routeOf_minus {rest : List UInt8} (h : atByte isDigit rest) : routeOf false (byte '-') rest = .number := by
  rw [routeOf, if_neg fun hopen => absurd hopen.1 (by decide), if_neg fun hopen => absurd hopen.1 (by decide), if_neg (by decide),
    if_neg (by decide), if_neg (by decide), soleMark_eq_none (by decide)]
  simp only
  rw [if_neg fun hbar => absurd hbar.1 (by decide), if_pos (.inr ⟨trivial, by decide, h⟩)]

/-- The number that is read from a sign and digits. -/
theorem integerKind_toInt (value : Int64) : integerKind (value.toInt < 0) value.toInt.natAbs = .integer value := by
  have hlow := value.le_toInt
  have hhigh := value.toInt_lt
  unfold integerKind
  split
  · next h =>
    have hneg : value.toInt < 0 := of_decide_eq_true h
    rw [if_pos (by rw [integerLimit]; omega), show -(value.toInt.natAbs : Int) = value.toInt by omega, Int64.ofInt_toInt]
  · next h =>
    have hpos : ¬ value.toInt < 0 := of_decide_eq_false (Bool.eq_false_iff.2 h)
    rw [if_pos (by rw [integerLimit]; omega), show (value.toInt.natAbs : Int) = value.toInt by omega, Int64.ofInt_toInt]

theorem utf8_toInt (value : Int) : utf8 (toString value) = signOf (value < 0) ++ digits value.natAbs := by
  rw [Int.toString_eq_repr, Int.repr_eq_if]
  split
  · next h =>
    rw [decide_eq_false (Int.not_lt.2 h), utf8_repr, show value.toNat = value.natAbs by omega]
    rfl
  · next h =>
    have hminus : utf8 "-" = [byte '-'] := utf8_ascii (by decide)
    rw [decide_eq_true (Int.not_le.1 h), utf8_append, utf8_repr, hminus, show (-value).toNat = value.natAbs by omega]
    rfl

theorem spells_integer (value : Int64) (hsign : op → (TokenKind.integer value).isNegative = false) :
    ∃ first rest, utf8 (toString value.toInt) = first :: rest ∧ Spells op (.integer value) first rest := by
  have htext := utf8_toInt value.toInt
  obtain ⟨b, more, hdigits⟩ := List.exists_cons_of_ne_nil (digits_ne_nil value.toInt.natAbs)
  have hb : isDigit b := isDigit_of_mem_digits (hdigits ▸ List.mem_cons_self)
  -- What is scanned as a number from its first byte on is this one.
  have hnumber : ∀ first rest, utf8 (toString value.toInt) = first :: rest → isBlank first = false →
      (∀ z, routeOf op first (rest ++ z) = .number) → Spells op (.integer value) first rest := by
    intro first rest hfirst hblank hroute
    refine ⟨hblank, fun {z} hz => ⟨latin1 (first :: rest), ?_⟩⟩
    rw [scan_eq_route, hroute, Route.scan, ← List.cons_append, scanNumber_append hz.ends, ← hfirst, htext, scanNumber_digits,
      integerKind_toInt, ← htext, hfirst]
    rfl
  by_cases hneg : value.toInt < 0
  · have hop : op = false := Bool.eq_false_iff.2 fun hop => of_decide_eq_false (hsign hop) hneg
    rw [decide_eq_true hneg, hdigits] at htext
    refine ⟨byte '-', b :: more, htext, hnumber _ _ htext rfl fun z => ?_⟩
    rw [hop]
    exact routeOf_minus hb
  · rw [decide_eq_false hneg, hdigits] at htext
    exact ⟨b, more, htext, hnumber _ _ htext (digit_classes b hb).1 fun z => routeOf_digit hb _⟩

/-! ## Marks -/

theorem spells_mark (m : Mark) : ∃ first rest, utf8 m.spelling = first :: rest ∧ Spells op (.mark m) first rest := by
  have hmark : ∀ first rest, utf8 m.spelling = first :: rest → isBlank first = false →
      scan op first rest = ⟨.mark m, m.spelling, rest.length⟩ →
      (∀ z, scan op first (rest ++ 0x20 :: z) = ⟨.mark m, m.spelling, rest.length⟩) →
      ∃ first rest, utf8 m.spelling = first :: rest ∧ Spells op (.mark m) first rest := by
    intro first rest htext hblank hend hspace
    refine ⟨first, rest, htext, hblank, fun hz => ⟨m.spelling, ?_⟩⟩
    rcases hz.cases with rfl | ⟨z, rfl⟩
    · rw [List.append_nil]
      exact hend
    · exact hspace z
  cases m with
  | assign => exact hmark (byte ':') [byte '='] (utf8_ascii (by decide)) rfl rfl fun _ => rfl
  | colon => exact hmark (byte ':') [] (utf8_ascii (by decide)) rfl rfl fun _ => rfl
  | hashParen => exact hmark (byte '#') [byte '('] (utf8_ascii (by decide)) rfl rfl fun _ => rfl
  | leftParen => exact hmark (byte '(') [] (utf8_ascii (by decide)) rfl rfl fun _ => rfl
  | rightParen => exact hmark (byte ')') [] (utf8_ascii (by decide)) rfl rfl fun _ => rfl
  | leftBracket => exact hmark (byte '[') [] (utf8_ascii (by decide)) rfl rfl fun _ => rfl
  | rightBracket => exact hmark (byte ']') [] (utf8_ascii (by decide)) rfl rfl fun _ => rfl
  | bar => exact hmark (byte '|') [] (utf8_ascii (by decide)) rfl rfl fun _ => rfl
  | dot => exact hmark (byte '.') [] (utf8_ascii (by decide)) rfl rfl fun _ => rfl
  | semicolon => exact hmark (byte ';') [] (utf8_ascii (by decide)) rfl rfl fun _ => rfl
  | caret => exact hmark (byte '^') [] (utf8_ascii (by decide)) rfl rfl fun _ => rfl

end

/-! ## Tokens one behind the other -/

theorem wordKind_spelling (word : Reserved) : IsWord isWordChar word.spelling ∧ wordKind word.spelling = .reserved word := by
  cases word with
  | self => exact ⟨⟨'s', "elf".toList, rfl, by decide, by decide⟩, rfl⟩
  | super => exact ⟨⟨'s', "uper".toList, rfl, by decide, by decide⟩, rfl⟩
  | nil => exact ⟨⟨'n', "il".toList, rfl, by decide, by decide⟩, rfl⟩
  | true => exact ⟨⟨'t', "rue".toList, rfl, by decide, by decide⟩, rfl⟩
  | false => exact ⟨⟨'f', "alse".toList, rfl, by decide, by decide⟩, rfl⟩

theorem wordKind_of_not_reserved {name : String} (h : ¬ IsReserved name) : wordKind name = .identifier name := by
  have hnone : Reserved.ofSpelling? name = none := by
    refine List.find?_eq_none.2 fun word _ heq => h ⟨word, ?_⟩
    simpa using heq
  rw [wordKind, hnone]

theorem utf8_hash : utf8 "#" = [byte '#'] := utf8_ascii (by decide)

/-- The text of every token that can be written is read as that token. -/
theorem TokenKind.Writable.spells {k : TokenKind} (h : k.Writable) {op : Bool}
    (hsign : op → k.isNegative = false) :
    ∃ first rest, utf8 k.spelling = first :: rest ∧ Spells op k first rest := by
  cases h with
  | integer value => exact spells_integer value hsign
  | string value =>
    have hquote : utf8 "\"" = [byte '"'] := utf8_ascii (by decide)
    refine ⟨_, _, ?_, spells_string value⟩
    rw [spelling, utf8_append, utf8_append, hquote, List.singleton_append, List.cons_append, utf8_eq_encode, String.toList_ofList]
  | character value =>
    have hdollar : utf8 "$" = [byte '$'] := utf8_ascii (by decide)
    refine ⟨_, _, ?_, spells_character value⟩
    rw [spelling, utf8_append, hdollar, List.singleton_append, utf8_eq_encode, Char.toString, String.toList_singleton]
    exact congrArg _ (List.append_nil _)
  | reserved word =>
    obtain ⟨hword, hkind⟩ := wordKind_spelling word
    exact spells_word hword hkind
  | mark m => exact spells_mark m
  | identifier hword hfree => exact spells_word hword (wordKind_of_not_reserved hfree)
  | keyword hword => exact spells_keyword hword
  | argument hword =>
    exact ⟨_, _, by rw [spelling, utf8_append, utf8_colon, List.singleton_append], spells_argument hword⟩
  | symbol hword =>
    exact ⟨_, _, by rw [spelling, utf8_append, utf8_hash, List.singleton_append], spells_symbol hword⟩
  | operatorSymbol hrun =>
    exact ⟨_, _, by rw [spelling, utf8_append, utf8_hash, List.singleton_append], spells_operatorSymbol hrun⟩
  | operator hrun hbar hline hblock => exact spells_operator hrun hbar hline hblock

theorem TokenKind.Writable.isComment {k : TokenKind} (h : k.Writable) : k.isComment = false := by
  cases h <;> rfl

theorem utf8_spell_nil : utf8 (spell []) = [] := by
  rw [spell, List.map_nil, String.intercalate_nil]
  exact utf8_ascii (by decide)

/-- The tokens behind the first one, with the space that parts them from it. -/
theorem utf8_spell_cons (k : TokenKind) (kinds : List TokenKind) :
    ∃ z, Spaced z ∧ utf8 (spell (k :: kinds)) = utf8 k.spelling ++ z ∧
      z.dropWhile isBlank = (utf8 (spell kinds)).dropWhile isBlank := by
  cases kinds with
  | nil =>
    refine ⟨[], nofun, ?_, by rw [utf8_spell_nil]⟩
    rw [List.append_nil, spell, List.map_singleton, String.intercalate_singleton]
  | cons next kinds =>
    have hspace : utf8 " " = [0x20] := utf8_ascii (by decide)
    refine ⟨0x20 :: utf8 (spell (next :: kinds)), fun b hb => (Option.mem_some_iff.1 hb).symm, ?_,
      List.dropWhile_cons_of_pos (by decide)⟩
    rw [spell, List.map_cons, List.map_cons, String.intercalate_cons_cons, utf8_append, utf8_append, hspace, List.append_assoc]
    rfl

theorem run_spell {l : Lexer} {kinds : List TokenKind} (hl : l.rest.dropWhile isBlank = (utf8 (spell kinds)).dropWhile isBlank)
    (hended : l.ended = false) (hw : ∀ k ∈ kinds, k.Writable) (hc : kinds.IsChain TokenKind.MayPrecede)
    (hfirst : l.afterOperand → ∀ k ∈ kinds.head?, k.isNegative = false) :
    l.run.1.map (·.kind) = kinds ++ [TokenKind.endOfInput] := by
  induction kinds generalizing l with
  | nil =>
    have hnil : l.rest.dropWhile isBlank = [] := by rw [hl, utf8_spell_nil, List.dropWhile_nil]
    have hnext : l.nextToken.1.kind = .endOfInput ∧ l.nextToken.2.ended = true := by
      rw [Lexer.nextToken, hnil]
      exact ⟨rfl, rfl⟩
    rw [Lexer.run_of_not_ended hended, Lexer.run_of_ended hnext.2, List.map_singleton, hnext.1]
    rfl
  | cons k kinds ih =>
    have hk := hw k List.mem_cons_self
    obtain ⟨hnext, hchain⟩ := List.isChain_cons.1 hc
    obtain ⟨first, rest, htext, hspells⟩ := hk.spells fun hop => hfirst hop k rfl
    obtain ⟨z, hz, hspell, hdrop⟩ := utf8_spell_cons k kinds
    rw [hspell, htext, List.cons_append, List.dropWhile_cons_of_neg (by rw [hspells.visible]; decide)] at hl
    obtain ⟨hkind, hrest, hoperand, hended'⟩ := Lexer.nextToken_of_rest hl
    obtain ⟨lexeme, hscan⟩ := hspells.found hz
    rw [hscan] at hkind hrest hoperand
    rw [List.drop_left] at hrest
    rw [hk.isComment, if_neg Bool.false_ne_true] at hoperand
    rw [Lexer.run_of_not_ended hended, List.map_cons, hkind, List.cons_append,
      ih (by rw [hrest, hdrop]) (hended'.trans hended) (fun k' hk' => hw k' (List.mem_cons_of_mem k hk')) hchain]
    rw [hoperand]
    exact fun hop k' hk' => hnext k' hk' hop

/-- What is written is read back: tokens with a space between them, each spelled as its kind has it. -/
theorem tokenize_spell {kinds : List TokenKind} (hw : ∀ k ∈ kinds, k.Writable) (hc : kinds.IsChain TokenKind.MayPrecede) :
    (tokenize (utf8 (spell kinds))).map (·.kind) = kinds ++ [TokenKind.endOfInput] :=
  run_spell (l := .ofBytes (utf8 (spell kinds))) rfl rfl hw hc nofun

/-- Signs and minuses, bars and slashes, a quote in a string, a space as a character and letters beyond ASCII. -/
theorem tokenize_spell_each :
    (tokenize (utf8 "été_2 := -9223372036854775808 - 7 at: -1 |/ #// #at:put: \"a\\\"\\\\ü\" $  | :self self #( ] : $λ")).map
        (·.kind) =
      ([.identifier "été_2", .mark .assign, .integer Int64.minValue, .operator "-", .integer 7, .keyword "at:", .integer (-1),
        .operator "|/", .symbol "//", .symbol "at:put:", .string "a\"\\ü", .character ' ', .mark .bar, .argument "self",
        .reserved .self, .mark .hashParen, .mark .rightBracket, .mark .colon, .character 'λ'] : List TokenKind) ++
        [TokenKind.endOfInput] := by
  have hrun : ∀ name : String, (name ≠ "" ∧ name.toList.all isOperatorChar) → IsOperatorRun name := fun _ => id
  refine (congrArg (fun text => (tokenize (utf8 text)).map (·.kind)) ?_).trans (tokenize_spell ?_ ?_)
  · decide +kernel
  · simp only [List.forall_mem_cons]
    exact ⟨.identifier ⟨_, _, rfl, by decide +kernel, by decide +kernel⟩ (not_isReserved (by decide)), .mark _, .integer _,
      .operator (hrun _ (by decide)) (by decide) (by decide) (by decide), .integer _,
      @TokenKind.Writable.keyword "at" ⟨_, _, rfl, by decide, by decide⟩, .integer _,
      .operator (hrun _ (by decide)) (by decide) (by decide) (by decide), .operatorSymbol (hrun _ (by decide)),
      .symbol ⟨_, _, rfl, by decide, by decide⟩, .string _, .character _, .mark _,
      .argument ⟨_, _, rfl, by decide, by decide⟩, .reserved _, .mark _, .mark _, .mark _, .character _, nofun⟩
  · decide +kernel

end BlockScope
