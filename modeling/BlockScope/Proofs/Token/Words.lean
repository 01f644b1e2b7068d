import BlockScope.Token.Lexer
/-!
# What names are spelled with

An identifier is a run of word characters that is no reserved word. A word never holds a `#`, so no name in a
source text is one of the names that are made up for the slots of inlined blocks. It never holds a colon either, and no
character of an operator; a keyword is a word with a colon behind it. No scan finds the end of input.
-/
namespace BlockScope

/-- No source text can spell this name if it has a `#`. -/
def Spelled (name : String) : Prop := '#' ∉ name.toList

/-- One of the reserved words is spelled so. -/
def IsReserved (name : String) : Prop := ∃ word : Reserved, word.spelling = name

theorem not_isReserved {name : String} (h : Reserved.ofSpelling? name = none) : ¬ IsReserved name := by
  rintro ⟨word, rfl⟩
  cases word <;> revert h <;> decide

/-- What an identifier is spelled with. -/
structure IsName (name : String) : Prop where
  spelled : Spelled name
  unreserved : ¬ IsReserved name

theorem spelled_self : Spelled "self" := by unfold Spelled; decide

theorem spelled_super : Spelled "super" := by unfold Spelled; decide

theorem charRun_all (p : Char → Bool) (bytes : List UInt8) : ∀ c ∈ (charRun p bytes).1, p c := by
  generalize hn : bytes.length = n
  induction n using Nat.strongRecOn generalizing bytes with
  | _ n ih =>
    subst hn
    intro c hc
    rw [charRun.eq_def] at hc
    split at hc
    · next first rest d more hd =>
      split at hc
      · next hp =>
        rcases List.mem_cons.1 hc with rfl | hc
        · exact hp
        · exact ih (rest.drop more).length (by simp only [List.length_drop, List.length_cons]; omega) _ rfl c hc
      · cases hc
    · cases hc

theorem hash_not_wordChar : isWordChar '#' = false := by decide +kernel

theorem colon_not_wordChar : isWordChar ':' = false := by decide +kernel

/-- May stand in an operator. -/
def isOperatorChar (c : Char) : Bool := c.toNat < 0x80 && isOperatorByte (byte c)

theorem operatorChar_not_wordChar {c : Char} (h : isOperatorChar c) : isWordChar c = false := by
  obtain ⟨hlt, hop⟩ := Bool.and_eq_true_iff.1 h
  obtain ⟨d, hd, heq⟩ := List.any_eq_true.1 hop
  have hbyte : c.toNat % 256 = d.toNat % 256 := congrArg UInt8.toNat (of_decide_eq_true heq)
  -- Both are ASCII, so equal bytes are equal characters.
  have hd' : d.toNat < 0x80 ∧ isWordChar d = false := of_decide_eq_true
    (List.all_eq_true (p := fun d => decide (d.toNat < 0x80 ∧ isWordChar d = false)) |>.1 (by decide +kernel) d hd)
  obtain rfl : c = d := by
    have := of_decide_eq_true hlt
    exact Char.ext (UInt32.toNat_inj.1 (by change c.toNat = d.toNat; omega))
  exact hd'.2

theorem not_mem_charRun {c : Char} (hc : isWordChar c = false) (bytes : List UInt8) :
    c ∉ (String.ofList (charRun isWordChar bytes).1).toList := by
  intro h
  rw [String.toList_ofList] at h
  have := charRun_all isWordChar bytes c h
  rw [hc] at this
  cases this

/-- Characters as in a name: neither a colon nor what operators are made of. -/
structure IsPlain (chars : List Char) : Prop where
  colon : ':' ∉ chars
  operator : ∀ c ∈ chars, isOperatorChar c = false

theorem isPlain_charRun (bytes : List UInt8) : IsPlain (String.ofList (charRun isWordChar bytes).1).toList := by
  refine ⟨not_mem_charRun colon_not_wordChar bytes, fun c hc => ?_⟩
  cases hop : isOperatorChar c with
  | false => rfl
  | true => exact absurd hc (not_mem_charRun (operatorChar_not_wordChar hop) bytes)

/-- How tokens that name messages are spelled: an identifier is plain, a keyword is plain up to the colon at its end, and
an operator begins with an operator character and has no colon. -/
def TokenKind.Formed : TokenKind → Prop
  | .identifier name => IsPlain name.toList
  | .keyword part => ∃ word, part.toList = word ++ [':'] ∧ IsPlain word
  | .operator name => ':' ∉ name.toList ∧ name.toList.head?.any isOperatorChar
  | _ => True

namespace Scan
variable {name : String} {bytes rest : List UInt8} {first : UInt8} {afterOperand : Bool}

/-- The scan found something else than an identifier, a keyword or an operator, and not the end. -/
def NoWord (s : Scan) : Prop :=
  ∀ name, s.kind ≠ .identifier name ∧ s.kind ≠ .keyword name ∧ s.kind ≠ .operator name ∧ s.kind ≠ .endOfInput

theorem NoWord.formed {s : Scan} (h : s.NoWord) : s.kind.Formed := by
  unfold TokenKind.Formed
  split
  · next name hk => exact absurd hk (h name).1
  · next part hk => exact absurd hk (h part).2.1
  · next name hk => exact absurd hk (h name).2.2.1
  · trivial

theorem noWord_blockComment : (scanBlockComment rest).NoWord := by
  intro name
  simp only [scanBlockComment]
  split <;> simp [fault]

theorem noWord_string : (scanString rest).NoWord := by
  intro name
  simp only [scanString]
  split <;> simp [fault]

theorem noWord_symbol : (scanSymbol rest).NoWord := by
  intro name
  unfold scanSymbol
  split
  · simp
  · split
    · simp
    · split <;> simp [fault]

theorem noWord_character : (scanCharacter rest).NoWord := by
  intro name
  unfold scanCharacter
  split <;> simp [fault]

theorem noWord_radix {negative : Bool} {head : List UInt8} : (scanRadix negative head rest).NoWord := by
  intro name
  simp only [scanRadix]
  split
  · split <;> simp [fault]
  · simp [fault]

theorem noWord_number : (scanNumber bytes).NoWord := by
  intro name
  simp only [scanNumber]
  split
  · exact noWord_radix name
  · simp only
    split
    · unfold integerKind
      split <;> split <;> simp
    · simp [floatKind]

theorem noWord_colon : (scanColon rest).NoWord := by
  intro name
  unfold scanColon
  split
  · simp
  · split <;> simp

theorem noWord_unexpected : (scanUnexpected bytes).NoWord := by
  intro name
  unfold scanUnexpected
  split <;> simp [fault]

theorem isName_word (h : (scanWord bytes).kind = .identifier name) : IsName name := by
  simp only [scanWord] at h
  split at h
  · cases h
  · simp only at h
    split at h
    · cases h
    · next hfree =>
      cases h
      exact ⟨not_mem_charRun hash_not_wordChar bytes, not_isReserved hfree⟩

theorem formed_word : (scanWord bytes).kind.Formed := by
  simp only [scanWord]
  split
  · exact ⟨_, String.toList_append, isPlain_charRun bytes⟩
  · simp only
    split
    · trivial
    · exact isPlain_charRun bytes

theorem word_not_end : (scanWord bytes).kind ≠ .endOfInput := by
  simp only [scanWord]
  split
  · simp
  · simp only
    split <;> simp

theorem operatorRun_all (rest : List UInt8) : ∀ b ∈ operatorRun rest, isOperatorByte b := by
  intro b hb
  induction rest with
  | nil => cases hb
  | cons b' rest ih =>
    rw [operatorRun] at hb
    split at hb
    · next hop =>
      rcases List.mem_cons.1 hb with rfl | hb
      · exact (Bool.and_eq_true_iff.1 hop).1
      · exact ih hb
    · cases hb

theorem formed_operator (h : isOperatorByte first) : (scanOperator first rest).kind.Formed := by
  have hchar : ∀ b : UInt8, isOperatorByte b → Char.ofNat b.toNat ≠ ':' ∧ isOperatorChar (Char.ofNat b.toNat) := by
    intro b hb
    obtain ⟨c, hc, heq⟩ := List.any_eq_true.1 hb
    obtain rfl := of_decide_eq_true heq
    exact of_decide_eq_true (List.all_eq_true
      (p := fun c => decide (Char.ofNat (byte c).toNat ≠ ':' ∧ isOperatorChar (Char.ofNat (byte c).toNat))) |>.1
      (by decide +kernel) c hc)
  simp only [scanOperator, TokenKind.Formed, Text.latin1, String.toList_ofList]
  refine ⟨fun hmem => ?_, (hchar first h).2⟩
  obtain ⟨b, hb, hc⟩ := List.mem_map.1 hmem
  rcases List.mem_cons.1 hb with rfl | hb
  · exact (hchar b h).1 hc
  · exact (hchar b (operatorRun_all rest b hb)).1 hc

end Scan

open Scan in
/-- Only words and operators give identifiers, keywords and operators. -/
theorem scan_cases (afterOperand : Bool) (first : UInt8) (rest : List UInt8) : (scan afterOperand first rest).NoWord ∨
    scan afterOperand first rest = scanWord (first :: rest) ∨
    isOperatorByte first ∧ scan afterOperand first rest = scanOperator first rest := by
  generalize hs : scan afterOperand first rest = s
  unfold scan at hs
  split at hs
  · exact .inl fun _ => by simp [← hs, scanLineComment]
  split at hs
  · exact .inl (hs ▸ noWord_blockComment)
  split at hs
  · exact .inl (hs ▸ noWord_string)
  split at hs
  · exact .inl (hs ▸ noWord_symbol)
  split at hs
  · exact .inl (hs ▸ noWord_character)
  split at hs
  · exact .inl fun _ => by simp [← hs]
  split at hs
  · exact .inl fun _ => by simp [← hs]
  split at hs
  · exact .inl (hs ▸ noWord_number)
  split at hs
  · exact .inl (hs ▸ noWord_colon)
  split at hs
  · next hop => exact .inr (.inr ⟨hop, hs.symm⟩)
  split at hs
  · exact .inr (.inl hs.symm)
  · exact .inl (hs ▸ noWord_unexpected)

theorem isName_scan {name : String} {rest : List UInt8} {first : UInt8} {afterOperand : Bool}
    (h : (scan afterOperand first rest).kind = .identifier name) : IsName name := by
  rcases scan_cases afterOperand first rest with hno | hword | ⟨-, hop⟩
  · exact absurd h (hno name).1
  · rw [hword] at h
    exact Scan.isName_word h
  · rw [hop] at h
    cases h

theorem formed_scan (afterOperand : Bool) (first : UInt8) (rest : List UInt8) : (scan afterOperand first rest).kind.Formed := by
  rcases scan_cases afterOperand first rest with hno | hword | ⟨hfirst, hop⟩
  · exact hno.formed
  · rw [hword]
    exact Scan.formed_word
  · rw [hop]
    exact Scan.formed_operator hfirst

theorem scan_not_end (afterOperand : Bool) (first : UInt8) (rest : List UInt8) :
    (scan afterOperand first rest).kind ≠ .endOfInput := by
  rcases scan_cases afterOperand first rest with hno | hword | ⟨-, hop⟩
  · exact (hno "").2.2.2
  · rw [hword]
    exact Scan.word_not_end
  · rw [hop]
    simp [scanOperator]

/-- What holds of every token that is scanned, and of the end of input, holds of all tokens. -/
theorem forall_run {K : TokenKind → Prop} (hend : K .endOfInput)
    (hscan : ∀ afterOperand first rest, K (scan afterOperand first rest).kind) (l : Lexer) {t : Token} (ht : t ∈ l.run.1) : K t.kind := by
  have hnext : ∀ l : Lexer, K l.nextToken.1.kind := by
    intro l
    unfold Lexer.nextToken
    split
    · exact hend
    · exact hscan _ _ _
  fun_induction Lexer.run l with
  | case1 => cases ht
  | case2 l t' l' h ts last hrun ih =>
    rcases List.mem_cons.1 ht with rfl | ht
    · unfold Lexer.next? at h
      split at h
      · cases h
      · have := hnext l
        rwa [Option.some.inj h] at this
    · exact ih (by rw [hrun]; exact ht)

/-- Every identifier of a source text is spelled without a `#`, and differs from all reserved words. -/
theorem isName_tokenize {bytes : List UInt8} {t : Token} {name : String} (ht : t ∈ tokenize bytes)
    (h : t.kind = .identifier name) : IsName name :=
  forall_run (K := fun kind => ∀ name, kind = .identifier name → IsName name) nofun (fun _ _ _ _ => isName_scan) _ ht name h

/-- In a source text identifiers, keywords and operators can be told apart by their characters. -/
theorem formed_tokenize {bytes : List UInt8} {t : Token} (ht : t ∈ tokenize bytes) : t.kind.Formed :=
  forall_run trivial formed_scan _ ht

end BlockScope
