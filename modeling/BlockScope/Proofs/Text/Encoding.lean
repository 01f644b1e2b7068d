import BlockScope.Text.Utf8
/-!
# Reading encoded text

The bytes of a text are those of its characters one after the other (`utf8_eq_encode`). Both readings of UTF-8 give back each
character from its bytes, whatever follows: `decode` by the bit layout and `strictHead` by the exact syntax. So nothing of a
text is lost in `lossy`. By the bit layout a character can also be carried by more bytes than its encoding has (`Form`).
-/
namespace BlockScope.Text

/-- The bytes of some characters. -/
def encode (chars : List Char) : List UInt8 := chars.flatMap String.utf8EncodeChar

@[simp] theorem encode_nil : encode [] = [] := rfl

theorem encode_cons (c : Char) (chars : List Char) : encode (c :: chars) = String.utf8EncodeChar c ++ encode chars := rfl

theorem encode_append (chars more : List Char) : encode (chars ++ more) = encode chars ++ encode more := List.flatMap_append

theorem toList_loop_eq (bytes : ByteArray) (i : Nat) (found : List UInt8) :
    ByteArray.toList.loop bytes i found = found.reverse ++ bytes.data.toList.drop i := by
  fun_induction ByteArray.toList.loop bytes i found with
  | case1 i found h ih =>
    have hi : i < bytes.data.toList.length := by simpa using h
    rw [ih, List.drop_eq_getElem_cons hi]
    simp [ByteArray.get!, h]
  | case2 i found h =>
    rw [List.drop_eq_nil_of_le (by simpa using Nat.le_of_not_lt h), List.append_nil]

/-- The list of the underlying array, which takes far fewer steps to compute. -/
theorem toList_eq (bytes : ByteArray) : bytes.toList = bytes.data.toList := by
  rw [ByteArray.toList, toList_loop_eq]
  rfl

theorem toList_toByteArray (text : String) : text.toByteArray.data.toList = encode text.toList := by
  rw [← String.utf8Encode_toList]
  exact List.toList_data_toByteArray

theorem utf8_eq_encode (text : String) : utf8 text = encode text.toList := by
  rw [utf8, toList_eq, String.toUTF8_eq_toByteArray, toList_toByteArray]

theorem length_encode (text : String) : (encode text.toList).length = text.utf8ByteSize := by
  rw [← toList_toByteArray]
  rfl

theorem utf8_append (text more : String) : utf8 (text ++ more) = utf8 text ++ utf8 more := by
  rw [utf8_eq_encode, utf8_eq_encode, utf8_eq_encode, String.toList_append, encode_append]

/-! ## The bytes of one character -/

theorem toNat_ofNat {n : Nat} (h : n.isValidChar) : (Char.ofNat n).toNat = n := by
  rw [Char.ofNat, dif_pos h]
  rfl

theorem ofNat_toNat_byte (b : UInt8) : (Char.ofNat b.toNat).toNat = b.toNat :=
  toNat_ofNat (.inl (by have := b.toNat_lt; omega))

/-- Some bytes that are the encoding of a character, by their number. -/
inductive Encodes (c : Char) : List UInt8 → Prop where
  | one {b : UInt8} (h : c.toNat < 0x80) (hb : b.toNat = c.toNat) : Encodes c [b]
  | two {b b₁ : UInt8} (low : 0x80 ≤ c.toNat) (high : c.toNat < 0x800) (hb : b.toNat = 0xC0 + c.toNat / 64)
    (hb₁ : b₁.toNat = 0x80 + c.toNat % 64) : Encodes c [b, b₁]
  | three {b b₁ b₂ : UInt8} (low : 0x800 ≤ c.toNat) (high : c.toNat < 0x10000) (hb : b.toNat = 0xE0 + c.toNat / 4096)
    (hb₁ : b₁.toNat = 0x80 + c.toNat / 64 % 64) (hb₂ : b₂.toNat = 0x80 + c.toNat % 64) : Encodes c [b, b₁, b₂]
  | four {b b₁ b₂ b₃ : UInt8} (low : 0x10000 ≤ c.toNat) (high : c.toNat < 0x110000) (hb : b.toNat = 0xF0 + c.toNat / 262144)
    (hb₁ : b₁.toNat = 0x80 + c.toNat / 4096 % 64) (hb₂ : b₂.toNat = 0x80 + c.toNat / 64 % 64)
    (hb₃ : b₃.toNat = 0x80 + c.toNat % 64) : Encodes c [b, b₁, b₂, b₃]

theorem toNat_lt (c : Char) : c.toNat < 0x110000 := by
  rcases c.valid with h | h
  · exact Nat.lt_trans h (by decide)
  · exact h.2

theorem encodes (c : Char) : Encodes c (String.utf8EncodeChar c) := by
  have hvalid := toNat_lt c
  have hcode : c.val.toNat = c.toNat := rfl
  unfold String.utf8EncodeChar
  simp only [hcode]
  split
  · exact .one (by omega) (by rw [UInt8.toNat_ofNat']; omega)
  split
  · exact .two (by omega) (by omega) (by rw [UInt8.toNat_ofNat']; omega) (by rw [UInt8.toNat_ofNat']; omega)
  split
  · exact .three (by omega) (by omega) (by rw [UInt8.toNat_ofNat']; omega) (by rw [UInt8.toNat_ofNat']; omega)
      (by rw [UInt8.toNat_ofNat']; omega)
  · exact .four (by omega) hvalid (by rw [UInt8.toNat_ofNat']; omega) (by rw [UInt8.toNat_ofNat']; omega)
      (by rw [UInt8.toNat_ofNat']; omega) (by rw [UInt8.toNat_ofNat']; omega)

/-- A character of ASCII is one byte of the same number. -/
theorem encodeChar_eq_singleton {c : Char} (h : c.toNat < 0x80) :
    ∃ b : UInt8, b.toNat = c.toNat ∧ String.utf8EncodeChar c = [b] := by
  have henc := encodes c
  generalize String.utf8EncodeChar c = bytes at henc
  cases henc with
  | one _ hb => exact ⟨_, hb, rfl⟩
  | two low | three low | four low => omega

/-- Bytes that carry a character by the bit layout: its encoding, or a form that is longer than need be. -/
inductive Form (c : Char) : List UInt8 → Prop where
  | one {b : UInt8} (h : c.toNat < 0x80) (hb : b.toNat = c.toNat) : Form c [b]
  | two {b b₁ : UInt8} (high : c.toNat < 0x800) (hb : b.toNat = 0xC0 + c.toNat / 64) (hb₁ : b₁.toNat = 0x80 + c.toNat % 64) :
    Form c [b, b₁]
  | three {b b₁ b₂ : UInt8} (high : c.toNat < 0x10000) (hb : b.toNat = 0xE0 + c.toNat / 4096)
    (hb₁ : b₁.toNat = 0x80 + c.toNat / 64 % 64) (hb₂ : b₂.toNat = 0x80 + c.toNat % 64) : Form c [b, b₁, b₂]
  | four {b b₁ b₂ b₃ : UInt8} (high : c.toNat < 0x110000) (hb : b.toNat = 0xF0 + c.toNat / 262144)
    (hb₁ : b₁.toNat = 0x80 + c.toNat / 4096 % 64) (hb₂ : b₂.toNat = 0x80 + c.toNat / 64 % 64)
    (hb₃ : b₃.toNat = 0x80 + c.toNat % 64) : Form c [b, b₁, b₂, b₃]

theorem Encodes.form {c : Char} {bytes : List UInt8} (h : Encodes c bytes) : Form c bytes := by
  cases h with
  | one h hb => exact .one h hb
  | two _ high hb hb₁ => exact .two high hb hb₁
  | three _ high hb hb₁ hb₂ => exact .three high hb hb₁ hb₂
  | four _ high hb hb₁ hb₂ hb₃ => exact .four high hb hb₁ hb₂ hb₃

theorem Form.length_pos {c : Char} {bytes : List UInt8} (h : Form c bytes) : 0 < bytes.length := by
  cases h <;> exact Nat.succ_pos _

/-- Beyond ASCII there is no byte of ASCII in a character. -/
theorem Encodes.high {c : Char} {bytes : List UInt8} (h : Encodes c bytes) (hc : 0x80 ≤ c.toNat) : ∀ b ∈ bytes, 0x80 ≤ b.toNat := by
  cases h with
  | one h => omega
  | two _ _ hb hb₁ =>
    rw [List.forall_mem_cons, List.forall_mem_singleton]
    omega
  | three _ _ hb hb₁ hb₂ =>
    rw [List.forall_mem_cons, List.forall_mem_cons, List.forall_mem_singleton]
    omega
  | four _ _ hb hb₁ hb₂ hb₃ =>
    rw [List.forall_mem_cons, List.forall_mem_cons, List.forall_mem_cons, List.forall_mem_singleton]
    omega

/-! ## Reading by the bit layout -/

theorem isContinuation_iff {b : UInt8} : isContinuation b ↔ 0x80 ≤ b.toNat ∧ b.toNat < 0xC0 := by
  rw [isContinuation, Bool.and_eq_true_iff, decide_eq_true_iff, decide_eq_true_iff]
  rfl

theorem continued_succ {b : UInt8} (h : 0x80 ≤ b.toNat ∧ b.toNat < 0xC0) (n bits : Nat) (rest : List UInt8) :
    continued (n + 1) bits (b :: rest) = continued n (bits * 64 + b.toNat % 64) rest := by
  rw [continued, if_pos (isContinuation_iff.2 h)]

theorem decodeLong_of_continued {c : Char} {n bits : Nat} {rest : List UInt8} (h : continued n bits rest = some c.toNat) :
    decodeLong n bits rest = (c, n) := by
  have hvalid : c.toNat.isValidChar := c.valid
  rw [decodeLong, h]
  simp only
  rw [if_pos hvalid, Char.ofNat_toNat]

/-- The class a lead byte is in. -/
theorem decode_cons (b : UInt8) (rest : List UInt8) : decode (b :: rest) = some (
    if b.toNat < 0x80 then (Char.ofNat b.toNat, 0)
    else if b.toNat < 0xC0 then (replacement, 0)
    else if b.toNat < 0xE0 then decodeLong 1 (b.toNat % 32) rest
    else if b.toNat < 0xF0 then decodeLong 2 (b.toNat % 16) rest
    else if b.toNat < 0xF8 then decodeLong 3 (b.toNat % 8) rest
    else (replacement, 0)) := rfl

/-- The first character is read from any form of it, whatever follows. -/
theorem decode_form {c : Char} {bytes : List UInt8} (h : Form c bytes) (rest : List UInt8) :
    decode (bytes ++ rest) = some (c, bytes.length - 1) := by
  cases h with
  | one h hb =>
    rw [List.singleton_append, decode_cons, hb, if_pos h, Char.ofNat_toNat]
    rfl
  | two high hb hb₁ =>
    rw [List.cons_append, decode_cons, hb, if_neg (by omega), if_neg (by omega), if_pos (by omega)]
    refine congrArg some (decodeLong_of_continued ?_)
    rw [List.singleton_append, continued_succ (by omega), continued, hb₁]
    exact congrArg some (by omega)
  | three high hb hb₁ hb₂ =>
    rw [List.cons_append, decode_cons, hb, if_neg (by omega), if_neg (by omega), if_neg (by omega), if_pos (by omega)]
    refine congrArg some (decodeLong_of_continued ?_)
    rw [List.cons_append, List.singleton_append, continued_succ (by omega), continued_succ (by omega), continued, hb₁, hb₂]
    exact congrArg some (by omega)
  | four high hb hb₁ hb₂ hb₃ =>
    rw [List.cons_append, decode_cons, hb, if_neg (by omega), if_neg (by omega), if_neg (by omega), if_neg (by omega),
      if_pos (by omega)]
    refine congrArg some (decodeLong_of_continued ?_)
    rw [List.cons_append, List.cons_append, List.singleton_append, continued_succ (by omega), continued_succ (by omega),
      continued_succ (by omega), continued, hb₁, hb₂, hb₃]
    exact congrArg some (by omega)

theorem decode_encodes {c : Char} {bytes : List UInt8} (h : Encodes c bytes) (rest : List UInt8) :
    decode (bytes ++ rest) = some (c, bytes.length - 1) := decode_form h.form rest

/-! ## Reading by the exact syntax -/

/-- One more byte in the range called for. -/
theorem followed_succ {low high b : UInt8} (h : low.toNat ≤ b.toNat ∧ b.toNat ≤ high.toNat) (n : Nat) (rest : List UInt8) :
    followed (n + 1) low high (b :: rest) = followed n 0x80 0xBF rest + 1 := by
  rw [followed, if_pos]
  rw [Bool.and_eq_true_iff, decide_eq_true_iff, decide_eq_true_iff]
  exact h

theorem followed_continuation {b : UInt8} (h : 0x80 ≤ b.toNat ∧ b.toNat < 0xC0) (n : Nat) (rest : List UInt8) :
    followed (n + 1) 0x80 0xBF (b :: rest) = followed n 0x80 0xBF rest + 1 :=
  @followed_succ 0x80 0xBF b ⟨h.1, Nat.le_of_lt_succ h.2⟩ n rest

/-- By the number of the lead byte. -/
theorem followers_eq (b : UInt8) : followers b =
    if b.toNat < 0xC2 then none
    else if b.toNat < 0xE0 then some (1, 0x80, 0xBF)
    else if b.toNat = 0xE0 then some (2, 0xA0, 0xBF)
    else if b.toNat = 0xED then some (2, 0x80, 0x9F)
    else if b.toNat < 0xF0 then some (2, 0x80, 0xBF)
    else if b.toNat = 0xF0 then some (3, 0x90, 0xBF)
    else if b.toNat < 0xF4 then some (3, 0x80, 0xBF)
    else if b.toNat = 0xF4 then some (3, 0x80, 0x8F)
    else none := by
  simp only [followers, ← UInt8.toNat_inj, UInt8.lt_iff_toNat_lt]
  rfl

/-- A lead byte and the range of what follows it, for a character of three bytes. -/
theorem followers_three {c : Char} {b b₁ : UInt8} (low : 0x800 ≤ c.toNat) (high : c.toNat < 0x10000)
    (hb : b.toNat = 0xE0 + c.toNat / 4096) (hb₁ : b₁.toNat = 0x80 + c.toNat / 64 % 64) :
    ∃ first last : UInt8, followers b = some (2, first, last) ∧ first.toNat ≤ b₁.toNat ∧ b₁.toNat ≤ last.toNat := by
  -- No character is among the numbers that UTF-16 needs for itself.
  have hvalid : c.toNat < 0xD800 ∨ 0xDFFF < c.toNat ∧ c.toNat < 0x110000 := c.valid
  rw [followers_eq, if_neg (by omega), if_neg (by omega)]
  split
  · exact ⟨0xA0, 0xBF, rfl, show 0xA0 ≤ _ by omega, show _ ≤ 0xBF by omega⟩
  split
  · exact ⟨0x80, 0x9F, rfl, show 0x80 ≤ _ by omega, show _ ≤ 0x9F by omega⟩
  · exact ⟨0x80, 0xBF, if_pos (by omega), show 0x80 ≤ _ by omega, show _ ≤ 0xBF by omega⟩

theorem followers_four {c : Char} {b b₁ : UInt8} (low : 0x10000 ≤ c.toNat) (high : c.toNat < 0x110000)
    (hb : b.toNat = 0xF0 + c.toNat / 262144) (hb₁ : b₁.toNat = 0x80 + c.toNat / 4096 % 64) :
    ∃ first last : UInt8, followers b = some (3, first, last) ∧ first.toNat ≤ b₁.toNat ∧ b₁.toNat ≤ last.toNat := by
  rw [followers_eq, if_neg (by omega), if_neg (by omega), if_neg (by omega), if_neg (by omega), if_neg (by omega)]
  split
  · exact ⟨0x90, 0xBF, rfl, show 0x90 ≤ _ by omega, show _ ≤ 0xBF by omega⟩
  split
  · exact ⟨0x80, 0xBF, rfl, show 0x80 ≤ _ by omega, show _ ≤ 0xBF by omega⟩
  · exact ⟨0x80, 0x8F, if_pos (by omega), show 0x80 ≤ _ by omega, show _ ≤ 0x8F by omega⟩

theorem strictHead_of_followed {c : Char} {b first last : UInt8} {n : Nat} {rest : List UInt8} (hb : 0x80 ≤ b.toNat)
    (hn : followers b = some (n, first, last)) (hall : followed n first last rest = n)
    (hc : decode (b :: rest) = some (c, n)) : strictHead b rest = (some c, n) := by
  rw [strictHead, if_neg (UInt8.not_lt.2 hb), hn]
  simp only
  rw [if_pos hall, hc]
  rfl

/-- The syntax lets follow a lead byte just what the encoding has there. -/
theorem strictHead_encodes {c : Char} {b : UInt8} {bytes : List UInt8} (h : Encodes c (b :: bytes)) (rest : List UInt8) :
    strictHead b (bytes ++ rest) = (some c, bytes.length) := by
  have hc := decode_encodes h rest
  cases h with
  | one h hb =>
    rw [strictHead, if_pos (UInt8.lt_iff_toNat_lt.2 (hb ▸ h)), hb, Char.ofNat_toNat]
    rfl
  | two low high hb hb₁ =>
    have hn : followers b = some (1, 0x80, 0xBF) := by
      rw [followers_eq, if_neg (by omega), if_pos (by omega)]
    refine strictHead_of_followed (by omega) hn ?_ hc
    exact followed_continuation (by omega) 0 rest
  | three low high hb hb₁ hb₂ =>
    obtain ⟨first, last, hn, hrange⟩ := followers_three low high hb hb₁
    refine strictHead_of_followed (by omega) hn ?_ hc
    refine (followed_succ hrange 1 _).trans ?_
    exact congrArg (· + 1) (followed_continuation (by omega) 0 rest)
  | four low high hb hb₁ hb₂ hb₃ =>
    obtain ⟨first, last, hn, hrange⟩ := followers_four low high hb hb₁
    refine strictHead_of_followed (by omega) hn ?_ hc
    refine (followed_succ hrange 2 _).trans (congrArg (· + 1) ?_)
    refine (followed_continuation (by omega) 1 _).trans ?_
    exact congrArg (· + 1) (followed_continuation (by omega) 0 rest)

/-- Nothing of a text is lost. -/
theorem lossy_encode (chars : List Char) : lossy (encode chars) = chars := by
  induction chars with
  | nil => rw [encode_nil, lossy]
  | cons c chars ih =>
    rw [encode_cons]
    have h := encodes c
    cases hbytes : String.utf8EncodeChar c with
    | nil => exact absurd hbytes String.utf8EncodeChar_ne_nil
    | cons b bytes =>
      rw [hbytes] at h
      rw [List.cons_append, lossy, strictHead_encodes h]
      simp only [Option.getD_some, List.drop_left, ih]

end BlockScope.Text
