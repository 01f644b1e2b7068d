import BlockScope.Proofs.Text.Encoding
/-!
# Cutting encoded text

A byte of ASCII in an encoded text is a character of its own. So a text can be cut right before and right behind it without
splitting a character (`Cut`, `cut_of_byAscii`), and bytes that are all ASCII are characters one by one (`exists_of_ascii`).
-/
namespace BlockScope.Text
variable {chars : List Char} {xs ys u : List UInt8} {a b : UInt8} {n m : Nat}

/-- The bytes of a text come apart between two of its characters. -/
def Cut (chars : List Char) (xs ys : List UInt8) : Prop :=
  ∃ taken left, chars = taken ++ left ∧ xs = encode taken ∧ ys = encode left

/-- The character of a byte of ASCII. -/
def asciiChar (b : UInt8) : Char := Char.ofNat b.toNat

theorem encodeChar_asciiChar (hb : b.toNat < 0x80) : String.utf8EncodeChar (asciiChar b) = [b] := by
  have hcode : (asciiChar b).toNat = b.toNat := ofNat_toNat_byte b
  obtain ⟨b', hb', henc⟩ := encodeChar_eq_singleton (hcode ▸ hb)
  rw [henc, UInt8.toNat_inj.1 (hb'.trans hcode)]

theorem latin1_append (xs ys : List UInt8) : latin1 (xs ++ ys) = latin1 xs ++ latin1 ys := by
  rw [latin1, List.map_append, String.ofList_append]
  rfl

theorem encode_asciiChars (h : ∀ b ∈ xs, b.toNat < 0x80) : encode (xs.map asciiChar) = xs := by
  induction xs with
  | nil => rfl
  | cons b xs ih =>
    rw [List.map_cons, encode_cons, encodeChar_asciiChar (h b List.mem_cons_self), ih fun d hd => h d (List.mem_cons_of_mem b hd)]
    rfl

/-- A text that begins with a byte of ASCII begins with that character. -/
theorem exists_of_head (h : encode chars = b :: u) (hb : b.toNat < 0x80) :
    ∃ rest, chars = asciiChar b :: rest ∧ u = encode rest := by
  cases chars with
  | nil => cases h
  | cons c rest =>
    have henc := encodes c
    rw [encode_cons] at h
    cases hbytes : String.utf8EncodeChar c with
    | nil => exact absurd hbytes String.utf8EncodeChar_ne_nil
    | cons b' bytes =>
      rw [hbytes] at h henc
      obtain ⟨rfl, rfl⟩ := List.cons.inj h
      cases henc with
      | one _ hb' =>
        refine ⟨rest, ?_, rfl⟩
        rw [asciiChar, hb', Char.ofNat_toNat]
      | two | three | four => omega

/-- Bytes of ASCII at the front of a text are its characters. -/
theorem exists_of_ascii (h : encode chars = xs ++ ys) (hx : ∀ b ∈ xs, b.toNat < 0x80) :
    ∃ left, chars = xs.map asciiChar ++ left ∧ ys = encode left := by
  induction xs generalizing chars with
  | nil => exact ⟨chars, rfl, h.symm⟩
  | cons b xs ih =>
    obtain ⟨rest, rfl, hrest⟩ := exists_of_head h (hx b List.mem_cons_self)
    obtain ⟨left, rfl, hys⟩ := ih hrest.symm fun d hd => hx d (List.mem_cons_of_mem b hd)
    exact ⟨left, rfl, hys⟩

/-- Right before a byte of ASCII a text can be cut. -/
theorem cut_before (h : encode chars = xs ++ b :: ys) (hb : b.toNat < 0x80) : Cut chars xs (b :: ys) := by
  induction chars generalizing xs with
  | nil => cases xs <;> cases h
  | cons c chars ih =>
    rcases List.append_eq_append_iff.1 ((encode_cons c chars).symm.trans h) with ⟨as, hxs, hrest⟩ | ⟨bs, hc, hrest⟩
    · -- The cut is behind the first character.
      obtain ⟨taken, left, rfl, rfl, hys⟩ := ih hrest
      exact ⟨c :: taken, left, rfl, hxs, hys⟩
    cases bs with
    | nil =>
      rw [List.append_nil] at hc
      exact ⟨[c], chars, rfl, by rw [← hc]; exact (List.append_nil _).symm, hrest⟩
    | cons b' bs =>
      -- The byte is in the first character, which then is that byte alone.
      obtain ⟨rfl, -⟩ := List.cons.inj hrest
      have hascii : c.toNat < 0x80 := by
        refine Nat.not_le.1 fun hle => ?_
        have := (encodes c).high hle b (by rw [hc]; simp)
        omega
      obtain ⟨d, -, hd⟩ := encodeChar_eq_singleton hascii
      rw [hd] at hc
      cases xs with
      | nil => exact ⟨[], c :: chars, rfl, rfl, h.symm⟩
      | cons x xs => cases xs <;> cases hc

/-! ## Cuts beside a byte of ASCII -/

/-- So many bytes on, a byte of ASCII is next or was the last one, or nothing is left. -/
def ByAscii (u : List UInt8) (n : Nat) : Prop :=
  (∀ b ∈ (u.drop n).head?, b.toNat < 0x80) ∨ ∃ b ∈ (u.take n).getLast?, b.toNat < 0x80

theorem byAscii_head (hb : b.toNat < 0x80) (u : List UInt8) : ByAscii (b :: u) 1 := .inr ⟨b, rfl, hb⟩

theorem byAscii_length (u : List UInt8) : ByAscii u u.length := by
  left
  rw [List.drop_length]
  nofun

theorem ByAscii.cons (h : ByAscii u n) (a : UInt8) : ByAscii (a :: u) (n + 1) := by
  refine h.imp id ?_
  rintro ⟨b, hlast, hb⟩
  refine ⟨b, ?_, hb⟩
  rw [List.take_succ_cons, List.getLast?_cons, hlast]
  rfl

theorem ByAscii.append (h : ByAscii u n) (xs : List UInt8) : ByAscii (xs ++ u) (xs.length + n) := by
  induction xs with
  | nil =>
    rw [List.length_nil, Nat.zero_add]
    exact h
  | cons a xs ih =>
    rw [List.length_cons, Nat.add_right_comm]
    exact ih.cons a

/-- So many bytes are all ASCII. -/
def AsciiFor (u : List UInt8) (n : Nat) : Prop := ∀ b ∈ u.take n, b.toNat < 0x80

theorem asciiFor_zero (u : List UInt8) : AsciiFor u 0 := by simp [AsciiFor]

theorem asciiFor_nil (n : Nat) : AsciiFor [] n := by simp [AsciiFor]

theorem AsciiFor.add (h : AsciiFor u n) (h' : AsciiFor (u.drop n) m) : AsciiFor u (n + m) := by
  intro b hb
  rw [List.take_add] at hb
  exact (List.mem_append.1 hb).elim (h b) (h' b)

theorem AsciiFor.cons (h : AsciiFor u n) (ha : a.toNat < 0x80) : AsciiFor (a :: u) (n + 1) := by
  intro b hb
  rcases List.mem_cons.1 hb with rfl | hb
  · exact ha
  · exact h b hb

theorem asciiFor_of_prefix (h : xs <+: u) (hx : ∀ b ∈ xs, b.toNat < 0x80) : AsciiFor u xs.length := by
  intro b hb
  rw [← List.prefix_iff_eq_take.1 h] at hb
  exact hx b hb

theorem AsciiFor.byAscii (h : AsciiFor u (n + 1)) (hne : u ≠ []) : ByAscii u (n + 1) := by
  have htaken : u.take (n + 1) ≠ [] := by
    intro hnil
    rcases List.take_eq_nil_iff.1 hnil with h | h
    · cases h
    · exact hne h
  exact .inr ⟨_, List.getLast?_eq_some_getLast htaken, h _ (List.getLast_mem htaken)⟩

/-- Beside a byte of ASCII a text can be cut. -/
theorem cut_of_byAscii (h : ByAscii (encode chars) n) : Cut chars ((encode chars).take n) ((encode chars).drop n) := by
  have hsplit : encode chars = (encode chars).take n ++ (encode chars).drop n := (List.take_append_drop n _).symm
  rcases h with h | ⟨b, hlast, hb⟩
  · cases hdrop : (encode chars).drop n with
    | nil =>
      rw [hdrop, List.append_nil] at hsplit
      exact ⟨chars, [], (List.append_nil _).symm, hsplit.symm, rfl⟩
    | cons b ys =>
      rw [hdrop] at hsplit h
      exact cut_before hsplit (h b rfl)
  · obtain ⟨xs, hxs⟩ := List.getLast?_eq_some_iff.1 hlast
    rw [hxs, List.append_assoc, List.singleton_append] at hsplit
    -- Cut before the byte, which is a character of what follows.
    obtain ⟨taken, left, rfl, rfl, hleft⟩ := cut_before hsplit hb
    obtain ⟨rest, rfl, hrest⟩ := exists_of_head hleft.symm hb
    refine ⟨taken ++ [asciiChar b], rest, by rw [List.append_assoc]; rfl, ?_, hrest⟩
    rw [hxs, encode_append, encode_cons, encodeChar_asciiChar hb]
    rfl

end BlockScope.Text
