import BlockScope.Proofs.Token.Scanned
import BlockScope.Source.Window
/-!
# Which bytes are read as which character

A window always holds enough bytes to decode the character it stands at. What comes out is the character if its encoding is
next, and U+FFFD for one byte if no character is. In between are the forms that spend more bytes on a character than its encoding
does (`Overlong`): these are read as the character too, and so one name can have several spellings. Without them the bytes of
an identifier are those of its name (`decoding_strict_unless_overlong`).
-/
namespace BlockScope
open Text

namespace Text
variable {c : Char} {n bits code : Nat} {u bytes : List UInt8}

/-! ## Forms of a character -/

/-- Carries a character with more bytes than its encoding has. -/
structure Overlong (c : Char) (bytes : List UInt8) : Prop where
  form : Form c bytes
  longer : (String.utf8EncodeChar c).length < bytes.length

/-- A form that is not too long is the encoding. -/
theorem Form.eq_or_overlong (h : Form c bytes) : bytes = String.utf8EncodeChar c ∨ Overlong c bytes := by
  have henc := encodes c
  have hlonger : (String.utf8EncodeChar c).length < bytes.length → Overlong c bytes := fun hlt => ⟨h, hlt⟩
  generalize String.utf8EncodeChar c = encoded at henc hlonger
  cases h <;> cases henc <;> first
    | (refine .inr (hlonger ?_); simp; done)
    | omega
    | (left; simp only [List.cons.injEq, and_true, ← UInt8.toNat_inj]; omega)

/-! ## What can be read -/

theorem exists_of_continued (h : continued (n + 1) bits u = some code) :
    ∃ b rest, u = b :: rest ∧ (0x80 ≤ b.toNat ∧ b.toNat < 0xC0) ∧ continued n (bits * 64 + b.toNat % 64) rest = some code := by
  cases u with
  | nil => cases h
  | cons b rest =>
    rw [continued] at h
    split at h
    · next hb => exact ⟨b, rest, rfl, isContinuation_iff.1 hb, h⟩
    · cases h

theorem decodeLong_cases (n bits : Nat) (u : List UInt8) :
    decodeLong n bits u = (replacement, 0) ∨ ∃ c : Char, continued n bits u = some c.toNat := by
  unfold decodeLong
  split
  · next code hcode =>
    split
    · next hvalid => exact .inr ⟨Char.ofNat code, by rw [hcode, toNat_ofNat hvalid]⟩
    · exact .inl rfl
  · exact .inl rfl

/-- Either some form of a character is next, or what is next is replaced byte by byte. -/
theorem decode_cases (b : UInt8) (u : List UInt8) :
    decode (b :: u) = some (replacement, 0) ∨ ∃ c bytes rest, Form c bytes ∧ b :: u = bytes ++ rest := by
  have hlt := b.toNat_lt
  rw [decode_cons]
  split
  · next h =>
    refine .inr ⟨Char.ofNat b.toNat, [b], u, .one ?_ ?_, rfl⟩
    · rw [ofNat_toNat_byte]; exact h
    · rw [ofNat_toNat_byte]
  split
  · exact .inl rfl
  split
  · rcases decodeLong_cases 1 (b.toNat % 32) u with h | ⟨c, h⟩
    · exact .inl (congrArg some h)
    · obtain ⟨b₁, rest, rfl, hb₁, h⟩ := exists_of_continued h
      have hcode := Option.some.inj h
      exact .inr ⟨c, [b, b₁], rest, .two (by omega) (by omega) (by omega), rfl⟩
  split
  · rcases decodeLong_cases 2 (b.toNat % 16) u with h | ⟨c, h⟩
    · exact .inl (congrArg some h)
    · obtain ⟨b₁, rest, rfl, hb₁, h⟩ := exists_of_continued h
      obtain ⟨b₂, rest, rfl, hb₂, h⟩ := exists_of_continued h
      have hcode := Option.some.inj h
      exact .inr ⟨c, [b, b₁, b₂], rest, .three (by omega) (by omega) (by omega) (by omega), rfl⟩
  split
  · rcases decodeLong_cases 3 (b.toNat % 8) u with h | ⟨c, h⟩
    · exact .inl (congrArg some h)
    · obtain ⟨b₁, rest, rfl, hb₁, h⟩ := exists_of_continued h
      obtain ⟨b₂, rest, rfl, hb₂, h⟩ := exists_of_continued h
      obtain ⟨b₃, rest, rfl, hb₃, h⟩ := exists_of_continued h
      have hcode := Option.some.inj h
      exact .inr ⟨c, [b, b₁, b₂, b₃], rest, .four (toNat_lt c) (by omega) (by omega) (by omega) (by omega), rfl⟩
  · exact .inl rfl

/-- Characters are told from their first four bytes. -/
theorem continued_append_of_length (h : n ≤ u.length) (bits : Nat) (v : List UInt8) :
    continued n bits (u ++ v) = continued n bits u := by
  induction n generalizing bits u with
  | zero => rfl
  | succ n ih =>
    cases u with
    | nil => cases h
    | cons b u => rw [List.cons_append, continued, continued, ih (Nat.le_of_succ_le_succ h)]

theorem decode_append_of_length (h : 4 ≤ u.length) (v : List UInt8) : decode (u ++ v) = decode u := by
  cases u with
  | nil => cases h
  | cons b u =>
    have hle : 3 ≤ u.length := Nat.le_of_succ_le_succ h
    have hlong : ∀ n bits, n ≤ 3 → decodeLong n bits (u ++ v) = decodeLong n bits u := by
      intro n bits hn
      rw [decodeLong, decodeLong, continued_append_of_length (Nat.le_trans hn hle)]
    rw [List.cons_append, decode_cons, decode_cons, hlong 1 _ (by decide), hlong 2 _ (by decide), hlong 3 _ (by decide)]

end Text

/-! ## Windows -/

namespace Window
variable {r : ByteReader} {w w' : Window}

/-- The character the window stands at, and the number of its bytes. -/
def peekChar (w : Window) : Option (Char × Nat) := (decode w.buffer).map fun r => (r.1, r.2 + 1)

/-- A window that has moved over some of what a reader delivers. -/
inductive Reached (r : ByteReader) : Window → Prop where
  | start : Reached r (ofReader r)
  | advance {w w' : Window} {b : UInt8} (h : Reached r w) (hw : w.advance = some (b, w')) : Reached r w'

/-- Full, or else the reader has nothing more. -/
structure Filled (w : Window) : Prop where
  ended : w.ended → w.reader.bytes = []
  full : capacity ≤ w.buffer.length ∨ w.reader.bytes = []

theorem fillBy_filled (n : Nat) (h : w.ended → w.reader.bytes = []) :
    ((fillBy n w).ended → (fillBy n w).reader.bytes = []) ∧
      (w.buffer.length + n ≤ (fillBy n w).buffer.length ∨ (fillBy n w).reader.bytes = []) := by
  induction n generalizing w with
  | zero => exact ⟨h, .inl (Nat.le_refl _)⟩
  | succ n ih =>
    rw [fillBy]
    split
    · next hended => exact ⟨h, .inr (h hended)⟩
    · next hended =>
      obtain ⟨⟨bytes, failing, attempts⟩, buffer, ended, position⟩ := w
      cases bytes with
      | nil => cases failing <;> exact ⟨fun _ => rfl, .inr rfl⟩
      | cons b bytes =>
        obtain ⟨hnext, hlength⟩ := ih (w := ⟨⟨bytes, failing, attempts + 1⟩, buffer ++ [b], ended, position⟩)
          fun hyes => absurd hyes hended
        refine ⟨hnext, hlength.imp_left fun hle => ?_⟩
        simp only [List.length_append, List.length_singleton] at hle
        simp only [ByteReader.read]
        omega

theorem fill_filled (h : w.ended → w.reader.bytes = []) : w.fill.Filled := by
  obtain ⟨hended, hlength⟩ := fillBy_filled (capacity - w.buffer.length) h
  exact ⟨hended, hlength.imp_left fun hle => by unfold fill; omega⟩

theorem Reached.filled (h : Reached r w) : w.Filled := by
  induction h with
  | start => exact fill_filled nofun
  | @advance w w' b _ hw ih =>
    unfold Window.advance at hw
    split at hw
    · cases hw
    · next first rest heq =>
      simp only [Option.some.injEq, Prod.mk.injEq] at hw
      obtain ⟨-, rfl⟩ := hw
      obtain ⟨hended, hfull⟩ := @fill_filled { w with buffer := rest } ih.ended
      exact ⟨hended, hfull⟩

/-- A window sees as much of what is to come as the next character takes. -/
theorem Filled.peekChar (h : w.Filled) : w.peekChar = (decode w.pending).map fun r => (r.1, r.2 + 1) := by
  rw [Window.peekChar, pending]
  rcases h.full with hfull | hnone
  · rw [decode_append_of_length (Nat.le_trans (by decide) hfull)]
  · rw [hnone, List.append_nil]

end Window

/-! ## Names -/

theorem inRanges_eq_any (ranges : Array (Nat × Nat)) (codePoint : Nat) :
    inRanges ranges codePoint = ranges.toList.any fun (first, last) => first ≤ codePoint && codePoint ≤ last :=
  Array.any_toList.symm

/-- Neither class of word characters has the one that stands for bytes that are none. -/
theorem replacement_not_wordChar : isWordChar replacement = false := by
  have hbeyond : ¬ replacement.toNat < 0x80 := by decide
  rw [isWordChar, isLetter, isNumeral, if_neg hbeyond, if_neg hbeyond, inRanges_eq_any, inRanges_eq_any]
  decide +kernel

/-- A form that is too long for its character stands in the bytes. -/
def HasOverlong (bytes : List UInt8) : Prop := ∃ c form, Overlong c form ∧ form <:+: bytes

theorem HasOverlong.append {xs ys : List UInt8} (h : HasOverlong ys) : HasOverlong (xs ++ ys) := by
  obtain ⟨c, form, hlong, hinfix⟩ := h
  exact ⟨c, form, hlong, hinfix.trans (List.suffix_append xs ys).isInfix⟩

/-- A run of characters stands on their encodings, unless one of them is too long. -/
theorem charRun_encoded {p : Char → Bool} (hp : p replacement = false) (u : List UInt8) :
    u.take (charRun p u).2 = encode (charRun p u).1 ∨ HasOverlong (u.take (charRun p u).2) := by
  generalize hn : u.length = n
  induction n using Nat.strongRecOn generalizing u with
  | _ n ih =>
    subst hn
    cases u with
    | nil =>
      rw [charRun.eq_def]
      exact .inl rfl
    | cons b u =>
      rcases decode_cases b u with hnone | ⟨c, form, rest, hform, hsplit⟩
      · rw [charRun_of_decode hnone hp]
        exact .inl rfl
      rw [hsplit]
      cases hc : p c with
      | false =>
        rw [charRun_of_decode (decode_form hform rest) hc]
        exact .inl rfl
      | true =>
        have hshorter : rest.length < (b :: u).length := by
          have := hform.length_pos
          rw [hsplit, List.length_append]
          omega
        rw [charRun_form hform hc, List.take_append, Nat.add_sub_cancel_left, List.take_of_length_le (Nat.le_add_right _ _)]
        rcases hform.eq_or_overlong with rfl | hlong
        · exact (ih _ hshorter rest rfl).imp (fun h => by rw [h, encode_cons]) .append
        · exact .inr ⟨c, form, hlong, (List.prefix_append form _).isInfix⟩

/-- A word that is read as an identifier is its name. -/
theorem scanWord_identifier {u : List UInt8} {name : String} (h : (scanWord u).kind = .identifier name) :
    name = String.ofList (charRun isWordChar u).1 ∧ (scanWord u).more = (charRun isWordChar u).2 - 1 := by
  simp only [scanWord] at h ⊢
  split at h
  · cases h
  · next hplain =>
    rw [if_neg hplain]
    simp only at h
    split at h
    · cases h
    · cases h
      exact ⟨rfl, rfl⟩

/-- An identifier stands on the encoding of its name, unless a character there is too long. -/
theorem source_identifier {bytes : List UInt8} {t : Token} {name : String} (ht : t ∈ tokenize bytes)
    (hkind : t.kind = .identifier name) : t.source bytes = utf8 name ∨ HasOverlong (t.source bytes) := by
  rcases scanned_of_mem ht with hend | ⟨first, rest, found, hscanned, hfound, hsource⟩
  · rw [hkind] at hend
    cases hend
  obtain ⟨hword, rfl⟩ := hscanned.of_identifier (hfound.symm.trans hkind)
  obtain ⟨hname, hmore⟩ := scanWord_identifier (hfound.symm.trans hkind)
  rw [hsource, hmore, ← List.take_succ_cons, Nat.sub_add_cancel (charRun_pos hword), hname, utf8_eq_encode, String.toList_ofList]
  exact charRun_encoded replacement_not_wordChar _

/-- Decoding is exact but for forms that are too long. Nothing is read from nothing, an encoding is read as its character, and
where neither that nor a longer form is next, one byte is replaced. Two identifiers of one name stand on the same bytes if none
of these forms is in them. -/
theorem decoding_strict_unless_overlong {r : ByteReader} {w : Window} (h : w.Reached r) :
    (w.peekChar = none ↔ w.pending = []) ∧
    (∀ c, String.utf8EncodeChar c <+: w.pending → w.peekChar = some (c, (String.utf8EncodeChar c).length)) ∧
    (∀ c form, Overlong c form → form <+: w.pending → w.peekChar = some (c, form.length)) ∧
    (w.pending ≠ [] → (∀ c, ¬ String.utf8EncodeChar c <+: w.pending) → (∀ c form, Overlong c form → ¬ form <+: w.pending) →
      w.peekChar = some (replacement, 1)) ∧
    ∀ {bytes bytes' : List UInt8} {t t' : Token} {name : String}, t ∈ tokenize bytes → t' ∈ tokenize bytes' →
      t.kind = .identifier name → t'.kind = .identifier name → ¬ HasOverlong (t.source bytes) → ¬ HasOverlong (t'.source bytes') →
      t.source bytes = t'.source bytes' := by
  rw [h.filled.peekChar]
  have hform : ∀ {c form}, Form c form → form <+: w.pending →
      (decode w.pending).map (fun r => (r.1, r.2 + 1)) = some (c, form.length) := by
    rintro c form hform ⟨rest, hrest⟩
    rw [← hrest, decode_form hform, Option.map_some, Nat.sub_add_cancel hform.length_pos]
  refine ⟨?_, fun c => hform (encodes c).form, fun c form hlong => hform hlong.form, fun hne hnone hnone' => ?_, ?_⟩
  · cases w.pending with
    | nil => exact ⟨fun _ => rfl, fun _ => rfl⟩
    | cons b u => exact ⟨nofun, nofun⟩
  · obtain ⟨b, u, hpending⟩ := List.exists_cons_of_ne_nil hne
    rw [hpending] at hnone hnone' ⊢
    rcases decode_cases b u with hd | ⟨c, form, rest, hform, hsplit⟩
    · rw [hd]
      rfl
    · have hprefix : form <+: b :: u := ⟨rest, hsplit.symm⟩
      rcases hform.eq_or_overlong with rfl | hlong
      · exact absurd hprefix (hnone c)
      · exact absurd hprefix (hnone' c form hlong)
  · intro bytes bytes' t t' name ht ht' hkind hkind' hstrict hstrict'
    rw [(source_identifier ht hkind).resolve_right hstrict, (source_identifier ht' hkind').resolve_right hstrict']

/-- A character of two bytes in its encoding, and one of ASCII that takes two as well. -/
theorem decoding_strict_unless_overlong_letter :
    (Window.ofReader (.ofBytes (utf8 "é"))).peekChar = some ('é', 2) ∧
    (Window.ofReader (.ofBytes [0xC1, 0x81])).peekChar = some ('A', 2) :=
  ⟨(decoding_strict_unless_overlong .start).2.1 'é' ⟨[], by decide +kernel⟩,
    (decoding_strict_unless_overlong .start).2.2.1 'A' [0xC1, 0x81] ⟨.two (by decide) (by decide) (by decide), by decide⟩
      ⟨[], by decide +kernel⟩⟩

end BlockScope
