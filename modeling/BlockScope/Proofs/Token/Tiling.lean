import BlockScope.Proofs.Token.Words
/-!
# Tokens tile a text

Whatever a text holds, its tokens stand in it one after the other, each takes at least one byte, and only blanks
are left between them. The end of input is the last token and stands behind all bytes. Positions count: the line
is the number of line feeds before a place, and the column the number of bytes since the last of them.
-/
namespace BlockScope

/-! ## Places -/

/-- The place after so many bytes of a text: its line by the line feeds before it, and its column by the bytes since
the last of these. -/
def placeAt (bytes : List UInt8) (offset : Nat) : Position where
  offset := offset
  line := 1 + (bytes.take offset).count 0x0A
  column := 1 + ((bytes.take offset).reverse.takeWhile (· ≠ 0x0A)).length

variable {bytes : List UInt8} {n m start stop i : Nat}

theorem placeAt_zero (bytes : List UInt8) : placeAt bytes 0 = .origin := by simp [placeAt, Position.origin]

theorem placeAt_succ {b : UInt8} (h : bytes[n]? = some b) : placeAt bytes (n + 1) = (placeAt bytes n).next b := by
  have htake : bytes.take (n + 1) = bytes.take n ++ [b] := by
    rw [List.take_add_one, h]
    rfl
  by_cases hb : b = 0x0A
  · simp [placeAt, Position.next, htake, hb]
    omega
  · simp [placeAt, Position.next, htake, hb]
    omega

/-- Moving over the bytes that stand at a place leads to the place behind them. -/
theorem advance_placeAt {xs ys : List UInt8} (h : bytes.drop n = xs ++ ys) :
    (placeAt bytes n).advance xs = placeAt bytes (n + xs.length) := by
  induction xs generalizing n with
  | nil => rfl
  | cons x xs ih =>
    have hx : bytes[n]? = some x := by
      rw [← List.head?_drop, h]
      rfl
    have hrest : bytes.drop (n + 1) = xs ++ ys := by
      rw [← List.tail_drop, h]
      rfl
    calc (placeAt bytes n).advance (x :: xs)
      _ = (placeAt bytes (n + 1)).advance xs := by rw [placeAt_succ hx]; rfl
      _ = placeAt bytes (n + (xs.length + 1)) := by rw [ih hrest]; congr 1; omega

/-! ## One token -/

/-- Only blanks stand from the first place up to the second. -/
structure BlankTo (bytes : List UInt8) (n m : Nat) : Prop where
  le : n ≤ m
  blank : ∀ i b, n ≤ i → i < m → bytes[i]? = some b → isBlank b

/-- The lexer has read so many bytes of the text. -/
structure Lexer.At (bytes : List UInt8) (l : Lexer) (n : Nat) : Prop where
  le : n ≤ bytes.length
  rest : l.rest = bytes.drop n
  position : l.position = placeAt bytes n

/-- The token of the end of a text, and a lexer that has told it. -/
def endToken (bytes : List UInt8) : Token := ⟨.endOfInput, .point (placeAt bytes bytes.length), ""⟩

def Lexer.atEnd (bytes : List UInt8) : Lexer := ⟨[], placeAt bytes bytes.length, false, true⟩

theorem blankTo_of_drop {xs ys : List UInt8} (h : bytes.drop n = xs ++ ys) (hx : ∀ b ∈ xs, isBlank b) :
    BlankTo bytes n (n + xs.length) := by
  refine ⟨by omega, fun i b hi hi' hb => hx b ?_⟩
  have hget : xs[i - n]? = some b := by
    rw [← List.getElem?_append_left (by omega), ← h, List.getElem?_drop, ← hb]
    congr 1
    omega
  exact List.mem_of_getElem? hget

/-- A lexer tells the end behind the last blanks, or else finds a token behind some blanks and moves over it. -/
theorem Lexer.nextToken_cases {l : Lexer} (h : l.At bytes n) :
    BlankTo bytes n bytes.length ∧ l.nextToken = (endToken bytes, atEnd bytes) ∨
    ∃ start stop, BlankTo bytes n start ∧ start < stop ∧ l.nextToken.1.kind ≠ .endOfInput ∧
      l.nextToken.1.span = ⟨placeAt bytes start, placeAt bytes stop⟩ ∧ l.nextToken.2.At bytes stop ∧
      l.nextToken.2.ended = l.ended := by
  have hsplit : bytes.drop n = l.rest.takeWhile isBlank ++ l.rest.dropWhile isBlank := by
    rw [List.takeWhile_append_dropWhile, h.rest]
  have hblank : BlankTo bytes n (n + (l.rest.takeWhile isBlank).length) :=
    blankTo_of_drop hsplit fun b hb => List.all_eq_true.1 List.all_takeWhile b hb
  have hrest : bytes.drop (n + (l.rest.takeWhile isBlank).length) = l.rest.dropWhile isBlank := by
    rw [← List.drop_drop, hsplit, List.drop_left]
  have hlength := congrArg List.length hsplit
  simp only [List.length_drop, List.length_append] at hlength
  unfold nextToken
  rw [h.position, advance_placeAt hsplit]
  generalize hstart : n + (l.rest.takeWhile isBlank).length = start at hblank hrest
  split
  · next hdrop =>
    have hend : start = bytes.length := by
      have := h.le
      rw [hdrop, List.length_nil] at hlength
      omega
    exact .inl ⟨hend ▸ hblank, by rw [hend]; rfl⟩
  · next first rest hdrop =>
    generalize hscan : scan l.afterOperand first rest = found
    -- What the scan claims beyond the end of the text is cut off.
    have htaken : bytes.drop start = first :: rest.take found.more ++ rest.drop found.more := by
      rw [hrest, hdrop, List.cons_append, List.take_append_drop]
    have hstop := advance_placeAt htaken
    generalize hlen : start + (first :: rest.take found.more).length = stop at hstop
    have hbehind : bytes.drop stop = rest.drop found.more := by
      rw [← hlen, ← List.drop_drop, htaken, List.drop_left]
    have hle := congrArg List.length htaken
    simp only [List.length_drop, List.length_append, List.length_cons] at hle hlen
    have hkind : found.kind ≠ .endOfInput := hscan ▸ scan_not_end _ _ _
    exact .inr ⟨start, stop, hblank, by omega, hkind, congrArg _ hstop, ⟨by omega, hbehind.symm, hstop⟩, rfl⟩

/-! ## All tokens -/

/-- From this offset on the tokens stand in the text one after the other, with blanks between them. -/
inductive Tiles (bytes : List UInt8) : Nat → List Token → Prop where
  | blank {n : Nat} (h : BlankTo bytes n bytes.length) : Tiles bytes n []
  | token {n start stop : Nat} {t : Token} {ts : List Token} (blank : BlankTo bytes n start) (lt : start < stop)
    (le : stop ≤ bytes.length) (kind : t.kind ≠ .endOfInput) (span : t.span = ⟨placeAt bytes start, placeAt bytes stop⟩)
    (rest : Tiles bytes stop ts) : Tiles bytes n (t :: ts)

/-- The byte at this offset is part of the token. -/
def Token.covers (t : Token) (i : Nat) : Bool := t.span.start.offset ≤ i && i < t.span.stop.offset

/-- A run of the lexer tiles what is left of the text, and tells the end after that. -/
theorem Lexer.tiles_run {l : Lexer} (h : l.At bytes n) (hl : l.ended = false) :
    ∃ ts, l.run = (ts ++ [endToken bytes], atEnd bytes) ∧ Tiles bytes n ts := by
  fun_induction Lexer.run l generalizing n with
  | case1 l hnone => simp [next?, hl] at hnone
  | case2 l t l' hsome ts last hrun ih =>
    simp only [next?, hl, Bool.false_eq_true, if_false, Option.some.injEq] at hsome
    rcases nextToken_cases h with ⟨hblank, heq⟩ | ⟨start, stop, hblank, hlt, hkind, hspan, hat, hended⟩
    · rw [heq] at hsome
      cases hsome
      rw [Lexer.run.eq_def] at hrun
      simp only [next?, atEnd] at hrun
      cases hrun
      exact ⟨[], rfl, .blank hblank⟩
    · rw [hsome] at hkind hspan hat hended
      obtain ⟨ts', hrun', htiles⟩ := ih hat (hended.trans hl)
      rw [hrun] at hrun'
      cases hrun'
      exact ⟨t :: ts', rfl, .token hblank hlt hat.le hkind hspan htiles⟩

namespace Tiles
variable {ts : List Token} {t : Token}

/-- Each token takes a stretch of the text behind the offset, and its ends are places of the text. -/
theorem token_span (h : Tiles bytes n ts) (ht : t ∈ ts) : t.kind ≠ .endOfInput ∧ n ≤ t.span.start.offset ∧
    t.span.start.offset < t.span.stop.offset ∧ t.span.stop.offset ≤ bytes.length ∧
    t.span.start = placeAt bytes t.span.start.offset ∧ t.span.stop = placeAt bytes t.span.stop.offset := by
  induction h with
  | blank => cases ht
  | token blank lt le kind span _ ih =>
    rcases List.mem_cons.1 ht with rfl | ht
    · rw [span]
      exact ⟨kind, blank.le, lt, le, rfl, rfl⟩
    · obtain ⟨hkind, hle, hrest⟩ := ih ht
      exact ⟨hkind, by have := blank.le; omega, hrest⟩

theorem pairwise (h : Tiles bytes n ts) : ts.Pairwise fun t u => t.span.stop.offset ≤ u.span.start.offset := by
  induction h with
  | blank => exact .nil
  | token _ _ _ _ span rest ih =>
    refine List.pairwise_cons.2 ⟨fun u hu => ?_, ih⟩
    rw [span]
    exact (rest.token_span hu).2.1

theorem length_le (h : Tiles bytes n ts) : ts.length ≤ bytes.length - n := by
  induction h with
  | blank => exact Nat.zero_le _
  | token blank lt le _ _ _ ih =>
    have := blank.le
    rw [List.length_cons]
    omega

/-- A byte behind the offset is in one token, or else it is a blank in none. -/
theorem covered (h : Tiles bytes n ts) (hi : n ≤ i) (hi' : i < bytes.length) :
    (∃ t, ts.filter (·.covers i) = [t]) ∨ ts.filter (·.covers i) = [] ∧ isBlank bytes[i] := by
  induction h with
  | blank h => exact .inr ⟨rfl, h.blank i _ hi hi' (List.getElem?_eq_getElem hi')⟩
  | @token n start stop t ts blank lt le _ span rest ih =>
    have hcovers : t.covers i = (decide (start ≤ i) && decide (i < stop)) := by rw [Token.covers, span]; rfl
    by_cases hstop : stop ≤ i
    · have hno : t.covers i = false := by
        rw [hcovers, decide_eq_false (Nat.not_lt.2 hstop), Bool.and_false]
      rw [List.filter_cons_of_neg (by simp [hno])]
      exact ih hstop
    · -- Later tokens start behind this byte.
      have hnone : ts.filter (·.covers i) = [] := by
        refine List.filter_eq_nil_iff.2 fun u hu => ?_
        have := (rest.token_span hu).2.1
        simp only [Token.covers, Bool.and_eq_true, decide_eq_true_eq]
        omega
      by_cases hstart : start ≤ i
      · have hyes : t.covers i = true := by
          rw [hcovers, decide_eq_true hstart, decide_eq_true (Nat.not_le.1 hstop)]
          rfl
        exact .inl ⟨t, by simp [hyes, hnone]⟩
      · have hno : t.covers i = false := by rw [hcovers, decide_eq_false hstart, Bool.false_and]
        refine .inr ⟨by rw [List.filter_cons_of_neg (by simp [hno]), hnone], ?_⟩
        exact blank.blank i _ hi (by omega) (List.getElem?_eq_getElem hi')

end Tiles

theorem mem_blanks {b : UInt8} (h : isBlank b) : b ∈ ([0x20, 0x09, 0x0A, 0x0B, 0x0C, 0x0D] : List UInt8) := by
  simp only [isBlank, Bool.or_eq_true, Bool.and_eq_true, decide_eq_true_eq, UInt8.le_iff_toNat_le, ← UInt8.toNat_inj,
    UInt8.toNat_ofNat] at h
  simp only [List.mem_cons, List.not_mem_nil, or_false, ← UInt8.toNat_inj, UInt8.toNat_ofNat]
  omega

/-- The tokens of any text are some that tile it and the end of input behind them, at most one more than it has bytes,
and a lexer that has told the end only tells it again. -/
theorem tokens_tile_text (bytes : List UInt8) :
    (tokenize bytes).length ≤ bytes.length + 1 ∧
    ∃ ts, tokenize bytes = ts ++ [endToken bytes] ∧
      (Lexer.ofBytes bytes).run.2.nextToken = (endToken bytes, (Lexer.ofBytes bytes).run.2) ∧
      (∀ t ∈ ts, t.kind ≠ .endOfInput ∧ t.span.start.offset < t.span.stop.offset ∧ t.span.stop.offset ≤ bytes.length) ∧
      ts.Pairwise (fun t u => t.span.stop.offset ≤ u.span.start.offset) ∧
      (∀ i (hi : i < bytes.length), (∃ t, ts.filter (·.covers i) = [t]) ∨
        ts.filter (·.covers i) = [] ∧ bytes[i] ∈ ([0x20, 0x09, 0x0A, 0x0B, 0x0C, 0x0D] : List UInt8)) ∧
      ∀ t ∈ tokenize bytes, t.span.start = placeAt bytes t.span.start.offset ∧
        t.span.stop = placeAt bytes t.span.stop.offset := by
  have hstart : (Lexer.ofBytes bytes).At bytes 0 := ⟨Nat.zero_le _, rfl, (placeAt_zero bytes).symm⟩
  obtain ⟨ts, hrun, htiles⟩ := Lexer.tiles_run hstart rfl
  have htokens : tokenize bytes = ts ++ [endToken bytes] := congrArg Prod.fst hrun
  refine ⟨?_, ts, htokens, ?_, ?_, htiles.pairwise, ?_, ?_⟩
  · have := htiles.length_le
    rw [htokens, List.length_append, List.length_singleton]
    omega
  · rw [hrun]
    rfl
  · intro t ht
    obtain ⟨hkind, -, hlt, hle, -⟩ := htiles.token_span ht
    exact ⟨hkind, hlt, hle⟩
  · intro i hi
    exact (htiles.covered (Nat.zero_le i) hi).imp_right fun ⟨hnone, hblank⟩ => ⟨hnone, mem_blanks hblank⟩
  · intro t ht
    rw [htokens] at ht
    rcases List.mem_append.1 ht with ht | ht
    · exact (htiles.token_span ht).2.2.2.2
    · rw [List.mem_singleton.1 ht]
      exact ⟨rfl, rfl⟩

/-! ## The order of tokens -/

theorem tiles_tokenize (bytes : List UInt8) : ∃ ts, tokenize bytes = ts ++ [endToken bytes] ∧ Tiles bytes 0 ts := by
  have hstart : (Lexer.ofBytes bytes).At bytes 0 := ⟨Nat.zero_le _, rfl, (placeAt_zero bytes).symm⟩
  obtain ⟨ts, hrun, htiles⟩ := Lexer.tiles_run hstart rfl
  exact ⟨ts, congrArg Prod.fst hrun, htiles⟩

/-- The end of input is the last of the tokens, and only the last. -/
inductive EndsOnce : List Token → Prop where
  | last {t : Token} (h : t.kind = .endOfInput) : EndsOnce [t]
  | cons {t : Token} {ts : List Token} (h : t.kind ≠ .endOfInput) (rest : EndsOnce ts) : EndsOnce (t :: ts)

namespace EndsOnce
variable {ts us : List Token} {t : Token}

theorem append_last (h : ∀ u ∈ ts, u.kind ≠ .endOfInput) (ht : t.kind = .endOfInput) : EndsOnce (ts ++ [t]) := by
  induction ts with
  | nil => exact .last ht
  | cons u us ih => exact .cons (h u (by simp)) (ih fun v hv => h v (List.mem_cons_of_mem _ hv))

theorem head (h : EndsOnce ts) : ∃ u us, ts = u :: us ∧ (u.kind ≠ .endOfInput → EndsOnce us) := by
  cases h with
  | last h => exact ⟨_, _, rfl, fun hne => absurd h hne⟩
  | cons h rest => exact ⟨_, _, rfl, fun _ => rest⟩

/-- What another token follows is not the end. -/
theorem not_end_before (h : EndsOnce (ts ++ t :: us)) : ∀ u ∈ ts, u.kind ≠ .endOfInput := by
  induction ts with
  | nil => nofun
  | cons u ts ih =>
    rw [List.cons_append] at h
    generalize hmore : ts ++ t :: us = more at h ih
    cases h with
    | last => simp at hmore
    | cons hu rest => exact List.forall_mem_cons.2 ⟨hu, ih rest⟩

end EndsOnce

theorem endsOnce_tokenize (bytes : List UInt8) : EndsOnce (tokenize bytes) := by
  obtain ⟨ts, htokens, htiles⟩ := tiles_tokenize bytes
  rw [htokens]
  exact .append_last (fun t ht => (htiles.token_span ht).1) rfl

/-- Tokens start one behind the other. -/
theorem starts_tokenize (bytes : List UInt8) :
    (tokenize bytes).Pairwise fun t u => t.span.start.offset ≤ u.span.start.offset := by
  obtain ⟨ts, htokens, htiles⟩ := tiles_tokenize bytes
  rw [htokens, List.pairwise_append]
  refine ⟨htiles.pairwise.imp_of_mem fun ht _ hle => ?_, List.pairwise_singleton _ _, fun t ht u hu => ?_⟩
  · obtain ⟨-, -, hlt, -⟩ := htiles.token_span ht
    omega
  · obtain ⟨-, -, hlt, hle, -⟩ := htiles.token_span ht
    rw [List.mem_singleton.1 hu]
    change _ ≤ bytes.length
    omega

end BlockScope
