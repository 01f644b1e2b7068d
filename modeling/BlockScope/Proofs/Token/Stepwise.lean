import BlockScope.Proofs.Token.Tiling
/-!
# Tokens one by one

A run of the lexer taken apart. `Lexer.Reads` says that some tokens are read one after the other, and a token of a run is read
after those before it (`Reads.of_mem_run`). What comes out depends on what is ahead only, not on where it stands: lexers with
the same input ahead read the same kinds of tokens (`Alike.run`).
-/
namespace BlockScope

/-- Reads these tokens one after the other. -/
inductive Lexer.Reads : Lexer → List Token → Lexer → Prop where
  | nil {l : Lexer} : Reads l [] l
  | cons {l l' : Lexer} {ts : List Token} (hl : l.ended = false) (rest : Reads l.nextToken.2 ts l') :
    Reads l (l.nextToken.1 :: ts) l'

namespace Lexer
variable {l l' l₁ : Lexer} {bytes : List UInt8} {t : Token} {ts : List Token} {n : Nat}

theorem run_of_ended (h : l.ended = true) : l.run.1 = [] := by
  rw [Lexer.run.eq_def]
  split
  · rfl
  · next h' =>
    rw [next?, if_pos h] at h'
    cases h'

theorem run_of_not_ended (h : l.ended = false) : l.run.1 = l.nextToken.1 :: l.nextToken.2.run.1 := by
  conv => lhs; rw [Lexer.run.eq_def]
  split
  · next h' => simp [next?, h] at h'
  · next t l' h' =>
    simp only [next?, h, Bool.false_eq_true, if_false, Option.some.injEq] at h'
    rw [h']

/-- The token that is next, and what is left behind it. -/
theorem nextToken_of_rest {first : UInt8} {rest : List UInt8} (h : l.rest.dropWhile isBlank = first :: rest) :
    l.nextToken.1.kind = (scan l.afterOperand first rest).kind ∧
    l.nextToken.2.rest = rest.drop (scan l.afterOperand first rest).more ∧
    l.nextToken.2.afterOperand = (if (scan l.afterOperand first rest).kind.isComment then l.afterOperand
      else (scan l.afterOperand first rest).kind.endsOperand) ∧ l.nextToken.2.ended = l.ended := by
  unfold nextToken
  rw [h]
  exact ⟨rfl, rfl, rfl, rfl⟩

namespace Reads

theorem run_eq (h : l.Reads ts l₁) : l.run.1 = ts ++ l₁.run.1 := by
  induction h with
  | nil => rfl
  | cons hl _ ih => rw [run_of_not_ended hl, ih, List.cons_append]

/-- A token of a run is read after some others. -/
theorem of_mem_run (h : t ∈ l.run.1) : ∃ ts l₁, l.Reads ts l₁ ∧ l₁.ended = false ∧ l₁.nextToken.1 = t := by
  fun_induction Lexer.run l with
  | case1 => cases h
  | case2 l t' l' hnext ts last hrun ih =>
    unfold next? at hnext
    split at hnext
    · cases hnext
    · next hl =>
      have hl' : l.ended = false := by simpa using hl
      have hnext' : l.nextToken = (t', l') := Option.some.inj hnext
      rcases List.mem_cons.1 h with rfl | h
      · exact ⟨[], l, .nil, hl', by rw [hnext']⟩
      · obtain ⟨ts', l₁, hreads, hended, ht⟩ := ih (by rw [hrun]; exact h)
        exact ⟨_, l₁, .cons hl' (by rw [hnext']; exact hreads), hended, ht⟩

end Reads

/-- What is left after a token is the end of what was left before. -/
theorem rest_nextToken_suffix (l : Lexer) : l.nextToken.2.rest <:+ l.rest := by
  unfold nextToken
  split
  · exact List.nil_suffix
  · next first rest hdrop =>
    have h₁ : first :: rest <:+ l.rest := hdrop ▸ List.dropWhile_suffix isBlank
    exact ((List.drop_suffix _ rest).trans (List.suffix_cons first rest)).trans h₁

theorem Reads.suffix (h : l.Reads ts l₁) : l₁.rest <:+ l.rest := by
  induction h with
  | nil => exact List.suffix_refl _
  | cons _ _ ih => exact ih.trans (rest_nextToken_suffix _)

/-! ## Places -/

theorem At.nextToken (h : l.At bytes n) : ∃ m, n ≤ m ∧ l.nextToken.2.At bytes m ∧ l.nextToken.1.span.stop = placeAt bytes m := by
  rcases nextToken_cases h with ⟨hblank, heq⟩ | ⟨start, stop, hblank, hlt, -, hspan, hat, -⟩
  · rw [heq]
    exact ⟨bytes.length, hblank.le, ⟨Nat.le_refl _, by simp [atEnd], rfl⟩, rfl⟩
  · have := hblank.le
    exact ⟨stop, by omega, hat, by rw [hspan]⟩

/-- A token starts behind the blanks that are next. -/
theorem At.start (h : l.At bytes n) : bytes.drop (n + (l.rest.takeWhile isBlank).length) = l.rest.dropWhile isBlank ∧
    l.nextToken.1.span.start = placeAt bytes (n + (l.rest.takeWhile isBlank).length) := by
  have hsplit : bytes.drop n = l.rest.takeWhile isBlank ++ l.rest.dropWhile isBlank := by
    rw [List.takeWhile_append_dropWhile, h.rest]
  refine ⟨by rw [← List.drop_drop, hsplit, List.drop_left], ?_⟩
  rw [← advance_placeAt hsplit, ← h.position, Lexer.nextToken]
  split <;> rfl

theorem Reads.at (h : l.Reads ts l₁) (hl : l.At bytes n) : ∃ m, n ≤ m ∧ l₁.At bytes m := by
  induction h generalizing n with
  | nil => exact ⟨n, Nat.le_refl n, hl⟩
  | cons _ _ ih =>
    obtain ⟨k, hk, hat, -⟩ := hl.nextToken
    obtain ⟨m, hm, hat'⟩ := ih hat
    exact ⟨m, by omega, hat'⟩

/-- Every token that is still to be read ends behind what has been read. -/
theorem At.le_stop (h : l.At bytes n) (ht : t ∈ l.run.1) : n ≤ t.span.stop.offset := by
  obtain ⟨ts, l₁, hreads, -, rfl⟩ := Reads.of_mem_run ht
  obtain ⟨m, hm, hat⟩ := hreads.at h
  obtain ⟨k, hk, -, hstop⟩ := hat.nextToken
  rw [hstop]
  exact Nat.le_trans hm hk

/-! ## Lexers with the same input ahead -/

/-- The same input is ahead, but for blanks in front of it. -/
structure Alike (l l' : Lexer) : Prop where
  rest : l'.rest.dropWhile isBlank = l.rest.dropWhile isBlank
  afterOperand : l'.afterOperand = l.afterOperand
  ended : l'.ended = l.ended

theorem Alike.nextToken (h : Alike l l') : l'.nextToken.1.kind = l.nextToken.1.kind ∧ Alike l.nextToken.2 l'.nextToken.2 := by
  unfold Lexer.nextToken
  rw [h.rest, h.afterOperand]
  cases l.rest.dropWhile isBlank with
  | nil => exact ⟨rfl, rfl, rfl, rfl⟩
  | cons first rest => exact ⟨rfl, rfl, rfl, h.ended⟩

theorem Alike.run (h : Alike l l') : l'.run.1.map (·.kind) = l.run.1.map (·.kind) := by
  generalize hn : l.pending = n
  induction n using Nat.strongRecOn generalizing l l' with
  | _ n ih =>
    cases hl : l.ended with
    | true => rw [run_of_ended hl, run_of_ended (h.ended.trans hl)]
    | false =>
      obtain ⟨hkind, hnext⟩ := h.nextToken
      have hlt : l.nextToken.2.pending < n := by
        rw [← hn]
        exact pending_lt (t := l.nextToken.1) (by simp [next?, hl])
      rw [run_of_not_ended hl, run_of_not_ended (h.ended.trans hl), List.map_cons, List.map_cons, hkind, ih _ hlt hnext rfl]

end Lexer
end BlockScope
