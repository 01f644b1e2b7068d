import Mathlib.Data.List.TakeWhile
/-!
# Telling the parts of a text apart

A text that is put together from parts can be taken apart again where the end of a part shows: at the first character of
another sort (`append_inj_of_all`), or, for a number at the end, behind the last character that is no digit
(`append_toDigits_inj`).
-/
namespace BlockScope

/-- A list falls apart in one way only into elements with a property and a rest that starts with another one. -/
theorem append_inj_of_all {α : Type} {q : α → Bool} {l l' r r' : List α} (hl : ∀ x ∈ l, q x) (hl' : ∀ x ∈ l', q x)
    (hr : ∀ x, r.head? = some x → q x = false) (hr' : ∀ x, r'.head? = some x → q x = false) (h : l ++ r = l' ++ r') :
    l = l' ∧ r = r' := by
  have hstop : ∀ {r : List α}, (∀ x, r.head? = some x → q x = false) → r.takeWhile q = [] := by
    intro r hr
    cases r with
    | nil => rfl
    | cons x r => exact List.takeWhile_cons_of_neg (by simp [hr x rfl])
  have htake : (l ++ r).takeWhile q = (l' ++ r').takeWhile q := by rw [h]
  rw [List.takeWhile_append_of_pos hl, List.takeWhile_append_of_pos hl', hstop hr, hstop hr', List.append_nil, List.append_nil] at htake
  subst htake
  exact ⟨rfl, List.append_cancel_left h⟩

theorem isDigit_of_mem_toDigits {n : Nat} {c : Char} (h : c ∈ Nat.toDigits 10 n) : c.isDigit :=
  Nat.isDigit_of_mem_toDigits (by decide) (by decide) h

theorem toDigits_inj {n n' : Nat} (h : Nat.toDigits 10 n = Nat.toDigits 10 n') : n = n' := by
  rw [← Nat.ofDigitChars_ten_toDigits (n := n), h, Nat.ofDigitChars_ten_toDigits]

/-- A number behind something that does not end with a digit. -/
theorem append_toDigits_inj {l l' : List Char} {n n' : Nat} (hl : ∀ c, l.getLast? = some c → c.isDigit = false)
    (hl' : ∀ c, l'.getLast? = some c → c.isDigit = false) (h : l ++ Nat.toDigits 10 n = l' ++ Nat.toDigits 10 n') :
    l = l' ∧ n = n' := by
  have hdigits : ∀ n, ∀ c ∈ (Nat.toDigits 10 n).reverse, c.isDigit := fun n c hc => isDigit_of_mem_toDigits (List.mem_reverse.1 hc)
  have hsame := congrArg List.reverse h
  rw [List.reverse_append, List.reverse_append] at hsame
  obtain ⟨hnumber, hrest⟩ := append_inj_of_all (hdigits n) (hdigits n') (by simpa using hl) (by simpa using hl') hsame
  exact ⟨List.reverse_inj.1 hrest, toDigits_inj (List.reverse_inj.1 hnumber)⟩

end BlockScope
