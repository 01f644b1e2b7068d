import BlockScope.Proofs.Text.Splitting
/-!
# Texts of lines

A text is cut at its newlines by `lines`. A text that is put together from lines is cut into these lines again if no newline is
inside one of them (`lines_join`), and what is put together from pieces without a newline has none either.
-/
namespace BlockScope.Text

/-- What stands between the newlines of a text, before the first and behind the last. -/
def lines (text : String) : List String := (text.toList.splitOn '\n').map String.ofList

/-- No newline is in the text. -/
def OneLine (text : String) : Prop := '\n' ∉ text.toList

instance (text : String) : Decidable (OneLine text) := inferInstanceAs (Decidable ('\n' ∉ text.toList))

@[simp] theorem oneLine_append {s u : String} : OneLine (s ++ u) ↔ OneLine s ∧ OneLine u := by
  simp [OneLine]

theorem oneLine_replicate (n : Nat) : OneLine (String.ofList (List.replicate n ' ')) := by
  rw [OneLine, String.toList_ofList]
  intro h
  exact absurd (List.eq_of_mem_replicate h) (by decide)

theorem oneLine_toString (n : Nat) : OneLine (toString n) := by
  intro h
  have hdigit : '\n'.isDigit := isDigit_of_mem_toDigits (n := n) (by simpa [toString, Nat.repr] using h)
  cases hdigit

theorem oneLine_intercalate {sep : String} {items : List String} (hsep : OneLine sep) (hitems : ∀ s ∈ items, OneLine s) :
    OneLine (sep.intercalate items) := by
  induction items with
  | nil => exact List.not_mem_nil
  | cons s items ih =>
    obtain ⟨hs, hrest⟩ := List.forall_mem_cons.1 hitems
    cases items with
    | nil => simpa using hs
    | cons u items =>
      rw [String.intercalate_cons_cons, oneLine_append, oneLine_append]
      exact ⟨⟨hs, hsep⟩, ih hrest⟩

/-- Lines that each end with a newline, and nothing behind the last. -/
theorem lines_join {texts : List String} (h : ∀ text ∈ texts, OneLine text) :
    lines (String.join (texts.map (· ++ "\n"))) = texts ++ [""] := by
  induction texts with
  | nil => rfl
  | cons text texts ih =>
    obtain ⟨htext, hrest⟩ := List.forall_mem_cons.1 h
    have hnewline : "\n".toList = ['\n'] := rfl
    have hcut : (String.join ((text :: texts).map (· ++ "\n"))).toList =
        text.toList ++ '\n' :: (String.join (texts.map (· ++ "\n"))).toList := by
      simp [String.toList_join, hnewline]
    rw [lines, hcut, List.splitOn_append_cons_self_of_not_mem htext, List.map_cons, String.ofList_toList, List.cons_append]
    exact congrArg _ (ih hrest)

end BlockScope.Text
