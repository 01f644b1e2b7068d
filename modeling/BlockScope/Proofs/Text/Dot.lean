import BlockScope.Program.Graph
import BlockScope.Proofs.Text.Splitting
/-!
# Reading the text of a graph

The text of a graph can be read in one way only (`dotText_inj`), whatever the labels are: a label ends at the first quote
without a backslash before it, and the name of a vertex at the first character that is no letter or digit.
-/
namespace BlockScope

/-- Lines as a text in the dot language. -/
def dotText (lines : List GraphLine) : String :=
  "digraph ast \x7b\n  node [shape=box];\n" ++ String.join (lines.map (·.text)) ++ "\x7d\n"

theorem Program.dot_eq (p : Program) : p.dot = dotText p.graph := rfl

/-! ## Names of vertices -/

namespace Vertex
variable {v v' : Vertex}

def letter : Vertex → Char
  | .classBox _ | .methodBox _ _ => 'c'
  | .exprBox _ => 'e'

def number : Vertex → Nat
  | .classBox i | .methodBox i _ => i
  | .exprBox id => id.index

/-- What follows the first number. -/
def ending : Vertex → List Char
  | .methodBox _ j => 'm' :: Nat.toDigits 10 j
  | _ => []

/-- The name of a vertex, character by character. -/
def chars (v : Vertex) : List Char := v.letter :: (Nat.toDigits 10 v.number ++ v.ending)

theorem toList_text (v : Vertex) : v.text.toList = v.chars := by
  cases v <;> simp [text, chars, letter, number, ending, NodeId.text, toString, Nat.repr]

theorem isAlphanum_of_mem_chars {c : Char} (h : c ∈ v.chars) : c.isAlphanum := by
  have hdigit : ∀ {n : Nat}, c ∈ Nat.toDigits 10 n → c.isAlphanum := by
    intro n hc
    simp [Char.isAlphanum, isDigit_of_mem_toDigits hc]
  rcases List.mem_cons.1 h with rfl | h
  · cases v <;> rfl
  rcases List.mem_append.1 h with h | h
  · exact hdigit h
  cases v with
  | classBox | exprBox => cases h
  | methodBox i j =>
    rcases List.mem_cons.1 h with rfl | h
    · decide
    · exact hdigit h

theorem chars_inj (h : v.chars = v'.chars) : v = v' := by
  have hending : ∀ (v : Vertex) c, v.ending.head? = some c → c.isDigit = false := by
    rintro v c hc
    cases v <;> cases hc
    decide
  obtain ⟨hletter, hrest⟩ := List.cons.inj h
  obtain ⟨hdigits, hend⟩ := append_inj_of_all (fun c => isDigit_of_mem_toDigits) (fun c => isDigit_of_mem_toDigits)
    (hending v) (hending v') hrest
  have hnumber := toDigits_inj hdigits
  cases v with
  | classBox i =>
    cases v' with
    | classBox i' => exact congrArg _ hnumber
    | methodBox => cases hend
    | exprBox => cases hletter
  | methodBox i j =>
    cases v' with
    | methodBox i' j' => exact congrArg₂ _ hnumber (toDigits_inj (List.cons.inj hend).2)
    | classBox => cases hend
    | exprBox => cases hletter
  | exprBox id =>
    cases v' with
    | exprBox id' => exact congrArg (fun n => exprBox ⟨n⟩) hnumber
    | classBox | methodBox => cases hletter

/-- The name of a vertex ends where no letter or digit follows. -/
theorem chars_append_inj {x x' : Char} {r r' : List Char} (hx : x.isAlphanum = false) (hx' : x'.isAlphanum = false)
    (h : v.chars ++ x :: r = v'.chars ++ x' :: r') : v = v' ∧ x = x' ∧ r = r' := by
  obtain ⟨hchars, hrest⟩ := append_inj_of_all (fun c => isAlphanum_of_mem_chars) (fun c => isAlphanum_of_mem_chars)
    (by simpa using hx) (by simpa using hx') h
  cases hrest
  exact ⟨chars_inj hchars, rfl, rfl⟩

end Vertex

/-! ## Labels -/

/-- A character of a label as it is written. -/
def escapeChar (c : Char) : List Char := if c = '\\' then ['\\', '\\'] else if c = '"' then ['\\', '"'] else [c]

theorem toList_escapeLabel (label : String) : (escapeLabel label).toList = label.toList.flatMap escapeChar := by
  rw [escapeLabel, String.toList_join, List.flatMap_map]
  congr 1
  funext c
  unfold escapeChar
  split
  · rfl
  split
  · rfl
  · exact String.toList_singleton c

/-- Reads a label up to the quote that ends it. -/
def readLabel : List Char → Option (List Char × List Char)
  | '"' :: rest => some ([], rest)
  | '\\' :: c :: rest => (readLabel rest).map fun (label, rest) => (c :: label, rest)
  | c :: rest => (readLabel rest).map fun (label, rest) => (c :: label, rest)
  | [] => none

theorem readLabel_escaped (label rest : List Char) : readLabel (label.flatMap escapeChar ++ '"' :: rest) = some (label, rest) := by
  induction label with
  | nil => simp [readLabel]
  | cons c label ih =>
    rw [List.flatMap_cons, List.append_assoc]
    by_cases hbackslash : c = '\\'
    · subst hbackslash
      simp [escapeChar, readLabel, ih]
    · by_cases hquote : c = '"'
      · subst hquote
        simp [escapeChar, readLabel, ih]
      · simp [escapeChar, readLabel, ih, hbackslash, hquote]

/-! ## Lines -/

namespace GraphLine

/-- A line, character by character. -/
def chars : GraphLine → List Char
  | .box v label => ' ' :: ' ' :: (v.chars ++ ' ' :: '[' :: ("label=\"".toList ++ (label.toList.flatMap escapeChar ++ '"' :: "];\n".toList)))
  | .arrow v v' => ' ' :: ' ' :: (v.chars ++ ' ' :: '-' :: ("> ".toList ++ (v'.chars ++ ';' :: ['\n'])))

theorem toList_text (line : GraphLine) : line.text.toList = line.chars := by
  cases line <;> simp [text, chars, Vertex.toList_text, toList_escapeLabel]

/-- A line ends in one place, whatever follows. -/
theorem chars_append_inj {line line' : GraphLine} {r r' : List Char} (h : line.chars ++ r = line'.chars ++ r') :
    line = line' ∧ r = r' := by
  cases line with
  | box v label =>
    cases line' with
    | box v' label' =>
      simp only [chars, List.cons_append, List.append_assoc, List.cons.injEq, true_and] at h
      obtain ⟨rfl, -, hrest⟩ := Vertex.chars_append_inj (by decide) (by decide) h
      have hlabel := congrArg readLabel (List.append_cancel_left (List.cons.inj hrest).2)
      rw [readLabel_escaped, readLabel_escaped] at hlabel
      obtain ⟨hlabel, hrest⟩ := Prod.mk.inj (Option.some.inj hlabel)
      exact ⟨by rw [String.toList_inj.1 hlabel], List.append_cancel_left hrest⟩
    | arrow v' target =>
      simp only [chars, List.cons_append, List.append_assoc, List.cons.injEq, true_and] at h
      obtain ⟨-, -, hrest⟩ := Vertex.chars_append_inj (by decide) (by decide) h
      cases hrest
  | arrow v target =>
    cases line' with
    | box v' label' =>
      simp only [chars, List.cons_append, List.append_assoc, List.cons.injEq, true_and] at h
      obtain ⟨-, -, hrest⟩ := Vertex.chars_append_inj (by decide) (by decide) h
      cases hrest
    | arrow v' target' =>
      simp only [chars, List.cons_append, List.append_assoc, List.cons.injEq, true_and] at h
      obtain ⟨rfl, -, hrest⟩ := Vertex.chars_append_inj (by decide) (by decide) h
      obtain ⟨rfl, -, hrest⟩ := Vertex.chars_append_inj (by decide) (by decide) (List.append_cancel_left (List.cons.inj hrest).2)
      exact ⟨rfl, (List.cons.inj hrest).2⟩

end GraphLine

/-- A text is the text of one graph only. -/
theorem dotText_inj {lines lines' : List GraphLine} (h : dotText lines = dotText lines') : lines = lines' := by
  have hchars : ∀ lines : List GraphLine, (String.join (lines.map (·.text))).toList = lines.flatMap (·.chars) := by
    intro lines
    rw [String.toList_join, List.flatMap_map]
    congr 1
    funext line
    exact line.toList_text
  have hsame : lines.flatMap (·.chars) = lines'.flatMap (·.chars) := by
    unfold dotText at h
    rw [← hchars, (String.append_right_inj _).1 ((String.append_left_inj _).1 h), hchars]
  clear h
  induction lines generalizing lines' with
  | nil =>
    cases lines' with
    | nil => rfl
    | cons line' lines' => cases line' <;> simp [GraphLine.chars] at hsame
  | cons line lines ih =>
    cases lines' with
    | nil => cases line <;> simp [GraphLine.chars] at hsame
    | cons line' lines' =>
      rw [List.flatMap_cons, List.flatMap_cons] at hsame
      obtain ⟨rfl, hrest⟩ := GraphLine.chars_append_inj hsame
      rw [ih hrest]

end BlockScope
