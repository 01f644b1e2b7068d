import BlockScope.Proofs.Program.Reading
/-!
# How many tokens parsers take

`Parser.Takes k p` says that a parser that succeeds has taken at least `k` tokens from the front, comments included. Steps in
sequence take what they take together, so a production takes a token as soon as one of its steps is bound to. No production
puts tokens back, and every expression, statement, method and class takes one at least.
-/
namespace BlockScope

/-- Takes at least so many tokens where it succeeds. -/
def Parser.Takes {α : Type} (k : Nat) (p : Parser α) : Prop :=
  ∀ s x s', Runs p s x s' → s'.tokens.length + k ≤ s.tokens.length

namespace Parser
variable {α β : Type} {k m : Nat} {p q : Parser α} {f : α → Parser β} {expr message argument : Parser NodeId} {s s' : ParserState}

/-! ## Steps in sequence -/

namespace Takes

theorem mono (h : Takes k p) (hle : m ≤ k) : Takes m p := fun s x s' hr => by
  have := h s x s' hr
  omega

theorem pure (x : α) : Takes 0 (pure x : Parser α) := by
  intro s y s' h
  obtain ⟨rfl, rfl⟩ := Runs.pure_iff.1 h
  exact Nat.le_refl _

theorem throw (e : ParseError) : Takes k (throw e : Parser α) := fun _ _ _ h => absurd h (by simp)

theorem get : Takes 0 (get : Parser ParserState) := by
  intro s y s' h
  obtain ⟨rfl, rfl⟩ := Runs.get_iff.1 h
  exact Nat.le_refl _

theorem bind (h : Takes k p) (h' : ∀ x, Takes m (f x)) : Takes (k + m) (p >>= f) := by
  intro s y s' hr
  obtain ⟨x, t, hp, hf⟩ := Runs.bind_iff.1 hr
  have := h s x t hp
  have := h' x t y s' hf
  omega

/-- The first step takes what is asked for. -/
theorem before (h : Takes k p) (h' : ∀ x, Takes 0 (f x)) : Takes k (p >>= f) := h.bind h'

/-- What comes after the first step takes what is asked for. -/
theorem after (h : Takes 0 p) (h' : ∀ x, Takes k (f x)) : Takes k (p >>= f) := (h.bind h').mono (by omega)

end Takes

/-! ## Tokens -/

theorem length_dropComments (ts : List Token) (last : Span) : (dropComments ts last).1.length ≤ ts.length := by
  induction ts generalizing last with
  | nil => exact Nat.le_refl _
  | cons t ts ih =>
    unfold dropComments
    split
    · have := ih t.span
      rw [List.length_cons]
      omega
    · exact Nat.le_refl _

theorem length_skipped (s : ParserState) : s.skipped.tokens.length ≤ s.tokens.length := length_dropComments _ _

/-- What is read is what was looked at; only past the last token is nothing taken. -/
theorem advance_spec {t : Token} (h : Runs advance s t s') : t.kind = s.skipped.headKind ∧ s'.arena = s.arena ∧
    (t.kind = .endOfInput ∧ s'.tokens.length ≤ s.tokens.length ∨ s'.tokens.length < s.tokens.length) := by
  have hle := length_skipped s
  obtain ⟨rfl, rfl⟩ := advance_iff.1 h
  refine ⟨s.skipped.kind_front, s.skipped.arena_behind, ?_⟩
  rw [ParserState.tokens_behind, List.length_tail]
  rcases s.skipped.front_mem_or_end with hfront | hkind
  · have := List.length_pos_of_mem hfront
    exact .inr (by omega)
  · exact .inl ⟨hkind, by omega⟩

/-- A token that was looked at is taken. -/
theorem length_advance {t : Token} (h : Runs advance s.skipped t s') (hk : s.skipped.headKind ≠ .endOfInput) :
    s'.tokens.length < s.tokens.length := by
  have hle := length_skipped s
  obtain ⟨hkind, -, ⟨hend, -⟩ | hlt⟩ := advance_spec h
  · rw [skipped_skipped] at hkind
    exact absurd (hkind.symm.trans hend) hk
  · omega

theorem takes_peek : Takes 0 peek := by
  intro s k s' h
  obtain ⟨-, rfl⟩ := peek_iff.1 h
  exact length_skipped s

theorem takes_peekSpan : Takes 0 peekSpan := by
  intro s x s' h
  obtain ⟨-, rfl⟩ := peekSpan_iff.1 h
  exact length_skipped s

theorem takes_advance : Takes 0 advance := by
  intro s t s' h
  obtain ⟨-, -, ⟨-, hle⟩ | hlt⟩ := advance_spec h
  · exact hle
  · exact Nat.le_of_lt hlt

/-- A token that has to be other than the end is one. -/
theorem takes_advance_bind {f : Token → Parser β} (hend : ∀ t, t.kind = .endOfInput → Takes 1 (f t)) (hf : ∀ t, Takes 0 (f t)) :
    Takes 1 (advance >>= f) := by
  intro s y s' h
  obtain ⟨t, s₁, hadvance, h⟩ := Runs.bind_iff.1 h
  obtain ⟨-, -, ⟨hkind, hle⟩ | hlt⟩ := advance_spec hadvance
  · have := hend t hkind s₁ y s' h
    omega
  · have := hf t s₁ y s' h
    omega

theorem takes_check (m : Mark) : Takes 0 (check m) := takes_peek.before fun _ => .pure _

theorem takes_expect (m : Mark) : Takes 1 (expect m) := by
  refine takes_advance_bind (fun t ht => ?_) fun t => ?_
  · rw [if_neg (by rw [ht]; nofun)]
    exact .throw _
  · split
    · exact .pure _
    · exact .throw _

theorem takes_identifier (due : Expectation) : Takes 1 (identifier due) := by
  refine takes_advance_bind (fun t ht => ?_) fun t => ?_
  · simp only [ht]
    exact .throw _
  · split
    · exact .pure _
    · exact .throw _

theorem takes_remaining : Takes 0 remaining := Takes.get.before fun _ => .pure _

theorem takes_makeNode (e : Expr) (span : Span) : Takes 0 (makeNode e span) := by
  intro s id s' h
  unfold makeNode at h
  rw [Runs.modifyGet_iff] at h
  cases h
  exact Nat.le_refl _

theorem takes_spanOf (id : NodeId) : Takes 0 (spanOf id) := Takes.get.before fun _ => .pure _

theorem takes_spanAcross (first last : NodeId) : Takes 0 (spanAcross first last) :=
  (takes_spanOf first).before fun _ => (takes_spanOf last).before fun _ => .pure _

/-! ## Variables -/

theorem takes_namesToBar (n : Nat) : Takes 0 (namesToBar n) := by
  induction n with
  | zero => exact .pure _
  | succ n ih =>
    refine (takes_check _).before fun b => ?_
    split
    · exact takes_advance.before fun _ => .pure _
    · exact ((takes_identifier _).mono (Nat.zero_le _)).before fun _ => ih.before fun _ => .pure _

theorem takes_variableList (bound : Nat) : Takes 1 (variableList bound) := by
  intro s x s' h
  simp only [variableList, Runs.bind_iff, peek_iff] at h
  obtain ⟨_, _, ⟨rfl, rfl⟩, h⟩ := h
  have hle := length_skipped s
  split at h
  · next hk =>
    simp only [Runs.bind_iff, Runs.pure_iff] at h
    obtain ⟨t, _, hadvance, rfl, rfl⟩ := h
    exact length_advance hadvance (by simp [hk, doubleBar])
  · have := ((takes_expect .bar).before fun _ => takes_namesToBar bound) _ _ _ h
    omega

theorem takes_optionalVariables (bound : Nat) : Takes 0 (optionalVariables bound) := by
  refine (takes_peek.before fun _ => Takes.pure _).before fun b => ?_
  split
  · exact (takes_variableList bound).mono (Nat.zero_le _)
  · exact .pure _

theorem takes_blockParams (n : Nat) : Takes 0 (blockParams n) := by
  induction n with
  | zero => exact .pure _
  | succ n ih =>
    refine takes_peek.before fun k => ?_
    split
    · exact takes_advance.before fun _ => ih.before fun _ => .pure _
    · exact .pure _

theorem takes_paramsEnd (bound : Nat) : Takes 0 (paramsEnd bound) := by
  refine takes_peek.before fun k => ?_
  split
  · exact takes_advance.before fun _ => takes_namesToBar bound
  · exact ((takes_expect _).mono (Nat.zero_le _)).before fun _ => .pure _

/-! ## Messages -/

theorem takes_unaryMessages (n : Nat) (receiver : NodeId) : Takes 0 (unaryMessages n receiver) := by
  induction n generalizing receiver with
  | zero => exact .pure _
  | succ n ih =>
    refine takes_peek.before fun k => ?_
    split
    · exact takes_advance.before fun _ => (takes_spanOf _).before fun _ => (takes_makeNode _ _).before fun _ => ih _
    · exact .pure _

theorem takes_binaryMessages (h : Takes 0 argument) (n least : Nat) (left : NodeId) :
    Takes 0 (binaryMessages argument n least left) := by
  induction n generalizing least left with
  | zero => exact .pure _
  | succ n ih =>
    refine takes_peek.before fun k => ?_
    split
    · split
      · exact .pure _
      · exact takes_advance.before fun _ => h.before fun _ => (ih _ _).before fun _ => (takes_spanAcross _ _).before fun _ =>
          (takes_makeNode _ _).before fun _ => ih _ _
    · exact .pure _

theorem takes_keywordParts (h : Takes 0 argument) (n : Nat) : Takes 0 (keywordParts argument n) := by
  induction n with
  | zero => exact .pure _
  | succ n ih =>
    refine takes_peek.before fun k => ?_
    split
    · exact takes_advance.before fun _ => h.before fun _ => ih.before fun _ => .pure _
    · exact .pure _

theorem takes_optionalKeywordMessage (h : Takes 0 argument) (bound : Nat) (receiver : NodeId) :
    Takes 0 (optionalKeywordMessage bound argument receiver) := by
  refine takes_peek.before fun k => ?_
  split
  · exact (takes_keywordParts h bound).before fun _ => (takes_spanAcross _ _).before fun _ => takes_makeNode _ _
  · exact .pure _

/-! ## Primaries -/

theorem takes_statement (h : Takes 1 expr) : Takes 1 (statement expr) := by
  refine (takes_check _).after fun b => ?_
  split
  · exact takes_advance.after fun _ => h.before fun _ => (takes_spanOf _).before fun _ => takes_makeNode _ _
  · exact h

theorem takes_statements (h : Takes 1 expr) (n : Nat) : Takes 0 (statements expr n) := by
  induction n with
  | zero => exact .pure _
  | succ n ih =>
    refine takes_peek.before fun k => ?_
    split
    · exact takes_advance.before fun _ => ih
    · exact .pure _
    · refine ((takes_statement h).mono (Nat.zero_le _)).before fun _ => takes_peek.before fun k => ?_
      split
      · exact ih.before fun _ => .pure _
      · exact ih.before fun _ => .pure _
      · exact takes_advance.before fun _ => .throw _

theorem takes_blockTemps (bound : Nat) (params : List Declaration) : Takes 0 (blockTemps bound params) := by
  have hrest : ∀ early : List Declaration, Takes 0 (if early.isEmpty then optionalVariables bound else Pure.pure early) := by
    intro early
    split
    · exact takes_optionalVariables bound
    · exact .pure _
  unfold blockTemps
  split
  · exact (Takes.pure _).before hrest
  · exact (takes_paramsEnd bound).before hrest

theorem takes_blockBody (h : Takes 1 expr) (bound : Nat) (opening : Token) (params temps : List Declaration) :
    Takes 0 (blockBody bound expr opening params temps) :=
  (takes_statements h bound).before fun _ => ((takes_expect _).mono (Nat.zero_le _)).before fun _ => takes_makeNode _ _

theorem takes_block (h : Takes 1 expr) (bound : Nat) : Takes 1 (block bound expr) := by
  rw [block_eq]
  exact (takes_expect _).before fun opening => (takes_blockParams bound).before fun params =>
    (takes_blockTemps bound params).before (takes_blockBody h bound opening params)

theorem takes_elements (h : Takes 1 expr) (n : Nat) : Takes 0 (elements expr n) := by
  induction n with
  | zero => exact .pure _
  | succ n ih =>
    refine (takes_check _).before fun b => ?_
    split
    · exact .pure _
    · refine (h.mono (Nat.zero_le _)).before fun _ => (takes_check _).before fun b => ?_
      split
      · exact takes_advance.before fun _ => ih.before fun _ => .pure _
      · exact .pure _

theorem takes_array (h : Takes 1 expr) (bound : Nat) : Takes 1 (array bound expr) :=
  (takes_expect _).before fun _ => (takes_elements h bound).before fun _ =>
    ((takes_expect _).mono (Nat.zero_le _)).before fun _ => takes_makeNode _ _

theorem takes_paren (h : Takes 1 expr) : Takes 1 (paren expr) :=
  takes_advance.after fun _ => h.before fun _ => ((takes_expect _).mono (Nat.zero_le _)).before fun _ => takes_makeNode _ _

theorem takes_primary (h : Takes 1 expr) (bound : Nat) : Takes 1 (primary bound expr) := by
  refine takes_peek.after fun k => ?_
  split
  · exact takes_block h bound
  · exact takes_array h bound
  · exact takes_paren h
  · refine takes_advance_bind (fun t ht => ?_) fun t => ?_
    · rw [ht]
      exact .throw _
    · split
      · exact takes_makeNode _ _
      · exact .throw _

/-! ## Expressions -/

theorem takes_unaryLevel (h : Takes 1 expr) (bound : Nat) : Takes 1 (unaryLevel bound expr) :=
  (takes_primary h bound).before fun _ => takes_unaryMessages bound _

theorem takes_binaryLevel (h : Takes 1 expr) (bound : Nat) : Takes 1 (binaryLevel bound expr) :=
  (takes_unaryLevel h bound).before fun _ => takes_binaryMessages ((takes_unaryLevel h bound).mono (Nat.zero_le _)) bound 0 _

theorem takes_keywordLevel (h : Takes 1 expr) (bound : Nat) : Takes 1 (keywordLevel bound expr) :=
  (takes_binaryLevel h bound).before fun _ =>
    takes_optionalKeywordMessage ((takes_binaryLevel h bound).mono (Nat.zero_le _)) bound _

theorem takes_cascadeMessage (h : Takes 1 expr) (bound : Nat) (receiver : NodeId) : Takes 0 (cascadeMessage bound expr receiver) := by
  have hunary : Takes 0 (unaryLevel bound expr) := (takes_unaryLevel h bound).mono (Nat.zero_le _)
  have hkeyword := takes_optionalKeywordMessage ((takes_binaryLevel h bound).mono (Nat.zero_le _)) bound
  refine takes_peek.before fun k => ?_
  split
  · exact (takes_unaryMessages bound _).before fun _ => (takes_binaryMessages hunary bound 0 _).before hkeyword
  · exact (takes_binaryMessages hunary bound 0 _).before hkeyword
  · exact (Takes.pure _).before hkeyword
  · exact takes_peekSpan.before fun _ => (Takes.throw _).before hkeyword

theorem takes_cascadeMessages (h : Takes 0 message) (n : Nat) : Takes 0 (cascadeMessages message n) := by
  induction n with
  | zero => exact .pure _
  | succ n ih =>
    refine (takes_check _).before fun b => ?_
    split
    · exact takes_advance.before fun _ => h.before fun _ => ih.before fun _ => .pure _
    · exact .pure _

theorem takes_cascadeLevel (h : Takes 1 expr) (bound : Nat) : Takes 1 (cascadeLevel bound expr) := by
  refine (takes_keywordLevel h bound).before fun first => (takes_check _).before fun b => ?_
  split
  · refine Takes.get.before fun s => ?_
    split
    · exact (takes_cascadeMessages (takes_cascadeMessage h bound _) bound).before fun _ =>
        (takes_spanAcross _ _).before fun _ => takes_makeNode _ _
    · exact (takes_spanOf _).before fun _ => .throw _
  · exact .pure _

theorem takes_assignmentTail (h : Takes 1 expr) (target : NodeId) : Takes 0 (assignmentTail expr target) := by
  refine (takes_check _).before fun b => ?_
  split
  · refine takes_advance.before fun mark => Takes.get.before fun s => ?_
    split
    · exact (h.mono (Nat.zero_le _)).before fun _ => (takes_spanAcross _ _).before fun _ => takes_makeNode _ _
    · exact (takes_spanOf _).before fun _ => .throw _
  · exact .pure _

theorem takes_expressionWithin (n : Nat) : Takes 1 (expressionWithin n) := by
  induction n with
  | zero => exact takes_advance.after fun _ => .throw _
  | succ n ih => exact (takes_cascadeLevel ih (n + 1)).before fun _ => takes_assignmentTail ih _

theorem takes_expression : Takes 1 expression := takes_remaining.after takes_expressionWithin

/-! ## Methods and classes -/

theorem takes_methodBody (classSide : Bool) (selector : String) (params : List Declaration) (start : Span) :
    Takes 1 (methodBody classSide selector params start) :=
  (takes_expect _).before fun _ => takes_remaining.before fun bound => (takes_optionalVariables bound).before fun _ =>
    (takes_statements (takes_expressionWithin bound) bound).before fun _ =>
      ((takes_expect _).mono (Nat.zero_le _)).before fun _ => .pure _

theorem takes_patternParts (n : Nat) : Takes 0 (patternParts n) := by
  induction n with
  | zero => exact .pure _
  | succ n ih =>
    refine takes_peek.before fun k => ?_
    split
    · exact takes_advance.before fun _ => ((takes_identifier _).mono (Nat.zero_le _)).before fun _ => ih.before fun _ => .pure _
    · exact .pure _

theorem takes_pattern : Takes 0 pattern := by
  refine takes_advance.before fun t => ?_
  split
  · exact .pure _
  · exact ((takes_identifier _).mono (Nat.zero_le _)).before fun _ => .pure _
  · exact ((takes_identifier _).mono (Nat.zero_le _)).before fun _ => takes_remaining.before fun n =>
      (takes_patternParts n).before fun _ => .pure _
  · exact .throw _

theorem takes_method (classSide : Bool) (start : Span) : Takes 1 (method classSide start) :=
  takes_pattern.after fun _ => takes_methodBody _ _ _ _

theorem takes_classSideItem (items : ClassItems) : Takes 1 (classSideItem items) := by
  refine takes_advance.after fun word => ?_
  intro s items' s' h
  obtain ⟨kind, _, hpeek, h⟩ := Runs.bind_iff.1 h
  obtain ⟨hkind, rfl⟩ := peek_iff.1 hpeek
  have hle := length_skipped s
  split at h
  · have := (takes_remaining.after fun bound => (takes_variableList bound).before fun _ => .pure _) _ _ _ h
    omega
  · have := ((takes_methodBody _ _ _ _).before fun _ => .pure _) _ _ _ h
    omega
  · split at h
    · next hbars =>
      simp only [Runs.bind_iff, Runs.pure_iff] at h
      obtain ⟨t, _, hadvance, rfl, rfl⟩ := h
      exact length_advance hadvance (by simp [← hkind, hbars, doubleBar])
    · have := ((takes_method _ _).before fun _ => .pure _) _ _ _ h
      omega

theorem takes_classItems (n : Nat) (items : ClassItems) : Takes 0 (classItems n items) := by
  induction n generalizing items with
  | zero => exact .pure _
  | succ n ih =>
    refine takes_peek.before fun kind => ?_
    split
    · exact .pure _
    split
    · exact takes_remaining.before fun bound => ((takes_variableList bound).mono (Nat.zero_le _)).before fun _ => ih _
    split
    · exact ((takes_classSideItem items).mono (Nat.zero_le _)).before fun _ => ih _
    · exact takes_peekSpan.before fun _ => ((takes_method _ _).mono (Nat.zero_le _)).before fun _ => ih _

theorem takes_className : Takes 0 className := by
  refine takes_advance.before fun head => ?_
  split
  · exact ((takes_expect _).mono (Nat.zero_le _)).before fun _ => .pure _
  · exact .pure _
  · exact .throw _

theorem takes_superclass : Takes 0 superclass := by
  refine takes_advance.before fun t => ?_
  split
  · exact .pure _
  · exact .pure _
  · exact .throw _

theorem takes_classDefinition : Takes 1 classDefinition :=
  takes_className.after fun _ => takes_superclass.after fun _ => (takes_expect _).before fun _ => takes_remaining.before fun n =>
    (takes_classItems n _).before fun _ => ((takes_expect _).mono (Nat.zero_le _)).before fun _ => .pure _

end Parser
end BlockScope
