import BlockScope.Proofs.Program.Phrase
import BlockScope.Proofs.Program.Precedence
/-!
# How primaries and statements are read

What stands in parentheses or brackets, and the lists of variables, elements and statements there. As for operands and
messages, these are statements about texts and about what is meant by them. An expression starts with a token that nothing
else starts with, so a look at the next token tells whether a list goes on.
-/
namespace BlockScope

/-- Can be the first token of an expression. -/
def TokenKind.opens : TokenKind → Bool
  | .integer _ | .float _ | .string _ | .symbol _ | .character _ | .identifier _ | .reserved _ => true
  | .mark .leftBracket | .mark .hashParen | .mark .leftParen => true
  | _ => false

/-- Can be the first token of a statement, or the bracket behind the last one. -/
def TokenKind.continuesBody (kind : TokenKind) : Bool := kind.opens || kind = .mark .caret || kind = .mark .rightBracket

namespace Parser
variable {a : Arena} {k bound : Nat} {text text' rest : List TokenKind} {names params temps : List String}
  {goal meaning : Arena → NodeId → Prop} {goals meanings : Arena → List NodeId → Prop}

/-- The text starts as an expression does. -/
def Opens (text : List TokenKind) : Prop := ∀ rest, (nextKind (text ++ rest)).opens

theorem ne_of_opens {kind : TokenKind} {m : Mark} (h : kind.opens) (hm : (TokenKind.mark m).opens = false) : kind ≠ .mark m := by
  rintro rfl
  rw [hm] at h
  cases h

/-! ## Single tokens and parentheses -/

theorem readsOperand_atom {kind : TokenKind} {e : Expr} (h : atom? kind = some e) (hshow : ∀ b x, b.expr? x = some e → goal b x) :
    ReadsOperand 4 [kind] goal := by
  intro depth rest a _
  apply Reads.peek_bind
  rw [List.singleton_append, nextKind_cons]
  split
  · cases h
  · cases h
  · cases h
  · apply Reads.advance_bind
    intro t ht
    rw [ht, h]
    exact .makeNode fun b x _ hx => hshow b x hx

theorem ReadsExpression.paren (h : ReadsExpression text meaning) (hlast : Lasting meaning)
    (hshow : ∀ b x y, b.expr? y = some (.paren x) → meaning b x → goal b y) :
    ReadsOperand 4 (.mark .leftParen :: text ++ [.mark .rightParen]) goal := by
  intro depth rest a hdepth
  rw [List.append_assoc, List.cons_append] at hdepth ⊢
  rw [List.length_cons] at hdepth
  apply Reads.peek_bind
  apply Reads.advance_bind
  intro opening _
  refine (h depth (.mark .rightParen :: rest) a hdepth (.inr (.inl rfl))).bind fun b x _ hx => ?_
  apply Reads.expect_bind
  intro closing
  exact .makeNode fun c y hbc hy => hshow c x y hy (hlast hbc hx)

/-! ## Arrays -/

/-- The text spells the elements of an array. -/
def ReadsElements (text : List TokenKind) (meaning : Arena → List NodeId → Prop) : Prop :=
  ∀ bound rest a k, (text ++ rest).length < bound → (text ++ rest).length < k → nextKind rest = .mark .rightParen →
    Reads a (elements (expressionWithin bound) k) (text ++ rest) rest meaning

theorem readsElements_nil (hshow : ∀ b, goals b []) : ReadsElements [] goals := by
  intro bound rest a k _ hk hrest
  obtain ⟨k, rfl⟩ : ∃ j, k = j + 1 := ⟨k - 1, by omega⟩
  apply Reads.check_bind
  rw [List.nil_append, hrest]
  exact .pure (hshow a)

theorem ReadsExpression.lastElement (h : ReadsExpression text meaning) (hopens : Opens text)
    (hshow : ∀ b x, meaning b x → goals b [x]) : ReadsElements text goals := by
  intro bound rest a k hbound hk hrest
  obtain ⟨k, rfl⟩ : ∃ j, k = j + 1 := ⟨k - 1, by omega⟩
  apply Reads.check_bind
  rw [decide_eq_false (ne_of_opens (hopens rest) rfl)]
  refine (h bound rest a hbound (.inr (.inl hrest))).bind fun b x _ hx => ?_
  apply Reads.check_bind
  rw [hrest]
  exact .pure (hshow b x hx)

theorem ReadsExpression.moreElement (h : ReadsExpression text meaning) (h' : ReadsElements text' meanings) (hopens : Opens text)
    (hlast : Lasting meaning) (hshow : ∀ b x xs, meaning b x → meanings b xs → goals b (x :: xs)) :
    ReadsElements (text ++ .mark .dot :: text') goals := by
  intro bound rest a k hbound hk hrest
  obtain ⟨k, rfl⟩ : ∃ j, k = j + 1 := ⟨k - 1, by omega⟩
  rw [List.append_assoc, List.cons_append] at hbound hk ⊢
  apply Reads.check_bind
  rw [decide_eq_false (ne_of_opens (hopens _) rfl)]
  refine (h bound _ a hbound (.inl rfl)).bind fun b x _ hx => ?_
  apply Reads.check_bind
  apply Reads.advance_bind
  intro dot _
  rw [List.length_append, List.length_cons] at hbound hk
  refine (h' bound rest b k (by omega) (by omega) hrest).bind fun c xs hbc hxs => ?_
  exact .pure (hshow c x xs (hlast hbc hx) hxs)

theorem ReadsElements.array (h : ReadsElements text meanings) (hlast : Lasting meanings)
    (hshow : ∀ b xs y, b.expr? y = some (.array xs) → meanings b xs → goal b y) :
    ReadsOperand 4 (.mark .hashParen :: text ++ [.mark .rightParen]) goal := by
  intro depth rest a hdepth
  rw [List.append_assoc, List.cons_append] at hdepth ⊢
  rw [List.length_cons] at hdepth
  apply Reads.peek_bind
  apply Reads.expect_bind
  intro opening
  refine (h depth (.mark .rightParen :: rest) a (depth + 1) hdepth (Nat.lt_succ_of_lt hdepth) rfl).bind fun b xs _ hxs => ?_
  apply Reads.expect_bind
  intro closing
  exact .makeNode fun c y hbc hy => hshow c xs y hy (hlast hbc hxs)

/-! ## Statements -/

/-- The text is a statement. -/
structure ReadsStatement (text : List TokenKind) (meaning : Arena → NodeId → Prop) : Prop where
  starts : ∀ rest, (nextKind (text ++ rest)).opens ∨ nextKind (text ++ rest) = .mark .caret
  reads : ∀ bound rest a, (text ++ rest).length < bound → Ends rest → Reads a (statement (expressionWithin bound)) (text ++ rest) rest meaning

theorem ReadsExpression.perform (h : ReadsExpression text meaning) (hopens : Opens text) (hshow : ∀ b x, meaning b x → goal b x) :
    ReadsStatement text goal := by
  refine ⟨fun rest => .inl (hopens rest), ?_⟩
  intro bound rest a hbound hrest
  apply Reads.check_bind
  rw [decide_eq_false (ne_of_opens (hopens rest) rfl)]
  exact (h bound rest a hbound hrest).mono fun b x _ hx => hshow b x hx

theorem ReadsExpression.ret (h : ReadsExpression text meaning) (hlast : Lasting meaning)
    (hshow : ∀ b x y, b.expr? y = some (.ret x) → meaning b x → goal b y) : ReadsStatement (.mark .caret :: text) goal := by
  refine ⟨fun rest => .inr rfl, ?_⟩
  intro bound rest a hbound hrest
  rw [List.cons_append, List.length_cons] at hbound
  apply Reads.check_bind
  apply Reads.advance_bind
  intro caret _
  refine (h bound rest a (by omega) hrest).bind fun b x _ hx => ?_
  apply Reads.spanOf_bind
  intro span
  exact .makeNode fun c y hbc hy => hshow c x y hy (hlast hbc hx)

/-- The text spells the statements of a body. -/
structure ReadsStatements (text : List TokenKind) (meaning : Arena → List NodeId → Prop) : Prop where
  starts : ∀ rest, nextKind rest = .mark .rightBracket → (nextKind (text ++ rest)).continuesBody
  reads : ∀ bound rest a k, (text ++ rest).length < bound → (text ++ rest).length < k → nextKind rest = .mark .rightBracket →
    Reads a (statements (expressionWithin bound) k) (text ++ rest) rest meaning

theorem reads_statements_end {expr : Parser NodeId} (hk : 0 < k) (hrest : nextKind rest = .mark .rightBracket) :
    Reads a (statements expr k) rest rest fun _ xs => xs = [] := by
  obtain ⟨k, rfl⟩ : ∃ j, k = j + 1 := ⟨k - 1, by omega⟩
  apply Reads.peek_bind
  rw [hrest]
  exact .pure rfl

theorem readsStatements_nil (hshow : ∀ b, goals b []) : ReadsStatements [] goals := by
  constructor
  · intro rest hrest
    rw [List.nil_append, hrest]
    rfl
  · intro bound rest a k _ hk hrest
    exact (reads_statements_end (by omega) hrest).mono fun b xs _ hxs => hxs ▸ hshow b

/-- A statement is read because it is one, and then the list goes on. -/
theorem ReadsStatement.first (h : ReadsStatement text meaning) (hbound : (text ++ rest).length < bound)
    (hrest : nextKind rest = .mark .dot ∨ nextKind rest = .mark .rightBracket)
    (next : ∀ b x, a.Before b → meaning b x → Reads b (do return x :: (← statements (expressionWithin bound) k)) rest text' goals) :
    Reads a (statements (expressionWithin bound) (k + 1)) (text ++ rest) text' goals := by
  have hends : Ends rest := hrest.imp_right .inr
  apply Reads.peek_bind
  split
  · next hdot => rcases h.starts rest with h | h <;> (rw [hdot] at h; cases h)
  · next hclose => rcases h.starts rest with h | h <;> (rw [hclose] at h; cases h)
  · refine (h.reads bound rest a hbound hends).bind fun b x hab hx => ?_
    apply Reads.peek_bind
    rcases hrest with hrest | hrest
    · rw [hrest]
      exact next b x hab hx
    · rw [hrest]
      exact next b x hab hx

theorem ReadsStatement.continuesBody (h : ReadsStatement text meaning) (rest : List TokenKind) :
    (nextKind (text ++ rest)).continuesBody := by
  rcases h.starts rest with h | h
  · simp [TokenKind.continuesBody, h]
  · rw [h]
    rfl

theorem ReadsStatement.length_pos (h : ReadsStatement text meaning) : 0 < text.length := by
  refine List.length_pos_iff.2 ?_
  rintro rfl
  rcases h.starts [] with h | h <;> cases h

theorem ReadsStatement.last (h : ReadsStatement text meaning) (hlast : Lasting meaning)
    (hshow : ∀ b x, meaning b x → goals b [x]) : ReadsStatements text goals := by
  refine ⟨fun rest _ => h.continuesBody rest, ?_⟩
  intro bound rest a k hbound hk hrest
  obtain ⟨k, rfl⟩ : ∃ j, k = j + 1 := ⟨k - 1, by omega⟩
  have hpos := h.length_pos
  rw [List.length_append] at hk
  refine h.first hbound (.inr hrest) fun b x _ hx => ?_
  refine (reads_statements_end (by omega) hrest).bind fun c xs hbc hxs => ?_
  subst hxs
  exact .pure (hshow c x (hlast hbc hx))

theorem ReadsStatement.more (h : ReadsStatement text meaning) (h' : ReadsStatements text' meanings) (hlast : Lasting meaning)
    (hshow : ∀ b x xs, meaning b x → meanings b xs → goals b (x :: xs)) : ReadsStatements (text ++ .mark .dot :: text') goals := by
  constructor
  · intro rest _
    rw [List.append_assoc]
    exact h.continuesBody _
  · intro bound rest a k hbound hk hrest
    obtain ⟨k, rfl⟩ : ∃ j, k = j + 1 := ⟨k - 1, by omega⟩
    rw [List.append_assoc, List.cons_append] at hbound hk ⊢
    refine h.first hbound (.inl rfl) fun b x _ hx => ?_
    have hpos := h.length_pos
    rw [List.length_append, List.length_cons] at hbound hk
    obtain ⟨k, rfl⟩ : ∃ j, k = j + 1 := ⟨k - 1, by omega⟩
    have hdot : Reads b (statements (expressionWithin bound) (k + 1)) (.mark .dot :: (text' ++ rest)) rest meanings := by
      apply Reads.peek_bind
      apply Reads.advance_bind
      intro dot _
      exact h'.reads bound rest b k (by omega) (by omega) hrest
    refine hdot.bind fun c xs hbc hxs => ?_
    exact .pure (hshow c x xs (hlast hbc hx) hxs)

/-! ## Variables and blocks -/

theorem reads_namesToBar (hk : names.length < k) :
    Reads a (namesToBar k) (names.map .identifier ++ .mark .bar :: rest) rest fun _ ds => ds.map (·.name) = names := by
  induction names generalizing k a with
  | nil =>
    obtain ⟨k, rfl⟩ : ∃ j, k = j + 1 := ⟨k - 1, by omega⟩
    apply Reads.check_bind
    apply Reads.advance_bind
    intro bar _
    exact .pure rfl
  | cons name names ih =>
    obtain ⟨k, rfl⟩ : ∃ j, k = j + 1 := ⟨k - 1, by omega⟩
    apply Reads.check_bind
    apply Reads.identifier_bind
    intro d hd
    refine (ih (Nat.lt_of_succ_lt_succ hk)).bind fun b ds _ hds => ?_
    exact .pure (by rw [List.map_cons, hd, hds])

theorem variableKinds_append (hne : names ≠ []) :
    variableKinds names ++ rest = .mark .bar :: (names.map .identifier ++ .mark .bar :: rest) := by
  rw [variableKinds, if_neg hne]
  simp

theorem reads_variableList (hne : names ≠ []) (hbound : names.length < bound) :
    Reads a (variableList bound) (variableKinds names ++ rest) rest fun _ ds => ds.map (·.name) = names := by
  rw [variableKinds_append hne]
  apply Reads.peek_bind
  apply Reads.expect_bind
  intro bar
  exact reads_namesToBar hbound

/-- No list of variables is ahead. -/
def NoVariables (ahead : List TokenKind) : Prop := nextKind ahead ≠ .mark .bar ∧ nextKind ahead ≠ doubleBar

theorem reads_optionalVariables (hbound : names.length < bound) (hrest : NoVariables rest) :
    Reads a (optionalVariables bound) (variableKinds names ++ rest) rest fun _ ds => ds.map (·.name) = names := by
  unfold optionalVariables atVariables
  rw [bind_assoc]
  apply Reads.peek_bind
  rw [pure_bind]
  by_cases hne : names = []
  · subst hne
    rw [variableKinds, if_pos rfl, List.nil_append, if_neg (by simpa [NoVariables] using hrest)]
    exact .pure rfl
  · rw [variableKinds_append hne, if_pos (by simp), ← variableKinds_append hne]
    exact reads_variableList hne hbound

theorem reads_blockParams (hk : names.length < k) (hrest : ∀ name, nextKind rest ≠ .argument name) :
    Reads a (blockParams k) (names.map .argument ++ rest) rest fun _ ds => ds.map (·.name) = names := by
  induction names generalizing k a with
  | nil =>
    obtain ⟨k, rfl⟩ : ∃ j, k = j + 1 := ⟨k - 1, by omega⟩
    apply Reads.peek_bind
    split
    · next name hname => exact absurd hname (hrest name)
    · exact .pure rfl
  | cons name names ih =>
    obtain ⟨k, rfl⟩ : ∃ j, k = j + 1 := ⟨k - 1, by omega⟩
    apply Reads.peek_bind
    apply Reads.advance_bind
    intro t _
    refine (ih (Nat.lt_of_succ_lt_succ hk)).bind fun b ds _ hds => ?_
    exact .pure (by rw [List.map_cons, hds])

theorem length_le_variableKinds (names : List String) : names.length ≤ (variableKinds names).length := by
  unfold variableKinds
  split
  · next h => simp [h]
  · simp only [List.length_append, List.length_cons, List.length_map]
    omega

theorem length_le_paramKinds (names : List String) : names.length ≤ (paramKinds names).length := by
  unfold paramKinds
  split
  · next h => simp [h]
  · simp only [List.length_append, List.length_map]
    omega

theorem noVariables_of_body (h : (nextKind rest).continuesBody) : NoVariables rest := by
  constructor <;> (intro heq; rw [heq] at h; cases h)

/-- Before a body, neither variables nor their absence look like a parameter. -/
theorem nextKind_variableKinds (h : (nextKind rest).continuesBody) (name : String) :
    nextKind (variableKinds names ++ rest) ≠ .argument name := by
  by_cases hne : names = []
  · subst hne
    intro heq
    rw [variableKinds, if_pos rfl, List.nil_append] at heq
    rw [heq] at h
    cases h
  · rw [variableKinds_append hne]
    exact nofun

/-- The parameters of a block, with what closes them. -/
theorem reads_blockHead {f : List Declaration → List Declaration → Parser NodeId} {rest' : List TokenKind}
    (hbound : params.length < bound) (hrest : ∀ name, nextKind rest ≠ .argument name)
    (next : ∀ b ps, a.Before b → ps.map (·.name) = params → Reads b (f ps []) rest rest' goal) :
    Reads a (do
      let ps ← blockParams bound
      let early ← if ps.isEmpty then pure [] else paramsEnd bound
      f ps early) (paramKinds params ++ rest) rest' goal := by
  by_cases hne : params = []
  · subst hne
    have hnone : Reads a (blockParams bound) rest rest fun _ ds => ds.map (·.name) = [] := reads_blockParams hbound hrest
    refine hnone.bind fun b ps hab hps => ?_
    obtain rfl := List.map_eq_nil_iff.1 hps
    exact next b [] hab rfl
  · rw [paramKinds, if_neg hne, List.append_assoc]
    refine (reads_blockParams hbound (by simp)).bind fun b ps hab hps => ?_
    have hps' : ps.isEmpty = false := by
      cases ps with
      | nil => exact absurd hps.symm hne
      | cons => rfl
    have hclose : Reads b (paramsEnd bound) (.mark .bar :: rest) rest fun _ early => early = [] := by
      apply Reads.peek_bind
      apply Reads.expect_bind
      intro bar
      exact .pure rfl
    rw [hps']
    refine hclose.bind ?_
    rintro c early hbc rfl
    exact next c ps (hab.trans hbc) hps

theorem ReadsStatements.block (h : ReadsStatements text meanings) (hlast : Lasting meanings)
    (hshow : ∀ b ps ts xs y, b.expr? y = some (.block ps ts xs) → ps.map (·.name) = params → ts.map (·.name) = temps →
      meanings b xs → goal b y) :
    ReadsOperand 4 (.mark .leftBracket :: paramKinds params ++ variableKinds temps ++ text ++ [.mark .rightBracket]) goal := by
  intro depth rest a hdepth
  have hbody : (nextKind (text ++ .mark .rightBracket :: rest)).continuesBody := h.starts _ rfl
  have hparams := length_le_paramKinds params
  have htemps := length_le_variableKinds temps
  simp only [List.cons_append, List.append_assoc] at hdepth ⊢
  simp only [List.length_cons, List.length_append, List.length_nil] at hdepth
  apply Reads.peek_bind
  apply Reads.expect_bind
  intro opening
  refine reads_blockHead (by omega) (nextKind_variableKinds hbody) fun b ps hab hps => ?_
  refine (reads_optionalVariables (by omega) (noVariables_of_body hbody)).bind fun c ts hbc hts => ?_
  refine (h.reads depth (.mark .rightBracket :: rest) c (depth + 1) ?_ ?_ rfl).bind fun d xs hcd hxs => ?_
  · simp only [List.length_append, List.length_cons]
    omega
  · simp only [List.length_append, List.length_cons]
    omega
  · apply Reads.expect_bind
    intro closing
    exact .makeNode fun e y hde hy => hshow e ps ts xs y hy hps hts (hlast hde hxs)

end Parser
end BlockScope
