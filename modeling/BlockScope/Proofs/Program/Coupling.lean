import BlockScope.Proofs.Program.Termination
/-!
# Two runs side by side

Proven once for every `Coupling`. A coupling says which states of two parsers go together. Its obligations are that both have the
same token next, that reading it keeps them together unless it is the end of input or no token at all, and that the nodes of the
second are those of the first, so many places later. From two states that go together every production then does the same
(`Couples`): it succeeds in both runs, with corresponding results, and they still go together, or it fails in both with the same
error. A coupling can also say something of the places of all tokens read and all nodes made, which then holds of every error.

The two runs may have different numbers of tokens left, and so different bounds; that no bound is ever reached makes up for it
(`Pairs.remaining_bind`).
-/
namespace BlockScope
open BlockScope.Parser

/-! ## Nodes further on -/

/-- The node so many places later. -/
def NodeId.shift (d : Nat) (id : NodeId) : NodeId := ⟨id.index + d⟩

/-- The expression with all its parts so many places later. -/
def Expr.shift (d : Nat) : Expr → Expr
  | .literal value => .literal value
  | .ident name => .ident name
  | .assign target value => .assign (target.shift d) (value.shift d)
  | .send receiver selector args => .send (receiver.shift d) selector (args.map (.shift d))
  | .cascade receiver messages => .cascade (receiver.shift d) (messages.map (.shift d))
  | .block params temps body => .block params temps (body.map (.shift d))
  | .paren inner => .paren (inner.shift d)
  | .array elements => .array (elements.map (.shift d))
  | .ret value => .ret (value.shift d)

def Node.shift (d : Nat) (node : Node) : Node := ⟨node.expr.shift d, node.span⟩

theorem NodeId.map_shift_zero (ids : List NodeId) : ids.map (.shift 0) = ids := List.map_id ids

theorem Expr.shift_zero (e : Expr) : e.shift 0 = e := by
  cases e <;> simp only [shift, NodeId.map_shift_zero] <;> rfl

theorem Node.shift_zero (node : Node) : node.shift 0 = node := by rw [shift, Expr.shift_zero]

theorem Arena.get?_shift_zero (a : Arena) (id : NodeId) : a.get? (id.shift 0) = (a.get? id).map (·.shift 0) := by
  simp only [Node.shift_zero, Option.map_id']
  rfl

theorem Arena.get?_push (a : Arena) (node : Node) (id : NodeId) :
    (a.push node).2.get? id = if id.index = a.size then some node else a.get? id :=
  Array.getElem?_push

/-! ## The next token -/

/-- A token that a production may go past: neither the end of input nor text that is no token. -/
def TokenKind.isProper : TokenKind → Bool
  | .endOfInput | .error _ => false
  | _ => true

namespace ParserState

/-- The state with one more node. -/
def push (s : ParserState) (node : Node) : ParserState := { s with arena := (s.arena.push node).2 }

end ParserState

namespace Parser
variable {s s' : ParserState} {token : Token}

theorem runFrom_bind {α β : Type} {p : Parser α} {f : α → Parser β} {x : α} (h : Runs p s x s') :
    (p >>= f).runFrom s = (f x).runFrom s' := by
  unfold Parser.runFrom
  rw [Runs.run_bind, h]

theorem runFrom_peek (s : ParserState) : peek.runFrom s = (.ok s.skipped.headKind, s.skipped) := peek_iff.2 ⟨rfl, rfl⟩

theorem runFrom_peekSpan (s : ParserState) : peekSpan.runFrom s = (.ok s.skipped.front.span, s.skipped) :=
  peekSpan_iff.2 ⟨rfl, rfl⟩

theorem runFrom_advance (s : ParserState) : advance.runFrom s = (.ok s.skipped.front, s.skipped.behind) := advance_iff.2 ⟨rfl, rfl⟩

theorem headKind_of_advance (h : Runs advance s token s') : s.skipped.headKind = token.kind := by
  rw [(advance_iff.1 h).1, ParserState.kind_front]

/-- Looking at a token leaves it to be read. -/
theorem runFrom_advance_skipped (s : ParserState) : advance.runFrom s.skipped = advance.runFrom s := by
  rw [runFrom_advance, skipped_skipped, ← runFrom_advance]

theorem runFrom_makeNode (e : Expr) (span : Span) (s : ParserState) :
    (makeNode e span).runFrom s = (.ok ⟨s.arena.size⟩, s.push ⟨e, span⟩) := rfl

end Parser

/-! ## Couplings -/

/-- Which states of two parsers go together, where the nodes of the second are so many places later. -/
structure Coupling (d : Nat) where
  States : ParserState → ParserState → Prop
  /-- Holds of the spans of tokens read and of nodes. -/
  Place : Span → Prop
  merge {a b : Span} : Place a → Place b → Place (a.merge b)
  skipped {s t : ParserState} : States s t → States s.skipped t.skipped
  front {s t : ParserState} : States s t → t.skipped.front = s.skipped.front
  place_front {s t : ParserState} : States s t → Place s.skipped.front.span
  behind {s t : ParserState} : States s t → s.skipped.headKind.isProper → States s.skipped.behind t.skipped.behind
  size {s t : ParserState} : States s t → t.arena.size = s.arena.size + d
  get? {s t : ParserState} : States s t → ∀ id, t.arena.get? (id.shift d) = (s.arena.get? id).map (·.shift d)
  place_span {s t : ParserState} : States s t → ∀ id, Place (s.arena.span id)
  push {s t : ParserState} : States s t → ∀ node, Place node.span → States (s.push node) (t.push (node.shift d))

namespace Coupling
variable {d : Nat} {α β γ δ : Type}

/-- From these states both parsers succeed, with results that correspond by `g` and in states that go together, or both fail with one
error. -/
def Pairs (C : Coupling d) (g : α → β) (p : Parser α) (q : Parser β) (s t : ParserState) : Prop :=
  match p.runFrom s with
  | (.ok x, s') => ∃ t', q.runFrom t = (.ok (g x), t') ∧ C.States s' t'
  | (.error e, _) => C.Place e.span ∧ ∃ t', q.runFrom t = (.error e, t')

/-- The parsers do so from all states that go together. -/
def Couples (C : Coupling d) (g : α → β) (p : Parser α) (q : Parser β) : Prop :=
  ∀ ⦃s t : ParserState⦄, C.States s t → C.Pairs g p q s t

variable {C : Coupling d} {s t : ParserState} {g : α → β} {g' : γ → δ} {p : Parser α} {q : Parser β}

theorem headKind (h : C.States s t) : t.skipped.headKind = s.skipped.headKind := by
  rw [← ParserState.kind_front, C.front h, ParserState.kind_front]

theorem span (h : C.States s t) (id : NodeId) : t.arena.span (id.shift d) = s.arena.span id := by
  rw [Arena.span, Arena.span, C.get? h]
  cases s.arena.get? id with
  | none => rfl
  | some node => rfl

theorem expr? (h : C.States s t) (id : NodeId) : t.arena.expr? (id.shift d) = (s.arena.expr? id).map (·.shift d) := by
  rw [Arena.expr?, Arena.expr?, C.get? h]
  cases s.arena.get? id with
  | none => rfl
  | some node => rfl

theorem place_unexpected {token : Token} (h : C.Place token.span) (due : Expectation) : C.Place (token.unexpected due).span := by
  unfold Token.unexpected
  split <;> exact h

/-! ## Steps -/

namespace Pairs

theorem pure {x : α} {y : β} (h : C.States s t) (hy : y = g x) : C.Pairs g (pure x) (pure y) s t := ⟨t, by rw [hy]; rfl, h⟩

theorem throw {e : ParseError} (h : C.Place e.span) : C.Pairs g (throw e) (throw e) s t := ⟨h, t, rfl⟩

theorem throw_bind {e : ParseError} {f : α → Parser γ} {f' : β → Parser δ} (h : C.Place e.span) :
    C.Pairs g' (MonadExcept.throw e >>= f) (MonadExcept.throw e >>= f') s t := ⟨h, t, rfl⟩

theorem unexpected {token : Token} {due : Expectation} (h : C.Place token.span) :
    C.Pairs g (MonadExcept.throw (token.unexpected due)) (MonadExcept.throw (token.unexpected due)) s t :=
  throw (place_unexpected h due)

theorem bind {f : α → Parser γ} {f' : β → Parser δ} (h : C.Pairs g p q s t)
    (hnext : ∀ x s' t', C.States s' t' → C.Pairs g' (f x) (f' (g x)) s' t') : C.Pairs g' (p >>= f) (q >>= f') s t := by
  unfold Pairs Parser.runFrom at h ⊢
  rw [Runs.run_bind, Runs.run_bind]
  rcases hp : (ExceptT.run p).run s with ⟨r, s'⟩
  rw [hp] at h
  cases r with
  | ok x =>
    obtain ⟨t', hq, h'⟩ := h
    rw [hq]
    exact hnext x s' t' h'
  | error e =>
    obtain ⟨hplace, t', hq⟩ := h
    rw [hq]
    exact ⟨hplace, t', rfl⟩

/-- Steps that are known to succeed. -/
theorem step {x : α} {y : β} {f : α → Parser γ} {f' : β → Parser δ} {s' t' : ParserState} (hp : p.runFrom s = (.ok x, s'))
    (hq : q.runFrom t = (.ok y, t')) (h : C.Pairs g' (f x) (f' y) s' t') : C.Pairs g' (p >>= f) (q >>= f') s t := by
  unfold Pairs
  rw [runFrom_bind hp, runFrom_bind hq]
  exact h

theorem peek_bind {f : TokenKind → Parser α} {f' : TokenKind → Parser β} (h : C.States s t)
    (hnext : ∀ kind s' t', C.States s' t' → s'.skipped.headKind = kind → C.Pairs g (f kind) (f' kind) s' t') :
    C.Pairs g (peek >>= f) (peek >>= f') s t := by
  refine step (runFrom_peek s) (runFrom_peek t) ?_
  rw [headKind h]
  exact hnext _ _ _ (C.skipped h) (by rw [skipped_skipped])

theorem peekSpan_bind {f : Span → Parser α} {f' : Span → Parser β} (h : C.States s t)
    (hnext : ∀ span s' t', C.Place span → C.States s' t' → C.Pairs g (f span) (f' span) s' t') :
    C.Pairs g (peekSpan >>= f) (peekSpan >>= f') s t := by
  refine step (runFrom_peekSpan s) (runFrom_peekSpan t) ?_
  rw [C.front h]
  exact hnext _ _ _ (C.place_front h) (C.skipped h)

/-- The states need not go together any more once the end or an error has been read. -/
theorem advance_bind {f : Token → Parser α} {f' : Token → Parser β} (h : C.States s t)
    (hnext : ∀ token s' t', C.Place token.span → (token.kind.isProper → C.States s' t') → C.Pairs g (f token) (f' token) s' t') :
    C.Pairs g (advance >>= f) (advance >>= f') s t := by
  refine step (runFrom_advance s) (runFrom_advance t) ?_
  rw [C.front h]
  refine hnext _ _ _ (C.place_front h) fun hproper => C.behind h ?_
  rw [← ParserState.kind_front]
  exact hproper

/-- A token that has been looked at is read. -/
theorem advance_bind_of {f : Token → Parser α} {f' : Token → Parser β} {kind : TokenKind} (h : C.States s t)
    (hkind : s.skipped.headKind = kind) (hproper : kind.isProper)
    (hnext : ∀ token s' t', C.Place token.span → C.States s' t' → C.Pairs g (f token) (f' token) s' t') :
    C.Pairs g (advance >>= f) (advance >>= f') s t := by
  refine step (runFrom_advance s) (runFrom_advance t) ?_
  rw [C.front h]
  exact hnext _ _ _ (C.place_front h) (C.behind h (by rw [hkind]; exact hproper))

theorem check_bind {m : Mark} {f : Bool → Parser α} {f' : Bool → Parser β} (h : C.States s t)
    (hnext : ∀ b s' t', C.States s' t' → (b = true → s'.skipped.headKind = .mark m) → C.Pairs g (f b) (f' b) s' t') :
    C.Pairs g (check m >>= f) (check m >>= f') s t := by
  unfold check
  rw [bind_assoc, bind_assoc]
  refine peek_bind h fun kind s' t' h' hkind => ?_
  rw [pure_bind, pure_bind]
  exact hnext _ s' t' h' fun hb => hkind.trans (of_decide_eq_true hb)

theorem expect_bind {m : Mark} {f : Token → Parser α} {f' : Token → Parser β} (h : C.States s t)
    (hnext : ∀ token s' t', C.Place token.span → C.States s' t' → C.Pairs g (f token) (f' token) s' t') :
    C.Pairs g (expect m >>= f) (expect m >>= f') s t := by
  unfold expect
  rw [bind_assoc, bind_assoc]
  refine advance_bind h fun token s' t' hplace h' => ?_
  split
  · next hkind =>
    rw [pure_bind, pure_bind]
    exact hnext token s' t' hplace (h' (by rw [hkind]; rfl))
  · exact throw_bind (place_unexpected hplace _)

theorem get_bind {f : ParserState → Parser α} {f' : ParserState → Parser β} (h : C.Pairs g (f s) (f' t) s t) :
    C.Pairs g (get >>= f) (get >>= f') s t := h

theorem spanOf_bind {id : NodeId} {f : Span → Parser α} {f' : Span → Parser β} (h : C.States s t)
    (hnext : ∀ span, C.Place span → C.Pairs g (f span) (f' span) s t) :
    C.Pairs g (spanOf id >>= f) (spanOf (id.shift d) >>= f') s t := by
  refine step rfl rfl ?_
  rw [span h]
  exact hnext _ (C.place_span h id)

theorem spanAcross_bind {first last : NodeId} {f : Span → Parser α} {f' : Span → Parser β} (h : C.States s t)
    (hnext : ∀ span, C.Place span → C.Pairs g (f span) (f' span) s t) :
    C.Pairs g (spanAcross first last >>= f) (spanAcross (first.shift d) (last.shift d) >>= f') s t := by
  refine step rfl rfl ?_
  rw [span h, span h]
  exact hnext _ (C.merge (C.place_span h first) (C.place_span h last))

theorem makeNode {e : Expr} {span : Span} (h : C.States s t) (hplace : C.Place span) :
    C.Pairs (.shift d) (makeNode e span) (makeNode (e.shift d) span) s t := by
  refine ⟨t.push ⟨e.shift d, span⟩, ?_, C.push h ⟨e, span⟩ hplace⟩
  rw [runFrom_makeNode, C.size h]
  rfl

end Pairs

theorem couples_expect (m : Mark) : C.Couples id (expect m) (expect m) := fun s t h => by
  rw [← bind_pure (expect m)]
  exact .expect_bind h fun _ _ _ _ h' => .pure h' rfl

theorem couples_identifier (due : Expectation) : C.Couples id (identifier due) (identifier due) := fun s t h => by
  refine .advance_bind h fun token s' t' hplace h' => ?_
  split
  · next name hname => exact .pure (h' (by rw [hname]; rfl)) rfl
  · exact .unexpected hplace

/-! ## Variables -/

theorem couples_namesToBar (n : Nat) : C.Couples id (namesToBar n) (namesToBar n) := by
  induction n with
  | zero => exact fun _ _ h => .pure h rfl
  | succ n ih =>
    intro s t h
    refine .check_bind h fun b s₁ t₁ h₁ hb => ?_
    cases b with
    | true => exact .advance_bind_of h₁ (hb rfl) rfl fun _ _ _ _ h₂ => .pure h₂ rfl
    | false => exact (couples_identifier _ h₁).bind fun name _ _ h₂ => (ih h₂).bind fun _ _ _ h₃ => .pure h₃ rfl

theorem couples_variableList (bound : Nat) : C.Couples id (variableList bound) (variableList bound) := fun s t h => by
  refine .peek_bind h fun kind s₁ t₁ h₁ hkind => ?_
  split
  · next hbars => exact .advance_bind_of h₁ (hkind.trans hbars) rfl fun _ _ _ _ h₂ => .pure h₂ rfl
  · exact (couples_expect _ h₁).bind fun _ _ _ h₂ => couples_namesToBar bound h₂

theorem couples_optionalVariables (bound : Nat) : C.Couples id (optionalVariables bound) (optionalVariables bound) := fun s t h => by
  have hat : C.Couples id atVariables atVariables := fun _ _ h => .peek_bind h fun _ _ _ h₁ _ => .pure h₁ rfl
  refine (hat h).bind fun b s₁ t₁ h₁ => ?_
  cases b with
  | true => exact couples_variableList bound h₁
  | false => exact .pure h₁ rfl

theorem couples_blockParams (n : Nat) : C.Couples id (blockParams n) (blockParams n) := by
  induction n with
  | zero => exact fun _ _ h => .pure h rfl
  | succ n ih =>
    intro s t h
    refine .peek_bind h fun kind s₁ t₁ h₁ hkind => ?_
    cases kind with
    | argument name => exact .advance_bind_of h₁ hkind rfl fun _ _ _ _ h₂ => (ih h₂).bind fun _ _ _ h₃ => .pure h₃ rfl
    | _ => exact .pure h₁ rfl

theorem couples_paramsEnd (bound : Nat) : C.Couples id (paramsEnd bound) (paramsEnd bound) := fun s t h => by
  refine .peek_bind h fun kind s₁ t₁ h₁ hkind => ?_
  split
  · next hbars => exact .advance_bind_of h₁ (hkind.trans hbars) rfl fun _ _ _ _ h₂ => couples_namesToBar bound h₂
  · exact (couples_expect _ h₁).bind fun _ _ _ h₂ => .pure h₂ rfl

/-! ## Messages -/

theorem couples_unaryMessages (n : Nat) (left : NodeId) :
    C.Couples (.shift d) (unaryMessages n left) (unaryMessages n (left.shift d)) := by
  induction n generalizing left with
  | zero => exact fun _ _ h => .pure h rfl
  | succ n ih =>
    intro s t h
    refine .peek_bind h fun kind s₁ t₁ h₁ hkind => ?_
    cases kind with
    | identifier selector =>
      refine .advance_bind_of h₁ hkind rfl fun token s₂ t₂ hplace h₂ => .spanOf_bind h₂ fun span hspan => ?_
      exact (Pairs.makeNode (e := .send left selector []) h₂ (C.merge hspan hplace)).bind fun x _ _ h₃ => ih x h₃
    | _ => exact .pure h₁ rfl

section Operands
variable {operand expr : Parser NodeId}

theorem couples_binaryMessages (hoperand : C.Couples (.shift d) operand operand) (n least : Nat) (left : NodeId) :
    C.Couples (.shift d) (binaryMessages operand n least left) (binaryMessages operand n least (left.shift d)) := by
  induction n generalizing least left with
  | zero => exact fun _ _ h => .pure h rfl
  | succ n ih =>
    intro s t h
    refine .peek_bind h fun kind s₁ t₁ h₁ hkind => ?_
    cases kind with
    | operator selector =>
      dsimp only
      split
      · exact .pure h₁ rfl
      · refine .advance_bind_of h₁ hkind rfl fun _ s₂ t₂ _ h₂ => (hoperand h₂).bind fun first s₃ t₃ h₃ => ?_
        refine (ih _ first h₃).bind fun right s₄ t₄ h₄ => .spanAcross_bind h₄ fun span hspan => ?_
        exact (Pairs.makeNode (e := .send left selector [right]) h₄ hspan).bind fun x _ _ h₅ => ih least x h₅
    | _ => exact .pure h₁ rfl

theorem couples_keywordParts (hoperand : C.Couples (.shift d) operand operand) (n : Nat) :
    C.Couples (List.map (Prod.map id (.shift d))) (keywordParts operand n) (keywordParts operand n) := by
  induction n with
  | zero => exact fun _ _ h => .pure h rfl
  | succ n ih =>
    intro s t h
    refine .peek_bind h fun kind s₁ t₁ h₁ hkind => ?_
    cases kind with
    | keyword part =>
      exact .advance_bind_of h₁ hkind rfl fun _ s₂ t₂ _ h₂ => (hoperand h₂).bind fun arg s₃ t₃ h₃ =>
        (ih h₃).bind fun _ _ _ h₄ => .pure h₄ rfl
    | _ => exact .pure h₁ rfl

theorem couples_optionalKeywordMessage (hoperand : C.Couples (.shift d) operand operand) (bound : Nat) (receiver : NodeId) :
    C.Couples (.shift d) (optionalKeywordMessage bound operand receiver) (optionalKeywordMessage bound operand (receiver.shift d)) := by
  intro s t h
  refine .peek_bind h fun kind s₁ t₁ h₁ hkind => ?_
  cases kind with
  | keyword part =>
    refine (couples_keywordParts hoperand bound h₁).bind fun parts s₂ t₂ h₂ => ?_
    -- The last argument, or else the receiver, is the same on both sides.
    have hlast : ((parts.map (Prod.map id (NodeId.shift d))).map (·.2)).getLast?.getD (receiver.shift d) =
        ((parts.map (·.2)).getLast?.getD receiver).shift d := by
      rw [List.map_map, show (·.2) ∘ Prod.map id (NodeId.shift d) = NodeId.shift d ∘ (·.2) from rfl, ← List.map_map,
        List.getLast?_map, Option.getD_map]
    dsimp only
    rw [hlast]
    refine .spanAcross_bind h₂ fun span hspan => ?_
    have hnode := Pairs.makeNode (e := .send receiver (String.join (parts.map (·.1))) (parts.map (·.2))) h₂ hspan
    simpa [Expr.shift, Function.comp_def] using hnode
  | _ => exact .pure h₁ rfl

/-! ## Primaries -/

theorem couples_statement (hexpr : C.Couples (.shift d) expr expr) : C.Couples (.shift d) (statement expr) (statement expr) := by
  intro s t h
  refine .check_bind h fun b s₁ t₁ h₁ hb => ?_
  cases b with
  | true =>
    refine .advance_bind_of h₁ (hb rfl) rfl fun caret s₂ t₂ hplace h₂ => (hexpr h₂).bind fun value s₃ t₃ h₃ => ?_
    exact .spanOf_bind h₃ fun span hspan => .makeNode (e := .ret value) h₃ (C.merge hplace hspan)
  | false => exact hexpr h₁

/-- A statement, and then others if a dot or the closing bracket follows. -/
theorem pairs_statementFirst (hexpr : C.Couples (.shift d) expr expr) {n : Nat}
    (ih : C.Couples (List.map (.shift d)) (statements expr n) (statements expr n)) (h : C.States s t) :
    let first : Parser (List NodeId) := do
      let first ← statement expr
      match ← peek with
      | .mark .dot | .mark .rightBracket => return first :: (← statements expr n)
      | _ => throw ((← advance).unexpected .statementEnd)
    C.Pairs (List.map (.shift d)) first first s t := by
  refine (couples_statement hexpr h).bind fun first s₁ t₁ h₁ => .peek_bind h₁ fun kind s₂ t₂ h₂ _ => ?_
  have hmore : C.Pairs (List.map (.shift d)) (do return first :: (← statements expr n))
      (do return first.shift d :: (← statements expr n)) s₂ t₂ := (ih h₂).bind fun _ _ _ h₃ => .pure h₃ rfl
  have hstop : C.Pairs (List.map (NodeId.shift d)) (do throw ((← advance).unexpected .statementEnd) : Parser (List NodeId))
      (do throw ((← advance).unexpected .statementEnd)) s₂ t₂ := .advance_bind h₂ fun _ _ _ hplace _ => .unexpected hplace
  cases kind with
  | mark m =>
    cases m with
    | dot | rightBracket => exact hmore
    | _ => exact hstop
  | _ => exact hstop

theorem couples_statements (hexpr : C.Couples (.shift d) expr expr) (n : Nat) :
    C.Couples (List.map (.shift d)) (statements expr n) (statements expr n) := by
  induction n with
  | zero => exact fun _ _ h => .pure h rfl
  | succ n ih =>
    intro s t h
    refine .peek_bind h fun kind s₁ t₁ h₁ hkind => ?_
    have hfirst := pairs_statementFirst hexpr ih h₁
    cases kind with
    | mark m =>
      cases m with
      | dot => exact .advance_bind_of h₁ hkind rfl fun _ _ _ _ h₂ => ih h₂
      | rightBracket => exact .pure h₁ rfl
      | _ => exact hfirst
    | _ => exact hfirst

theorem couples_blockTemps (bound : Nat) (params : List Declaration) :
    C.Couples id (blockTemps bound params) (blockTemps bound params) := by
  have hrest : ∀ early : List Declaration, C.Couples id (if early.isEmpty then optionalVariables bound else pure early)
      (if early.isEmpty then optionalVariables bound else pure early) := by
    intro early s t h
    split
    · exact couples_optionalVariables bound h
    · exact .pure h rfl
  intro s t h
  unfold blockTemps
  split
  · exact hrest [] h
  · exact (couples_paramsEnd bound h).bind fun early _ _ h₁ => hrest early h₁

theorem couples_block (hexpr : C.Couples (.shift d) expr expr) (bound : Nat) :
    C.Couples (.shift d) (block bound expr) (block bound expr) := by
  intro s t h
  rw [block_eq]
  refine .expect_bind h fun opening s₁ t₁ hopening h₁ => (couples_blockParams bound h₁).bind fun params s₂ t₂ h₂ => ?_
  refine (couples_blockTemps bound params h₂).bind fun temps s₃ t₃ h₃ => ?_
  refine (couples_statements hexpr bound h₃).bind fun body s₄ t₄ h₄ => .expect_bind h₄ fun closing s₅ t₅ hclosing h₅ => ?_
  exact .makeNode (e := .block params temps body) h₅ (C.merge hopening hclosing)

theorem couples_elements (hexpr : C.Couples (.shift d) expr expr) (n : Nat) :
    C.Couples (List.map (.shift d)) (elements expr n) (elements expr n) := by
  induction n with
  | zero => exact fun _ _ h => .pure h rfl
  | succ n ih =>
    intro s t h
    refine .check_bind h fun b s₁ t₁ h₁ _ => ?_
    cases b with
    | true => exact .pure h₁ rfl
    | false =>
      refine (hexpr h₁).bind fun first s₂ t₂ h₂ => .check_bind h₂ fun b s₃ t₃ h₃ hb => ?_
      cases b with
      | true => exact .advance_bind_of h₃ (hb rfl) rfl fun _ _ _ _ h₄ => (ih h₄).bind fun _ _ _ h₅ => .pure h₅ rfl
      | false => exact .pure h₃ rfl

theorem couples_array (hexpr : C.Couples (.shift d) expr expr) (bound : Nat) :
    C.Couples (.shift d) (array bound expr) (array bound expr) := fun _ _ h =>
  .expect_bind h fun _ _ _ hopening h₁ => (couples_elements hexpr bound h₁).bind fun parts _ _ h₂ =>
    .expect_bind h₂ fun _ _ _ hclosing h₃ => .makeNode (e := .array parts) h₃ (C.merge hopening hclosing)

theorem atom_shift {kind : TokenKind} {atom : Expr} (h : atom? kind = some atom) : atom.shift d = atom ∧ kind.isProper := by
  constructor
  · obtain ⟨value, rfl⟩ | ⟨name, rfl, -⟩ := atom_cases h <;> rfl
  · cases kind with
    | endOfInput | error message => cases h
    | _ => rfl

theorem couples_primary (hexpr : C.Couples (.shift d) expr expr) (bound : Nat) :
    C.Couples (.shift d) (primary bound expr) (primary bound expr) := by
  intro s t h
  refine .peek_bind h fun kind s₁ t₁ h₁ hkind => ?_
  split
  · exact couples_block hexpr bound h₁
  · exact couples_array hexpr bound h₁
  · refine .advance_bind_of h₁ hkind rfl fun opening _ _ hopening h₂ => (hexpr h₂).bind fun inner _ _ h₃ => ?_
    exact .expect_bind h₃ fun closing _ _ hclosing h₄ => .makeNode (e := .paren inner) h₄ (C.merge hopening hclosing)
  · refine .advance_bind h₁ fun token s₂ t₂ hplace h₂ => ?_
    cases hatom : atom? token.kind with
    | some atom =>
      obtain ⟨hshift, hproper⟩ := atom_shift (d := d) hatom
      have hnode := Pairs.makeNode (e := atom) (h₂ hproper) hplace
      rw [hshift] at hnode
      exact hnode
    | none => exact .unexpected hplace

/-! ## Expressions -/

theorem couples_unaryLevel (hexpr : C.Couples (.shift d) expr expr) (bound : Nat) :
    C.Couples (.shift d) (unaryLevel bound expr) (unaryLevel bound expr) := fun _ _ h =>
  (couples_primary hexpr bound h).bind fun receiver _ _ h₁ => couples_unaryMessages bound receiver h₁

theorem couples_binaryLevel (hexpr : C.Couples (.shift d) expr expr) (bound : Nat) :
    C.Couples (.shift d) (binaryLevel bound expr) (binaryLevel bound expr) := fun _ _ h =>
  (couples_unaryLevel hexpr bound h).bind fun left _ _ h₁ =>
    couples_binaryMessages (couples_unaryLevel hexpr bound) bound 0 left h₁

theorem couples_keywordLevel (hexpr : C.Couples (.shift d) expr expr) (bound : Nat) :
    C.Couples (.shift d) (keywordLevel bound expr) (keywordLevel bound expr) := fun _ _ h =>
  (couples_binaryLevel hexpr bound h).bind fun receiver _ _ h₁ =>
    couples_optionalKeywordMessage (couples_binaryLevel hexpr bound) bound receiver h₁

theorem couples_cascadeMessage (hexpr : C.Couples (.shift d) expr expr) (bound : Nat) (receiver : NodeId) :
    C.Couples (.shift d) (cascadeMessage bound expr receiver) (cascadeMessage bound expr (receiver.shift d)) := by
  have hbinary := couples_binaryMessages (couples_unaryLevel hexpr bound) bound 0
  have hkeyword := couples_optionalKeywordMessage (couples_binaryLevel hexpr bound) bound
  intro s t h
  refine .peek_bind h fun kind s₁ t₁ h₁ _ => ?_
  cases kind with
  | identifier name =>
    exact (couples_unaryMessages bound receiver h₁).bind fun inner _ _ h₂ => (hbinary inner h₂).bind fun result _ _ h₃ =>
      hkeyword result h₃
  | operator name => exact (hbinary receiver h₁).bind fun result _ _ h₂ => hkeyword result h₂
  | keyword part => exact hkeyword receiver h₁
  | _ => exact .peekSpan_bind h₁ fun span _ _ hspan _ => .throw_bind hspan

theorem couples_cascadeMessages {message message' : Parser NodeId} (hmessage : C.Couples (.shift d) message message') (n : Nat) :
    C.Couples (List.map (.shift d)) (cascadeMessages message n) (cascadeMessages message' n) := by
  induction n with
  | zero => exact fun _ _ h => .pure h rfl
  | succ n ih =>
    intro s t h
    refine .check_bind h fun b s₁ t₁ h₁ hb => ?_
    cases b with
    | true =>
      exact .advance_bind_of h₁ (hb rfl) rfl fun _ _ _ _ h₂ => (hmessage h₂).bind fun _ _ _ h₃ =>
        (ih h₃).bind fun _ _ _ h₄ => .pure h₄ rfl
    | false => exact .pure h₁ rfl

theorem couples_cascadeLevel (hexpr : C.Couples (.shift d) expr expr) (bound : Nat) :
    C.Couples (.shift d) (cascadeLevel bound expr) (cascadeLevel bound expr) := by
  intro s t h
  refine (couples_keywordLevel hexpr bound h).bind fun first s₁ t₁ h₁ => .check_bind h₁ fun b s₂ t₂ h₂ _ => ?_
  cases b with
  | true =>
    refine .get_bind ?_
    rw [expr? h₂]
    have hfault : C.Pairs (NodeId.shift d) (do throw ⟨.cascadeMessage, ← spanOf first⟩ : Parser NodeId)
        (do throw ⟨.cascadeMessage, ← spanOf (first.shift d)⟩) s₂ t₂ := .spanOf_bind h₂ fun span hspan => .throw hspan
    cases s₂.arena.expr? first with
    | none => exact hfault
    | some e =>
      cases e with
      | send receiver selector args =>
        refine (couples_cascadeMessages (couples_cascadeMessage hexpr bound receiver) bound h₂).bind fun others s₃ t₃ h₃ => ?_
        rw [List.getLast?_map, Option.getD_map]
        exact .spanAcross_bind h₃ fun span hspan => .makeNode (e := .cascade receiver (first :: others)) h₃ hspan
      | _ => exact hfault
  | false => exact .pure h₂ rfl

theorem couples_assignmentTail (hexpr : C.Couples (.shift d) expr expr) (target : NodeId) :
    C.Couples (.shift d) (assignmentTail expr target) (assignmentTail expr (target.shift d)) := by
  intro s t h
  refine .check_bind h fun b s₁ t₁ h₁ hb => ?_
  cases b with
  | true =>
    refine .advance_bind_of h₁ (hb rfl) rfl fun mark s₂ t₂ hmark h₂ => .get_bind ?_
    rw [expr? h₂]
    have hfault : C.Pairs (NodeId.shift d) (do throw ⟨.assignmentTarget, (← spanOf target).merge mark.span⟩ : Parser NodeId)
        (do throw ⟨.assignmentTarget, (← spanOf (target.shift d)).merge mark.span⟩) s₂ t₂ :=
      .spanOf_bind h₂ fun span hspan => .throw (C.merge hspan hmark)
    cases s₂.arena.expr? target with
    | none => exact hfault
    | some e =>
      cases e with
      | ident name =>
        refine (hexpr h₂).bind fun value s₃ t₃ h₃ => .spanAcross_bind h₃ fun span hspan => ?_
        exact .makeNode (e := .assign target value) h₃ hspan
      | _ => exact hfault
  | false => exact .pure h₁ rfl

end Operands

theorem couples_expressionWithin (n : Nat) : C.Couples (.shift d) (expressionWithin n) (expressionWithin n) := by
  induction n with
  | zero => exact fun _ _ h => .advance_bind h fun _ _ _ hplace _ => .unexpected hplace
  | succ n ih =>
    exact fun _ _ h => (couples_cascadeLevel ih (n + 1) h).bind fun left _ _ h₁ => couples_assignmentTail ih left h₁

/-! ## Bounds -/

/-- A bound that exceeds the number of tokens left is as good as any other. -/
theorem runFrom_eq_of_agrees {f : Nat → Parser α} {q : Unbounded α} {n m : Nat}
    (hf : ∀ {s : ParserState} {n : Nat}, s.tokens.length < n → Unbounded.Agrees (f n) q s) (hn : s.tokens.length < n)
    (hm : s.tokens.length < m) : (f n).runFrom s = (f m).runFrom s := by
  have heq := (hf hn).symm.trans (hf hm)
  rcases hp : (f n).runFrom s with ⟨r, s₁⟩
  rcases hq : (f m).runFrom s with ⟨r', s₂⟩
  rw [hp, hq] at heq
  cases r <;> cases r' <;> cases heq <;> rfl

/-- Each run takes its own bound. -/
theorem Pairs.remaining_bind {f : Nat → Parser α} {q : Unbounded α} {next : α → Parser γ} {next' : α → Parser δ}
    (hf : ∀ {s : ParserState} {n : Nat}, s.tokens.length < n → Unbounded.Agrees (f n) q s)
    (hcouples : ∀ n, C.Couples id (f n) (f n)) (h : C.States s t)
    (hnext : ∀ x s' t', C.States s' t' → C.Pairs g' (next x) (next' x) s' t') :
    C.Pairs g' (remaining >>= fun n => f n >>= next) (remaining >>= fun n => f n >>= next') s t := by
  refine step rfl rfl ?_
  -- One bound that is enough for both.
  generalize hmax : max s.tokens.length t.tokens.length + 1 = bound
  have hs : (f (s.tokens.length + 1)).runFrom s = (f bound).runFrom s := runFrom_eq_of_agrees hf (Nat.lt_succ_self _) (by omega)
  have ht : (f (t.tokens.length + 1)).runFrom t = (f bound).runFrom t := runFrom_eq_of_agrees hf (Nat.lt_succ_self _) (by omega)
  have hboth : C.Pairs id (f (s.tokens.length + 1)) (f (t.tokens.length + 1)) s t := by
    unfold Pairs
    rw [hs, ht]
    exact hcouples bound h
  exact hboth.bind hnext

/-! ## Methods and classes

From here on nodes have the same places in both runs.
-/

section Definitions
variable {C : Coupling 0}

/-- The temporaries and statements of a method within a bound. -/
def bodyWithin (bound : Nat) : Parser (List Declaration × List NodeId) := do
  let temps ← optionalVariables bound
  let body ← statements (expressionWithin bound) bound
  return (temps, body)

theorem methodBody_eq (classSide : Bool) (selector : String) (params : List Declaration) (start : Span) :
    methodBody classSide selector params start = (do
      let _ ← expect .leftBracket
      let bound ← remaining
      let (temps, body) ← bodyWithin bound
      let closing ← expect .rightBracket
      return { classSide, selector, params, temps, body, span := start.merge closing.span }) := by
  simp only [methodBody, bodyWithin, bind_assoc, pure_bind]

theorem agrees_bodyWithin {n : Nat} (h : s.tokens.length < n) : Unbounded.Agrees (bodyWithin n) (do
    let temps ← Unbounded.optionalVariables
    let body ← Unbounded.statements
    return (temps, body)) s := by
  refine .bind (Unbounded.agrees_optionalVariables h) fun temps t hr => ?_
  have := takes_optionalVariables _ _ _ _ hr
  exact .bind ((Unbounded.Ties.expressionWithin _).statements (by omega) (by omega)) fun _ _ _ => .pure _ _

theorem couples_bodyWithin (n : Nat) : C.Couples id (bodyWithin n) (bodyWithin n) := fun _ _ h =>
  (couples_optionalVariables n h).bind fun temps _ _ h₁ => (couples_statements (couples_expressionWithin n) n h₁).bind
    fun body _ _ h₂ => .pure h₂ (by rw [NodeId.map_shift_zero]; rfl)

theorem couples_methodBody (classSide : Bool) (selector : String) (params : List Declaration) (start : Span) :
    C.Couples id (methodBody classSide selector params start) (methodBody classSide selector params start) := fun s t h => by
  rw [methodBody_eq]
  refine .expect_bind h fun _ s₁ t₁ _ h₁ => .remaining_bind agrees_bodyWithin couples_bodyWithin h₁ fun _ s₂ t₂ h₂ => ?_
  exact .expect_bind h₂ fun _ _ _ _ h₃ => .pure h₃ rfl

theorem couples_patternParts (n : Nat) : C.Couples id (patternParts n) (patternParts n) := by
  induction n with
  | zero => exact fun _ _ h => .pure h rfl
  | succ n ih =>
    intro s t h
    refine .peek_bind h fun kind s₁ t₁ h₁ hkind => ?_
    cases kind with
    | keyword part =>
      exact .advance_bind_of h₁ hkind rfl fun _ _ _ _ h₂ => (couples_identifier _ h₂).bind fun _ _ _ h₃ =>
        (ih h₃).bind fun _ _ _ h₄ => .pure h₄ rfl
    | _ => exact .pure h₁ rfl

theorem couples_pattern : C.Couples id pattern pattern := fun s t h => by
  refine .advance_bind h fun token s₁ t₁ hplace h₁ => ?_
  cases hkind : token.kind with
  | identifier name => exact .pure (h₁ (by rw [hkind]; rfl)) rfl
  | operator name => exact (couples_identifier _ (h₁ (by rw [hkind]; rfl))).bind fun _ _ _ h₂ => .pure h₂ rfl
  | keyword part =>
    refine (couples_identifier _ (h₁ (by rw [hkind]; rfl))).bind fun first s₂ t₂ h₂ => ?_
    exact .remaining_bind Unbounded.agrees_patternParts couples_patternParts h₂ fun _ _ _ h₃ => .pure h₃ rfl
  | _ => exact .unexpected hplace

theorem couples_method (classSide : Bool) (start : Span) : C.Couples id (method classSide start) (method classSide start) :=
  fun _ _ h => (couples_pattern h).bind fun _ _ _ h₁ => couples_methodBody _ _ _ _ h₁

theorem pairs_classSideItem (items : ClassItems) (h : C.States s t) (hkind : s.skipped.headKind = .identifier "class") :
    C.Pairs id (classSideItem items) (classSideItem items) s t := by
  refine .advance_bind_of h hkind rfl fun word s₁ t₁ _ h₁ => .peek_bind h₁ fun kind s₂ t₂ h₂ hkind₂ => ?_
  split
  · exact .remaining_bind Unbounded.agrees_variableList couples_variableList h₂ fun _ _ _ h₃ => .pure h₃ rfl
  · exact (couples_methodBody _ _ _ _ h₂).bind fun _ _ _ h₃ => .pure h₃ rfl
  · split
    · next hbars => exact .advance_bind_of h₂ (hkind₂.trans hbars) rfl fun _ _ _ _ h₃ => .pure h₃ rfl
    · exact (couples_method _ _ h₂).bind fun _ _ _ h₃ => .pure h₃ rfl

theorem couples_classItems (n : Nat) (items : ClassItems) : C.Couples id (classItems n items) (classItems n items) := by
  induction n generalizing items with
  | zero => exact fun _ _ h => .pure h rfl
  | succ n ih =>
    intro s t h
    refine .peek_bind h fun kind s₁ t₁ h₁ hkind => ?_
    split
    · exact .pure h₁ rfl
    split
    · exact .remaining_bind Unbounded.agrees_variableList couples_variableList h₁ fun _ _ _ h₂ => ih _ h₂
    split
    · next hclass => exact (pairs_classSideItem items h₁ (hkind.trans hclass)).bind fun items _ _ h₂ => ih items h₂
    · exact .peekSpan_bind h₁ fun start _ _ _ h₂ => (couples_method false start h₂).bind fun _ _ _ h₃ => ih _ h₃

theorem couples_className : C.Couples id className className := fun s t h => by
  refine .advance_bind h fun head s₁ t₁ hplace h₁ => ?_
  cases hkind : head.kind with
  | identifier name => exact (couples_expect _ (h₁ (by rw [hkind]; rfl))).bind fun _ _ _ h₂ => .pure h₂ rfl
  | keyword part => exact .pure (h₁ (by rw [hkind]; rfl)) rfl
  | _ => exact .unexpected hplace

theorem couples_superclass : C.Couples id superclass superclass := fun s t h => by
  refine .advance_bind h fun token s₁ t₁ hplace h₁ => ?_
  split
  · next hkind => exact .pure (h₁ (by rw [hkind]; rfl)) rfl
  · next hkind => exact .pure (h₁ (by rw [hkind]; rfl)) rfl
  · exact .unexpected hplace

theorem couples_classDefinition : C.Couples id classDefinition classDefinition := fun s t h => by
  refine (couples_className h).bind fun head s₁ t₁ h₁ => (couples_superclass h₁).bind fun super s₂ t₂ h₂ => ?_
  refine .expect_bind h₂ fun _ s₃ t₃ _ h₃ => ?_
  refine .remaining_bind (fun h => Unbounded.agrees_classItems h _) (fun n => couples_classItems n _) h₃ fun items s₄ t₄ h₄ => ?_
  exact .expect_bind h₄ fun _ _ _ _ h₅ => .pure h₅ rfl

theorem couples_classes (n : Nat) : C.Couples id (classes n) (classes n) := by
  induction n with
  | zero => exact fun _ _ h => .pure h rfl
  | succ n ih =>
    intro s t h
    refine .peek_bind h fun kind s₁ t₁ h₁ _ => ?_
    cases kind.isEnd with
    | true => exact .pure h₁ rfl
    | false => exact (couples_classDefinition h₁).bind fun _ _ _ h₂ => (ih h₂).bind fun _ _ _ h₃ => .pure h₃ rfl

theorem couples_program : C.Couples id (do classes (← remaining)) (do classes (← remaining)) := fun s t h => by
  have hall : C.Pairs id (remaining >>= fun n => classes n >>= pure) (remaining >>= fun n => classes n >>= pure) s t :=
    .remaining_bind Unbounded.agrees_classes couples_classes h fun _ _ _ h₁ => .pure h₁ rfl
  simpa only [bind_pure] using hall

end Definitions
end Coupling
end BlockScope
