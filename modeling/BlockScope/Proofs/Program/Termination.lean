import BlockScope.Proofs.Program.Consuming
import BlockScope.Proofs.Program.Parsing
import BlockScope.Proofs.Program.Unbounded
/-!
# Parsing ends

The grammar bounds its loops and its nesting by the number of tokens left. That bound is never what ends them: without it every
parser still comes to an end, with the same outcome (`Agrees`), and it never halts because of a token or a node that is not what
it should be. Each round of a loop and each nested expression takes a token first, so the tokens left are fewer than the
bound all the way down; and every node that is looked up has been made before.
-/
namespace BlockScope
open BlockScope.Parser (Takes Makes Extends Sends)

theorem Arena.Before.span {a b : Arena} {id : NodeId} (h : a.Before b) (hid : id.index < a.size) : b.span id = a.span id := by
  have hget : a.get? id = some a.nodes[id.index] := Array.getElem?_eq_getElem hid
  rw [Arena.span, Arena.span, hget, h.get id _ hget]

namespace Parser
variable {s s' : ParserState} {left x : NodeId} {st : Standing} {p : Parser NodeId}

/-- What holds of every name is nothing to carry along. -/
theorem receivers_trivial : Receivers fun _ => True := ⟨trivial, trivial⟩

/-- The node that was made is there. -/
theorem Makes.there (h : Makes (fun _ => True) p (.one st)) (hr : Runs p s x s') : x.index < s'.arena.size := by
  have := (h s x s' hr).2.last
  omega

theorem Makes.size_le {α : Type} {p : Parser α} {piece : α → Piece} {x : α} (h : Makes (fun _ => True) p piece)
    (hr : Runs p s x s') : s.arena.size ≤ s'.arena.size := (h s x s' hr).1.arena.size

theorem Extends.size_le {p : NodeId → Parser NodeId} (h : Extends (fun _ => True) p) (hr : Runs (p left) s x s') :
    s.arena.size ≤ s'.arena.size := (h left s x s' hr).leads.arena.size

/-- Messages to a node that is there lead to one that is there. -/
theorem Extends.there {p : NodeId → Parser NodeId} (h : Extends (fun _ => True) p) (hr : Runs (p left) s x s')
    (hleft : left.index < s.arena.size) : x.index < s'.arena.size := by
  have hle := h.size_le hr
  rcases (h left s x s' hr).left left s.arena.size (.refl _ _ _) with ⟨rfl, -⟩ | hfills
  · omega
  · have := hfills.last
    omega

end Parser

namespace Unbounded

/-- From this state the unbounded parser ends, and with the outcome of the other one. -/
def Agrees {α : Type} (p : Parser α) (q : Unbounded α) (s : ParserState) : Prop :=
  q.runFrom s = some (outcome (p.runFrom s))

/-! ## Steps -/

namespace Agrees
variable {α β : Type} {p : Parser α} {q : Unbounded α} {f : α → Parser β} {g : α → Unbounded β} {s : ParserState}
  {id first last : NodeId}

theorem lift (p : Parser α) (s : ParserState) : Agrees p (liftM p) s := rfl

theorem pure (x : α) (s : ParserState) : Agrees (pure x) (pure x) s := rfl

theorem throw (e : ParseError) (s : ParserState) : Agrees (throw e : Parser α) (throw (.fault e)) s := rfl

theorem runFrom_bind (q : Unbounded α) (g : α → Unbounded β) (s : ParserState) :
    (q >>= g).runFrom s = (q.runFrom s).bind fun r => match r with
      | (.ok x, t) => (g x).runFrom t
      | (.error e, t) => some (.error e, t) := by
  simp only [runFrom, ExceptT.run_bind, StateT.run_bind]
  rcases (ExceptT.run q).run s with _ | ⟨r, t⟩
  · rfl
  · cases r <;> rfl

theorem bind (h : Agrees p q s) (h' : ∀ x t, Runs p s x t → Agrees (f x) (g x) t) : Agrees (p >>= f) (q >>= g) s := by
  unfold Agrees Parser.runFrom at *
  rw [runFrom_bind, Runs.run_bind, h]
  rcases hp : (ExceptT.run p).run s with ⟨r, t⟩
  cases r with
  | ok x => exact h' x t hp
  | error e => rfl

theorem lift_bind (h : ∀ x t, Runs p s x t → Agrees (f x) (g x) t) : Agrees (p >>= f) (liftM p >>= g) s := bind (lift p s) h

theorem peek_bind {f : TokenKind → Parser β} {g : TokenKind → Unbounded β}
    (h : Agrees (f s.skipped.headKind) (g s.skipped.headKind) s.skipped) : Agrees (Parser.peek >>= f) (liftM Parser.peek >>= g) s := by
  refine lift_bind fun k t hr => ?_
  obtain ⟨rfl, rfl⟩ := Parser.peek_iff.1 hr
  exact h

theorem check_bind {m : Mark} {f : Bool → Parser β} {g : Bool → Unbounded β}
    (h : ∀ b, b = decide (s.skipped.headKind = .mark m) → Agrees (f b) (g b) s.skipped) :
    Agrees (Parser.check m >>= f) (liftM (Parser.check m) >>= g) s := by
  refine lift_bind fun b t hr => ?_
  obtain ⟨hb, rfl⟩ := Parser.check_iff.1 hr
  exact h b hb

/-- Where anything but the end is ahead, that is what is read. -/
theorem advance_bind {f : Token → Parser β} {g : Token → Unbounded β} (hend : s.skipped.headKind ≠ .endOfInput)
    (h : ∀ (t : Token) (s' : ParserState), t.kind = s.skipped.headKind → s'.arena = s.arena →
      s'.tokens.length < s.tokens.length → Agrees (f t) (g t) s') :
    Agrees (Parser.advance >>= f) (liftM Parser.advance >>= g) s := by
  refine lift_bind fun t s' hr => ?_
  obtain ⟨hkind, harena, ⟨hnone, -⟩ | hlt⟩ := Parser.advance_spec hr
  · exact absurd (hkind.symm.trans hnone) hend
  · exact h t s' hkind harena hlt

/-- A token may or may not have been left. -/
theorem advance_bind_le {f : Token → Parser β} {g : Token → Unbounded β}
    (h : ∀ (t : Token) (s' : ParserState), s'.arena = s.arena → s'.tokens.length ≤ s.tokens.length → Agrees (f t) (g t) s') :
    Agrees (Parser.advance >>= f) (liftM Parser.advance >>= g) s := by
  refine lift_bind fun t s' hr => ?_
  obtain ⟨-, harena, -⟩ := Parser.advance_spec hr
  exact h t s' harena (Parser.takes_advance _ _ _ hr)

theorem runFrom_nodeAt {g : Node → Unbounded β} {node : Node} (h : s.arena.get? id = some node) :
    (nodeAt id >>= g).runFrom s = (g node).runFrom s := by
  have hnode : (nodeAt id).runFrom s = some (.ok node, s) := by
    simp only [nodeAt, runFrom_bind]
    change Option.bind (some (Except.ok s, s)) _ = _
    simp only [Option.bind_some, h]
    rfl
  rw [runFrom_bind, hnode]
  rfl

/-- A node that is there can be looked up. -/
theorem nodeAt_bind {g : Node → Unbounded α} (hid : id.index < s.arena.size)
    (h : ∀ node, s.arena.get? id = some node → Agrees p (g node) s) : Agrees p (nodeAt id >>= g) s := by
  have hget : s.arena.get? id = some s.arena.nodes[id.index] := Array.getElem?_eq_getElem hid
  unfold Agrees
  rw [runFrom_nodeAt hget]
  exact h _ hget

theorem spanOf_bind {g : Span → Unbounded α} (hid : id.index < s.arena.size) (h : Agrees p (g (s.arena.span id)) s) :
    Agrees p (spanOf id >>= g) s := by
  unfold spanOf
  rw [bind_assoc]
  refine nodeAt_bind hid fun node hnode => ?_
  rw [pure_bind, show node.span = s.arena.span id by rw [Arena.span, hnode]; rfl]
  exact h

theorem spanAcross_bind {f : Span → Parser β} {g : Span → Unbounded β} (hfirst : first.index < s.arena.size)
    (hlast : last.index < s.arena.size) (h : ∀ span, Agrees (f span) (g span) s) :
    Agrees (Parser.spanAcross first last >>= f) (spanAcross first last >>= g) s := by
  unfold spanAcross
  rw [bind_assoc]
  refine spanOf_bind hfirst ?_
  rw [bind_assoc]
  refine spanOf_bind hlast ?_
  rw [pure_bind]
  exact h ((s.arena.span first).merge (s.arena.span last))

theorem get_bind {f : ParserState → Parser α} (h : Agrees (f s) q s) : Agrees (get >>= f) q s := h

theorem get_bind_both {f : ParserState → Parser α} {g : ParserState → Unbounded α} (h : Agrees (f s) (g s) s) :
    Agrees (get >>= f) (get >>= g) s := h

theorem remaining_bind {f : Nat → Parser α} (h : Agrees (f (s.tokens.length + 1)) q s) : Agrees (Parser.remaining >>= f) q s := h

/-- An error is met as such by both. -/
theorem tryCatch {f : ParseError → Parser α} {g : Halt → Unbounded α} (h : Agrees p q s) (h' : ∀ e t, Agrees (f e) (g (.fault e)) t) :
    Agrees (tryCatch p f) (tryCatch q g) s := by
  unfold Agrees runFrom Parser.runFrom at *
  rw [ExceptT.run_tryCatch, StateT.run_bind, h, ExceptT.run_tryCatch, StateT.run_bind]
  rcases (ExceptT.run p).run s with ⟨r, t⟩
  cases r with
  | ok x => rfl
  | error e => exact h' e t

theorem makeNode_bind {e : Expr} {span : Span} {f : NodeId → Parser β} {g : NodeId → Unbounded β}
    (h : ∀ id s', id.index < s'.arena.size → s'.tokens = s.tokens → Agrees (f id) (g id) s') :
    Agrees (Parser.makeNode e span >>= f) (liftM (Parser.makeNode e span) >>= g) s := by
  refine lift_bind fun id s' hr => ?_
  obtain ⟨rfl, htokens, -, -, hsize⟩ := Parser.makeNode_spec hr
  exact h _ s' (by rw [hsize]; exact Nat.lt_succ_self _) htokens

end Agrees

variable {s : ParserState} {n m : Nat} {expr : Parser NodeId} {receiver left : NodeId}

/-! ## Variables -/

theorem agrees_namesToBar (h : s.tokens.length < n) : Agrees (Parser.namesToBar n) namesToBar s := by
  induction n generalizing s with
  | zero => omega
  | succ n ih =>
    rw [namesToBar.eq_def]
    refine .check_bind fun b _ => ?_
    have hle := Parser.length_skipped s
    cases b with
    | true => exact .lift_bind fun _ _ _ => .pure _ _
    | false =>
      refine .lift_bind fun name t hr => ?_
      have := Parser.takes_identifier _ _ _ _ hr
      exact .bind (ih (by omega)) fun _ _ _ => .pure _ _

theorem agrees_variableList (h : s.tokens.length < n) : Agrees (Parser.variableList n) variableList s := by
  refine .peek_bind ?_
  have hle := Parser.length_skipped s
  split
  · exact .lift_bind fun _ _ _ => .pure _ _
  · refine .lift_bind fun _ t hr => ?_
    have := Parser.takes_expect _ _ _ _ hr
    exact agrees_namesToBar (by omega)

theorem agrees_optionalVariables (h : s.tokens.length < n) : Agrees (Parser.optionalVariables n) optionalVariables s := by
  refine .lift_bind fun b t hr => ?_
  have := (Parser.takes_peek.before fun _ => Takes.pure _) _ _ _ hr
  cases b with
  | true => exact agrees_variableList (by omega)
  | false => exact .pure _ _

theorem agrees_blockParams (h : s.tokens.length < n) : Agrees (Parser.blockParams n) blockParams s := by
  induction n generalizing s with
  | zero => omega
  | succ n ih =>
    rw [blockParams.eq_def]
    refine .peek_bind ?_
    have hle := Parser.length_skipped s
    cases hk : s.skipped.headKind with
    | argument name =>
      refine .advance_bind (by simp [Parser.skipped_skipped, hk]) fun t s' hkind _ hlt => ?_
      rw [Parser.skipped_skipped, hk] at hkind
      rw [hkind]
      exact .bind (ih (by omega)) fun _ _ _ => .pure _ _
    | _ => exact .pure _ _

theorem agrees_paramsEnd (h : s.tokens.length < n) : Agrees (Parser.paramsEnd n) paramsEnd s := by
  refine .peek_bind ?_
  have hle := Parser.length_skipped s
  split
  · exact .advance_bind_le fun _ s' _ hle' => agrees_namesToBar (by omega)
  · exact .lift_bind fun _ _ _ => .pure _ _

/-- What closes the parameters of a block, if it has any, and its temporaries. -/
def blockTemps (params : List Declaration) : Unbounded (List Declaration) := do
  let early ← if params.isEmpty then pure [] else paramsEnd
  if early.isEmpty then optionalVariables else pure early

theorem block_eq : block = (do
    let opening ← Parser.expect .leftBracket
    let params ← blockParams
    let temps ← blockTemps params
    let body ← statements
    let closing ← Parser.expect .rightBracket
    Parser.makeNode (.block params temps body) (opening.span.merge closing.span)) := by
  rw [block.eq_def]
  unfold blockTemps
  refine bind_congr fun opening => bind_congr fun params => ?_
  cases params.isEmpty with
  | true => simp
  | false =>
    simp only [bind_assoc, Bool.false_eq_true, if_false]
    refine bind_congr fun early => ?_
    cases early.isEmpty with
    | true => simp
    | false => simp

theorem agrees_blockTemps (h : s.tokens.length < n) (params : List Declaration) :
    Agrees (Parser.blockTemps n params) (blockTemps params) s := by
  have hrest : ∀ (early : List Declaration) (t : ParserState), t.tokens.length ≤ s.tokens.length →
      Agrees (if early.isEmpty then Parser.optionalVariables n else pure early)
        (if early.isEmpty then optionalVariables else pure early) t := by
    intro early t hle
    cases early.isEmpty with
    | true => exact agrees_optionalVariables (by omega)
    | false => exact .pure _ _
  unfold Parser.blockTemps blockTemps
  cases params.isEmpty with
  | true => exact .bind (.pure _ _) fun early t hr => hrest early t (Nat.le_of_eq (by rw [(Runs.pure_iff.1 hr).2]))
  | false => exact .bind (agrees_paramsEnd h) fun early t hr => hrest early t (Parser.takes_paramsEnd _ _ _ _ hr)

/-! ## Messages -/

theorem agrees_unaryMessages (h : s.tokens.length < n) (hid : receiver.index < s.arena.size) :
    Agrees (Parser.unaryMessages n receiver) (unaryMessages receiver) s := by
  induction n generalizing s receiver with
  | zero => omega
  | succ n ih =>
    rw [unaryMessages.eq_def]
    refine .peek_bind ?_
    have hle := Parser.length_skipped s
    cases hk : s.skipped.headKind with
    | identifier selector =>
      refine .advance_bind (by simp [Parser.skipped_skipped, hk]) fun t s' hkind harena hlt => ?_
      rw [Parser.skipped_skipped, hk] at hkind
      rw [hkind]
      refine .spanOf_bind (by rw [harena]; exact hid) (.makeNode_bind fun id s'' hid htokens => ?_)
      exact ih (by rw [htokens]; omega) hid
    | _ => exact .pure _ _

/-- The parser that productions are given for a whole expression, as far as it goes. -/
structure Ties (n : Nat) (expr : Parser NodeId) : Prop where
  agrees {s : ParserState} (h : s.tokens.length < n) : Agrees expr expression s
  takes : Takes 1 expr
  makes : Makes (fun _ => True) expr (.one .operand)

namespace Ties

/-! ## Primaries -/

theorem statement (ht : Ties n expr) (h : s.tokens.length < n) : Agrees (Parser.statement expr) statement s := by
  rw [Unbounded.statement.eq_def]
  refine .check_bind fun b _ => ?_
  have hle := Parser.length_skipped s
  cases b with
  | true =>
    refine .advance_bind_le fun caret t _ hle' => .bind (ht.agrees (by omega)) fun value t' hr => ?_
    exact .spanOf_bind (ht.makes.there hr) (.lift _ _)
  | false => exact ht.agrees (by omega)

/-- A statement takes a token, and so the statements after it are fewer tokens. -/
theorem statementFirst (ht : Ties n expr) (h : s.tokens.length < n) (hm : s.tokens.length < m + 1)
    (hstatements : ∀ {t : ParserState}, t.tokens.length < n → t.tokens.length < m → Agrees (Parser.statements expr m) statements t) :
    Agrees (do
      let first ← Parser.statement expr
      match ← Parser.peek with
      | .mark .dot | .mark .rightBracket => return first :: (← Parser.statements expr m)
      | _ => throw ((← Parser.advance).unexpected .statementEnd)) (do
      let first ← Unbounded.statement
      match ← Parser.peek with
      | .mark .dot | .mark .rightBracket => return first :: (← Unbounded.statements)
      | _ => throw (.fault ((← Parser.advance).unexpected .statementEnd))) s := by
  refine .bind (ht.statement h) fun first t hr => .peek_bind ?_
  have := Parser.takes_statement ht.takes _ _ _ hr
  have := Parser.length_skipped t
  have hmore : Agrees (do return first :: (← Parser.statements expr m)) (do return first :: (← Unbounded.statements)) t.skipped :=
    .bind (hstatements (by omega) (by omega)) fun _ _ _ => .pure _ _
  have hstop : Agrees (do throw ((← Parser.advance).unexpected .statementEnd) : Parser (List NodeId))
      (do throw (.fault ((← Parser.advance).unexpected .statementEnd))) t.skipped := .lift_bind fun _ _ _ => .throw _ _
  cases t.skipped.headKind with
  | mark mk =>
    cases mk with
    | dot | rightBracket => exact hmore
    | _ => exact hstop
  | _ => exact hstop

theorem statements (ht : Ties n expr) (h : s.tokens.length < n) (hm : s.tokens.length < m) :
    Agrees (Parser.statements expr m) statements s := by
  induction m generalizing s with
  | zero => omega
  | succ m ih =>
    rw [Unbounded.statements.eq_def]
    refine .peek_bind ?_
    have hle := Parser.length_skipped s
    cases hk : s.skipped.headKind with
    | mark mk =>
      cases mk with
      | dot =>
        refine .advance_bind (by simp [Parser.skipped_skipped, hk]) fun _ s' _ _ hlt => ?_
        exact ih (by omega) (by omega)
      | rightBracket => exact .pure _ _
      | _ => exact ht.statementFirst (by omega) (by omega) ih
    | _ => exact ht.statementFirst (by omega) (by omega) ih

theorem block (ht : Ties n expr) (h : s.tokens.length < n + 1) : Agrees (Parser.block (n + 1) expr) block s := by
  rw [Parser.block_eq, block_eq]
  refine .lift_bind fun opening t hr => ?_
  have := Parser.takes_expect _ _ _ _ hr
  refine .bind (agrees_blockParams (by omega)) fun params t₁ hr₁ => ?_
  have := Parser.takes_blockParams _ _ _ _ hr₁
  refine .bind (agrees_blockTemps (by omega) params) fun temps t₂ hr₂ => ?_
  have := Parser.takes_blockTemps _ _ _ _ _ hr₂
  exact .bind (ht.statements (by omega) (by omega)) fun _ _ _ => .lift_bind fun _ _ _ => .lift _ _

theorem elements (ht : Ties n expr) (h : s.tokens.length < n) (hm : s.tokens.length < m) :
    Agrees (Parser.elements expr m) elements s := by
  induction m generalizing s with
  | zero => omega
  | succ m ih =>
    rw [Unbounded.elements.eq_def]
    refine .check_bind fun b _ => ?_
    have hle := Parser.length_skipped s
    cases b with
    | true => exact .pure _ _
    | false =>
      refine .bind (ht.agrees (by omega)) fun first t hr => .check_bind fun b _ => ?_
      have := ht.takes _ _ _ hr
      have := Parser.length_skipped t
      cases b with
      | true =>
        refine .advance_bind_le fun _ t' _ hle' => ?_
        exact .bind (ih (by omega) (by omega)) fun _ _ _ => .pure _ _
      | false => exact .pure _ _

theorem array (ht : Ties n expr) (h : s.tokens.length < n + 1) : Agrees (Parser.array (n + 1) expr) array s := by
  rw [Unbounded.array.eq_def]
  refine .lift_bind fun opening t hr => ?_
  have := Parser.takes_expect _ _ _ _ hr
  exact .bind (ht.elements (by omega) (by omega)) fun _ _ _ => .lift_bind fun _ _ _ => .lift _ _

theorem paren (ht : Ties n expr) (h : s.tokens.length < n + 1) (hk : s.skipped.headKind = .mark .leftParen) :
    Agrees (Parser.paren expr) paren s := by
  rw [Unbounded.paren.eq_def]
  refine .advance_bind (by simp [hk]) fun opening t _ _ hlt => ?_
  exact .bind (ht.agrees (by omega)) fun _ _ _ => .lift_bind fun _ _ _ => .lift _ _

theorem atom (s : ParserState) : Agrees (do
    let t ← Parser.advance
    match Parser.atom? t.kind with
    | some atom => Parser.makeNode atom t.span
    | none => throw (t.unexpected .expression)) (do
    let t ← Parser.advance
    match Parser.atom? t.kind with
    | some atom => Parser.makeNode atom t.span
    | none => throw (.fault (t.unexpected .expression))) s := by
  refine .lift_bind fun t _ _ => ?_
  cases Parser.atom? t.kind with
  | some atom => exact .lift _ _
  | none => exact .throw _ _

theorem primary (ht : Ties n expr) (h : s.tokens.length < n + 1) : Agrees (Parser.primary (n + 1) expr) primary s := by
  rw [Unbounded.primary.eq_def]
  refine .peek_bind ?_
  have hle := Parser.length_skipped s
  cases hk : s.skipped.headKind with
  | mark mk =>
    cases mk with
    | leftBracket => exact ht.block (by omega)
    | hashParen => exact ht.array (by omega)
    | leftParen => exact ht.paren (by omega) (by rw [Parser.skipped_skipped, hk])
    | _ => exact atom _
  | _ => exact atom _

/-! ## Expressions -/

theorem makes_unaryLevel (ht : Ties n expr) : Makes (fun _ => True) (Parser.unaryLevel (n + 1) expr) (.one .operand) :=
  Parser.makes_unaryLevel Parser.receivers_trivial ht.makes

theorem makes_binaryLevel (ht : Ties n expr) : Makes (fun _ => True) (Parser.binaryLevel (n + 1) expr) (.one .operand) :=
  Parser.makes_binaryLevel Parser.receivers_trivial ht.makes

theorem unaryLevel (ht : Ties n expr) (h : s.tokens.length < n + 1) : Agrees (Parser.unaryLevel (n + 1) expr) unaryLevel s := by
  rw [Unbounded.unaryLevel.eq_def]
  refine .bind (ht.primary h) fun receiver t hr => ?_
  have := Parser.takes_primary ht.takes _ _ _ _ hr
  exact agrees_unaryMessages (by omega) ((Parser.makes_primary Parser.receivers_trivial ht.makes).there hr)

theorem binaryMessages (ht : Ties n expr) (h : s.tokens.length < n + 1) (hm : s.tokens.length < m) (least : Nat)
    (hid : left.index < s.arena.size) :
    Agrees (Parser.binaryMessages (Parser.unaryLevel (n + 1) expr) m least left) (binaryMessages least left) s := by
  have hextends := Parser.extends_binaryMessages ht.makes_unaryLevel
  induction m generalizing s least left with
  | zero => omega
  | succ m ih =>
    rw [Unbounded.binaryMessages.eq_def]
    refine .peek_bind ?_
    have hle := Parser.length_skipped s
    cases hk : s.skipped.headKind with
    | operator selector =>
      simp only
      split
      · exact .pure _ _
      · refine .advance_bind (by simp [Parser.skipped_skipped, hk]) fun _ t₁ _ harena hlt => ?_
        refine .bind (ht.unaryLevel (by omega)) fun right t₂ hr₂ => ?_
        have := Parser.takes_unaryLevel ht.takes _ _ _ _ hr₂
        have := ht.makes_unaryLevel.size_le hr₂
        refine .bind (ih (by omega) (by omega) _ (ht.makes_unaryLevel.there hr₂)) fun right' t₃ hr₃ => ?_
        have := Parser.takes_binaryMessages ((Parser.takes_unaryLevel ht.takes (n + 1)).mono (Nat.zero_le _)) _ _ _ _ _ _ hr₃
        have := (hextends _ _).size_le hr₃
        have hleft : left.index < t₁.arena.size := by rw [harena]; exact hid
        refine .spanAcross_bind (by omega) ((hextends _ _).there hr₃ (ht.makes_unaryLevel.there hr₂)) fun _ => ?_
        exact .makeNode_bind fun id t₄ hid' htokens => ih (by rw [htokens]; omega) (by rw [htokens]; omega) least hid'
    | _ => exact .pure _ _

theorem binaryLevel (ht : Ties n expr) (h : s.tokens.length < n + 1) : Agrees (Parser.binaryLevel (n + 1) expr) binaryLevel s := by
  rw [Unbounded.binaryLevel.eq_def]
  refine .bind (ht.unaryLevel h) fun left t hr => ?_
  have := Parser.takes_unaryLevel ht.takes _ _ _ _ hr
  exact ht.binaryMessages (by omega) (by omega) 0 (ht.makes_unaryLevel.there hr)

theorem keywordParts (ht : Ties n expr) (h : s.tokens.length < n + 1) (hm : s.tokens.length < m) :
    Agrees (Parser.keywordParts (Parser.binaryLevel (n + 1) expr) m) keywordParts s := by
  induction m generalizing s with
  | zero => omega
  | succ m ih =>
    rw [Unbounded.keywordParts.eq_def]
    refine .peek_bind ?_
    have hle := Parser.length_skipped s
    cases hk : s.skipped.headKind with
    | keyword part =>
      refine .advance_bind (by simp [Parser.skipped_skipped, hk]) fun _ t₁ _ _ hlt => ?_
      refine .bind (ht.binaryLevel (by omega)) fun arg t₂ hr₂ => ?_
      have := Parser.takes_binaryLevel ht.takes _ _ _ _ hr₂
      exact .bind (ih (by omega) (by omega)) fun _ _ _ => .pure _ _
    | _ => exact .pure _ _

/-- The last of some nodes, or one from before, is there if all are. -/
theorem last_there {ids : List NodeId} {id : NodeId} {size : Nat} (hid : id.index < size) (hids : ∀ x ∈ ids, x.index < size) :
    (ids.getLast?.getD id).index < size := by
  cases hlast : ids.getLast? with
  | none => exact hid
  | some x => exact hids x (List.mem_of_getLast? hlast)

theorem optionalKeywordMessage (ht : Ties n expr) (h : s.tokens.length < n + 1) (hid : receiver.index < s.arena.size) :
    Agrees (Parser.optionalKeywordMessage (n + 1) (Parser.binaryLevel (n + 1) expr) receiver) (optionalKeywordMessage receiver) s := by
  have hmakes := Parser.makes_keywordParts ht.makes_binaryLevel (n + 1)
  rw [Unbounded.optionalKeywordMessage.eq_def]
  refine .peek_bind ?_
  have hle := Parser.length_skipped s
  cases hk : s.skipped.headKind with
  | keyword part =>
    rw [Unbounded.keywordMessage.eq_def]
    refine .spanOf_bind hid (.bind (ht.keywordParts (by omega) (by omega)) fun parts t hr => ?_)
    obtain ⟨hleads, hfills⟩ := hmakes _ _ _ hr
    have hsize : receiver.index < t.arena.size := Nat.lt_of_lt_of_le hid hleads.arena.size
    have hspan : s.skipped.arena.span receiver = t.arena.span receiver := (hleads.arena.span hid).symm
    rw [hspan]
    -- The receiver still stands where it stood before the arguments were read.
    refine .spanOf_bind (last_there hsize fun x hx => (hfills.row_mem hx).2) ?_
    exact .lift _ _
  | _ => exact .pure _ _

theorem keywordLevel (ht : Ties n expr) (h : s.tokens.length < n + 1) :
    Agrees (Parser.keywordLevel (n + 1) expr) keywordLevel s := by
  rw [Unbounded.keywordLevel.eq_def]
  refine .bind (ht.binaryLevel h) fun receiver t hr => ?_
  have := Parser.takes_binaryLevel ht.takes _ _ _ _ hr
  exact ht.optionalKeywordMessage (by omega) (ht.makes_binaryLevel.there hr)

theorem cascadeMessage (ht : Ties n expr) (h : s.tokens.length < n + 1) (hid : receiver.index < s.arena.size) :
    Agrees (Parser.cascadeMessage (n + 1) expr receiver) (cascadeMessage receiver) s := by
  have hextends := Parser.extends_binaryMessages ht.makes_unaryLevel (n + 1) 0
  have htakes := Parser.takes_binaryMessages ((Parser.takes_unaryLevel ht.takes (n + 1)).mono (Nat.zero_le _)) (n + 1) 0
  -- Operators after what has been read of the message, and then keywords.
  have hrest : ∀ {t : ParserState} {left : NodeId}, t.tokens.length < n + 1 → left.index < t.arena.size → Agrees (do
      let result ← Parser.binaryMessages (Parser.unaryLevel (n + 1) expr) (n + 1) 0 left
      Parser.optionalKeywordMessage (n + 1) (Parser.binaryLevel (n + 1) expr) result) (do
      let result ← Unbounded.binaryMessages 0 left
      Unbounded.optionalKeywordMessage result) t := by
    intro t left hlt hleft
    refine .bind (ht.binaryMessages hlt hlt 0 hleft) fun result t' hr => ?_
    have := htakes _ _ _ _ hr
    exact ht.optionalKeywordMessage (by omega) (hextends.there hr hleft)
  rw [Unbounded.cascadeMessage.eq_def]
  refine .peek_bind ?_
  have hle := Parser.length_skipped s
  cases hk : s.skipped.headKind with
  | identifier name =>
    refine .bind (agrees_unaryMessages (by omega) hid) fun inner t hr => ?_
    have := Parser.takes_unaryMessages _ _ _ _ _ hr
    exact hrest (by omega) ((Parser.extends_unaryMessages (n + 1)).there hr hid)
  | operator name => exact hrest (by omega) hid
  | keyword part => exact ht.optionalKeywordMessage (by omega) hid
  | _ => exact .lift_bind fun _ _ _ => .throw _ _

theorem cascadeMessages (ht : Ties n expr) (h : s.tokens.length < n + 1) (hm : s.tokens.length < m)
    (hid : receiver.index < s.arena.size) :
    Agrees (Parser.cascadeMessages (Parser.cascadeMessage (n + 1) expr receiver) m) (cascadeMessages receiver) s := by
  have hmakes : Parser.Makes _ (Parser.cascadeMessage (n + 1) expr receiver) (.one (.message receiver)) :=
    Parser.makes_cascadeMessage Parser.receivers_trivial ht.makes
  induction m generalizing s with
  | zero => omega
  | succ m ih =>
    rw [Unbounded.cascadeMessages.eq_def]
    refine .check_bind fun b hb => ?_
    have hle := Parser.length_skipped s
    cases b with
    | true =>
      have hk := of_decide_eq_true hb.symm
      refine .advance_bind (by simp [Parser.skipped_skipped, hk]) fun _ t₁ _ harena hlt => ?_
      have hid₁ : receiver.index < t₁.arena.size := by rw [harena]; exact hid
      refine .bind (ht.cascadeMessage (by omega) hid₁) fun message t₂ hr₂ => ?_
      have := Parser.takes_cascadeMessage ht.takes _ _ _ _ _ hr₂
      have := hmakes.size_le hr₂
      exact .bind (ih (by omega) (by omega) (by omega)) fun _ _ _ => .pure _ _
    | false => exact .pure _ _

theorem cascadeLevel (ht : Ties n expr) (h : s.tokens.length < n + 1) :
    Agrees (Parser.cascadeLevel (n + 1) expr) cascadeLevel s := by
  have hkeyword : Parser.Makes _ (Parser.keywordLevel (n + 1) expr) (.one .operand) :=
    Parser.makes_keywordLevel Parser.receivers_trivial ht.makes
  rw [Unbounded.cascadeLevel.eq_def]
  refine .bind (ht.keywordLevel h) fun first t hr => .check_bind fun b _ => ?_
  have := Parser.takes_keywordLevel ht.takes _ _ _ _ hr
  have hle := Parser.length_skipped t
  have hfirst : first.index < t.arena.size := hkeyword.there hr
  cases b with
  | true =>
    refine .get_bind (.nodeAt_bind hfirst fun node hnode => ?_)
    have hexpr : t.skipped.arena.expr? first = some node.expr := by rw [Arena.expr?, hnode]; rfl
    rw [hexpr]
    cases he : node.expr with
    | send receiver selector args =>
      rw [he] at hexpr
      -- The receiver was made as a part of the first message.
      obtain ⟨mid, hreceiver, hargs⟩ := (hkeyword _ _ _ hr).2.of_send hexpr
      have hid : receiver.index < t.skipped.arena.size := by
        have := hreceiver.last
        have := hargs.le
        change receiver.index < t.arena.size
        omega
      have hmessage : Parser.Makes _ (Parser.cascadeMessage (n + 1) expr receiver) (.one (.message receiver)) :=
        Parser.makes_cascadeMessage Parser.receivers_trivial ht.makes
      have hmakes := Parser.makes_cascadeMessages hmessage (n + 1)
      refine .bind (ht.cascadeMessages (by omega) (by omega) hid) fun others t' hr' => ?_
      obtain ⟨hleads, hfills⟩ := hmakes _ _ _ hr'
      have hsize := hleads.arena.size
      have hlast : (others.getLast?.getD first).index < t'.arena.size :=
        last_there (Nat.lt_of_lt_of_le hfirst hsize) fun x hx => (hfills.row_mem hx).2
      exact .spanAcross_bind (Nat.lt_of_lt_of_le hid hsize) hlast fun _ => .lift _ _
    | _ => exact .spanOf_bind hfirst (.throw _ _)
  | false => exact .pure _ _

theorem assignmentTail (ht : Ties n expr) (h : s.tokens.length < n) {target : NodeId} (hid : target.index < s.arena.size) :
    Agrees (Parser.assignmentTail expr target) (assignmentTail target) s := by
  rw [Unbounded.assignmentTail.eq_def]
  refine .check_bind fun b _ => ?_
  have hle := Parser.length_skipped s
  cases b with
  | true =>
    refine .advance_bind_le fun mark t harena hle' => .get_bind ?_
    have hid' : target.index < t.arena.size := by rw [harena]; exact hid
    refine .nodeAt_bind hid' fun node hnode => ?_
    have hexpr : t.arena.expr? target = some node.expr := by rw [Arena.expr?, hnode]; rfl
    rw [hexpr]
    cases node.expr with
    | ident name =>
      refine .bind (ht.agrees (by omega)) fun value t' hr => ?_
      have := ht.makes.size_le hr
      exact .spanAcross_bind (by omega) (ht.makes.there hr) fun _ => .lift _ _
    | _ => exact .spanOf_bind hid' (.throw _ _)
  | false => exact .pure _ _

/-- A bound that exceeds the number of tokens left is as good as none. -/
theorem expressionWithin (n : Nat) : Ties n (Parser.expressionWithin n) := by
  induction n with
  | zero => exact ⟨fun h => by omega, Parser.takes_expressionWithin 0, Parser.makes_expressionWithin Parser.receivers_trivial 0⟩
  | succ n ih =>
    refine ⟨fun {s} h => ?_, Parser.takes_expressionWithin _, Parser.makes_expressionWithin Parser.receivers_trivial _⟩
    rw [expression.eq_def]
    refine .bind (ih.cascadeLevel h) fun left t hr => ?_
    have := Parser.takes_cascadeLevel ih.takes _ _ _ _ hr
    exact ih.assignmentTail (by omega) ((Parser.makes_cascadeLevel Parser.receivers_trivial ih.makes).there hr)

end Ties

/-! ## Methods and classes -/

theorem agrees_expression (s : ParserState) : Agrees Parser.expression expression s :=
  .remaining_bind ((Ties.expressionWithin (s.tokens.length + 1)).agrees (Nat.lt_succ_self _))

theorem ties_expression (n : Nat) : Ties n Parser.expression where
  agrees {s} _ := agrees_expression s
  takes := Parser.takes_expression
  makes := fun s _ _ hr => by
    obtain ⟨bound, t, h, hr⟩ := Runs.bind_iff.1 hr
    obtain ⟨hleads, harena⟩ := Parser.Quiet.remaining _ _ _ h
    obtain ⟨hleads', hfills⟩ := Parser.makes_expressionWithin Parser.receivers_trivial bound _ _ _ hr
    rw [harena] at hfills
    exact ⟨hleads.trans hleads', hfills⟩

theorem agrees_statement (s : ParserState) : Agrees (Parser.statement Parser.expression) statement s :=
  (ties_expression (s.tokens.length + 1)).statement (Nat.lt_succ_self _)

theorem agrees_methodBody (classSide : Bool) (selector : String) (params : List Declaration) (start : Span) (s : ParserState) :
    Agrees (Parser.methodBody classSide selector params start) (methodBody classSide selector params start) s := by
  refine .lift_bind fun _ t _ => .remaining_bind (.bind (agrees_optionalVariables (Nat.lt_succ_self _)) fun temps t' hr => ?_)
  have := Parser.takes_optionalVariables _ _ _ _ hr
  refine .bind ((Ties.expressionWithin _).statements (by omega) (by omega)) fun body _ _ => ?_
  exact .lift_bind fun _ _ _ => .pure _ _

theorem agrees_patternParts (h : s.tokens.length < n) : Agrees (Parser.patternParts n) patternParts s := by
  induction n generalizing s with
  | zero => omega
  | succ n ih =>
    rw [patternParts.eq_def]
    refine .peek_bind ?_
    have hle := Parser.length_skipped s
    cases hk : s.skipped.headKind with
    | keyword part =>
      refine .advance_bind_le fun _ t _ hle' => .lift_bind fun param t' hr => ?_
      have := Parser.takes_identifier _ _ _ _ hr
      exact .bind (ih (by omega)) fun _ _ _ => .pure _ _
    | _ => exact .pure _ _

theorem agrees_pattern (s : ParserState) : Agrees Parser.pattern pattern s := by
  refine .lift_bind fun t s' _ => ?_
  cases t.kind with
  | identifier name => exact .pure _ _
  | operator name => exact .lift_bind fun _ _ _ => .pure _ _
  | keyword part =>
    refine .lift_bind fun first s'' _ => .remaining_bind (.bind (agrees_patternParts (Nat.lt_succ_self _)) fun _ _ _ => ?_)
    exact .pure _ _
  | _ => exact .throw _ _

theorem agrees_method (classSide : Bool) (start : Span) (s : ParserState) :
    Agrees (Parser.method classSide start) (method classSide start) s :=
  .bind (agrees_pattern s) fun _ t _ => agrees_methodBody _ _ _ _ t

theorem agrees_classSideItem (items : Parser.ClassItems) (s : ParserState) :
    Agrees (Parser.classSideItem items) (classSideItem items) s := by
  refine .lift_bind fun word t _ => .peek_bind ?_
  have hother : ∀ kind : TokenKind, Agrees (do
      if kind = Parser.doubleBar then
        let _ ← Parser.advance
        return items
      else
        let m ← Parser.method true word.span
        return { items with classMethods := items.classMethods ++ [m] }) (do
      if kind = Parser.doubleBar then
        let _ ← Parser.advance
        return items
      else
        let m ← method true word.span
        return { items with classMethods := items.classMethods ++ [m] }) t.skipped := by
    intro kind
    split
    · exact .lift_bind fun _ _ _ => .pure _ _
    · exact .bind (agrees_method _ _ _) fun _ _ _ => .pure _ _
  cases hk : t.skipped.headKind with
  | mark mk =>
    cases mk with
    | bar => exact .remaining_bind (.bind (agrees_variableList (Nat.lt_succ_self _)) fun _ _ _ => .pure _ _)
    | leftBracket => exact .bind (agrees_methodBody _ _ _ _ _) fun _ _ _ => .pure _ _
    | _ => exact hother _
  | _ => exact hother _

theorem agrees_classItems (h : s.tokens.length < n) (items : Parser.ClassItems) :
    Agrees (Parser.classItems n items) (classItems items) s := by
  induction n generalizing s items with
  | zero => omega
  | succ n ih =>
    rw [classItems.eq_def]
    refine .peek_bind ?_
    have hle := Parser.length_skipped s
    split
    · exact .pure _ _
    split
    · refine .remaining_bind (.bind (agrees_variableList (Nat.lt_succ_self _)) fun vars t hr => ?_)
      have := Parser.takes_variableList _ _ _ _ hr
      exact ih (by omega) _
    split
    · refine .bind (agrees_classSideItem items _) fun items' t hr => ?_
      have := Parser.takes_classSideItem _ _ _ _ hr
      exact ih (by omega) _
    · refine .lift_bind fun start t hr => .bind (agrees_method _ _ _) fun m t' hr' => ?_
      have := Parser.takes_peekSpan _ _ _ hr
      have := Parser.takes_method _ _ _ _ _ hr'
      exact ih (by omega) _

theorem agrees_classDefinition (s : ParserState) : Agrees Parser.classDefinition classDefinition s := by
  refine .lift_bind fun _ _ _ => ?_
  refine .lift_bind fun _ _ _ => ?_
  refine .lift_bind fun _ _ _ => .remaining_bind ?_
  refine .bind (agrees_classItems (Nat.lt_succ_self _) _) fun _ _ _ => ?_
  exact .lift_bind fun _ _ _ => .pure _ _

/-! ## Programs -/

theorem agrees_classes (h : s.tokens.length < n) : Agrees (Parser.classes n) classes s := by
  induction n generalizing s with
  | zero => omega
  | succ n ih =>
    rw [classes.eq_def]
    refine .peek_bind ?_
    have hle := Parser.length_skipped s
    cases s.skipped.headKind.isEnd with
    | true => exact .pure _ _
    | false =>
      refine .bind (agrees_classDefinition _) fun c t hr => ?_
      have := Parser.takes_classDefinition _ _ _ hr
      exact .bind (ih (by omega)) fun _ _ _ => .pure _ _

theorem agrees_nextClass (s : ParserState) : Agrees Parser.nextClass nextClass s := by
  have hclass (s : ParserState) : Agrees (some <$> Parser.classDefinition) (some <$> classDefinition) s := by
    rw [map_eq_pure_bind, map_eq_pure_bind]
    exact .bind (agrees_classDefinition s) fun _ _ _ => .pure _ _
  refine .get_bind_both ?_
  cases s.atEnd with
  | true => exact .pure _ _
  | false =>
    refine .peek_bind ?_
    cases s.skipped.headKind.isEnd with
    | true => rfl
    | false => exact .tryCatch (hclass _) fun _ _ => rfl

theorem ofTokens_eq (tokens : List Token) : ofTokens tokens = some ((Program.ofTokens tokens).mapError .fault) := by
  have h : Agrees (do Parser.classes (← Parser.remaining)) classes (.start tokens) :=
    .remaining_bind (agrees_classes (Nat.lt_succ_self _))
  unfold ofTokens Program.ofTokens
  rw [h]
  rcases Parser.runFrom (do Parser.classes (← Parser.remaining)) (.start tokens) with ⟨r, s⟩
  cases r <;> rfl

end Unbounded

/-- Whatever the tokens, and wherever a parser stands among them, parsing ends without a bound, with the outcome that the bounded
parsers give: a result, or an error that tells of the tokens, but never a token other than the one looked at or a
node that is not there. Success takes a token. -/
theorem parsing_ends :
    (∀ tokens, Unbounded.ofTokens tokens = some ((Program.ofTokens tokens).mapError .fault)) ∧
    ∀ s : ParserState,
      Unbounded.expression.runFrom s = some (Unbounded.outcome (Parser.expression.runFrom s)) ∧
      Unbounded.classDefinition.runFrom s = some (Unbounded.outcome (Parser.classDefinition.runFrom s)) ∧
      Unbounded.nextClass.runFrom s = some (Unbounded.outcome (Parser.nextClass.runFrom s)) ∧
      Unbounded.statement.runFrom s = some (Unbounded.outcome ((Parser.statement Parser.expression).runFrom s)) ∧
      (∀ id s', Parser.expression.runFrom s = (.ok id, s') → s'.tokens.length < s.tokens.length) ∧
      (∀ c s', Parser.classDefinition.runFrom s = (.ok c, s') → s'.tokens.length < s.tokens.length) ∧
      ∀ id s', (Parser.statement Parser.expression).runFrom s = (.ok id, s') → s'.tokens.length < s.tokens.length :=
  ⟨Unbounded.ofTokens_eq, fun s => ⟨Unbounded.agrees_expression s, Unbounded.agrees_classDefinition s,
    Unbounded.agrees_nextClass s, Unbounded.agrees_statement s, Parser.takes_expression s, Parser.takes_classDefinition s,
    Parser.takes_statement Parser.takes_expression s⟩⟩

end BlockScope
