import BlockScope.Proofs.Program.Forest
import BlockScope.Proofs.Runs
import BlockScope.Program.Grammar.Definition
/-!
# What reading tokens leaves alone

Productions either read tokens only, and are `Quiet`, or they also make nodes. Both keep the nodes made so
far, and every name that gets into the arena comes from a token or is one of the two receivers: `Leads P`
carries any property `P` of names along. It also carries along how the messages of a cascade begin.
-/
namespace BlockScope
open BlockScope.Parser

/-- Every name still to be read and every name in the arena has the property. -/
structure ParserState.Named (P : String → Prop) (s : ParserState) : Prop where
  tokens : ∀ t ∈ s.tokens, ∀ name, t.kind = .identifier name → P name
  nodes : ∀ id name, s.arena.expr? id = some (.ident name) → P name

/-- Messages as of a cascade: the first is sent to the receiver itself, and there is one more at least. -/
def Arena.Heads (a : Arena) (receiver : NodeId) : List NodeId → Prop
  | first :: _ :: _ => ∃ selector args, a.expr? first = some (.send receiver selector args)
  | _ => False

/-- The messages of every cascade are such. -/
def Arena.Cascading (a : Arena) : Prop :=
  ∀ d receiver messages, a.expr? d = some (.cascade receiver messages) → a.Heads receiver messages

/-- Nodes stay where they are, names keep the property, and cascades stay as they should be. -/
structure ParserState.Leads (P : String → Prop) (s s' : ParserState) : Prop where
  arena : s.arena.Before s'.arena
  named : s.Named P → s'.Named P
  cascades : s.arena.Cascading → s'.arena.Cascading

/-- Reads tokens and makes no node. -/
def Parser.Quiet (P : String → Prop) {α : Type} (p : Parser α) : Prop :=
  ∀ s x s', Runs p s x s' → s.Leads P s' ∧ s'.arena = s.arena

/-- Makes the nodes of a piece, one after the other. -/
def Parser.Makes (P : String → Prop) {α : Type} (p : Parser α) (piece : α → Piece) : Prop :=
  ∀ s x s', Runs p s x s' → s.Leads P s' ∧ s'.arena.Fills (piece x) s.arena.size s'.arena.size

theorem Arena.Heads.mono {a b : Arena} {receiver : NodeId} {messages : List NodeId} (h : a.Heads receiver messages)
    (hab : a.Before b) : b.Heads receiver messages := by
  match messages, h with
  | first :: _ :: _, ⟨selector, args, hfirst⟩ => exact ⟨selector, args, hab.expr hfirst⟩

namespace ParserState
variable {P : String → Prop} {s s' s'' : ParserState}

theorem Leads.refl (P : String → Prop) (s : ParserState) : s.Leads P s := ⟨.refl _, fun h => h, fun h => h⟩

theorem Leads.trans (h : s.Leads P s') (h' : s'.Leads P s'') : s.Leads P s'' :=
  ⟨h.arena.trans h'.arena, fun hn => h'.named (h.named hn), fun hc => h'.cascades (h.cascades hc)⟩

theorem Leads.ofTokens (ha : s'.arena = s.arena) (ht : ∀ t ∈ s'.tokens, t ∈ s.tokens) : s.Leads P s' := by
  refine ⟨ha ▸ .refl _, fun h => ⟨fun t htt => h.tokens t (ht t htt), ?_⟩, ?_⟩
  · rw [ha]
    exact h.nodes
  · rw [ha]
    exact id

/-- The state after leading comments. -/
def skipped (s : ParserState) : ParserState :=
  { s with tokens := (dropComments s.tokens s.lastSpan).1, lastSpan := (dropComments s.tokens s.lastSpan).2 }

/-- The kind of the first token. -/
def headKind (s : ParserState) : TokenKind :=
  match s.tokens with
  | t :: _ => t.kind
  | [] => .endOfInput

/-- The first token; past the last one the end of input, at the span of the last. -/
def front (s : ParserState) : Token :=
  match s.tokens with
  | t :: _ => t
  | [] => ⟨.endOfInput, s.lastSpan, ""⟩

/-- The state after reading the first token. -/
def behind (s : ParserState) : ParserState :=
  match s.tokens with
  | t :: ts => { s with tokens := ts, lastSpan := t.span, atEnd := s.atEnd || t.kind.isEnd }
  | [] => { s with atEnd := true }

theorem kind_front (s : ParserState) : s.front.kind = s.headKind := by
  unfold front headKind
  cases s.tokens with
  | nil => rfl
  | cons t ts => rfl

@[simp] theorem arena_behind (s : ParserState) : s.behind.arena = s.arena := by
  unfold behind
  split <;> rfl

@[simp] theorem tokens_behind (s : ParserState) : s.behind.tokens = s.tokens.tail := by
  unfold behind
  split <;> simp [*]

theorem front_mem_or_end (s : ParserState) : s.front ∈ s.tokens ∨ s.front.kind = .endOfInput := by
  unfold front
  cases s.tokens with
  | nil => exact .inr rfl
  | cons t ts => exact .inl (by simp)

end ParserState

namespace Parser
variable {P : String → Prop} {α β : Type} {s s' : ParserState} {p : Parser α} {f : α → Parser β}

/-! ## Composing quiet steps -/

namespace Quiet

theorem pure (x : α) : Quiet P (pure x : Parser α) := by
  intro s y s' h
  obtain ⟨rfl, rfl⟩ := Runs.pure_iff.1 h
  exact ⟨.refl _ _, rfl⟩

theorem throw (e : ParseError) : Quiet P (throw e : Parser α) := by
  intro s y s' h
  exact absurd h (by simp)

theorem bind (h : Quiet P p) (h' : ∀ x, Quiet P (f x)) : Quiet P (p >>= f) := by
  intro s y s' hr
  obtain ⟨x, t, hp, hf⟩ := Runs.bind_iff.1 hr
  obtain ⟨l, e⟩ := h s x t hp
  obtain ⟨l', e'⟩ := h' x t y s' hf
  exact ⟨l.trans l', e'.trans e⟩

theorem get : Quiet P (get : Parser ParserState) := by
  intro s y s' h
  obtain ⟨rfl, rfl⟩ := Runs.get_iff.1 h
  exact ⟨.refl _ _, rfl⟩

end Quiet

/-! ## Tokens -/

theorem mem_dropComments (ts : List Token) (last : Span) : ∀ t ∈ (dropComments ts last).1, t ∈ ts := by
  induction ts generalizing last with
  | nil => simp [dropComments]
  | cons t ts ih =>
    intro u hu
    unfold dropComments at hu
    split at hu
    · exact List.mem_cons_of_mem _ (ih _ u hu)
    · exact hu

theorem dropComments_dropComments (ts : List Token) (last : Span) :
    dropComments (dropComments ts last).1 (dropComments ts last).2 = dropComments ts last := by
  induction ts generalizing last with
  | nil => rfl
  | cons t ts ih =>
    by_cases h : t.kind.isComment
    · simp only [dropComments, h, if_true, ih]
    · simp [dropComments, h]

theorem skipped_skipped (s : ParserState) : s.skipped.skipped = s.skipped := by
  simp only [ParserState.skipped, dropComments_dropComments]

theorem leads_skipped (s : ParserState) : s.Leads P s.skipped :=
  .ofTokens rfl (mem_dropComments _ _)

theorem skipComments_iff {u : Unit} : Runs skipComments s u s' ↔ s' = s.skipped := by
  unfold skipComments
  exact Runs.modify_iff

theorem skipComments_bind_iff {α : Type} {f : Unit → Parser α} {y : α} :
    Runs (skipComments >>= f) s y s' ↔ Runs (f ()) s.skipped y s' := by
  rw [Runs.bind_iff]
  exact ⟨fun ⟨(), t, hskip, h⟩ => skipComments_iff.1 hskip ▸ h, fun h => ⟨(), _, skipComments_iff.2 rfl, h⟩⟩

theorem peek_iff {k : TokenKind} : Runs peek s k s' ↔ k = s.skipped.headKind ∧ s' = s.skipped := by
  unfold peek ParserState.headKind
  simp only [Runs.bind_iff, skipComments_iff, Runs.get_iff]
  constructor
  · rintro ⟨_, t, rfl, _, _, ⟨rfl, rfl⟩, h⟩
    split at h <;> simp_all
  · rintro ⟨rfl, rfl⟩
    refine ⟨(), _, rfl, _, _, ⟨rfl, rfl⟩, ?_⟩
    cases s.skipped.tokens <;> simp

theorem Quiet.peek : Quiet P peek := by
  intro s k s' h
  obtain ⟨-, rfl⟩ := peek_iff.1 h
  exact ⟨leads_skipped s, rfl⟩

theorem peekSpan_iff {x : Span} : Runs peekSpan s x s' ↔ x = s.skipped.front.span ∧ s' = s.skipped := by
  unfold peekSpan ParserState.front
  simp only [skipComments_bind_iff, Runs.get_bind_iff]
  cases s.skipped.tokens with
  | nil => exact Runs.pure_iff
  | cons t ts => exact Runs.pure_iff

theorem Quiet.peekSpan : Quiet P peekSpan := by
  intro s x s' h
  obtain ⟨-, rfl⟩ := peekSpan_iff.1 h
  exact ⟨leads_skipped s, rfl⟩

theorem advance_iff {t : Token} : Runs advance s t s' ↔ t = s.skipped.front ∧ s' = s.skipped.behind := by
  unfold advance ParserState.front ParserState.behind
  simp only [skipComments_bind_iff, Runs.get_bind_iff]
  cases s.skipped.tokens with
  | nil => simp [and_comm]
  | cons t ts => simp [and_comm]

/-- Reading a token takes it from the front, or finds the end. -/
theorem tokens_advance {t : Token} (h : Runs advance s t s') :
    s'.arena = s.arena ∧ (∀ u ∈ s'.tokens, u ∈ s.tokens) ∧ (t ∈ s.tokens ∨ t.kind = .endOfInput) := by
  obtain ⟨rfl, rfl⟩ := advance_iff.1 h
  have hmem : ∀ u ∈ s.skipped.tokens, u ∈ s.tokens := mem_dropComments _ _
  refine ⟨s.skipped.arena_behind, fun u hu => hmem u (List.mem_of_mem_tail (by simpa using hu)), ?_⟩
  rcases s.skipped.front_mem_or_end with hfront | hkind
  · exact .inl (hmem _ hfront)
  · exact .inr hkind

theorem advance_cases {t : Token} (h : Runs advance s t s') :
    s.Leads P s' ∧ s'.arena = s.arena ∧ (t ∈ s.tokens ∨ t.kind = .endOfInput) := by
  obtain ⟨harena, htokens, ht⟩ := tokens_advance h
  exact ⟨.ofTokens harena htokens, harena, ht⟩

theorem Quiet.advance : Quiet P advance := fun _ _ _ h => ⟨(advance_cases h).1, (advance_cases (P := P) h).2.1⟩

theorem check_iff {m : Mark} {b : Bool} :
    Runs (check m) s b s' ↔ b = decide (s.skipped.headKind = .mark m) ∧ s' = s.skipped := by
  simp only [check, Runs.bind_iff, peek_iff, Runs.pure_iff]
  constructor
  · rintro ⟨_, _, ⟨rfl, rfl⟩, rfl, rfl⟩
    exact ⟨rfl, rfl⟩
  · rintro ⟨rfl, rfl⟩
    exact ⟨_, _, ⟨rfl, rfl⟩, rfl, rfl⟩

theorem Quiet.check (m : Mark) : Quiet P (check m) := Quiet.peek.bind fun _ => .pure _

theorem Quiet.expect (m : Mark) : Quiet P (expect m) := by
  apply Quiet.advance.bind
  intro t
  split
  · exact .pure _
  · exact .throw _

theorem Quiet.identifier (due : Expectation) : Quiet P (identifier due) := by
  apply Quiet.advance.bind
  intro t
  split
  · exact .pure _
  · exact .throw _

theorem Quiet.remaining : Quiet P remaining := Quiet.get.bind fun _ => .pure _

theorem Quiet.spanOf (id : NodeId) : Quiet P (spanOf id) := Quiet.get.bind fun _ => .pure _

theorem Quiet.spanAcross (first last : NodeId) : Quiet P (spanAcross first last) :=
  (Quiet.spanOf first).bind fun _ => (Quiet.spanOf last).bind fun _ => .pure _

/-! ## Variables -/

theorem Quiet.namesToBar (n : Nat) : Quiet P (namesToBar n) := by
  induction n with
  | zero => exact .pure _
  | succ n ih =>
    apply (Quiet.check _).bind
    intro b
    split
    · exact Quiet.advance.bind fun _ => .pure _
    · exact (Quiet.identifier _).bind fun _ => ih.bind fun _ => .pure _

theorem Quiet.variableList (bound : Nat) : Quiet P (variableList bound) := by
  apply Quiet.peek.bind
  intro k
  split
  · exact Quiet.advance.bind fun _ => .pure _
  · exact (Quiet.expect _).bind fun _ => .namesToBar bound

theorem Quiet.optionalVariables (bound : Nat) : Quiet P (optionalVariables bound) := by
  apply (Quiet.peek.bind fun _ => Quiet.pure _).bind
  intro b
  split
  · exact .variableList bound
  · exact .pure _

theorem Quiet.blockParams (n : Nat) : Quiet P (blockParams n) := by
  induction n with
  | zero => exact .pure _
  | succ n ih =>
    apply Quiet.peek.bind
    intro k
    split
    · exact Quiet.advance.bind fun _ => ih.bind fun _ => .pure _
    · exact .pure _

theorem Quiet.paramsEnd (bound : Nat) : Quiet P (paramsEnd bound) := by
  apply Quiet.peek.bind
  intro k
  split
  · exact Quiet.advance.bind fun _ => .namesToBar bound
  · exact (Quiet.expect _).bind fun _ => .pure _

/-! ## Blocks -/

/-- What closes the parameters of a block, if it has any, and its temporaries. -/
def blockTemps (bound : Nat) (params : List Declaration) : Parser (List Declaration) := do
  let early ← if params.isEmpty then pure [] else paramsEnd bound
  -- Temporaries may have been opened by the same two bars that closed the parameters.
  if early.isEmpty then optionalVariables bound else pure early

/-- What follows the declarations of a block. -/
def blockBody (bound : Nat) (expr : Parser NodeId) (opening : Token) (params temps : List Declaration) : Parser NodeId := do
  let body ← statements expr bound
  let closing ← expect .rightBracket
  makeNode (.block params temps body) (opening.span.merge closing.span)

theorem block_eq (bound : Nat) (expr : Parser NodeId) : block bound expr = (do
    let opening ← expect .leftBracket
    let params ← blockParams bound
    let temps ← blockTemps bound params
    blockBody bound expr opening params temps) := by
  unfold block blockTemps blockBody
  refine bind_congr fun opening => bind_congr fun params => ?_
  cases params.isEmpty with
  | true => simp
  | false =>
    simp only [bind_assoc, Bool.false_eq_true, if_false]
    refine bind_congr fun early => ?_
    cases early.isEmpty with
    | true => simp
    | false => simp

theorem Quiet.blockTemps (bound : Nat) (params : List Declaration) : Quiet P (blockTemps bound params) := by
  have hrest : ∀ early : List Declaration, Quiet P (if early.isEmpty then Parser.optionalVariables bound else Pure.pure early) := by
    intro early
    split
    · exact .optionalVariables bound
    · exact .pure _
  unfold Parser.blockTemps
  split
  · exact (Quiet.pure _).bind hrest
  · exact (Quiet.paramsEnd bound).bind hrest

end Parser
end BlockScope
