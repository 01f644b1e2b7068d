import BlockScope.Proofs.Program.Parsing
/-!
# What parsers accept

`Parser.Reads a p ahead rest post` says that a parser is bound to succeed: from any state with the nodes of `a` and the
tokens `ahead`, comments left out, it runs, keeps the nodes, stops before `rest` and gives a result of which `post` holds.
There is a rule for each step that parsers are made of. Most rules are about the step and all that is to come after it, so
that a production is followed from its first token to its last.
-/
namespace BlockScope
open BlockScope.Parser

/-- The kinds of the tokens not read yet, comments left out. -/
def ParserState.ahead (s : ParserState) : List TokenKind := (s.tokens.map (·.kind)).filter (!·.isComment)

/-- The first of some kinds; past the last one the input has ended. -/
def nextKind (ahead : List TokenKind) : TokenKind := ahead.headD .endOfInput

@[simp] theorem nextKind_cons (kind : TokenKind) (ahead : List TokenKind) : nextKind (kind :: ahead) = kind := rfl

/-- From these nodes and tokens the parser succeeds before the rest, with such a result. -/
def Parser.Reads {α : Type} (a : Arena) (p : Parser α) (ahead rest : List TokenKind) (post : Arena → α → Prop) : Prop :=
  ∀ s : ParserState, s.arena = a → s.ahead = ahead →
    ∃ x s', Runs p s x s' ∧ s'.ahead = rest ∧ a.Before s'.arena ∧ post s'.arena x

namespace ParserState
variable {s : ParserState}

theorem ahead_dropComments (ts : List Token) (last : Span) :
    ((dropComments ts last).1.map (·.kind)).filter (!·.isComment) = (ts.map (·.kind)).filter (!·.isComment) := by
  induction ts generalizing last with
  | nil => rfl
  | cons t ts ih =>
    unfold dropComments
    split
    · next h => rw [ih, List.map_cons, List.filter_cons_of_neg (by simp [h])]
    · rfl

theorem ahead_skipped (s : ParserState) : s.skipped.ahead = s.ahead := ahead_dropComments _ _

theorem dropComments_head (ts : List Token) (last : Span) :
    ∀ t ∈ (dropComments ts last).1.head?, t.kind.isComment = false := by
  induction ts generalizing last with
  | nil => simp [dropComments]
  | cons t ts ih =>
    unfold dropComments
    split
    · exact ih _
    · next h => simpa using h

/-- After comments, the tokens begin with what is ahead. -/
theorem tokens_skipped_cons {t : Token} {ts : List Token} (h : s.skipped.tokens = t :: ts) :
    s.ahead = t.kind :: (ts.map (·.kind)).filter (!·.isComment) := by
  have hkind : t.kind.isComment = false := dropComments_head s.tokens s.lastSpan t (by
    change t ∈ s.skipped.tokens.head?
    rw [h]
    rfl)
  rw [← ahead_skipped, ahead, h, List.map_cons, List.filter_cons_of_pos (by simp [hkind])]

theorem headKind_skipped (s : ParserState) : s.skipped.headKind = nextKind s.ahead := by
  unfold headKind
  split
  · next t ts h => rw [tokens_skipped_cons h, nextKind_cons]
  · next h =>
    rw [← ahead_skipped, ahead, h]
    rfl

theorem length_ahead_le (s : ParserState) : s.ahead.length ≤ s.tokens.length := by
  have := List.length_filter_le (!·.isComment) (s.tokens.map (·.kind))
  rw [List.length_map] at this
  exact this

end ParserState

namespace Parser

/-- A token that is ahead can be read. -/
theorem exists_advance {s : ParserState} {kind : TokenKind} {ahead : List TokenKind} (h : s.ahead = kind :: ahead) :
    ∃ t s', Runs advance s t s' ∧ t.kind = kind ∧ s'.ahead = ahead ∧ s'.arena = s.arena := by
  cases htokens : s.skipped.tokens with
  | nil =>
    rw [← s.ahead_skipped, ParserState.ahead, htokens] at h
    cases h
  | cons t ts =>
    rw [ParserState.tokens_skipped_cons htokens] at h
    cases h
    let s' : ParserState := { s.skipped with tokens := ts, lastSpan := t.span, atEnd := s.skipped.atEnd || t.kind.isEnd }
    refine ⟨t, s', ?_, rfl, rfl, rfl⟩
    refine Runs.bind_iff.2 ⟨(), s.skipped, skipComments_iff.2 rfl, Runs.get_bind_iff.2 ?_⟩
    simp only [htokens]
    exact Runs.bind_iff.2 ⟨⟨⟩, s', Runs.set_iff.2 rfl, Runs.pure_iff.2 ⟨rfl, rfl⟩⟩

namespace Reads
variable {α β : Type} {a b : Arena} {p : Parser α} {f : α → Parser β} {ahead mid rest : List TokenKind}
  {post post' : Arena → α → Prop} {goal : Arena → β → Prop} {x : α} {kind : TokenKind} {id : NodeId}

/-! ## Rules for steps -/

theorem pure (h : post a x) : Reads a (pure x) ahead ahead post := by
  rintro s rfl rfl
  exact ⟨x, s, Runs.pure_iff.2 ⟨rfl, rfl⟩, rfl, .refl _, h⟩

theorem mono (h : Reads a p ahead rest post') (himp : ∀ b x, a.Before b → post' b x → post b x) :
    Reads a p ahead rest post := by
  intro s ha hs
  obtain ⟨x, s', hr, hrest, hab, hx⟩ := h s ha hs
  exact ⟨x, s', hr, hrest, hab, himp _ x hab hx⟩

theorem bind (h : Reads a p ahead mid post) (h' : ∀ b x, a.Before b → post b x → Reads b (f x) mid rest goal) :
    Reads a (p >>= f) ahead rest goal := by
  intro s ha hs
  obtain ⟨x, t, hp, hmid, hab, hx⟩ := h s ha hs
  obtain ⟨y, s', hf, hrest, hbc, hy⟩ := h' _ x hab hx t rfl hmid
  exact ⟨y, s', Runs.bind_iff.2 ⟨x, t, hp, hf⟩, hrest, hab.trans hbc, hy⟩

/-- Of three steps, the first two can be followed together. -/
theorem bind_pair {γ : Type} {g : β → Parser γ} {goal' : Arena → γ → Prop} (h : Reads a (p >>= f) ahead mid goal)
    (h' : ∀ b y, a.Before b → goal b y → Reads b (g y) mid rest goal') :
    Reads a (p >>= fun x => f x >>= g) ahead rest goal' := by
  rw [← bind_assoc]
  exact h.bind h'

/-- What is looked at is what is ahead. -/
theorem peek_bind {f : TokenKind → Parser β} (h : Reads a (f (nextKind ahead)) ahead rest goal) :
    Reads a (peek >>= f) ahead rest goal := by
  intro s ha hs
  obtain ⟨y, s', hf, hrest⟩ := h s.skipped ha (by rw [s.ahead_skipped, hs])
  exact ⟨y, s', Runs.bind_iff.2 ⟨_, _, peek_iff.2 ⟨by rw [s.headKind_skipped, hs], rfl⟩, hf⟩, hrest⟩

theorem peekSpan_bind {f : Span → Parser β} (h : ∀ span, Reads a (f span) ahead rest goal) :
    Reads a (peekSpan >>= f) ahead rest goal := by
  intro s ha hs
  have hspan : ∃ span, Runs peekSpan s span s.skipped := by
    cases htokens : s.skipped.tokens with
    | nil =>
      refine ⟨s.skipped.lastSpan, Runs.bind_iff.2 ⟨(), s.skipped, skipComments_iff.2 rfl, Runs.get_bind_iff.2 ?_⟩⟩
      simp only [htokens, Runs.pure_iff, and_self]
    | cons t ts =>
      refine ⟨t.span, Runs.bind_iff.2 ⟨(), s.skipped, skipComments_iff.2 rfl, Runs.get_bind_iff.2 ?_⟩⟩
      simp only [htokens, Runs.pure_iff, and_self]
  obtain ⟨span, hspan⟩ := hspan
  obtain ⟨y, s', hf, hrest⟩ := h span s.skipped ha (by rw [s.ahead_skipped, hs])
  exact ⟨y, s', Runs.bind_iff.2 ⟨_, _, hspan, hf⟩, hrest⟩

theorem advance_bind {f : Token → Parser β} (h : ∀ t : Token, t.kind = kind → Reads a (f t) ahead rest goal) :
    Reads a (advance >>= f) (kind :: ahead) rest goal := by
  intro s ha hs
  obtain ⟨t, s₁, hadvance, hkind, hahead, harena⟩ := exists_advance hs
  obtain ⟨y, s', hf, hrest⟩ := h t hkind s₁ (harena.trans ha) hahead
  exact ⟨y, s', Runs.bind_iff.2 ⟨t, s₁, hadvance, hf⟩, hrest⟩

theorem check_bind {m : Mark} {f : Bool → Parser β} (h : Reads a (f (decide (nextKind ahead = .mark m))) ahead rest goal) :
    Reads a (check m >>= f) ahead rest goal := by
  unfold check
  rw [bind_assoc]
  apply peek_bind
  rw [pure_bind]
  exact h

theorem expect_bind {m : Mark} {f : Token → Parser β} (h : ∀ t, Reads a (f t) ahead rest goal) :
    Reads a (expect m >>= f) (.mark m :: ahead) rest goal := by
  unfold expect
  rw [bind_assoc]
  apply advance_bind
  intro t ht
  rw [if_pos ht, pure_bind]
  exact h t

theorem identifier_bind {due : Expectation} {name : String} {f : Declaration → Parser β}
    (h : ∀ d : Declaration, d.name = name → Reads a (f d) ahead rest goal) :
    Reads a (identifier due >>= f) (.identifier name :: ahead) rest goal := by
  unfold identifier
  rw [bind_assoc]
  apply advance_bind
  intro t ht
  simp only [ht, pure_bind]
  exact h _ rfl

theorem get_bind {f : ParserState → Parser β} (h : ∀ s : ParserState, s.arena = a → Reads a (f s) ahead rest goal) :
    Reads a (get >>= f) ahead rest goal := by
  intro s ha hs
  obtain ⟨y, s', hf, hrest⟩ := h s ha s ha hs
  exact ⟨y, s', Runs.get_bind_iff.2 hf, hrest⟩

/-- A bound on the tokens left exceeds the number of those that count. -/
theorem remaining_bind {f : Nat → Parser β} (h : ∀ n, ahead.length < n → Reads a (f n) ahead rest goal) :
    Reads a (remaining >>= f) ahead rest goal := by
  intro s ha hs
  obtain ⟨y, s', hf, hrest⟩ := h (s.tokens.length + 1) (by have := s.length_ahead_le; rw [hs] at this; omega) s ha hs
  refine ⟨y, s', Runs.bind_iff.2 ⟨_, s, ?_, hf⟩, hrest⟩
  exact Runs.bind_iff.2 ⟨s, s, Runs.get_iff.2 ⟨rfl, rfl⟩, Runs.pure_iff.2 ⟨rfl, rfl⟩⟩

theorem spanOf_bind {f : Span → Parser β} (h : ∀ span, Reads a (f span) ahead rest goal) :
    Reads a (spanOf id >>= f) ahead rest goal := by
  unfold spanOf
  rw [bind_assoc]
  apply get_bind
  intro s _
  rw [pure_bind]
  exact h _

theorem spanAcross_bind {first last : NodeId} {f : Span → Parser β} (h : ∀ span, Reads a (f span) ahead rest goal) :
    Reads a (spanAcross first last >>= f) ahead rest goal := by
  unfold spanAcross
  rw [bind_assoc]
  apply spanOf_bind
  intro span
  rw [bind_assoc]
  apply spanOf_bind
  intro span'
  rw [pure_bind]
  exact h _

theorem makeNode {e : Expr} {span : Span} {post : Arena → NodeId → Prop}
    (h : ∀ b id, a.Before b → b.expr? id = some e → post b id) : Reads a (makeNode e span) ahead ahead post := by
  rintro s rfl rfl
  refine ⟨_, _, Runs.modifyGet_iff.2 rfl, rfl, .push _ _, h _ _ (.push _ _) (Arena.expr?_push _ _)⟩

theorem makeNode_bind {e : Expr} {span : Span} {f : NodeId → Parser β}
    (h : ∀ b id, a.Before b → b.expr? id = some e → Reads b (f id) ahead rest goal) :
    Reads a (Parser.makeNode e span >>= f) ahead rest goal := by
  have hnode : Reads a (Parser.makeNode e span) ahead ahead fun b id => b.expr? id = some e := makeNode fun _ _ _ he => he
  exact hnode.bind h

end Reads
end Parser
end BlockScope
