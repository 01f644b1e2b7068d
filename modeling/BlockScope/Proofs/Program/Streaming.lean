import BlockScope.Proofs.Outcomes
import BlockScope.Proofs.Program.Coupling
/-!
# One class at a time, or all at once

A parser can be asked for the next class again and again, or for the whole program. The first way stops on a flag that is set
wherever the end of input is read; the second looks at the next token only. No production that succeeds reads the end
(`Coupling.unended`), so the flag is not set between two classes, and both ways see the same classes, the same nodes and the same
error (`streaming_agrees`).
-/
namespace BlockScope
open BlockScope.Parser

/-! ## The flag -/

/-- Reading a token that is not the end does not set the flag. -/
theorem ParserState.atEnd_behind {s : ParserState} (h : s.atEnd = false) (hproper : s.headKind.isProper) :
    s.behind.atEnd = false := by
  unfold headKind at hproper
  unfold behind
  cases htokens : s.tokens with
  | nil =>
    rw [htokens] at hproper
    cases hproper
  | cons t ts =>
    rw [htokens] at hproper
    have hend : t.kind.isEnd = false := by
      cases hkind : t.kind with
      | endOfInput => simp [hkind, TokenKind.isProper] at hproper
      | _ => rfl
    simp [h, hend]

/-- A run beside itself, in which the end has not been read. -/
def Coupling.unended : Coupling 0 where
  States s t := t = s ∧ s.atEnd = false
  Place _ := True
  merge _ _ := trivial
  skipped := by rintro s t ⟨rfl, h⟩; exact ⟨rfl, h⟩
  front := by rintro s t ⟨rfl, -⟩; rfl
  place_front _ := trivial
  behind := by rintro s t ⟨rfl, h⟩ hproper; exact ⟨rfl, ParserState.atEnd_behind (s := t.skipped) h hproper⟩
  size := by rintro s t ⟨rfl, -⟩; rfl
  get? := by rintro s t ⟨rfl, -⟩ id; exact Arena.get?_shift_zero _ id
  place_span _ _ := trivial
  push := by rintro s t ⟨rfl, h⟩ node -; exact ⟨by rw [Node.shift_zero], h⟩

/-- A class that could be read ended before the end of input. -/
theorem Parser.unended_classDefinition {s s' : ParserState} {c : ClassDefinition} (h : classDefinition.runFrom s = (.ok c, s'))
    (hs : s.atEnd = false) : s'.atEnd = false := by
  have hpairs := Coupling.couples_classDefinition (C := .unended) ⟨rfl, hs⟩
  unfold Coupling.Pairs at hpairs
  rw [h] at hpairs
  obtain ⟨t, -, -, ht⟩ := hpairs
  exact ht

namespace ParserState
variable {s s' : ParserState} {c : ClassDefinition} {cs : List ClassDefinition}

/-- The state in which the end counts as read. -/
def ended (s : ParserState) : ParserState := { s with atEnd := true }

/-! ## One call -/

theorem nextClass_of_atEnd (h : s.atEnd = true) : nextClass.runFrom s = (.ok none, s) := by
  refine Runs.get_bind_iff.2 ?_
  rw [if_pos h]
  exact Runs.pure_iff.2 ⟨rfl, rfl⟩

theorem nextClass_of_end (h : s.atEnd = false) (hend : s.skipped.headKind.isEnd) :
    nextClass.runFrom s = (.ok none, s.skipped.ended) := by
  refine Runs.get_bind_iff.2 ?_
  rw [if_neg (by simp [h])]
  refine Runs.bind_iff.2 ⟨_, _, runFrom_peek s, ?_⟩
  rw [if_pos hend]
  exact Runs.bind_iff.2 ⟨⟨⟩, _, Runs.modify_iff.2 rfl, Runs.pure_iff.2 ⟨rfl, rfl⟩⟩

/-- Before the end a class is tried for, and a failure sets the flag. -/
theorem nextClass_of_class (h : s.atEnd = false) (hend : s.skipped.headKind.isEnd = false) :
    nextClass.runFrom s = match classDefinition.runFrom s.skipped with
      | (.ok c, s') => (.ok (some c), s')
      | (.error e, s') => (.error e, s'.ended) := by
  have hget : Runs (get : Parser ParserState) s s s := Runs.get_iff.2 ⟨rfl, rfl⟩
  rw [nextClass, runFrom_bind hget, if_neg (by simp [h]), runFrom_bind (runFrom_peek s), if_neg (by simp [hend])]
  unfold Parser.runFrom
  rw [ExceptT.run_tryCatch, StateT.run_bind, map_eq_pure_bind, Runs.run_bind]
  rcases (ExceptT.run classDefinition).run s.skipped with ⟨r, s'⟩
  cases r <;> rfl

/-! ## Call after call -/

/-- The answers to so many calls for the next class, and the state after them. -/
def answers : Nat → ParserState → List (Except ParseError (Option ClassDefinition)) × ParserState
  | 0, s => ([], s)
  | n + 1, s =>
    let (first, s₁) := nextClass.runFrom s
    let (rest, s₂) := answers n s₁
    (first :: rest, s₂)

/-- Calls for the next class are answered by these classes in turn and by `last` after them, which leaves these nodes. All further
calls are answered by none and change nothing. -/
def Streams (s : ParserState) (cs : List ClassDefinition) (last : Except ParseError (Option ClassDefinition)) (arena : Arena) : Prop :=
  ∀ n, ∃ s', s.answers (cs.length + (n + 1)) = (cs.map (.ok ∘ some) ++ last :: List.replicate n (.ok none), s') ∧ s'.arena = arena

theorem answers_succ {answer : Except ParseError (Option ClassDefinition)} (h : nextClass.runFrom s = (answer, s')) (n : Nat) :
    s.answers (n + 1) = (answer :: (s'.answers n).1, (s'.answers n).2) := by
  simp only [answers, h]

theorem answers_of_atEnd (h : s.atEnd = true) (n : Nat) : s.answers n = (List.replicate n (.ok none), s) := by
  induction n with
  | zero => rfl
  | succ n ih => rw [answers_succ (nextClass_of_atEnd h), ih, List.replicate_succ]

/-- The first call is the last that counts. -/
theorem Streams.stop {last : Except ParseError (Option ClassDefinition)} (h : nextClass.runFrom s = (last, s'.ended)) :
    s.Streams [] last s'.arena := by
  intro n
  refine ⟨s'.ended, ?_, rfl⟩
  rw [List.length_nil, Nat.zero_add, answers_succ h, answers_of_atEnd rfl]
  rfl

/-- One class, and the others after it. -/
theorem Streams.cons {last : Except ParseError (Option ClassDefinition)} {arena : Arena}
    (h : nextClass.runFrom s = (.ok (some c), s')) (rest : s'.Streams cs last arena) : s.Streams (c :: cs) last arena := by
  intro n
  obtain ⟨s'', hanswers, harena⟩ := rest n
  refine ⟨s'', ?_, harena⟩
  rw [List.length_cons, Nat.add_right_comm, answers_succ h, hanswers]
  rfl

end ParserState

/-- Before the end has been read, the classes that calls are answered by are those of the rest of the program, and so is the
error. -/
theorem Parser.streams_classes {n : Nat} {s : ParserState} (hn : s.tokens.length < n) (hs : s.atEnd = false) :
    match (classes n).runFrom s with
    | (.ok cs, s') => s.Streams cs (.ok none) s'.arena
    | (.error e, s') => ∃ cs, s.Streams cs (.error e) s'.arena := by
  induction n generalizing s with
  | zero => omega
  | succ n ih =>
    rw [classes, runFrom_bind (runFrom_peek s)]
    cases hend : s.skipped.headKind.isEnd with
    | true => exact .stop (ParserState.nextClass_of_end hs hend)
    | false =>
      have hnext := ParserState.nextClass_of_class hs hend
      have hle := length_skipped s
      simp only [Bool.false_eq_true, if_false]
      rcases hc : classDefinition.runFrom s.skipped with ⟨r, s₁⟩
      rw [hc] at hnext
      cases r with
      | error e =>
        have hfails : (classDefinition >>= fun first => classes n >>= fun rest => pure (first :: rest)).runFrom s.skipped =
            (.error e, s₁) := Fails.bind_iff.2 (.inl hc)
        rw [hfails]
        exact ⟨[], .stop hnext⟩
      | ok c =>
        have := takes_classDefinition _ _ _ hc
        have hrest := ih (s := s₁) (by omega) (unended_classDefinition hc hs)
        rw [runFrom_bind hc]
        rcases hcs : (classes n).runFrom s₁ with ⟨r, s₂⟩
        rw [hcs] at hrest
        cases r with
        | error e =>
          have hfails : (classes n >>= fun rest => pure (c :: rest)).runFrom s₁ = (.error e, s₂) := Fails.bind_iff.2 (.inl hcs)
          rw [hfails]
          obtain ⟨cs, hstreams⟩ := hrest
          exact ⟨c :: cs, .cons hnext hstreams⟩
        | ok cs =>
          rw [runFrom_bind hcs]
          exact .cons hnext hrest

/-- Whatever the tokens, asking for one class after the other gives classes and then none for ever, and these classes with the nodes
made are the program; or it gives classes, then one error, then none for ever, and the program is refused with that error. -/
theorem streaming_agrees (tokens : List Token) : ∃ cs arena,
    ((ParserState.start tokens).Streams cs (.ok none) arena ∧ Program.ofTokens tokens = .ok ⟨arena, cs⟩) ∨
    ∃ e, (ParserState.start tokens).Streams cs (.error e) arena ∧ Program.ofTokens tokens = .error e := by
  have hall := streams_classes (s := .start tokens) (Nat.lt_succ_self _) rfl
  have hremaining : Runs remaining (.start tokens) (tokens.length + 1) (.start tokens) := rfl
  unfold Program.ofTokens
  rw [runFrom_bind hremaining]
  rcases hrun : (classes (tokens.length + 1)).runFrom (.start tokens) with ⟨r, s⟩
  rw [show (ParserState.start tokens).tokens.length.succ = tokens.length + 1 from rfl, hrun] at hall
  cases r with
  | ok cs => exact ⟨cs, s.arena, .inl ⟨hall, rfl⟩⟩
  | error e =>
    obtain ⟨cs, hstreams⟩ := hall
    exact ⟨cs, s.arena, .inr ⟨e, hstreams, rfl⟩⟩

end BlockScope
