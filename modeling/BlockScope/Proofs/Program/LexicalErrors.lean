import BlockScope.Proofs.Program.Coupling
import BlockScope.Proofs.Token.Tiling
/-!
# Text that is no token is always reported

As long as a token that is none lies ahead, behind proper ones only, no production can get past it, and whatever is at fault until
then starts no later: tokens stand in order, and a node begins with the first of its tokens. This is a coupling of a run with
itself (`Coupling.guarded`). A program ends with the end of input, so it cannot end before such a token either, and reading it
fails (`lexical_errors_reported`).
-/
namespace BlockScope
open BlockScope.Parser

/-- Text that is no token. -/
def TokenKind.isError : TokenKind → Bool
  | .error _ => true
  | _ => false

theorem TokenKind.isProper_of {kind : TokenKind} (hend : kind ≠ .endOfInput) (herror : kind.isError = false) : kind.isProper := by
  cases kind with
  | endOfInput => exact absurd rfl hend
  | error message => cases herror
  | _ => rfl

/-- The token comes after proper ones that start no later. -/
inductive LiesAhead (bad : Token) : List Token → Prop where
  | here (ts : List Token) : LiesAhead bad (bad :: ts)
  | there {t : Token} {ts : List Token} (proper : t.kind.isProper) (le : t.span.start.offset ≤ bad.span.start.offset)
    (rest : LiesAhead bad ts) : LiesAhead bad (t :: ts)

namespace LiesAhead
variable {bad : Token} {ts : List Token}

theorem append (hbefore : ∀ t ∈ ts, t.kind.isProper ∧ t.span.start.offset ≤ bad.span.start.offset) (after : List Token) :
    LiesAhead bad (ts ++ bad :: after) := by
  induction ts with
  | nil => exact .here after
  | cons t ts ih =>
    obtain ⟨hproper, hle⟩ := hbefore t (by simp)
    exact .there hproper hle (ih fun u hu => hbefore u (List.mem_cons_of_mem _ hu))

theorem dropComments (h : LiesAhead bad ts) (hbad : bad.kind.isError) (last : Span) : LiesAhead bad (dropComments ts last).1 := by
  induction h generalizing last with
  | here ts =>
    have hkind : bad.kind.isComment = false := by
      cases hk : bad.kind with
      | lineComment text | blockComment text => simp [hk, TokenKind.isError] at hbad
      | _ => rfl
    rw [Parser.dropComments, if_neg (by simp [hkind])]
    exact .here ts
  | there proper le rest ih =>
    unfold Parser.dropComments
    split
    · exact ih _
    · exact .there proper le rest

theorem head (h : LiesAhead bad ts) (hbad : bad.kind.isError) : ∃ u us, ts = u :: us ∧
    u.span.start.offset ≤ bad.span.start.offset ∧ u.kind ≠ .endOfInput ∧ (u.kind.isProper → LiesAhead bad us) := by
  cases h with
  | here ts =>
    refine ⟨bad, ts, rfl, Nat.le_refl _, fun hend => ?_, fun hproper => ?_⟩
    · simp [hend, TokenKind.isError] at hbad
    · cases hk : bad.kind with
      | error message => simp [hk, TokenKind.isProper] at hproper
      | _ => simp [hk, TokenKind.isError] at hbad
  | there proper le rest =>
    refine ⟨_, _, rfl, le, fun hend => ?_, fun _ => rest⟩
    simp [hend, TokenKind.isProper] at proper

end LiesAhead

/-- The bad token lies ahead, and no node starts behind it. -/
structure Guarded (bad : Token) (s : ParserState) : Prop where
  tokens : LiesAhead bad s.tokens
  nodes : ∀ id, (s.arena.span id).start.offset ≤ bad.span.start.offset

namespace Guarded
variable {bad : Token} {s : ParserState}

theorem skipped (h : Guarded bad s) (hbad : bad.kind.isError) : Guarded bad s.skipped :=
  ⟨h.tokens.dropComments hbad _, h.nodes⟩

theorem front (h : Guarded bad s) (hbad : bad.kind.isError) :
    s.skipped.front.span.start.offset ≤ bad.span.start.offset ∧ s.skipped.headKind ≠ .endOfInput := by
  obtain ⟨u, us, htokens, hle, hend, -⟩ := (h.skipped hbad).tokens.head hbad
  rw [ParserState.front, ParserState.headKind, htokens]
  exact ⟨hle, hend⟩

theorem behind (h : Guarded bad s) (hbad : bad.kind.isError) (hproper : s.skipped.headKind.isProper) : Guarded bad s.skipped.behind := by
  obtain ⟨u, us, htokens, -, -, hrest⟩ := (h.skipped hbad).tokens.head hbad
  rw [ParserState.headKind, htokens] at hproper
  unfold ParserState.behind
  rw [htokens]
  exact ⟨hrest hproper, h.nodes⟩

theorem push (h : Guarded bad s) {node : Node} (hnode : node.span.start.offset ≤ bad.span.start.offset) :
    Guarded bad (s.push node) := by
  refine ⟨h.tokens, fun id => ?_⟩
  rw [Arena.span, ParserState.push, Arena.get?_push]
  split
  · exact hnode
  · exact h.nodes id

end Guarded

def Coupling.guarded {bad : Token} (hbad : bad.kind.isError) : Coupling 0 where
  States s t := t = s ∧ Guarded bad s
  Place span := span.start.offset ≤ bad.span.start.offset
  merge ha _ := by rw [Span.offset_start_merge]; omega
  skipped := by rintro s t ⟨rfl, h⟩; exact ⟨rfl, h.skipped hbad⟩
  front := by rintro s t ⟨rfl, h⟩; rfl
  place_front h := (h.2.front hbad).1
  behind := by rintro s t ⟨rfl, h⟩ hproper; exact ⟨rfl, h.behind hbad hproper⟩
  size := by rintro s t ⟨rfl, h⟩; rfl
  get? := by rintro s t ⟨rfl, h⟩ id; exact Arena.get?_shift_zero _ id
  place_span h := h.2.nodes
  push := by rintro s t ⟨rfl, h⟩ node hnode; exact ⟨by rw [Node.shift_zero], h.push hnode⟩

/-- A program is read up to the end of input. -/
theorem Parser.ends_classes {n : Nat} {s s' : ParserState} {cs : List ClassDefinition} (h : Runs (classes n) s cs s')
    (hn : s.tokens.length < n) : s'.skipped.headKind = .endOfInput := by
  induction n generalizing s cs with
  | zero => omega
  | succ n ih =>
    simp only [classes, Runs.bind_iff, peek_iff] at h
    obtain ⟨_, _, ⟨rfl, rfl⟩, h⟩ := h
    have hle := length_skipped s
    split at h
    · next hend =>
      obtain ⟨-, rfl⟩ := Runs.pure_iff.1 h
      rw [skipped_skipped]
      cases hk : s.skipped.headKind with
      | endOfInput => rfl
      | _ => simp [hk, TokenKind.isEnd] at hend
    · simp only [Runs.bind_iff, Runs.pure_iff] at h
      obtain ⟨c, s₁, hc, rest, s₂, hrest, -, rfl⟩ := h
      have := takes_classDefinition _ _ _ hc
      exact ih hrest (by omega)

/-- Text with something in it that is no token is refused, with an error that starts no later than the first such thing. So what
is accepted consists of tokens. -/
theorem lexical_errors_reported (bytes : List UInt8) :
    (∀ p, Program.ofTokens (tokenize bytes) = .ok p → ∀ t ∈ tokenize bytes, t.kind.isError = false) ∧
    ∀ bad, (tokenize bytes).find? (·.kind.isError) = some bad →
      ∃ e, Program.ofTokens (tokenize bytes) = .error e ∧ e.span.start.offset ≤ bad.span.start.offset := by
  have hrefused : ∀ bad, (tokenize bytes).find? (·.kind.isError) = some bad →
      ∃ e, Program.ofTokens (tokenize bytes) = .error e ∧ e.span.start.offset ≤ bad.span.start.offset := by
    intro bad hfirst
    obtain ⟨hbad, before, after, htokens, hbefore⟩ := List.find?_eq_some_iff_append.1 hfirst
    have hends := endsOnce_tokenize bytes
    have hstarts := starts_tokenize bytes
    rw [htokens] at hends hstarts
    have hahead : LiesAhead bad (tokenize bytes) := by
      rw [htokens]
      refine .append (fun t ht => ⟨TokenKind.isProper_of (hends.not_end_before t ht) (by simpa using hbefore t ht), ?_⟩) after
      exact (List.pairwise_append.1 hstarts).2.2 t ht bad (by simp)
    have hguarded : Guarded bad (.start (tokenize bytes)) := ⟨hahead, fun _ => Nat.zero_le _⟩
    have hpairs := Coupling.couples_program (C := .guarded hbad) ⟨rfl, hguarded⟩
    unfold Coupling.Pairs at hpairs
    unfold Program.ofTokens
    rcases hrun : runFrom (do classes (← remaining)) (.start (tokenize bytes)) with ⟨r, s⟩
    rw [hrun] at hpairs
    cases r with
    | ok cs =>
      -- The token would still lie ahead, but a program is read to the end.
      obtain ⟨-, -, -, hs⟩ := hpairs
      obtain ⟨n, t, hremaining, hclasses⟩ := Runs.bind_iff.1 hrun
      cases hremaining
      exact absurd (ends_classes hclasses (Nat.lt_succ_self _)) (hs.front hbad).2
    | error e => exact ⟨e, rfl, hpairs.1⟩
  refine ⟨fun p hp t ht => ?_, hrefused⟩
  by_contra herror
  obtain ⟨bad, hfirst⟩ : ∃ bad, (tokenize bytes).find? (·.kind.isError) = some bad := by
    refine Option.isSome_iff_exists.1 (List.find?_isSome.2 ⟨t, ht, ?_⟩)
    simpa using herror
  obtain ⟨e, he, -⟩ := hrefused bad hfirst
  rw [hp] at he
  cases he

/-- A stray quote after a return mark; and a text without one. -/
theorem lexical_errors_reported_quote :
    (∃ bad e, (tokenize "A : nil [ m [ ^ 'open ] ]".toUTF8.toList).find? (·.kind.isError) = some bad ∧ bad.span.start.offset = 16 ∧
      Program.ofTokens (tokenize "A : nil [ m [ ^ 'open ] ]".toUTF8.toList) = .error e ∧ e.span.start.offset ≤ 16) ∧
    ∀ t ∈ tokenize "A : nil [ m [ ^ self ] ]".toUTF8.toList, t.kind.isError = false := by
  constructor
  · obtain ⟨bad, hfirst, hplace⟩ : ∃ bad, (tokenize "A : nil [ m [ ^ 'open ] ]".toUTF8.toList).find? (·.kind.isError) = some bad ∧
        bad.span.start.offset = 16 := by
      have hsome : ((tokenize "A : nil [ m [ ^ 'open ] ]".toUTF8.toList).find? (·.kind.isError)).map (·.span.start.offset) = some 16 := by
        decide +kernel
      simpa only [Option.map_eq_some_iff] using hsome
    obtain ⟨e, he, hle⟩ := (lexical_errors_reported _).2 bad hfirst
    exact ⟨bad, e, hfirst, hplace, he, hplace ▸ hle⟩
  · obtain ⟨p, hp, -⟩ := Program.exists_ofBytes "A : nil [ m [ ^ self ] ]".toUTF8 (fun _ => true) (by decide +kernel)
    exact (lexical_errors_reported _).1 p hp

end BlockScope
