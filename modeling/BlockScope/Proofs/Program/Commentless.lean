import BlockScope.Proofs.Program.Accepting
import BlockScope.Proofs.Program.Coupling
import BlockScope.Proofs.Token.Tiling
/-!
# Comments mean nothing to the parser

Where the end of input is the last token and only the last, a parser that is given the tokens without the comments among them
stays together with one that is given all of them: next in both is the same token. Passing over a comment changes the span that the
end would be told at if there were no token for it, but reading the end makes every production fail, so that span is never asked
for. Hence the programs are the same, with the same nodes and spans, and so are the errors (`ofTokens_without_comments`).
-/
namespace BlockScope
open BlockScope.Parser

/-- The tokens that count. -/
def withoutComments (tokens : List Token) : List Token := tokens.filter fun t => !t.kind.isComment

theorem withoutComments_cons {t : Token} (h : t.kind.isComment = false) (ts : List Token) :
    withoutComments (t :: ts) = t :: withoutComments ts := List.filter_cons_of_pos (by simp [h])

theorem withoutComments_dropComments (ts : List Token) (last : Span) :
    withoutComments (dropComments ts last).1 = withoutComments ts := by
  induction ts generalizing last with
  | nil => rfl
  | cons t ts ih =>
    unfold dropComments
    split
    · next h => rw [ih, withoutComments, withoutComments, List.filter_cons_of_neg (by simp [h])]
    · rfl

/-- Where there are no comments, none are dropped. -/
theorem dropComments_withoutComments (ts : List Token) (last : Span) :
    dropComments (withoutComments ts) last = (withoutComments ts, last) := by
  cases h : withoutComments ts with
  | nil => rfl
  | cons t us =>
    have ht : t ∈ withoutComments ts := by simp [h]
    have hkind : t.kind.isComment = false := by simpa using (List.mem_filter.1 ht).2
    rw [dropComments, if_neg (by simp [hkind])]

/-- A comment is not the end. -/
theorem EndsOnce.dropComments {ts : List Token} (h : EndsOnce ts) (last : Span) : EndsOnce (dropComments ts last).1 := by
  induction h generalizing last with
  | last h =>
    rw [Parser.dropComments, if_neg (by simp [h, TokenKind.isComment])]
    exact .last h
  | cons h rest ih =>
    unfold Parser.dropComments
    split
    · exact ih _
    · exact .cons h rest

/-! ## With comments and without -/

/-- The second state is the first without comments. -/
structure Commentless (s t : ParserState) : Prop where
  ends : EndsOnce s.tokens
  tokens : t.tokens = withoutComments s.tokens
  arena : t.arena = s.arena

namespace Commentless
variable {s t : ParserState}

theorem skipped_eq (h : Commentless s t) : t.skipped = t := by
  unfold ParserState.skipped
  rw [h.tokens, dropComments_withoutComments, ← h.tokens]

theorem skipped (h : Commentless s t) : Commentless s.skipped t.skipped := by
  rw [h.skipped_eq]
  exact ⟨h.ends.dropComments _, h.tokens.trans (withoutComments_dropComments _ _).symm, h.arena⟩

/-- Both states begin with one token that is no comment. -/
theorem head (h : Commentless s t) : ∃ u us, s.skipped.tokens = u :: us ∧ t.skipped.tokens = u :: withoutComments us ∧
    (u.kind ≠ .endOfInput → EndsOnce us) := by
  have hskipped := h.skipped
  obtain ⟨u, us, htokens, hrest⟩ := hskipped.ends.head
  have hkind : u.kind.isComment = false := ParserState.dropComments_head s.tokens s.lastSpan u (by
    change u ∈ s.skipped.tokens.head?
    rw [htokens]
    rfl)
  refine ⟨u, us, htokens, ?_, hrest⟩
  rw [hskipped.tokens, htokens, withoutComments_cons hkind]

/-- Both go on together after a token that is not the end. -/
theorem behind (h : Commentless s t) (hkind : s.skipped.headKind.isProper) : Commentless s.skipped.behind t.skipped.behind := by
  obtain ⟨u, us, hs, ht, hrest⟩ := h.head
  unfold ParserState.behind
  rw [hs, ht]
  refine ⟨hrest fun hend => ?_, rfl, h.arena⟩
  simp only [ParserState.headKind, hs, hend] at hkind
  cases hkind

theorem front (h : Commentless s t) : t.skipped.front = s.skipped.front := by
  obtain ⟨u, us, hs, ht, -⟩ := h.head
  rw [ParserState.front, ParserState.front, hs, ht]

end Commentless

def Coupling.commentless : Coupling 0 where
  States := Commentless
  Place _ := True
  merge _ _ := trivial
  skipped h := h.skipped
  front h := h.front
  place_front _ := trivial
  behind h := h.behind
  size h := by rw [h.arena]; rfl
  get? h id := by rw [h.arena]; exact Arena.get?_shift_zero _ id
  place_span _ _ := trivial
  push h node _ := ⟨h.ends, h.tokens, by rw [Node.shift_zero, ParserState.push, h.arena]; rfl⟩

/-- Without its comments, a sequence of tokens with the end as its last spells the same program, or is refused with the same error. -/
theorem ofTokens_without_comments {tokens : List Token} (h : EndsOnce tokens) :
    Program.ofTokens (tokens.filter fun t => !t.kind.isComment) = Program.ofTokens tokens := by
  have hstart : Coupling.commentless.States (.start tokens) (.start (withoutComments tokens)) := ⟨h, rfl, rfl⟩
  have hpairs := Coupling.couples_program hstart
  unfold Coupling.Pairs at hpairs
  change Program.ofTokens (withoutComments tokens) = Program.ofTokens tokens
  unfold Program.ofTokens
  rcases hall : runFrom (do classes (← remaining)) (.start tokens) with ⟨r, s⟩
  rw [hall] at hpairs
  cases r with
  | ok cs =>
    obtain ⟨t, hfew, hst⟩ := hpairs
    rw [hfew]
    have harena : t.arena = s.arena := hst.arena
    simp only [Except.map, id, harena]
  | error e =>
    obtain ⟨-, t, hfew⟩ := hpairs
    rw [hfew]
    rfl

/-- Two comments between tokens and one behind the last class. -/
theorem ofTokens_without_comments_three : ∃ p : Program,
    Program.ofTokens (tokenize "A : nil [ /* m */ m [ ^ 1 // one\n ] ] // end".toUTF8.toList) = .ok p ∧
    ((tokenize "A : nil [ /* m */ m [ ^ 1 // one\n ] ] // end".toUTF8.toList).filter (·.kind.isComment)).length = 3 ∧
    Program.ofTokens ((tokenize "A : nil [ /* m */ m [ ^ 1 // one\n ] ] // end".toUTF8.toList).filter fun t => !t.kind.isComment) =
      .ok p := by
  obtain ⟨p, hp, -⟩ := Program.exists_ofBytes "A : nil [ /* m */ m [ ^ 1 // one\n ] ] // end".toUTF8 (fun _ => true)
    (by decide +kernel)
  exact ⟨p, hp, by decide +kernel, (ofTokens_without_comments (endsOnce_tokenize _)).trans hp⟩

end BlockScope
