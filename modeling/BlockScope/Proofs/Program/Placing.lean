import BlockScope.Proofs.Program.Coupling
import BlockScope.Proofs.Token.Tiling
/-!
# Where tokens, names and nodes stand

The parser moves through the text in one direction: it stands at an offset (`ParserState.At`), all nodes made so far end there or
before, and all tokens left begin there or behind. `Parser.Ensures` follows a run that succeeds, with one rule for each step of the
parser: a token that is read moves it behind that token. Names are read one after the other (`Declared`).
-/
namespace BlockScope
open BlockScope.Parser

/-! ## Spans and tokens -/

namespace Span

/-- The first stretch lies in the second. -/
def Within (inner outer : Span) : Prop :=
  outer.start.offset ≤ inner.start.offset ∧ inner.stop.offset ≤ outer.stop.offset

/-- The stretch begins where one of the tokens begins and ends where one of them ends, further on. -/
structure Among (all : List Token) (span : Span) : Prop where
  start : ∃ t ∈ all, t.span.start = span.start
  stop : ∃ t ∈ all, t.span.stop = span.stop
  lt : span.start.offset < span.stop.offset

theorem start_merge {a b : Span} (h : a.start.offset ≤ b.start.offset) : (a.merge b).start = a.start := if_pos h

theorem Among.merge {all : List Token} {a b : Span} (ha : a.Among all) (hb : b.Among all) : (a.merge b).Among all := by
  refine ⟨?_, ?_, ?_⟩
  · simp only [Span.merge]
    split
    · exact ha.start
    · exact hb.start
  · simp only [Span.merge]
    split
    · exact ha.stop
    · exact hb.stop
  · have := ha.lt
    rw [offset_start_merge, offset_stop_merge]
    omega

end Span

/-- One of the tokens, which takes some text behind an offset. -/
structure Token.From (all : List Token) (n : Nat) (t : Token) : Prop where
  mem : t ∈ all
  le : n ≤ t.span.start.offset
  lt : t.span.start.offset < t.span.stop.offset

/-- Tokens one after the other from an offset on, which the end of input may follow. -/
inductive Lined (all : List Token) : Nat → List Token → Prop where
  | nil {n : Nat} : Lined all n []
  | last {n : Nat} {t : Token} (h : t.kind = .endOfInput) : Lined all n [t]
  | cons {n : Nat} {t : Token} {ts : List Token} (first : t.From all n) (rest : Lined all t.span.stop.offset ts) : Lined all n (t :: ts)

section
variable {all ts : List Token} {t : Token} {n m : Nat}

theorem Token.From.mono (h : t.From all n) (hle : m ≤ n) : t.From all m := ⟨h.mem, Nat.le_trans hle h.le, h.lt⟩

theorem Token.From.le_stop (h : t.From all n) : n ≤ t.span.stop.offset := Nat.le_trans h.le (Nat.le_of_lt h.lt)

theorem Token.From.among (h : t.From all n) : t.span.Among all := ⟨⟨t, h.mem, rfl⟩, ⟨t, h.mem, rfl⟩, h.lt⟩

namespace Lined

theorem mono (h : Lined all n ts) (hle : m ≤ n) : Lined all m ts := by
  cases h with
  | nil => exact .nil
  | last h => exact .last h
  | cons first rest => exact .cons (first.mono hle) rest

theorem dropComments (h : Lined all n ts) (last : Span) : Lined all n (dropComments ts last).1 := by
  induction h generalizing last with
  | nil => exact .nil
  | last h =>
    rw [Parser.dropComments, if_neg (by simp [h, TokenKind.isComment])]
    exact .last h
  | cons first rest ih =>
    unfold Parser.dropComments
    split
    · exact (ih _).mono first.le_stop
    · exact .cons first rest

/-- The first token takes some text, unless it is the end of input. -/
theorem head (h : Lined all n (t :: ts)) (hend : t.kind ≠ .endOfInput) : t.From all n ∧ Lined all t.span.stop.offset ts := by
  cases h with
  | last h => exact absurd h hend
  | cons first rest => exact ⟨first, rest⟩

end Lined
end

/-- What tiles a text stands in line. -/
theorem Tiles.lined {bytes : List UInt8} {all ts : List Token} {t : Token} {n : Nat} (h : Tiles bytes n ts) (hall : ∀ u ∈ ts, u ∈ all)
    (ht : t.kind = .endOfInput) : Lined all n (ts ++ [t]) := by
  induction h with
  | blank => exact .last ht
  | token blank lt le kind span rest ih =>
    refine .cons ⟨hall _ (by simp), ?_, ?_⟩ ?_
    · rw [span]
      exact blank.le
    · rw [span]
      exact lt
    · rw [span]
      exact ih fun u hu => hall u (List.mem_cons_of_mem _ hu)

theorem lined_tokenize (bytes : List UInt8) : Lined (tokenize bytes) 0 (tokenize bytes) := by
  obtain ⟨ts, htokens, htiles⟩ := tiles_tokenize bytes
  rw [htokens]
  exact htiles.lined (fun u hu => List.mem_append_left _ hu) rfl

/-! ## Nodes -/

/-- A name that was read between two offsets from a token of its own, one of the given kind. -/
structure Declaration.Stands (all : List Token) (kind : String → TokenKind) (n m : Nat) (d : Declaration) : Prop where
  read : ∃ t : Token, t.From all n ∧ t.kind = kind d.name ∧ t.span = d.span
  le : d.span.stop.offset ≤ m

namespace Declaration.Stands
variable {all : List Token} {kind : String → TokenKind} {n m n' m' : Nat} {d : Declaration}

theorem mono (h : d.Stands all kind n m) (hn : n' ≤ n) (hm : m ≤ m') : d.Stands all kind n' m' := by
  obtain ⟨t, ht, hkind, hspan⟩ := h.read
  exact ⟨⟨t, ht.mono hn, hkind, hspan⟩, Nat.le_trans h.le hm⟩

theorem among (h : d.Stands all kind n m) : d.span.Among all := by
  obtain ⟨t, ht, -, hspan⟩ := h.read
  rw [← hspan]
  exact ht.among

theorem within {span : Span} (h : d.Stands all kind span.start.offset span.stop.offset) : d.span.Within span := by
  obtain ⟨t, ht, -, hspan⟩ := h.read
  refine ⟨?_, h.le⟩
  rw [← hspan]
  exact ht.le

end Declaration.Stands

/-- A single token is told by the node made from it, a send begins with its receiver, and a block holds its declarations. -/
def Node.Keeps (all : List Token) (a : Arena) (node : Node) : Prop :=
  match node.expr with
  | .literal _ | .ident _ => ∃ t ∈ all, t.span = node.span ∧ atom? t.kind = some node.expr
  | .send receiver _ _ => node.span.start = (a.span receiver).start
  | .block params temps _ =>
    (∀ d ∈ params, d.Stands all .argument node.span.start.offset node.span.stop.offset) ∧
      ∀ d ∈ temps, d.Stands all .identifier node.span.start.offset node.span.stop.offset
  | _ => True

/-- A node that stands where it should: its ends are those of tokens, and its parts are there and lie in it. -/
structure Node.Laid (all : List Token) (a : Arena) (node : Node) : Prop where
  among : node.span.Among all
  parts : ∀ x ∈ node.expr.children, x.index < a.size ∧ (a.span x).Within node.span
  keeps : node.Keeps all a

def Arena.Laid (all : List Token) (a : Arena) : Prop := ∀ id node, a.get? id = some node → node.Laid all a

theorem Node.Laid.mono {all : List Token} {a b : Arena} {node : Node} (h : node.Laid all a) (hab : a.Before b) : node.Laid all b := by
  have hspan : ∀ x ∈ node.expr.children, b.span x = a.span x := fun x hx => hab.span (h.parts x hx).1
  refine ⟨h.among, fun x hx => ?_, ?_⟩
  · rw [hspan x hx]
    exact ⟨Nat.lt_of_lt_of_le (h.parts x hx).1 hab.size, (h.parts x hx).2⟩
  · have hkeeps := h.keeps
    unfold Node.Keeps at hkeeps ⊢
    split
    · next heq =>
      rw [heq] at hkeeps
      rw [heq]
      exact hkeeps
    · next heq =>
      rw [heq] at hkeeps
      rw [heq]
      exact hkeeps
    · next receiver _ _ heq =>
      rw [heq] at hkeeps
      rw [hspan receiver (by simp [heq, Expr.children])]
      exact hkeeps
    · next heq =>
      rw [heq] at hkeeps
      exact hkeeps
    · trivial

namespace Arena
variable {all : List Token} {a : Arena} {node : Node} {id : NodeId}

theorem get?_eq_of_lt (h : id.index < a.size) : ∃ node, a.get? id = some node ∧ a.span id = node.span := by
  have hget : a.get? id = some a.nodes[id.index] := Array.getElem?_eq_getElem h
  exact ⟨_, hget, by rw [Arena.span, hget]; rfl⟩

theorem span_push (a : Arena) (node : Node) : (a.push node).2.span ⟨a.size⟩ = node.span := by
  rw [Arena.span, get?_push, if_pos rfl]
  rfl

theorem Laid.span (h : a.Laid all) (hid : id.index < a.size) : (a.span id).Among all := by
  obtain ⟨node, hget, hspan⟩ := get?_eq_of_lt hid
  rw [hspan]
  exact (h id node hget).among

theorem Laid.push (h : a.Laid all) (hnode : node.Laid all a) : (a.push node).2.Laid all := by
  intro id node' hget
  rw [get?_push] at hget
  split at hget
  · cases hget
    exact hnode.mono (.push a node)
  · exact (h id node' hget).mono (.push a node)

/-- Where the last of the nodes ends; the offset if there is none. -/
def endOf (a : Arena) (n : Nat) (ids : List NodeId) : Nat := (ids.getLast?.map fun x => (a.span x).stop.offset).getD n

theorem endOf_cons (a : Arena) (n : Nat) (x : NodeId) (ids : List NodeId) :
    a.endOf n (x :: ids) = a.endOf (a.span x).stop.offset ids := by
  unfold endOf
  cases ids with
  | nil => rfl
  | cons y ids => rw [List.getLast?_cons_cons, List.getLast?_cons]; rfl

theorem endOf_getD (a : Arena) (x : NodeId) (ids : List NodeId) :
    a.endOf (a.span x).stop.offset ids = (a.span (ids.getLast?.getD x)).stop.offset := by
  unfold endOf
  cases ids.getLast? with
  | none => rfl
  | some y => rfl

end Arena

/-- The parser stands at an offset: tokens left begin there or behind, and the nodes made end there or before. -/
structure ParserState.At (all : List Token) (s : ParserState) (n : Nat) : Prop where
  tokens : Lined all n s.tokens
  nodes : s.arena.Laid all
  ends : ∀ id, id.index < s.arena.size → (s.arena.span id).stop.offset ≤ n

namespace ParserState.At
variable {all : List Token} {s s' : ParserState} {n m : Nat} {t : Token} {node : Node} {id : NodeId}

theorem skipped (h : s.At all n) : s.skipped.At all n := ⟨h.tokens.dropComments _, h.nodes, h.ends⟩

theorem among (h : s.At all n) (hid : id.index < s.arena.size) : (s.arena.span id).Among all := h.nodes.span hid

theorem push (h : s.At all n) (hnode : node.Laid all s.arena) (hle : node.span.stop.offset ≤ n) : (s.push node).At all n := by
  refine ⟨h.tokens, h.nodes.push hnode, fun id hid => ?_⟩
  by_cases hlt : id.index < s.arena.size
  · have hbefore : s.arena.Before (s.push node).arena := .push _ _
    rw [hbefore.span hlt]
    exact h.ends id hlt
  · obtain rfl := NodeId.eq_of_lt_succ (Nat.lt_of_lt_of_eq hid (Arena.size_push _ _)) hlt
    rw [ParserState.push, Arena.span_push]
    exact hle

/-- A token that was read moves the parser behind it. -/
theorem advance (h : s.At all n) (hr : Runs advance s t s') (hend : t.kind ≠ .endOfInput) :
    t.From all n ∧ s'.At all t.span.stop.offset ∧ s'.arena = s.arena := by
  obtain ⟨rfl, rfl⟩ := advance_iff.1 hr
  have hlined := h.skipped.tokens
  unfold front at hend ⊢
  unfold behind
  cases htokens : s.skipped.tokens with
  | nil =>
    rw [htokens] at hend
    exact absurd rfl hend
  | cons t ts =>
    rw [htokens] at hend hlined
    obtain ⟨hfirst, hrest⟩ := hlined.head hend
    refine ⟨hfirst, ⟨hrest, h.nodes, fun id hid => ?_⟩, rfl⟩
    exact Nat.le_trans (h.ends id hid) hfirst.le_stop

end ParserState.At

/-! ## What a successful run ensures -/

/-- If the parser succeeds from this state, its result and the state after are such. -/
def Parser.Ensures {α : Type} (p : Parser α) (s : ParserState) (post : α → ParserState → Prop) : Prop :=
  ∀ x s', Runs p s x s' → post x s'

namespace Parser.Ensures
variable {α β : Type} {all : List Token} {n : Nat} {p : Parser α} {f : α → Parser β} {s : ParserState} {post : α → ParserState → Prop}
  {goal : β → ParserState → Prop}

theorem pure {x : α} (h : post x s) : Ensures (pure x) s post := by
  intro y s' hr
  obtain ⟨rfl, rfl⟩ := Runs.pure_iff.1 hr
  exact h

theorem throw (e : ParseError) : Ensures (throw e) s post := fun _ _ hr => (Runs.throw_iff.1 hr).elim

theorem mono {post' : α → ParserState → Prop} (h : p.Ensures s post) (himp : ∀ x s', post x s' → post' x s') : p.Ensures s post' :=
  fun x s' hr => himp x s' (h x s' hr)

theorem bind (h : p.Ensures s post) (h' : ∀ x t, post x t → (f x).Ensures t goal) : (p >>= f).Ensures s goal := by
  intro y s' hr
  obtain ⟨x, t, hp, hf⟩ := Runs.bind_iff.1 hr
  exact h' x t (h x t hp) y s' hf

/-- Whatever the first step does. -/
theorem after (h : ∀ x t, (f x).Ensures t goal) : (p >>= f).Ensures s goal := by
  intro y s' hr
  obtain ⟨x, t, -, hf⟩ := Runs.bind_iff.1 hr
  exact h x t y s' hf

theorem throw_bind (e : ParseError) : (MonadExcept.throw e >>= f).Ensures s goal := by
  intro y s' hr
  obtain ⟨x, t, hthrow, -⟩ := Runs.bind_iff.1 hr
  exact (Runs.throw_iff.1 hthrow).elim

theorem get_bind {f : ParserState → Parser β} (h : (f s).Ensures s goal) : (get >>= f).Ensures s goal :=
  fun y s' hr => h y s' (Runs.get_bind_iff.1 hr)

theorem remaining_bind {f : Nat → Parser β} (h : (f (s.tokens.length + 1)).Ensures s goal) : (remaining >>= f).Ensures s goal := h

theorem peek_bind {f : TokenKind → Parser β} (h : (f s.skipped.headKind).Ensures s.skipped goal) : (peek >>= f).Ensures s goal := by
  intro y s' hr
  obtain ⟨kind, t, hpeek, hf⟩ := Runs.bind_iff.1 hr
  obtain ⟨rfl, rfl⟩ := peek_iff.1 hpeek
  exact h y s' hf

theorem peekSpan_bind {f : Span → Parser β} (h : (f s.skipped.front.span).Ensures s.skipped goal) : (peekSpan >>= f).Ensures s goal := by
  intro y s' hr
  rw [Runs, show (ExceptT.run (peekSpan >>= f)).run s = _ from runFrom_bind (runFrom_peekSpan s)] at hr
  exact h y s' hr

theorem check_bind {mark : Mark} {f : Bool → Parser β}
    (h : ∀ b, (b = true → s.skipped.headKind = .mark mark) → (f b).Ensures s.skipped goal) : (check mark >>= f).Ensures s goal := by
  intro y s' hr
  obtain ⟨b, t, hcheck, hf⟩ := Runs.bind_iff.1 hr
  obtain ⟨hb, rfl⟩ := check_iff.1 hcheck
  exact h b (fun htrue => of_decide_eq_true (hb ▸ htrue)) y s' hf

/-- Reads a token, where the end of input leads to no result. -/
theorem advance_bind {f : Token → Parser β} (hs : s.At all n)
    (hend : ∀ t s', t.kind = .endOfInput → t = s.skipped.front → (f t).Ensures s' goal)
    (h : ∀ (t : Token) (s' : ParserState), t = s.skipped.front → t.From all n → s'.At all t.span.stop.offset →
      s'.arena = s.arena → (f t).Ensures s' goal) : (advance >>= f).Ensures s goal := by
  intro y s' hr
  obtain ⟨t, s₁, hadvance, hf⟩ := Runs.bind_iff.1 hr
  have hfront := (advance_iff.1 hadvance).1
  by_cases hk : t.kind = .endOfInput
  · exact hend t s₁ hk hfront y s' hf
  · obtain ⟨hread, hs₁, harena⟩ := hs.advance hadvance hk
    exact h t s₁ hfront hread hs₁ harena y s' hf

/-- Reads a token that was looked at. -/
theorem advance_bind_of {f : Token → Parser β} {kind : TokenKind} (hs : s.At all n) (hkind : s.skipped.headKind = kind)
    (hend : kind ≠ .endOfInput) (h : ∀ (t : Token) (s' : ParserState), t.kind = kind → t.From all n → s'.At all t.span.stop.offset →
      s'.arena = s.arena → (f t).Ensures s' goal) : (advance >>= f).Ensures s.skipped goal := by
  have hfront : s.skipped.skipped.front.kind = kind := by rw [ParserState.kind_front, skipped_skipped, hkind]
  refine advance_bind hs.skipped (fun t s' hk ht => ?_) fun t s' ht => h t s' (ht ▸ hfront)
  rw [ht, hfront] at hk
  exact absurd hk hend

theorem expect_bind {mark : Mark} {f : Token → Parser β} (hs : s.At all n)
    (h : ∀ (t : Token) (s' : ParserState), t.From all n → s'.At all t.span.stop.offset → s'.arena = s.arena → (f t).Ensures s' goal) :
    (expect mark >>= f).Ensures s goal := by
  unfold expect
  rw [bind_assoc]
  refine advance_bind hs (fun t s' hk _ => ?_) fun t s' _ hread hs' harena => ?_
  · rw [if_neg (by rw [hk]; nofun)]
    exact throw_bind _
  · split
    · rw [pure_bind]
      exact h t s' hread hs' harena
    · exact throw_bind _

theorem identifier_bind {due : Expectation} {f : Declaration → Parser β} (hs : s.At all n)
    (h : ∀ (d : Declaration) (s' : ParserState), d.Stands all .identifier n d.span.stop.offset → s'.At all d.span.stop.offset →
      s'.arena = s.arena → (f d).Ensures s' goal) : (identifier due >>= f).Ensures s goal := by
  unfold identifier
  rw [bind_assoc]
  refine advance_bind hs (fun t s' hk _ => ?_) fun t s' _ hread hs' harena => ?_
  · rw [hk]
    exact throw_bind _
  · split
    · next name hk =>
      rw [pure_bind]
      exact h ⟨name, t.span⟩ s' ⟨⟨t, hread, hk, rfl⟩, Nat.le_refl _⟩ hs' harena
    · exact throw_bind _

theorem spanOf_bind {id : NodeId} {f : Span → Parser β} (h : (f (s.arena.span id)).Ensures s goal) :
    (spanOf id >>= f).Ensures s goal := h

theorem spanAcross_bind {first last : NodeId} {f : Span → Parser β}
    (h : (f ((s.arena.span first).merge (s.arena.span last))).Ensures s goal) : (spanAcross first last >>= f).Ensures s goal := h

theorem makeNode {e : Expr} {span : Span} {post : NodeId → ParserState → Prop} (h : post ⟨s.arena.size⟩ (s.push ⟨e, span⟩)) :
    (makeNode e span).Ensures s post := by
  intro x s' hr
  rw [Runs, show (ExceptT.run (Parser.makeNode e span)).run s = _ from runFrom_makeNode e span s] at hr
  cases hr
  exact h

end Parser.Ensures

/-! ## Variables -/

/-- Names were read one after the other from an offset on, and no node was made. -/
def Declared (all : List Token) (kind : String → TokenKind) (n : Nat) (a : Arena) (ds : List Declaration) (s : ParserState) : Prop :=
  ∃ m, n ≤ m ∧ s.At all m ∧ s.arena = a ∧ ∀ d ∈ ds, d.Stands all kind n m

namespace Declared
variable {all : List Token} {kind : String → TokenKind} {n m : Nat} {a : Arena} {d : Declaration} {ds : List Declaration}
  {s : ParserState}

theorem nil (hs : s.At all m) (hle : n ≤ m) (ha : s.arena = a) : Declared all kind n a [] s := ⟨m, hle, hs, ha, nofun⟩

theorem mono (h : Declared all kind n a ds s) (hle : m ≤ n) : Declared all kind m a ds s := by
  obtain ⟨k, hk, hs, ha, hds⟩ := h
  exact ⟨k, Nat.le_trans hle hk, hs, ha, fun d hd => (hds d hd).mono hle (Nat.le_refl _)⟩

theorem cons (hd : d.Stands all kind n d.span.stop.offset) (h : Declared all kind d.span.stop.offset a ds s) :
    Declared all kind n a (d :: ds) s := by
  have hle : n ≤ d.span.stop.offset := by
    obtain ⟨t, ht, -, hspan⟩ := hd.read
    have := ht.le
    have := ht.lt
    rw [← hspan]
    omega
  obtain ⟨m, hm, hs, ha, hds⟩ := h
  refine ⟨m, Nat.le_trans hle hm, hs, ha, List.forall_mem_cons.2 ⟨hd.mono (Nat.le_refl _) hm, fun d' hd' => ?_⟩⟩
  exact (hds d' hd').mono hle (Nat.le_refl _)

end Declared

namespace Parser
variable {all : List Token} {n : Nat} {s : ParserState} {k : Nat}

theorem declares_namesToBar (k : Nat) (hs : s.At all n) : (namesToBar k).Ensures s (Declared all .identifier n s.arena) := by
  induction k generalizing s n with
  | zero => exact .pure (.nil hs (Nat.le_refl _) rfl)
  | succ k ih =>
    refine .check_bind fun b hb => ?_
    split
    · next hbar =>
      exact .advance_bind_of hs (hb hbar) nofun fun t s₁ _ hread hs₁ e₁ => .pure (.nil hs₁ hread.le_stop e₁)
    · refine .identifier_bind hs.skipped fun d s₁ hd hs₁ e₁ => ?_
      refine (ih hs₁).bind fun ds s₂ hds => .pure ?_
      rw [e₁] at hds
      exact .cons hd hds

theorem declares_variableList (k : Nat) (hs : s.At all n) : (variableList k).Ensures s (Declared all .identifier n s.arena) := by
  refine .peek_bind ?_
  split
  · next hbars =>
    exact .advance_bind_of hs hbars (by simp [doubleBar]) fun t s₁ _ hread hs₁ e₁ => .pure (.nil hs₁ hread.le_stop e₁)
  · refine .expect_bind hs.skipped fun t s₁ hread hs₁ e₁ => ?_
    refine (declares_namesToBar k hs₁).mono fun ds s₂ hds => ?_
    rw [e₁] at hds
    exact hds.mono hread.le_stop

theorem declares_optionalVariables (k : Nat) (hs : s.At all n) :
    (optionalVariables k).Ensures s (Declared all .identifier n s.arena) := by
  unfold optionalVariables atVariables
  rw [bind_assoc]
  refine .peek_bind ?_
  rw [pure_bind]
  split
  · exact declares_variableList k hs.skipped
  · exact .pure (.nil hs.skipped (Nat.le_refl _) rfl)

theorem declares_blockParams (k : Nat) (hs : s.At all n) : (blockParams k).Ensures s (Declared all .argument n s.arena) := by
  induction k generalizing s n with
  | zero => exact .pure (.nil hs (Nat.le_refl _) rfl)
  | succ k ih =>
    refine .peek_bind ?_
    split
    · next name hkind =>
      refine .advance_bind_of hs hkind (by simp) fun t s₁ hk hread hs₁ e₁ => (ih hs₁).bind fun ds s₂ hds => .pure ?_
      rw [e₁] at hds
      exact .cons ⟨⟨t, hread, hk, rfl⟩, Nat.le_refl _⟩ hds
    · exact .pure (.nil hs.skipped (Nat.le_refl _) rfl)

theorem declares_paramsEnd (k : Nat) (hs : s.At all n) : (paramsEnd k).Ensures s (Declared all .identifier n s.arena) := by
  refine .peek_bind ?_
  split
  · next hbars =>
    refine .advance_bind_of hs hbars (by simp [doubleBar]) fun t s₁ _ hread hs₁ e₁ => ?_
    refine (declares_namesToBar k hs₁).mono fun ds s₂ hds => ?_
    rw [e₁] at hds
    exact hds.mono hread.le_stop
  · exact .expect_bind hs.skipped fun t s₁ hread hs₁ e₁ => .pure (.nil hs₁ hread.le_stop e₁)

theorem declares_blockTemps (k : Nat) (params : List Declaration) (hs : s.At all n) :
    (blockTemps k params).Ensures s (Declared all .identifier n s.arena) := by
  have hrest : ∀ (early : List Declaration) (t : ParserState), Declared all .identifier n s.arena early t →
      Ensures (if early.isEmpty then optionalVariables k else pure early) t (Declared all .identifier n s.arena) := by
    rintro early t ⟨m, hm, ht, ha, hearly⟩
    split
    · rw [← ha]
      exact (declares_optionalVariables k ht).mono fun _ _ hds => hds.mono hm
    · exact .pure ⟨m, hm, ht, ha, hearly⟩
  unfold blockTemps
  split
  · exact (Ensures.pure (.nil hs (Nat.le_refl _) rfl)).bind hrest
  · exact (declares_paramsEnd k hs).bind hrest

end Parser

end BlockScope
