import BlockScope.Proofs.Program.Coupling
import BlockScope.Proofs.Program.Precedence
/-!
# How binary messages group

There are two tiers of operators, and each is read from the left. `grouped` says what that means for a run of operators with an
operand each: the stretches of tighter operators are folded first, and then what they give is folded over the other operators.
`binary_messages_grouped` shows that one loop with a rising and falling precedence does just this.

An operand stands for whatever a parser with no nodes of its own reads there. In the run itself its nodes come after those that are
there already, which is a coupling (`Coupling.moved`).
-/
namespace BlockScope
open BlockScope.Parser

/-! ## Groupings -/

/-- Something that messages are sent to, or with: a node that is there, or what has been read, with its nodes. -/
inductive Operand where
  | given (id : NodeId)
  | read (root : NodeId) (nodes : Arena)

/-- Binary messages between operands. -/
inductive Grouping where
  | operand (u : Operand)
  | send (receiver : Grouping) (operator : String) (argument : Grouping)

namespace Grouping

/-- The operators of the tighter tier. -/
def tight (operator : String) : Bool := operator ∈ ["*", "/", "\\\\"]

/-- The messages of the tighter tier that come first, folded to the left. -/
def factors (t : Grouping) (us : List (String × Operand)) : Grouping :=
  (us.takeWhile (tight ·.1)).foldl (fun t u => .send t u.1 (.operand u.2)) t

/-- The operators of the other tier, each with its operand and the stretch of tighter operators behind that. -/
def terms : List (String × Operand) → List (String × Grouping)
  | [] => []
  | (operator, u) :: us => if tight operator then terms us else (operator, factors (.operand u) us) :: terms us

/-- First the stretches of tighter operators are folded, and then the results. -/
def grouped (t : Grouping) (us : List (String × Operand)) : Grouping :=
  (terms us).foldl (fun t u => .send t u.1 u.2) (factors t us)

/-- The operands from left to right. -/
def operands : Grouping → List Operand
  | .operand u => [u]
  | .send receiver _ argument => receiver.operands ++ argument.operands

variable {operator : String} {t : Grouping} {u : Operand} {us : List (String × Operand)}

theorem factors_tight (h : tight operator) : factors t ((operator, u) :: us) = factors (.send t operator (.operand u)) us := by
  simp [factors, h]

theorem factors_loose (h : tight operator = false) : factors t ((operator, u) :: us) = t := by simp [factors, h]

theorem grouped_tight (h : tight operator) : grouped t ((operator, u) :: us) = grouped (.send t operator (.operand u)) us := by
  simp only [grouped, factors_tight h, terms, h, if_true]

/-- Past the tighter operators that come first, there are none until the next other operator. -/
theorem grouped_dropWhile (t : Grouping) (us : List (String × Operand)) :
    grouped t (us.dropWhile (tight ·.1)) = (terms us).foldl (fun t u => .send t u.1 u.2) t := by
  induction us with
  | nil => rfl
  | cons u us ih =>
    obtain ⟨operator, u⟩ := u
    cases h : tight operator with
    | true => simpa only [List.dropWhile_cons, h, if_true, terms] using ih
    | false => simp only [List.dropWhile_cons, h, Bool.false_eq_true, if_false, grouped, factors_loose h]

theorem grouped_loose (h : tight operator = false) : grouped t ((operator, u) :: us) =
    grouped (.send t operator (factors (.operand u) us)) (us.dropWhile (tight ·.1)) := by
  rw [grouped_dropWhile, grouped, factors_loose h, terms, if_neg (by simp [h]), List.foldl_cons]

theorem operands_factors (t : Grouping) (us : List (String × Operand)) :
    (factors t us).operands = t.operands ++ (us.takeWhile (tight ·.1)).map (·.2) := by
  induction us generalizing t with
  | nil => simp [factors]
  | cons u us ih =>
    obtain ⟨operator, u⟩ := u
    cases h : tight operator with
    | true => rw [factors_tight h, ih]; simp [operands, h]
    | false => rw [factors_loose h]; simp [h]

theorem operands_terms (t : Grouping) (us : List (String × Operand)) :
    ((terms us).foldl (fun t u => .send t u.1 u.2) t).operands = t.operands ++ (us.dropWhile (tight ·.1)).map (·.2) := by
  induction us generalizing t with
  | nil => simp [terms]
  | cons u us ih =>
    obtain ⟨operator, u⟩ := u
    cases h : tight operator with
    | true => simpa only [List.dropWhile_cons, h, if_true, terms] using ih t
    | false =>
      rw [terms, if_neg (by simp [h]), List.foldl_cons, ih, operands, operands_factors, List.append_assoc, List.append_assoc,
        ← List.map_append, List.takeWhile_append_dropWhile]
      simp [operands, h]

/-- Grouping leaves the operands in order. -/
theorem operands_grouped (t : Grouping) (us : List (String × Operand)) : (grouped t us).operands = t.operands ++ us.map (·.2) := by
  rw [grouped, operands_terms, operands_factors, List.append_assoc, ← List.map_append, List.takeWhile_append_dropWhile]

end Grouping

/-- Which node a grouping is. Of what has been read there is a copy, with all nodes so many places later. -/
def Arena.Spells (a : Arena) : Grouping → NodeId → Prop
  | .operand (.given id), x => x = id
  | .operand (.read root nodes), x => ∃ d, x = root.shift d ∧
    ∀ id node, nodes.get? id = some node → a.get? (id.shift d) = some (node.shift d)
  | .send receiver operator argument, x => ∃ l r, a.expr? x = some (.send l operator [r]) ∧ a.Spells receiver l ∧ a.Spells argument r

theorem Arena.Spells.mono {a b : Arena} {t : Grouping} {x : NodeId} (h : a.Spells t x) (hab : a.Before b) : b.Spells t x := by
  induction t generalizing x with
  | operand u =>
    cases u with
    | given id => exact h
    | read root nodes =>
      obtain ⟨d, hx, hcopy⟩ := h
      exact ⟨d, hx, fun id node hnode => hab.get _ _ (hcopy id node hnode)⟩
  | send receiver operator argument ihr iha =>
    obtain ⟨l, r, hx, hl, hr⟩ := h
    exact ⟨l, r, hab.expr hx, ihr hl, iha hr⟩

/-! ## Reading in another place -/

namespace ParserState

/-- The state without its nodes. -/
def bare (s : ParserState) : ParserState := { s with arena := .empty }

variable {s t : ParserState}

theorem front_of_bare (h : t.bare = s.bare) : t.skipped.front = s.skipped.front := by
  have hfront (s : ParserState) : s.skipped.front = s.bare.skipped.front := rfl
  rw [hfront, h, ← hfront]

theorem headKind_of_bare (h : t.bare = s.bare) : t.skipped.headKind = s.skipped.headKind := by
  rw [← kind_front, front_of_bare h, kind_front]

theorem bare_behind (s : ParserState) : s.skipped.behind.bare = s.bare.skipped.behind := by
  have hskipped : s.bare.skipped = s.skipped.bare := rfl
  rw [hskipped]
  cases htokens : s.skipped.tokens with
  | nil => simp only [behind, bare, htokens]
  | cons t ts => simp only [behind, bare, htokens]

end ParserState

/-- The second state is the first with so many other nodes in front. -/
structure Moved (d : Nat) (s t : ParserState) : Prop where
  bare : t.bare = s.bare
  size : t.arena.size = s.arena.size + d
  get? : ∀ id, t.arena.get? (id.shift d) = (s.arena.get? id).map (·.shift d)

namespace Moved
variable {d : Nat} {s t : ParserState}

theorem behind (h : Moved d s t) : Moved d s.skipped.behind t.skipped.behind := by
  constructor
  · rw [ParserState.bare_behind, ParserState.bare_behind, h.bare]
  · rw [ParserState.arena_behind, ParserState.arena_behind]; exact h.size
  · rw [ParserState.arena_behind, ParserState.arena_behind]; exact h.get?

theorem push (h : Moved d s t) (node : Node) : Moved d (s.push node) (t.push (node.shift d)) := by
  refine ⟨h.bare, ?_, fun id => ?_⟩
  · simp only [ParserState.push, Arena.size_push, h.size]
    omega
  · simp only [ParserState.push, Arena.get?_push, NodeId.shift, h.size, Nat.add_right_cancel_iff]
    split
    · rfl
    · exact h.get? id

end Moved

def Coupling.moved (d : Nat) : Coupling d where
  States := Moved d
  Place _ := True
  merge _ _ := trivial
  skipped h := ⟨congrArg ParserState.skipped h.bare, h.size, h.get?⟩
  front h := ParserState.front_of_bare h.bare
  place_front _ := trivial
  behind h _ := h.behind
  size h := h.size
  get? h := h.get?
  place_span _ _ := trivial
  push h node _ := h.push node

/-- What can be read with no nodes around can be read among other nodes. -/
theorem Parser.runs_operandWithin_of_bare {depth : Nat} {s s₁ : ParserState} {root : NodeId} (h : Runs (operandWithin depth) s.bare root s₁) :
    ∃ x s', Runs (operandWithin depth) s x s' ∧ s'.bare = s₁.bare ∧ s.arena.Before s'.arena ∧
      s'.arena.Spells (.operand (.read root s₁.arena)) x := by
  have hstart : Moved s.arena.size s.bare s := by
    refine ⟨rfl, (Nat.zero_add _).symm, fun id => ?_⟩
    exact Array.getElem?_eq_none (Nat.le_add_left _ _)
  have hpairs := (Coupling.moved s.arena.size).couples_unaryLevel (Coupling.couples_expressionWithin depth) (depth + 1) hstart
  unfold Coupling.Pairs at hpairs
  rw [show Parser.runFrom _ s.bare = _ from h] at hpairs
  obtain ⟨s', hrun, hmoved⟩ := hpairs
  have hmakes : Makes (fun _ => True) (operandWithin depth) (.one .operand) :=
    makes_unaryLevel receivers_trivial (makes_expressionWithin receivers_trivial depth)
  refine ⟨root.shift s.arena.size, s', hrun, hmoved.bare, (hmakes _ _ _ hrun).1.arena, s.arena.size, rfl, fun id node hnode => ?_⟩
  rw [hmoved.get?, hnode]
  rfl

/-! ## Reading a run of operators -/

/-- Operators follow, with an operand each, and then something else. Every operand is read with no nodes around. -/
inductive OperatorRun (depth : Nat) : ParserState → List (String × Operand) → ParserState → Prop where
  | done {s : ParserState} (other : ∀ operator, s.skipped.headKind ≠ .operator operator) : OperatorRun depth s [] s.skipped.bare
  | step {s s₁ s₂ s' : ParserState} {token : Token} {operator : String} {root : NodeId} {us : List (String × Operand)}
    (sign : Runs advance s token s₁) (kind : token.kind = .operator operator)
    (operand : Runs (operandWithin depth) s₁.bare root s₂) (rest : OperatorRun depth s₂ us s') :
    OperatorRun depth s ((operator, .read root s₂.arena) :: us) s'

namespace OperatorRun
variable {depth : Nat} {s t s' : ParserState} {operator : String} {u : Operand} {us : List (String × Operand)}

/-- Nodes that are there already make no difference. -/
theorem of_bare (h : OperatorRun depth s us s') (hbare : t.bare = s.bare) : OperatorRun depth t us s' := by
  cases h with
  | done other =>
    have hskipped : t.skipped.bare = s.skipped.bare := congrArg ParserState.skipped hbare
    rw [← hskipped]
    exact .done fun operator hkind => other operator (by rw [← ParserState.headKind_of_bare hbare, hkind])
  | step sign kind operand rest =>
    obtain ⟨rfl, rfl⟩ := advance_iff.1 sign
    refine .step (runFrom_advance t) (by rw [ParserState.front_of_bare hbare]; exact kind) ?_ rest
    rwa [ParserState.bare_behind, hbare, ← ParserState.bare_behind]

/-- Comments in front make none either. -/
theorem skipped (h : OperatorRun depth s us s') : OperatorRun depth s.skipped us s' := by
  cases h with
  | done other =>
    have hdone : OperatorRun depth s.skipped [] s.skipped.skipped.bare := .done (by rwa [skipped_skipped])
    rwa [skipped_skipped] at hdone
  | step sign kind operand rest =>
    exact .step ((runFrom_advance_skipped s).trans sign) kind operand rest

theorem headKind_nil (h : OperatorRun depth s [] s') : ∀ operator, s.skipped.headKind ≠ .operator operator := by
  cases h with
  | done other => exact other

theorem headKind_cons (h : OperatorRun depth s ((operator, u) :: us) s') : s.skipped.headKind = .operator operator := by
  cases h with
  | step sign kind operand rest => exact (headKind_of_advance sign).trans kind

/-- The operand behind the first operator can be read, and the others follow it. -/
theorem first (h : OperatorRun depth s ((operator, u) :: us) s') :
    ∃ x t, Runs (operandWithin depth) s.skipped.behind x t ∧ s.arena.Before t.arena ∧ t.arena.Spells (.operand u) x ∧
      OperatorRun depth t us s' := by
  cases h with
  | step sign kind operand rest =>
    obtain ⟨-, rfl⟩ := advance_iff.1 sign
    obtain ⟨x, t, hrun, hbare, hbefore, hspells⟩ := runs_operandWithin_of_bare operand
    rw [ParserState.arena_behind] at hbefore
    exact ⟨x, t, hrun, hbefore, hspells, rest.of_bare hbare⟩

end OperatorRun

/-! ## The two tiers -/

namespace Parser
open Grouping

theorem precedence_tight {operator : String} (h : tight operator) : precedence operator = 2 := if_pos (of_decide_eq_true h)

theorem precedence_loose {operator : String} (h : tight operator = false) : precedence operator = 1 := if_neg (of_decide_eq_false h)

section Messages
variable {operand : Parser NodeId} {operator : String} {n least : Nat} {s s₁ s₂ s' : ParserState} {left first right x : NodeId}

theorem runs_binaryMessages_end (h : ∀ operator, s.skipped.headKind = .operator operator → precedence operator < least) :
    Runs (binaryMessages operand (n + 1) least left) s left s.skipped := by
  refine Runs.bind_iff.2 ⟨_, _, runFrom_peek s, ?_⟩
  split
  · next operator hkind => rw [if_pos (h operator hkind)]; exact Runs.pure_iff.2 ⟨rfl, rfl⟩
  · exact Runs.pure_iff.2 ⟨rfl, rfl⟩

theorem runs_binaryMessages_send (hkind : s.skipped.headKind = .operator operator) (hleast : least ≤ precedence operator)
    (hfirst : Runs operand s.skipped.behind first s₁) (hright : Runs (binaryMessages operand n (precedence operator + 1) first) s₁ right s₂)
    (hrest : Runs (binaryMessages operand n least ⟨s₂.arena.size⟩)
      (s₂.push ⟨.send left operator [right], (s₂.arena.span left).merge (s₂.arena.span right)⟩) x s') :
    Runs (binaryMessages operand (n + 1) least left) s x s' := by
  refine Runs.bind_iff.2 ⟨_, _, runFrom_peek s, ?_⟩
  rw [hkind]
  dsimp only
  rw [if_neg (by omega)]
  have hadvance : Runs advance s.skipped s.skipped.front s.skipped.behind := (runFrom_advance_skipped s).trans (runFrom_advance s)
  refine Runs.bind_iff.2 ⟨_, _, hadvance, Runs.bind_iff.2 ⟨_, _, hfirst, Runs.bind_iff.2 ⟨_, _, hright, ?_⟩⟩⟩
  exact Runs.bind_iff.2 ⟨_, s₂, rfl, Runs.bind_iff.2 ⟨_, _, runFrom_makeNode _ _ _, hrest⟩⟩

end Messages

/-- Messages of at least this precedence can be read after a node, with such a result. -/
def Messages (depth n least : Nat) (left : NodeId) (s : ParserState) (post : NodeId → ParserState → Prop) : Prop :=
  ∃ x s', Runs (binaryMessages (operandWithin depth) n least left) s x s' ∧ s.arena.Before s'.arena ∧ post x s'

variable {depth n least : Nat} {left : NodeId} {s s' : ParserState} {operator : String} {t : Grouping} {u : Operand}
  {us : List (String × Operand)} {post : NodeId → ParserState → Prop}

/-- A message is read, then what binds tighter than it behind its operand, and then the rest. -/
theorem Messages.send {argument : Grouping} {rest : List (String × Operand)} (h : OperatorRun depth s ((operator, u) :: us) s')
    (hleft : s.arena.Spells t left) (hleast : least ≤ precedence operator)
    (hargument : ∀ y s₁, s₁.arena.Spells (.operand u) y → OperatorRun depth s₁ us s' →
      Messages depth n (precedence operator + 1) y s₁ fun z s₂ => s₂.arena.Spells argument z ∧ OperatorRun depth s₂ rest s')
    (hrest : ∀ y s₁, s₁.arena.Spells (.send t operator argument) y → OperatorRun depth s₁ rest s' → Messages depth n least y s₁ post) :
    Messages depth (n + 1) least left s post := by
  obtain ⟨first, s₁, hfirst, hbefore₁, hspells₁, hrun₁⟩ := h.first
  obtain ⟨right, s₂, hright, hbefore₂, hspells₂, hrun₂⟩ := hargument first s₁ hspells₁ hrun₁
  let node : Node := ⟨.send left operator [right], (s₂.arena.span left).merge (s₂.arena.span right)⟩
  have hpush : s₂.arena.Before (s₂.push node).arena := .push _ _
  have hnode : (s₂.push node).arena.Spells (.send t operator argument) ⟨s₂.arena.size⟩ :=
    ⟨left, right, Arena.expr?_push _ _, hleft.mono (hbefore₁.trans (hbefore₂.trans hpush)), hspells₂.mono hpush⟩
  obtain ⟨x, s₃, hmore, hbefore₃, hpost⟩ := hrest _ (s₂.push node) hnode (hrun₂.of_bare rfl)
  exact ⟨x, s₃, runs_binaryMessages_send h.headKind_cons hleast hfirst hright hmore,
    hbefore₁.trans (hbefore₂.trans (hpush.trans hbefore₃)), hpost⟩

/-- No operator binds tighter than the tighter ones. -/
theorem messages_none (h : OperatorRun depth s us s') (hleft : s.arena.Spells t left) (hn : 0 < n) :
    Messages depth n 3 left s fun x s₁ => s₁.arena.Spells t x ∧ OperatorRun depth s₁ us s' := by
  obtain ⟨n, rfl⟩ : ∃ m, n = m + 1 := ⟨n - 1, by omega⟩
  refine ⟨left, s.skipped, runs_binaryMessages_end fun operator _ => ?_, .refl _, hleft, h.skipped⟩
  rcases precedence_cases operator with hp | hp <;> omega

/-- A message of the tighter tier takes just one operand. -/
theorem Messages.sendTight (h : OperatorRun depth s ((operator, u) :: us) s') (hleft : s.arena.Spells t left) (htier : tight operator)
    (hleast : least ≤ 2) (hn : 0 < n)
    (hrest : ∀ y s₁, s₁.arena.Spells (.send t operator (.operand u)) y → OperatorRun depth s₁ us s' → Messages depth n least y s₁ post) :
    Messages depth (n + 1) least left s post := by
  have hprec := precedence_tight htier
  refine .send h hleft (by omega) (fun y s₁ hy h₁ => ?_) hrest
  rw [hprec]
  exact messages_none h₁ hy hn

/-- Of the tighter tier, all messages up to the next other operator are read. -/
theorem messages_tight (h : OperatorRun depth s us s') (hleft : s.arena.Spells t left) (hn : us.length < n) :
    Messages depth n 2 left s fun x s₁ => s₁.arena.Spells (factors t us) x ∧ OperatorRun depth s₁ (us.dropWhile (tight ·.1)) s' := by
  induction us generalizing n s t left with
  | nil =>
    obtain ⟨n, rfl⟩ : ∃ m, n = m + 1 := ⟨n - 1, by omega⟩
    refine ⟨left, s.skipped, runs_binaryMessages_end fun operator hkind => ?_, .refl _, hleft, h.skipped⟩
    exact absurd hkind (h.headKind_nil operator)
  | cons u us ih =>
    obtain ⟨operator, u⟩ := u
    obtain ⟨n, rfl⟩ : ∃ m, n = m + 1 := ⟨n - 1, by omega⟩
    rw [List.length_cons] at hn
    cases htier : tight operator with
    | true =>
      simp only [factors_tight htier, List.dropWhile_cons, htier, if_true]
      exact .sendTight h hleft htier (Nat.le_refl _) (by omega) fun y s₁ hy h₁ => ih h₁ hy (by omega)
    | false =>
      have hprec := precedence_loose htier
      simp only [factors_loose htier, List.dropWhile_cons, htier, Bool.false_eq_true, if_false]
      refine ⟨left, s.skipped, runs_binaryMessages_end fun operator' hkind => ?_, .refl _, hleft, h.skipped⟩
      cases h.headKind_cons.symm.trans hkind
      omega

/-- With both tiers, the whole run is read. -/
theorem messages_all (h : OperatorRun depth s us s') (hleft : s.arena.Spells t left) (hn : us.length < n) :
    Messages depth n 0 left s fun x s₁ => s₁.arena.Spells (grouped t us) x ∧ s₁.bare = s' := by
  induction n generalizing s t left us with
  | zero => omega
  | succ n ih =>
    cases us with
    | nil =>
      cases h with
      | done other =>
        refine ⟨left, s.skipped, runs_binaryMessages_end fun operator hkind => ?_, .refl _, hleft, rfl⟩
        exact absurd hkind (other operator)
    | cons u us =>
      obtain ⟨operator, u⟩ := u
      rw [List.length_cons] at hn
      cases htier : tight operator with
      | true =>
        rw [grouped_tight htier]
        exact .sendTight h hleft htier (Nat.zero_le _) (by omega) fun y s₁ hy h₁ => ih h₁ hy (by omega)
      | false =>
        -- Behind the operand the tighter operators are read, and the loop goes on where they end.
        have hle : (us.dropWhile (tight ·.1)).length ≤ us.length := (List.dropWhile_sublist _).length_le
        rw [grouped_loose htier]
        refine .send h hleft (Nat.zero_le _) (fun y s₁ hy h₁ => ?_)
          fun y s₁ hy h₁ => ih h₁ hy (by omega)
        rw [precedence_loose htier]
        exact messages_tight h₁ hy (by omega)

end Parser

/-- A run of operators with an operand each, after any node and up to something else, is read as a whole. The result is its grouping by
tiers, which has the operands in order. The bound of the parser exceeds the number of tokens left, so that of operators too. -/
theorem binary_messages_grouped {depth n : Nat} {s s' : ParserState} {us : List (String × Operand)} (left : NodeId)
    (h : OperatorRun depth s us s') (hn : us.length < n) :
    ∃ x t, Runs (binaryMessages (operandWithin depth) n 0 left) s x t ∧ t.bare = s' ∧ s.arena.Before t.arena ∧
      t.arena.Spells (.grouped (.operand (.given left)) us) x ∧
      (Grouping.grouped (.operand (.given left)) us).operands = .given left :: us.map (·.2) := by
  obtain ⟨x, t, hrun, hbefore, hspells, hbare⟩ := messages_all h (t := .operand (.given left)) rfl hn
  exact ⟨x, t, hrun, hbare, hbefore, hspells, Grouping.operands_grouped _ _⟩

/-- A product between two sums. -/
theorem binary_messages_grouped_mixed :
    let state (kinds : List TokenKind) (nodes : Arena) : ParserState := ⟨kinds.map (⟨·, .point .origin, ""⟩), nodes, .point .origin, false⟩
    let nodes (value : Int64) : Arena := ⟨#[⟨.literal (.integer value), .point .origin⟩]⟩
    let s := state [.operator "+", .integer 2, .operator "*", .integer 3, .operator "-", .integer 4, .mark .rightBracket] (nodes 1)
    ∃ x t, Runs (binaryMessages (operandWithin 7) 8 0 ⟨0⟩) s x t ∧ t.bare = state [.mark .rightBracket] .empty ∧
      t.arena.Spells (.send (.send (.operand (.given ⟨0⟩)) "+" (.send (.operand (.read ⟨0⟩ (nodes 2))) "*" (.operand (.read ⟨0⟩ (nodes 3)))))
        "-" (.operand (.read ⟨0⟩ (nodes 4)))) x := by
  intro state nodes s
  have h₁ : OperatorRun 7 (state [.mark .rightBracket] (nodes 4)) [] (state [.mark .rightBracket] .empty) := .done fun _ h => by cases h
  have h₂ : OperatorRun 7 (state [.operator "-", .integer 4, .mark .rightBracket] (nodes 3)) [("-", .read ⟨0⟩ (nodes 4))]
      (state [.mark .rightBracket] .empty) :=
    .step (runFrom_advance _) rfl (by rfl) h₁
  have h₃ : OperatorRun 7 (state [.operator "*", .integer 3, .operator "-", .integer 4, .mark .rightBracket] (nodes 2))
      [("*", .read ⟨0⟩ (nodes 3)), ("-", .read ⟨0⟩ (nodes 4))] (state [.mark .rightBracket] .empty) :=
    .step (runFrom_advance _) rfl (by rfl) h₂
  have h₄ : OperatorRun 7 s [("+", .read ⟨0⟩ (nodes 2)), ("*", .read ⟨0⟩ (nodes 3)), ("-", .read ⟨0⟩ (nodes 4))]
      (state [.mark .rightBracket] .empty) :=
    .step (runFrom_advance _) rfl (by rfl) h₃
  obtain ⟨x, t, hrun, hbare, -, hspells, -⟩ := binary_messages_grouped (n := 8) ⟨0⟩ h₄ (by simp)
  exact ⟨x, t, hrun, hbare, hspells⟩

end BlockScope
