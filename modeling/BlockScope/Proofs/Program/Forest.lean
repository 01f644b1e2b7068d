import BlockScope.Program.Walk
import Mathlib.Data.List.Nodup
/-!
# Programs as forests

A parsed arena is laid out in the order in which nodes are finished: the parts of a node fill the places
right before it, without a gap. `Arena.Fills` says so of one piece of syntax and the places it takes. The
one exception to a plain tree is a cascade, whose messages reach back to a receiver that stands before all
of them: a message is a send on a send down to that shared base.

From the layout follow the facts about walks that need nothing else: parts come before their node
(`Fills.closed`), and what a walk reaches from a piece are different places of that piece
(`Fills.spread`).
-/
namespace BlockScope

theorem NodeId.eq_of_lt_succ {id : NodeId} {n : Nat} (h : id.index < n + 1) (hn : ¬ id.index < n) : id = ⟨n⟩ := by
  cases id
  simp only [NodeId.mk.injEq] at h hn ⊢
  omega

/-- What a node is to the one it is a part of. -/
inductive Standing where
  | operand
  | statement
  /-- A message of a cascade on `base`, or the receiver of one that itself is sent to `base`. -/
  | message (base : NodeId)

/-- The node before all messages of a cascade, which they reach back to. -/
def Standing.base? : Standing → Option NodeId
  | .message base => some base
  | _ => none

/-- A stretch of syntax: a node, or several one after the other. -/
inductive Piece where
  | one (st : Standing) (id : NodeId)
  | row (st : Standing) (ids : List NodeId)

def Piece.standing : Piece → Standing
  | .one st _ | .row st _ => st

/-- The piece takes, with all its parts, the places from the first number up to the second. -/
inductive Arena.Fills (a : Arena) : Piece → Nat → Nat → Prop where
  | literal {n : Nat} {value : Literal} (h : a.expr? ⟨n⟩ = some (.literal value)) :
    a.Fills (.one .operand ⟨n⟩) n (n + 1)
  | ident {n : Nat} {name : String} (h : a.expr? ⟨n⟩ = some (.ident name)) :
    a.Fills (.one .operand ⟨n⟩) n (n + 1)
  | assign {n lo mid : Nat} {target value : NodeId} {name : String}
    (h : a.expr? ⟨n⟩ = some (.assign target value)) (isName : a.expr? target = some (.ident name))
    (first : a.Fills (.one .operand target) lo mid) (rest : a.Fills (.one .operand value) mid n) :
    a.Fills (.one .operand ⟨n⟩) lo (n + 1)
  | send {n lo mid : Nat} {receiver : NodeId} {selector : String} {args : List NodeId}
    (h : a.expr? ⟨n⟩ = some (.send receiver selector args)) (first : a.Fills (.one .operand receiver) lo mid)
    (rest : a.Fills (.row .operand args) mid n) : a.Fills (.one .operand ⟨n⟩) lo (n + 1)
  | cascade {n lo mid : Nat} {receiver : NodeId} {messages : List NodeId}
    (h : a.expr? ⟨n⟩ = some (.cascade receiver messages))
    (first : a.Fills (.one .operand receiver) lo mid)
    (rest : a.Fills (.row (.message receiver) messages) mid n) : a.Fills (.one .operand ⟨n⟩) lo (n + 1)
  | block {n lo : Nat} {params temps : List Declaration} {body : List NodeId}
    (h : a.expr? ⟨n⟩ = some (.block params temps body)) (rest : a.Fills (.row .statement body) lo n) :
    a.Fills (.one .operand ⟨n⟩) lo (n + 1)
  | paren {n lo : Nat} {inner : NodeId} (h : a.expr? ⟨n⟩ = some (.paren inner))
    (rest : a.Fills (.one .operand inner) lo n) : a.Fills (.one .operand ⟨n⟩) lo (n + 1)
  | array {n lo : Nat} {elements : List NodeId} (h : a.expr? ⟨n⟩ = some (.array elements))
    (rest : a.Fills (.row .operand elements) lo n) : a.Fills (.one .operand ⟨n⟩) lo (n + 1)
  | expression {lo hi : Nat} {id : NodeId} (h : a.Fills (.one .operand id) lo hi) :
    a.Fills (.one .statement id) lo hi
  | ret {n lo : Nat} {value : NodeId} (h : a.expr? ⟨n⟩ = some (.ret value))
    (rest : a.Fills (.one .operand value) lo n) : a.Fills (.one .statement ⟨n⟩) lo (n + 1)
  | direct {n lo : Nat} {base : NodeId} {selector : String} {args : List NodeId}
    (h : a.expr? ⟨n⟩ = some (.send base selector args)) (rest : a.Fills (.row .operand args) lo n) :
    a.Fills (.one (.message base) ⟨n⟩) lo (n + 1)
  | chain {n lo mid : Nat} {base receiver : NodeId} {selector : String} {args : List NodeId}
    (h : a.expr? ⟨n⟩ = some (.send receiver selector args))
    (first : a.Fills (.one (.message base) receiver) lo mid) (rest : a.Fills (.row .operand args) mid n) :
    a.Fills (.one (.message base) ⟨n⟩) lo (n + 1)
  | nil {lo : Nat} {st : Standing} : a.Fills (.row st []) lo lo
  | cons {lo mid hi : Nat} {st : Standing} {id : NodeId} {ids : List NodeId}
    (first : a.Fills (.one st id) lo mid) (rest : a.Fills (.row st ids) mid hi) :
    a.Fills (.row st (id :: ids)) lo hi

/-- Every node keeps its place, and more may follow. -/
structure Arena.Before (a b : Arena) : Prop where
  size : a.size ≤ b.size
  get : ∀ id node, a.get? id = some node → b.get? id = some node

namespace Arena
variable {a b c : Arena} {piece : Piece} {st : Standing} {lo mid hi : Nat} {id base x : NodeId}
  {ids : List NodeId}

namespace Before

theorem refl (a : Arena) : a.Before a := ⟨Nat.le_refl _, fun _ _ h => h⟩

theorem trans (h : a.Before b) (h' : b.Before c) : a.Before c :=
  ⟨Nat.le_trans h.size h'.size, fun id node hn => h'.get id node (h.get id node hn)⟩

theorem push (a : Arena) (node : Node) : a.Before (a.push node).2 := by
  constructor
  · simp [Arena.push, Arena.size]
  · intro id node' h
    simp only [Arena.get?, Arena.push] at h ⊢
    obtain ⟨hlt, -⟩ := Array.getElem?_eq_some_iff.1 h
    rw [Array.getElem?_push_lt hlt, ← h, Array.getElem?_eq_getElem hlt]

theorem expr {e : Expr} (h : a.Before b) (he : a.expr? id = some e) : b.expr? id = some e := by
  obtain ⟨node, hn, rfl⟩ := Option.map_eq_some_iff.1 he
  simp [Arena.expr?, h.get id node hn]

end Before

theorem expr?_push (a : Arena) (node : Node) : (a.push node).2.expr? ⟨a.size⟩ = some node.expr := by
  simp [Arena.expr?, Arena.get?, Arena.push, Arena.size]

theorem size_push (a : Arena) (node : Node) : (a.push node).2.size = a.size + 1 := by
  simp [Arena.push, Arena.size]

theorem children_of_expr {e : Expr} (h : a.expr? id = some e) : a.children id = e.children := by
  simp [Arena.children, h]

namespace Fills

theorem mono (h : a.Fills piece lo hi) (hab : a.Before b) : b.Fills piece lo hi := by
  induction h with
  | literal h => exact .literal (hab.expr h)
  | ident h => exact .ident (hab.expr h)
  | assign h isName _ _ iht ihv => exact .assign (hab.expr h) (hab.expr isName) iht ihv
  | send h _ _ ihr iha => exact .send (hab.expr h) ihr iha
  | cascade h _ _ ihr ihm => exact .cascade (hab.expr h) ihr ihm
  | block h _ ih => exact .block (hab.expr h) ih
  | paren h _ ih => exact .paren (hab.expr h) ih
  | array h _ ih => exact .array (hab.expr h) ih
  | expression _ ih => exact .expression ih
  | ret h _ ih => exact .ret (hab.expr h) ih
  | direct h _ ih => exact .direct (hab.expr h) ih
  | chain h _ _ ihr iha => exact .chain (hab.expr h) ihr iha
  | nil => exact .nil
  | cons _ _ ih ihs => exact .cons ih ihs

/-! ## Where the nodes of a piece stand -/

theorem le (h : a.Fills piece lo hi) : lo ≤ hi := by
  induction h <;> omega

/-- A node stands at the end of its places. -/
theorem last (h : a.Fills (.one st id) lo hi) : lo < hi ∧ hi = id.index + 1 := by
  generalize hp : Piece.one st id = piece at h
  induction h generalizing st with
  | literal | ident =>
    cases hp
    exact ⟨by omega, rfl⟩
  | assign _ _ first rest | send _ first rest | cascade _ first rest | chain _ first rest =>
    cases hp
    exact ⟨by have := first.le; have := rest.le; omega, rfl⟩
  | block _ rest | paren _ rest | array _ rest | ret _ rest | direct _ rest =>
    cases hp
    exact ⟨by have := rest.le; omega, rfl⟩
  | expression _ ih =>
    cases hp
    exact ih rfl
  | nil | cons => cases hp

theorem row_mem (h : a.Fills (.row st ids) lo hi) (hx : x ∈ ids) : lo ≤ x.index ∧ x.index < hi := by
  induction ids generalizing lo with
  | nil => cases hx
  | cons id ids ih =>
    cases h with
    | cons first rest =>
      have := first.last
      have := rest.le
      rcases List.mem_cons.1 hx with rfl | hx
      · omega
      · have := ih rest hx
        omega

/-- A node and the row after it. -/
theorem cons_mem {st' : Standing} (first : a.Fills (.one st id) lo mid) (rest : a.Fills (.row st' ids) mid hi)
    (hx : x ∈ id :: ids) : lo ≤ x.index ∧ x.index < hi := by
  have := first.last
  have := rest.le
  rcases List.mem_cons.1 hx with rfl | hx
  · omega
  · have := rest.row_mem hx
    omega

end Fills

/-- Every node in these places has places of its own there. -/
theorem Fills.at_node {d : NodeId} (h : a.Fills piece lo hi) (hlo : lo ≤ d.index) (hhi : d.index < hi) :
    ∃ st lo', lo ≤ lo' ∧ a.Fills (.one st d) lo' (d.index + 1) := by
  have append : ∀ {lo mid hi : Nat}, lo ≤ mid →
      (lo ≤ d.index → d.index < mid → ∃ st lo', lo ≤ lo' ∧ a.Fills (.one st d) lo' (d.index + 1)) →
      (mid ≤ d.index → d.index < hi → ∃ st lo', mid ≤ lo' ∧ a.Fills (.one st d) lo' (d.index + 1)) →
      lo ≤ d.index → d.index < hi → ∃ st lo', lo ≤ lo' ∧ a.Fills (.one st d) lo' (d.index + 1) := by
    intro lo mid hi hle first rest hlo hhi
    by_cases hm : d.index < mid
    · exact first hlo hm
    · obtain ⟨st, lo', hle', h⟩ := rest (by omega) hhi
      exact ⟨st, lo', by omega, h⟩
  -- The node is the last of its places, or it stands in those of the parts.
  have node : ∀ {n lo : Nat} {st : Standing}, a.Fills (.one st ⟨n⟩) lo (n + 1) →
      (lo ≤ d.index → d.index < n → ∃ st lo', lo ≤ lo' ∧ a.Fills (.one st d) lo' (d.index + 1)) →
      lo ≤ d.index → d.index < n + 1 → ∃ st lo', lo ≤ lo' ∧ a.Fills (.one st d) lo' (d.index + 1) := by
    intro n lo st h parts hlo hhi
    by_cases hn : d.index < n
    · exact parts hlo hn
    · obtain rfl := NodeId.eq_of_lt_succ hhi hn
      exact ⟨st, lo, Nat.le_refl _, h⟩
  induction h with
  | literal h => exact node (.literal h) (by omega) hlo hhi
  | ident h => exact node (.ident h) (by omega) hlo hhi
  | assign h isName first rest ihf ihr => exact node (.assign h isName first rest) (append first.le ihf ihr) hlo hhi
  | send h first rest ihf ihr => exact node (.send h first rest) (append first.le ihf ihr) hlo hhi
  | cascade h first rest ihf ihr => exact node (.cascade h first rest) (append first.le ihf ihr) hlo hhi
  | block h rest ih => exact node (.block h rest) ih hlo hhi
  | paren h rest ih => exact node (.paren h rest) ih hlo hhi
  | array h rest ih => exact node (.array h rest) ih hlo hhi
  | expression _ ih => exact ih hlo hhi
  | ret h rest ih => exact node (.ret h rest) ih hlo hhi
  | direct h rest ih => exact node (.direct h rest) ih hlo hhi
  | chain h first rest ihf ihr => exact node (.chain h first rest) (append first.le ihf ihr) hlo hhi
  | nil => omega
  | cons first _ ihf ihr => exact append first.le ihf ihr hlo hhi

/-- An assignment is made of a name and the value after it. -/
theorem Fills.of_assign {target value : NodeId} (h : a.Fills (.one st id) lo hi)
    (he : a.expr? id = some (.assign target value)) :
    (∃ name, a.expr? target = some (.ident name)) ∧ target.index < value.index := by
  generalize hp : Piece.one st id = piece at h
  induction h generalizing st with
  | assign h' isName first rest =>
    cases hp
    rw [he] at h'
    cases h'
    have := first.last
    have := rest.last
    exact ⟨⟨_, isName⟩, by omega⟩
  | expression _ ih =>
    cases hp
    exact ih rfl
  | literal h' | ident h' | send h' | cascade h' | block h' | paren h' | array h' | ret h' | direct h' | chain h' =>
    cases hp
    rw [he] at h'
    cases h'
  | nil | cons => cases hp

/-! ## Parts come before their node -/

/-- A part of a node in these places stands there too, before the node, or is the one node `base`. -/
def Closed (a : Arena) (lo hi : Nat) (base : Option NodeId) : Prop :=
  ∀ d x : NodeId, lo ≤ d.index → d.index < hi → x ∈ a.children d →
    (lo ≤ x.index ∧ x.index < d.index) ∨ base = some x

namespace Closed
variable {outer inner : Option NodeId} {n : Nat}

theorem empty : a.Closed lo lo outer := by
  intro d x hd hd' _
  omega

/-- Of two stretches, the second may reach back into the first. -/
theorem append (h : a.Closed lo mid outer) (h' : a.Closed mid hi inner) (hle : lo ≤ mid)
    (hinner : ∀ x, inner = some x → (lo ≤ x.index ∧ x.index < mid) ∨ outer = some x) :
    a.Closed lo hi outer := by
  intro d x hd hd' hx
  by_cases hm : d.index < mid
  · exact h d x hd hm hx
  · rcases h' d x (by omega) hd' hx with h | h
    · left; omega
    · rcases hinner x h with h | h
      · left; omega
      · exact .inr h

theorem node (h : a.Closed lo n outer)
    (hn : ∀ x ∈ a.children ⟨n⟩, (lo ≤ x.index ∧ x.index < n) ∨ outer = some x) : a.Closed lo (n + 1) outer := by
  intro d x hd hd' hx
  by_cases hd'' : d.index < n
  · exact h d x hd hd'' hx
  · obtain rfl := NodeId.eq_of_lt_succ hd' hd''
    exact hn x hx

end Closed

/-- A part of a node of a piece stands in the piece, before the node, or is the base of the piece. -/
theorem Fills.closed (h : a.Fills piece lo hi) : a.Closed lo hi piece.standing.base? := by
  induction h with
  | literal h | ident h => exact Closed.empty.node (by simp [children_of_expr h, Expr.children])
  | assign h _ first rest iht ihv =>
    refine (iht.append ihv first.le (by simp [Piece.standing, Standing.base?])).node ?_
    intro x hx
    have := first.last
    have := rest.last
    simp only [children_of_expr h, Expr.children, List.mem_cons, List.not_mem_nil, or_false] at hx
    left
    rcases hx with rfl | rfl <;> omega
  | send h first rest ihr iha | chain h first rest ihr iha =>
    refine (ihr.append iha first.le (by simp [Piece.standing, Standing.base?])).node ?_
    intro x hx
    rw [children_of_expr h, Expr.children] at hx
    exact .inl (first.cons_mem rest hx)
  | cascade h first rest ihr ihm =>
    -- The messages reach back to the receiver, which stands right before them.
    refine (ihr.append ihm first.le ?_).node ?_
    · rintro x ⟨⟩
      have := first.last
      left
      omega
    · intro x hx
      rw [children_of_expr h, Expr.children] at hx
      exact .inl (first.cons_mem rest hx)
  | block h rest ih | array h rest ih =>
    apply ih.node
    intro x hx
    simp only [children_of_expr h, Expr.children] at hx
    exact .inl (rest.row_mem hx)
  | paren h rest ih | ret h rest ih =>
    apply ih.node
    intro x hx
    have := rest.last
    simp only [children_of_expr h, Expr.children, List.mem_singleton] at hx
    left
    subst hx
    omega
  | expression _ ih => exact ih
  | direct h rest ih =>
    refine Closed.node (fun d x hd hd' hx => (ih d x hd hd' hx).imp_right (by simp [Piece.standing, Standing.base?])) ?_
    intro x hx
    simp only [children_of_expr h, Expr.children, List.mem_cons] at hx
    rcases hx with rfl | hx
    · exact .inr rfl
    · exact .inl (rest.row_mem hx)
  | nil => exact Closed.empty
  | cons first _ ih ihs => exact ih.append ihs first.le fun x hx => .inr hx

/-- Parts come before the node they belong to. -/
def Ordered (a : Arena) : Prop := ∀ d x : NodeId, x ∈ a.children d → x.index < d.index

/-! ## What a walk reaches -/

/-- The parts of a node that a walk visits: of a cascade, the receiver and the arguments of the messages. -/
def parts (a : Arena) (id : NodeId) : List NodeId :=
  match a.expr? id with
  | some (.cascade receiver messages) => a.cascadeParts receiver messages
  | some e => e.children
  | none => []

/-- The nodes a walk visits from a node down to some depth. -/
def reachedWithin (a : Arena) : Nat → NodeId → List NodeId
  | 0, _ => []
  | n + 1, id => id :: (a.parts id).flatMap (a.reachedWithin n)

/-- The nodes a walk visits from a node; no descent goes deeper than the place of the node. -/
def reached (a : Arena) (id : NodeId) : List NodeId := a.reachedWithin (id.index + 1) id

theorem mem_children_of_argsOf (hx : x ∈ a.argsOf id) : x ∈ a.children id := by
  unfold argsOf at hx
  split at hx
  · next h =>
    simp only [children_of_expr h, Expr.children, List.mem_cons]
    exact .inr hx
  · cases hx

theorem Ordered.parts_lt (ho : a.Ordered) (hx : x ∈ a.parts id) : x.index < id.index := by
  unfold parts at hx
  split at hx
  · next receiver messages h =>
    have hc : ∀ y ∈ receiver :: messages, y.index < id.index := by
      intro y hy
      exact ho id y (by rw [children_of_expr h]; exact hy)
    simp only [cascadeParts, List.mem_cons, List.mem_flatMap] at hx
    rcases hx with rfl | ⟨m, hm, hx⟩
    · exact hc x (by simp)
    · have := hc m (by simp [hm])
      have := ho m x (mem_children_of_argsOf hx)
      omega
  · next e _ h => exact ho id x (by rw [children_of_expr h]; exact hx)
  · cases hx

theorem Ordered.reachedWithin_eq (ho : a.Ordered) {n m : Nat} (hn : id.index < n) (hm : id.index < m) :
    a.reachedWithin n id = a.reachedWithin m id := by
  induction n generalizing m id with
  | zero => omega
  | succ n ih =>
    obtain ⟨m, rfl⟩ : ∃ k, m = k + 1 := ⟨m - 1, by omega⟩
    simp only [reachedWithin]
    congr 1
    apply List.flatMap_congr
    intro x hx
    have := ho.parts_lt hx
    exact ih (by omega) (by omega)

theorem Ordered.reached_eq (ho : a.Ordered) (id : NodeId) :
    a.reached id = id :: (a.parts id).flatMap a.reached := by
  unfold reached
  rw [reachedWithin]
  congr 1
  refine List.flatMap_congr fun x hx => ho.reachedWithin_eq (ho.parts_lt hx) (by omega)

/-- Different nodes, all in these places. -/
def Spread (lo hi : Nat) (ids : List NodeId) : Prop := ids.Nodup ∧ ∀ x ∈ ids, lo ≤ x.index ∧ x.index < hi

namespace Spread
variable {ids' : List NodeId} {n : Nat}

theorem nil : Spread lo hi [] := by simp [Spread]

theorem mono (h : Spread mid n ids) (hle : lo ≤ mid) (hle' : n ≤ hi) : Spread lo hi ids :=
  ⟨h.1, fun x hx => by have := h.2 x hx; omega⟩

theorem append (h : Spread lo mid ids) (h' : Spread mid hi ids') (hle : lo ≤ mid) (hle' : mid ≤ hi) :
    Spread lo hi (ids ++ ids') := by
  refine ⟨List.nodup_append.2 ⟨h.1, h'.1, ?_⟩, ?_⟩
  · rintro x hx y hy rfl
    have := h.2 x hx
    have := h'.2 x hy
    omega
  · intro x hx
    rcases List.mem_append.1 hx with hx | hx
    · have := h.2 x hx
      omega
    · have := h'.2 x hx
      omega

theorem node (h : Spread lo n ids) (hle : lo ≤ n) : Spread lo (n + 1) (⟨n⟩ :: ids) := by
  refine ⟨List.nodup_cons.2 ⟨?_, h.1⟩, ?_⟩
  · intro hn
    have := h.2 _ hn
    simp at this
  · intro x hx
    rcases List.mem_cons.1 hx with rfl | hx
    · simp only
      omega
    · have := h.2 x hx
      omega

end Spread

/-- What a walk reaches from a node; a message is passed over, and only its arguments are visited. -/
def reachedAs (a : Arena) : Standing → NodeId → List NodeId
  | .operand, id | .statement, id => a.reached id
  | .message _, id => (a.argsOf id).flatMap a.reached

/-- What a walk reaches from a piece. -/
def reachedFrom (a : Arena) : Piece → List NodeId
  | .one st id => a.reachedAs st id
  | .row st ids => ids.flatMap (a.reachedAs st)

theorem argsOf_of_expr {receiver : NodeId} {selector : String} {args : List NodeId}
    (h : a.expr? id = some (.send receiver selector args)) : a.argsOf id = args := by
  simp [argsOf, h]

theorem parts_of_expr {e : Expr} (h : a.expr? id = some e) (hc : ∀ r ms, e ≠ .cascade r ms) :
    a.parts id = e.children := by
  unfold parts
  rw [h]
  cases e with
  | cascade r ms => exact absurd rfl (hc r ms)
  | _ => rfl

theorem parts_of_cascade {receiver : NodeId} {messages : List NodeId}
    (h : a.expr? id = some (.cascade receiver messages)) : a.parts id = receiver :: messages.flatMap a.argsOf := by
  unfold parts
  rw [h]
  rfl

/-- What a walk reaches from a piece are different places of the piece. -/
theorem Fills.spread (h : a.Fills piece lo hi) (ho : a.Ordered) : Spread lo hi (a.reachedFrom piece) := by
  induction h with
  | literal h | ident h =>
    rw [reachedFrom, reachedAs, ho.reached_eq, parts_of_expr h (by simp)]
    exact Spread.nil.node (Nat.le_refl _)
  | assign h _ first rest iht ihv =>
    have := first.le
    have := rest.le
    rw [reachedFrom, reachedAs, ho.reached_eq, parts_of_expr h (by simp)]
    simp only [Expr.children, List.flatMap_cons, List.flatMap_nil, List.append_nil]
    exact (iht.append ihv first.le rest.le).node (by omega)
  | send h first rest ihr iha =>
    have := first.le
    have := rest.le
    rw [reachedFrom, reachedAs, ho.reached_eq, parts_of_expr h (by simp)]
    exact (ihr.append iha first.le rest.le).node (by omega)
  | cascade h first rest ihr ihm =>
    have := first.le
    have := rest.le
    rw [reachedFrom, reachedAs, ho.reached_eq, parts_of_cascade h, List.flatMap_cons, List.flatMap_assoc]
    exact (ihr.append ihm first.le rest.le).node (by omega)
  | block h rest ih | array h rest ih =>
    rw [reachedFrom, reachedAs, ho.reached_eq, parts_of_expr h (by simp)]
    exact ih.node rest.le
  | paren h rest ih | ret h rest ih =>
    rw [reachedFrom, reachedAs, ho.reached_eq, parts_of_expr h (by simp)]
    simp only [Expr.children, List.flatMap_singleton]
    exact ih.node rest.le
  | expression _ ih => exact ih
  | direct h rest ih =>
    rw [reachedFrom, reachedAs, argsOf_of_expr h]
    exact ih.mono (Nat.le_refl _) (by omega)
  | chain h first rest _ iha =>
    rw [reachedFrom, reachedAs, argsOf_of_expr h]
    exact iha.mono first.le (by omega)
  | nil => exact Spread.nil
  | cons first rest ih ihs =>
    rw [reachedFrom, List.flatMap_cons]
    exact ih.append ihs first.le rest.le

/-! ## Labels

A property that a node hands down to its parts is well defined on a forest, although the receiver of a
cascade is a part of several nodes: it is enough that sends and cascades hand down the same. -/

section Labels
variable {L : Type} (down : NodeId → L → NodeId → L) (keep : L → L)

/-- In these places, every part has the label its node hands down to it. -/
def Labelled (a : Arena) (lab : NodeId → L) (lo hi : Nat) : Prop :=
  ∀ d x : NodeId, lo ≤ d.index → d.index < hi → x ∈ a.children d → lab x = down d (lab d) x

/-- Labels of what stands before these places, and labels wanted for some nodes in them, extend to all of
them. Where the places reach back to a base, its label has to be one that sends hand on as it is, and the
only one wanted. -/
structure Labels (a : Arena) (outer : Option NodeId) (lo hi : Nat) (tops : List NodeId) : Prop where
  closed : a.Closed lo hi outer
  places : ∀ x ∈ tops, lo ≤ x.index ∧ x.index < hi
  extend : ∀ lab want : NodeId → L,
    (∀ b, outer = some b → b.index < lo ∧ keep (lab b) = lab b ∧ ∀ x, want x = lab b) →
    ∃ lab' : NodeId → L, (∀ x, x.index < lo → lab' x = lab x) ∧ (∀ x ∈ tops, lab' x = want x) ∧ a.Labelled down lab' lo hi

variable {down} {keep} {lab lab' : NodeId → L} {outer inner : Option NodeId} {n : Nat} {ids' : List NodeId}

/-- What stands before the end of these places decides whether they are labelled. -/
theorem Labelled.congr (h : a.Labelled down lab lo mid) (hc : a.Closed lo mid outer)
    (hb : ∀ x, outer = some x → x.index < mid) (heq : ∀ x, x.index < mid → lab' x = lab x) :
    a.Labelled down lab' lo mid := by
  intro d x hd hd' hx
  rw [heq d hd', ← h d x hd hd' hx]
  rcases hc d x hd hd' hx with ⟨-, hlt⟩ | h
  · exact heq x (by omega)
  · exact heq x (hb x h)

theorem Labelled.append (h : a.Labelled down lab lo mid) (h' : a.Labelled down lab mid hi) :
    a.Labelled down lab lo hi := by
  intro d x hd hd' hx
  by_cases hm : d.index < mid
  · exact h d x hd hm hx
  · exact h' d x (by omega) hd' hx

/-- A node after its parts is given the label that its parts expect. -/
theorem Labelled.node (h : a.Labelled down lab lo n) (hc : a.Closed lo n outer)
    (hb : ∀ x, outer = some x → x.index < n) (o : L)
    (hn : ∀ x ∈ a.children ⟨n⟩, x.index < n ∧ lab x = down ⟨n⟩ o x) :
    ∃ lab', (∀ x, x.index < n → lab' x = lab x) ∧ lab' ⟨n⟩ = o ∧ a.Labelled down lab' lo (n + 1) := by
  let lab' : NodeId → L := fun x => if x.index < n then lab x else o
  have heq : ∀ x : NodeId, x.index < n → lab' x = lab x := fun x hx => if_pos hx
  have hnew : lab' ⟨n⟩ = o := if_neg (Nat.lt_irrefl n)
  refine ⟨lab', heq, hnew, ?_⟩
  intro d x hd hd' hx
  by_cases hd'' : d.index < n
  · exact h.congr hc hb heq d x hd hd'' hx
  · obtain rfl := NodeId.eq_of_lt_succ hd' hd''
    obtain ⟨hlt, hx⟩ := hn x hx
    rw [heq x hlt, hnew, hx]

namespace Labels

theorem nil : a.Labels down keep outer lo lo [] := by
  refine ⟨Closed.empty, by simp, fun lab _ _ => ⟨lab, fun _ _ => rfl, by simp, ?_⟩⟩
  intro d x hd hd' _
  omega

theorem append (h : a.Labels down keep outer lo mid ids) (h' : a.Labels down keep inner mid hi ids')
    (hle : lo ≤ mid) (hle' : mid ≤ hi) (hinner : ∀ b, inner = some b → outer = some b) :
    a.Labels down keep outer lo hi (ids ++ ids') := by
  refine ⟨h.closed.append h'.closed hle fun b hb => .inr (hinner b hb), ?_, ?_⟩
  · intro x hx
    rcases List.mem_append.1 hx with hx | hx
    · have := h.places x hx
      omega
    · have := h'.places x hx
      omega
  · intro lab want hbase
    obtain ⟨lab₁, heq₁, hw₁, hl₁⟩ := h.extend lab want hbase
    obtain ⟨lab₂, heq₂, hw₂, hl₂⟩ := h'.extend lab₁ want fun b hb => by
      obtain ⟨hlt, hk, hw⟩ := hbase b (hinner b hb)
      rw [heq₁ b hlt]
      exact ⟨by omega, hk, hw⟩
    refine ⟨lab₂, fun x hx => ?_, fun x hx => ?_, ?_⟩
    · rw [heq₂ x (by omega), heq₁ x hx]
    · rcases List.mem_append.1 hx with hx | hx
      · rw [heq₂ x (h.places x hx).2, hw₁ x hx]
      · exact hw₂ x hx
    · exact (hl₁.congr h.closed (fun b hb => by have := (hbase b hb).1; omega) heq₂).append hl₂

/-- A node whose parts are all wanted together. -/
theorem node (h : a.Labels down keep none lo n ids) (hle : lo ≤ n) (hids : a.children ⟨n⟩ = ids) :
    a.Labels down keep none lo (n + 1) [⟨n⟩] := by
  have hmem : ∀ x ∈ a.children ⟨n⟩, lo ≤ x.index ∧ x.index < n := fun x hx => h.places x (hids ▸ hx)
  refine ⟨h.closed.node fun x hx => .inl (hmem x hx), by simpa using hle, ?_⟩
  intro lab want _
  obtain ⟨lab₁, heq₁, hw₁, hl₁⟩ := h.extend lab (down ⟨n⟩ (want ⟨n⟩)) (by simp)
  obtain ⟨lab₂, heq₂, hn₂, hl₂⟩ := hl₁.node h.closed (by simp) (want ⟨n⟩)
    fun x hx => ⟨(hmem x hx).2, hw₁ x (hids ▸ hx)⟩
  refine ⟨lab₂, fun x hx => ?_, by simpa using hn₂, hl₂⟩
  rw [heq₂ x (by omega), heq₁ x hx]

theorem weaken (h : a.Labels down keep none lo hi ids) : a.Labels down keep outer lo hi ids :=
  ⟨fun d x hd hd' hx => (h.closed d x hd hd' hx).imp_right (by simp), h.places,
    fun lab want _ => h.extend lab want (by simp)⟩

/-- A message after its parts, the base apart. -/
theorem message (h : a.Labels down keep (some base) lo n ids) (hle : lo ≤ n)
    (hids : ∀ x ∈ a.children ⟨n⟩, x = base ∨ x ∈ ids) (hdown : ∀ o x, down ⟨n⟩ o x = keep o) :
    a.Labels down keep (some base) lo (n + 1) [⟨n⟩] := by
  refine ⟨h.closed.node fun x hx => ?_, by simpa using hle, ?_⟩
  · exact (hids x hx).symm.imp (h.places x) (fun h => by rw [h])
  · intro lab want hbase
    obtain ⟨hb, hk, hw⟩ := hbase base rfl
    obtain ⟨lab₁, heq₁, hw₁, hl₁⟩ := h.extend lab want hbase
    have hb₁ : ∀ x, some base = some x → x.index < n := by
      rintro x ⟨⟩
      omega
    obtain ⟨lab₂, heq₂, hn₂, hl₂⟩ := hl₁.node h.closed hb₁ (want ⟨n⟩) fun x hx => by
      rw [hdown, hw, hk]
      rcases hids x hx with rfl | hx
      · exact ⟨by omega, heq₁ x hb⟩
      · exact ⟨(h.places x hx).2, by rw [hw₁ x hx, hw]⟩
    refine ⟨lab₂, fun x hx => ?_, by simpa using hn₂, hl₂⟩
    rw [heq₂ x (by omega), heq₁ x hx]

/-- A cascade after its receiver and its messages. -/
theorem cascade (h : a.Labels down keep none lo mid [base]) (h' : a.Labels down keep (some base) mid n ids)
    (hle : mid ≤ n) (hids : a.children ⟨n⟩ = base :: ids) (hdown : ∀ o x, down ⟨n⟩ o x = keep o)
    (hkeep : ∀ o, keep (keep o) = keep o) : a.Labels down keep none lo (n + 1) [⟨n⟩] := by
  obtain ⟨hlo, hmid⟩ := h.places base (by simp)
  have hbase : ∀ x, some base = some x → (lo ≤ x.index ∧ x.index < mid) ∨ none = some x := by
    rintro x ⟨⟩
    exact .inl ⟨hlo, hmid⟩
  have hclosed : a.Closed lo n none := h.closed.append h'.closed (by omega) hbase
  have hmem : ∀ x ∈ a.children ⟨n⟩, lo ≤ x.index ∧ x.index < n := by
    intro x hx
    rw [hids] at hx
    rcases List.mem_cons.1 hx with rfl | hx
    · omega
    · have := h'.places x hx
      omega
  refine ⟨hclosed.node fun x hx => .inl (hmem x hx), by simp; omega, ?_⟩
  intro lab want _
  -- First the receiver, then the messages, which find the label of the receiver as they want it.
  obtain ⟨lab₁, heq₁, hw₁, hl₁⟩ := h.extend lab (fun _ => keep (want ⟨n⟩)) (by simp)
  have hr₁ : lab₁ base = keep (want ⟨n⟩) := hw₁ base (by simp)
  obtain ⟨lab₂, heq₂, hw₂, hl₂⟩ := h'.extend lab₁ (fun _ => keep (want ⟨n⟩)) (by
    rintro x ⟨⟩
    exact ⟨hmid, by rw [hr₁, hkeep], fun _ => hr₁.symm⟩)
  have hl : a.Labelled down lab₂ lo n := (hl₁.congr h.closed (by simp) heq₂).append hl₂
  obtain ⟨lab₃, heq₃, hn₃, hl₃⟩ := hl.node hclosed (by simp) (want ⟨n⟩) fun x hx => by
    refine ⟨(hmem x hx).2, ?_⟩
    rw [hids] at hx
    rw [hdown]
    rcases List.mem_cons.1 hx with rfl | hx
    · rw [heq₂ x hmid, hr₁]
    · exact hw₂ x hx
  refine ⟨lab₃, fun x hx => ?_, by simpa using hn₃, hl₃⟩
  rw [heq₃ x (by omega), heq₂ x (by omega), heq₁ x hx]

end Labels

/-- The nodes at the top of a piece. -/
def tops : Piece → List NodeId
  | .one _ id => [id]
  | .row _ ids => ids

/-- Sends and cascades hand down the same, whatever part it is for. -/
structure Keeps (a : Arena) (down : NodeId → L → NodeId → L) (keep : L → L) : Prop where
  idem : ∀ o, keep (keep o) = keep o
  send : ∀ d receiver selector args, a.expr? d = some (.send receiver selector args) → ∀ o x, down d o x = keep o
  cascade : ∀ d receiver messages, a.expr? d = some (.cascade receiver messages) → ∀ o x, down d o x = keep o

theorem Fills.labels (h : a.Fills piece lo hi) (hk : a.Keeps down keep) :
    a.Labels down keep piece.standing.base? lo hi (tops piece) := by
  induction h with
  | literal h | ident h => exact Labels.nil.node (Nat.le_refl _) (by rw [children_of_expr h]; rfl)
  | assign h _ first rest iht ihv | send h first rest iht ihv =>
    refine (iht.append ihv first.le rest.le (by simp [Piece.standing, Standing.base?])).node
      (Nat.le_trans first.le rest.le) ?_
    rw [children_of_expr h]
    rfl
  | cascade h first rest ihr ihm =>
    exact ihr.cascade ihm rest.le (by rw [children_of_expr h]; rfl) (hk.cascade _ _ _ h) hk.idem
  | block h rest ih | array h rest ih | paren h rest ih | ret h rest ih =>
    exact ih.node rest.le (by rw [children_of_expr h]; rfl)
  | expression _ ih => exact ih
  | direct h rest ih =>
    refine ih.weaken.message rest.le (fun x hx => ?_) (hk.send _ _ _ _ h)
    rw [children_of_expr h] at hx
    exact List.mem_cons.1 hx
  | chain h first rest ihr iha =>
    refine (ihr.append iha first.le rest.le (by simp [Piece.standing, Standing.base?])).message
      (Nat.le_trans first.le rest.le) (fun x hx => ?_) (hk.send _ _ _ _ h)
    rw [children_of_expr h] at hx
    exact .inr hx
  | nil => exact Labels.nil
  | cons first rest ih ihs => exact ih.append ihs first.le rest.le fun b hb => hb

end Labels
end Arena
end BlockScope
