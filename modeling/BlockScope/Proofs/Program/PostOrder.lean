import BlockScope.Proofs.Program.Declaring
import BlockScope.Proofs.Program.Reached
/-!
# Parsed programs in post-order

The nodes of a program that a source text spells are numbered so that parts come first, and each of them stands in one
place of the syntax: it lies in the body of one method, and it is a part of one node or a statement of one body. Only the
receiver of a cascade is named more than once, by the cascade and by the messages to it. Returns are statements, and a
selector has as many arguments as it calls for.
-/
namespace BlockScope

/-- How many arguments a selector calls for: an operator one, any other as many as it has colons. -/
def arity (selector : String) : Nat :=
  if selector.toList.any isOperatorChar then 1 else selector.toList.count ':'

namespace Arena

/-- The node is the receiver of a cascade. -/
def IsShared (a : Arena) (x : NodeId) : Prop := ∃ d messages, a.expr? d = some (.cascade x messages)

/-- The node is a return. -/
def IsReturn (a : Arena) (x : NodeId) : Prop := ∃ value, a.expr? x = some (.ret value)

/-- The parts of the nodes in these places. -/
def partsIn (a : Arena) (lo hi : Nat) : List NodeId := (List.range' lo (hi - lo)).flatMap fun n => a.children ⟨n⟩

end Arena

/-- The node lies somewhere in the body of the method. -/
def Program.Holds (p : Program) (m : Method) (x : NodeId) : Prop := ∃ top ∈ m.body, p.arena.Contains top x

/-- Every node as often as the program names it: as a part of a node, or as a statement of a method. -/
def Program.occurrences (p : Program) : List NodeId :=
  p.arena.ids.flatMap p.arena.children ++ p.methods.flatMap (·.body)

/-- What the numbering of a parsed program promises. -/
structure Program.PostOrder (p : Program) : Prop where
  /-- Parts have smaller numbers than their node. -/
  ordered : ∀ d x, x ∈ p.arena.children d → x.index < d.index
  /-- Every node lies in the body of exactly one method. -/
  held : ∀ x : NodeId, x.index < p.arena.size → ∃! place : Nat × Nat, ∃ m, p.method? place.1 place.2 = some m ∧ p.Holds m x
  /-- Every node that is not shared occurs exactly once. -/
  once : ∀ x : NodeId, x.index < p.arena.size → ¬ p.arena.IsShared x → p.occurrences.count x = 1
  targets : ∀ d target value, p.arena.expr? d = some (.assign target value) → ∃ name, p.arena.expr? target = some (.ident name)
  /-- A return that is a part is a statement of a block. -/
  returns : ∀ d x, x ∈ p.arena.children d → p.arena.IsReturn x →
    ∃ params temps body, p.arena.expr? d = some (.block params temps body)
  sends : ∀ d receiver selector args, p.arena.expr? d = some (.send receiver selector args) → args.length = arity selector
  methods : ∀ m ∈ p.methods, m.params.length = arity m.selector

/-! ## Arities -/

theorem IsPlain.count {chars : List Char} (h : IsPlain chars) : chars.count ':' = 0 := List.count_eq_zero.2 h.colon

theorem IsPlain.any {chars : List Char} (h : IsPlain chars) : chars.any isOperatorChar = false :=
  List.any_eq_false.2 fun c hc => by simp [h.operator c hc]

theorem keyword_chars {parts : List String} (h : ∀ part ∈ parts, (TokenKind.keyword part).Formed) :
    (parts.flatMap String.toList).any isOperatorChar = false ∧ (parts.flatMap String.toList).count ':' = parts.length := by
  induction parts with
  | nil => exact ⟨rfl, rfl⟩
  | cons part parts ih =>
    obtain ⟨⟨word, hword, hplain⟩, hparts⟩ := List.forall_mem_cons.1 h
    obtain ⟨hany, hcount⟩ := ih hparts
    have hcolon : [':'].any isOperatorChar = false := by decide +kernel
    rw [List.flatMap_cons, hword]
    constructor
    · simp only [List.any_append, hplain.any, hcolon, hany, Bool.or_self]
    · simp only [List.count_append, hplain.count, hcount, List.count_cons_self, List.count_nil, List.length_cons]
      omega

theorem Selects.arity_eq {selector : String} {n : Nat} (h : Selects TokenKind.Formed selector n) : n = arity selector := by
  unfold arity
  cases h with
  | identifier h => rw [IsPlain.any h, IsPlain.count h]; rfl
  | operator h =>
    obtain ⟨c, hc, hop⟩ := (Option.any_eq_true _ _).1 h.2
    rw [List.any_eq_true.2 ⟨c, List.mem_of_head? hc, hop⟩]
    rfl
  | keywords h =>
    obtain ⟨hany, hcount⟩ := keyword_chars h
    rw [String.toList_join, hany, hcount]
    rfl

namespace Arena
variable {a : Arena} {piece : Piece} {st : Standing} {lo mid hi n : Nat} {d x : NodeId} {ids ids' : List NodeId}

/-! ## How often a node is named -/

theorem partsIn_append (hle : lo ≤ mid) (hle' : mid ≤ hi) : a.partsIn lo hi = a.partsIn lo mid ++ a.partsIn mid hi := by
  have hrange : List.range' lo (hi - lo) = List.range' lo (mid - lo) ++ List.range' mid (hi - mid) := by
    have := List.range'_append_1 (s := lo) (m := mid - lo) (n := hi - mid)
    rw [show lo + (mid - lo) = mid by omega, show mid - lo + (hi - mid) = hi - lo by omega] at this
    exact this.symm
  unfold partsIn
  rw [hrange, List.flatMap_append]

theorem partsIn_self (a : Arena) (n : Nat) : a.partsIn n n = [] := by simp [partsIn]

theorem partsIn_succ (hle : lo ≤ n) : a.partsIn lo (n + 1) = a.partsIn lo n ++ a.children ⟨n⟩ := by
  rw [partsIn_append hle (Nat.le_succ n)]
  simp [partsIn]

/-- Of the parts in these places and the nodes at their top, one is this node if it stands there, and else none. -/
def NamedOnce (a : Arena) (x : NodeId) (lo hi : Nat) (ids : List NodeId) : Prop :=
  (a.partsIn lo hi ++ ids).count x = if lo ≤ x.index ∧ x.index < hi then 1 else 0

namespace NamedOnce

theorem nil : a.NamedOnce x lo lo [] := by
  rw [NamedOnce, partsIn_self, if_neg (by omega)]
  rfl

theorem append (h : a.NamedOnce x lo mid ids) (h' : a.NamedOnce x mid hi ids') (hle : lo ≤ mid) (hle' : mid ≤ hi) :
    a.NamedOnce x lo hi (ids ++ ids') := by
  unfold NamedOnce at h h' ⊢
  rw [partsIn_append hle hle']
  simp only [List.count_append] at h h' ⊢
  split at h <;> split at h' <;> split <;> omega

/-- A node after parts of its own, of which the others are not this node. -/
theorem node (h : a.NamedOnce x lo n ids) (hle : lo ≤ n) (hids : (a.children ⟨n⟩).count x = ids.count x) :
    a.NamedOnce x lo (n + 1) [⟨n⟩] := by
  unfold NamedOnce at h ⊢
  rw [partsIn_succ hle]
  simp only [List.count_append] at h ⊢
  rw [hids, h]
  by_cases hx : x = ⟨n⟩
  · subst hx
    simp [hle]
  · have hne : x.index ≠ n := fun h => hx (by cases x; simp_all)
    have hplaces : (lo ≤ x.index ∧ x.index < n + 1) ↔ (lo ≤ x.index ∧ x.index < n) := by omega
    rw [List.count_cons_of_ne (Ne.symm hx), List.count_nil]
    simp only [hplaces, Nat.add_zero]

end NamedOnce

/-- A node that is not shared is named once in the places of a piece if it stands there, and else not at all. -/
theorem Fills.namedOnce (h : a.Fills piece lo hi) (hx : ¬ a.IsShared x) (hbase : piece.standing.base? ≠ some x) :
    a.NamedOnce x lo hi (tops piece) := by
  induction h with
  | literal h | ident h => exact NamedOnce.nil.node (Nat.le_refl _) (by rw [children_of_expr h]; rfl)
  | assign h _ first rest ihf ihr | send h first rest ihf ihr =>
    exact ((ihf nofun).append (ihr nofun) first.le rest.le).node (Nat.le_trans first.le rest.le)
      (by rw [children_of_expr h]; rfl)
  | @cascade n lo mid receiver messages h first rest ihf ihr =>
    -- The node is not the receiver, which is shared.
    have hne : some receiver ≠ some x := by
      rintro ⟨⟩
      exact hx ⟨_, _, h⟩
    exact ((ihf nofun).append (ihr hne) first.le rest.le).node (Nat.le_trans first.le rest.le)
      (by rw [children_of_expr h]; rfl)
  | block h rest ih | paren h rest ih | array h rest ih | ret h rest ih =>
    exact (ih nofun).node rest.le (by rw [children_of_expr h]; rfl)
  | expression _ ih => exact ih nofun
  | @direct n lo base selector args h rest ih =>
    have hne : base ≠ x := fun heq => hbase (congrArg some heq)
    exact (ih nofun).node rest.le (by rw [children_of_expr h]; exact List.count_cons_of_ne hne)
  | chain h first rest ihf ihr =>
    exact ((ihf hbase).append (ihr nofun) first.le rest.le).node (Nat.le_trans first.le rest.le)
      (by rw [children_of_expr h]; rfl)
  | nil => exact .nil
  | cons first rest ihf ihr => exact (ihf hbase).append (ihr hbase) first.le rest.le

theorem Bodies.namedOnce {ms : List Method} (h : a.Bodies lo ms hi) (hx : ¬ a.IsShared x) :
    a.NamedOnce x lo hi (ms.flatMap (·.body)) := by
  induction ms generalizing lo with
  | nil => exact (show lo = hi from h) ▸ .nil
  | cons m ms ih =>
    obtain ⟨mid, first, rest⟩ := h
    rw [List.flatMap_cons]
    exact (first.namedOnce hx nofun).append (ih rest) first.le rest.le

theorem partsIn_all (a : Arena) : a.partsIn 0 a.size = a.ids.flatMap a.children := by
  rw [partsIn, ids, List.flatMap_map, List.range_eq_range', Nat.sub_zero]

/-! ## Returns -/

/-- Only statements are returns. -/
theorem Fills.not_return (h : a.Fills piece lo hi) (hst : piece.standing ≠ .statement) (hx : x ∈ tops piece) : ¬ a.IsReturn x := by
  rintro ⟨value, hv⟩
  induction h with
  | literal h | ident h | assign h | send h | cascade h | block h | paren h | array h | direct h | chain h =>
    cases List.mem_singleton.1 hx
    rw [h] at hv
    cases hv
  | expression | ret => exact hst rfl
  | nil => cases hx
  | cons _ _ ihf ihr =>
    rcases List.mem_cons.1 hx with rfl | hx
    · exact ihf hst (List.mem_singleton_self _)
    · exact ihr hst hx

/-- In these places, a return that is a part is a statement of a block. -/
def ReturnsIn (a : Arena) (lo hi : Nat) : Prop :=
  ∀ d x : NodeId, lo ≤ d.index → d.index < hi → x ∈ a.children d → a.IsReturn x →
    ∃ params temps body, a.expr? d = some (.block params temps body)

namespace ReturnsIn

theorem nil : a.ReturnsIn lo lo := by
  intro d x hd hd'
  omega

theorem append (h : a.ReturnsIn lo mid) (h' : a.ReturnsIn mid hi) : a.ReturnsIn lo hi := by
  intro d x hd hd' hx hr
  by_cases hm : d.index < mid
  · exact h d x hd hm hx hr
  · exact h' d x (by omega) hd' hx hr

theorem block {params temps : List Declaration} {body : List NodeId} (h : a.ReturnsIn lo n)
    (hn : a.expr? ⟨n⟩ = some (.block params temps body)) : a.ReturnsIn lo (n + 1) := by
  intro d x hd hd' hx hr
  by_cases hd'' : d.index < n
  · exact h d x hd hd'' hx hr
  · obtain rfl := NodeId.eq_of_lt_succ hd' hd''
    exact ⟨params, temps, body, hn⟩

/-- A node none of whose parts is a return. -/
theorem node {e : Expr} (h : a.ReturnsIn lo n) (hn : a.expr? ⟨n⟩ = some e) (hparts : ∀ x ∈ e.children, ¬ a.IsReturn x) :
    a.ReturnsIn lo (n + 1) := by
  intro d x hd hd' hx hr
  by_cases hd'' : d.index < n
  · exact h d x hd hd'' hx hr
  · obtain rfl := NodeId.eq_of_lt_succ hd' hd''
    rw [children_of_expr hn] at hx
    exact absurd hr (hparts x hx)

end ReturnsIn

theorem Fills.returnsIn (h : a.Fills piece lo hi) (hbase : ∀ b, piece.standing.base? = some b → ¬ a.IsReturn b) :
    a.ReturnsIn lo hi := by
  induction h with
  | literal h | ident h => exact ReturnsIn.nil.node h (List.forall_mem_nil _)
  | assign h _ first rest ihf ihr | send h first rest ihf ihr =>
    refine ((ihf nofun).append (ihr nofun)).node h (List.forall_mem_cons.2 ⟨?_, ?_⟩)
    · exact first.not_return nofun (List.mem_singleton_self _)
    · exact fun x hx => rest.not_return nofun hx
  | cascade h first rest ihf ihr =>
    have hreceiver := first.not_return nofun (List.mem_singleton_self _)
    refine ((ihf nofun).append (ihr ?_)).node h (List.forall_mem_cons.2 ⟨hreceiver, ?_⟩)
    · rintro b ⟨⟩
      exact hreceiver
    · exact fun x hx => rest.not_return nofun hx
  | block h rest ih => exact (ih nofun).block h
  | paren h rest ih | ret h rest ih | array h rest ih => exact (ih nofun).node h fun x hx => rest.not_return nofun hx
  | expression _ ih => exact ih nofun
  | direct h rest ih =>
    refine (ih nofun).node h (List.forall_mem_cons.2 ⟨hbase _ rfl, ?_⟩)
    exact fun x hx => rest.not_return nofun hx
  | chain h first rest ihf ihr =>
    refine ((ihf hbase).append (ihr nofun)).node h (List.forall_mem_cons.2 ⟨?_, ?_⟩)
    · exact first.not_return nofun (List.mem_singleton_self _)
    · exact fun x hx => rest.not_return nofun hx
  | nil => exact .nil
  | cons _ _ ihf ihr => exact (ihf hbase).append (ihr hbase)

theorem Bodies.returnsIn {ms : List Method} (h : a.Bodies lo ms hi) : a.ReturnsIn lo hi := by
  induction ms generalizing lo with
  | nil => exact (show lo = hi from h) ▸ .nil
  | cons m ms ih =>
    obtain ⟨mid, first, rest⟩ := h
    exact (first.returnsIn nofun).append (ih rest)

end Arena

/-! ## The method of a node -/

namespace Program.Forest
open Arena
variable {p : Program} {m : Method} {x : NodeId} {lo hi : Nat}

theorem holds_range (hf : p.Forest) (hm : p.arena.Fills (.row .statement m.body) lo hi) (h : p.Holds m x) :
    lo ≤ x.index ∧ x.index < hi := by
  obtain ⟨top, htop, hx⟩ := h
  have hplace := hm.row_mem htop
  refine ⟨?_, Nat.lt_of_le_of_lt (hf.ordered.contains_le hx) hplace.2⟩
  rcases hm.closed.contains hplace.1 hplace.2 hx with hle | ⟨b, hb, -⟩
  · exact hle
  · cases hb

theorem exists_holds (hf : p.Forest) (hx : x.index < p.arena.size) : ∃ m ∈ p.methods, p.Holds m x := by
  obtain ⟨order, hperm, hb⟩ := hf
  have hbodies : ∀ {ms : List Method} {lo : Nat}, p.arena.Bodies lo ms p.arena.size → lo ≤ x.index → ∃ m ∈ ms, p.Holds m x := by
    intro ms
    induction ms with
    | nil =>
      intro lo h hlo
      have : lo = p.arena.size := h
      omega
    | cons m ms ih =>
      rintro lo ⟨mid, first, rest⟩ hlo
      by_cases hmid : x.index < mid
      · exact ⟨m, List.mem_cons_self, first.contains hlo hmid⟩
      · obtain ⟨m', hm', h⟩ := ih rest (by omega)
        exact ⟨m', List.mem_cons_of_mem _ hm', h⟩
  obtain ⟨m, hm, h⟩ := hbodies hb (Nat.zero_le _)
  exact ⟨m, hperm.mem_iff.1 hm, h⟩

theorem held (hf : p.Forest) (hx : x.index < p.arena.size) :
    ∃! place : Nat × Nat, ∃ m, p.method? place.1 place.2 = some m ∧ p.Holds m x := by
  obtain ⟨m, hm, hholds⟩ := hf.exists_holds hx
  obtain ⟨c, hc, hcm⟩ := List.mem_flatMap.1 hm
  obtain ⟨i, hi⟩ := List.mem_iff_getElem?.1 hc
  obtain ⟨j, hj⟩ := List.mem_iff_getElem?.1 hcm
  have hmethod : p.method? i j = some m := by rw [method?, hi]; exact hj
  have hpairwise : p.methods.Pairwise fun m m' => ∀ x, p.Holds m x → ¬ p.Holds m' x := by
    obtain ⟨order, hperm, hb⟩ := id hf
    refine (hperm.pairwise_iff fun h x hm' hm => h x hm hm').1 (hb.pairwise fun m x lo hi hfills => hf.holds_range hfills)
  refine ⟨(i, j), ⟨m, hmethod, hholds⟩, ?_⟩
  rintro ⟨i', j'⟩ ⟨m', hm', hholds'⟩
  obtain ⟨rfl, rfl⟩ := method_unique_of_pairwise hpairwise hmethod hm' hholds hholds'
  rfl

theorem count_occurrences (hf : p.Forest) (hx : x.index < p.arena.size) (hshared : ¬ p.arena.IsShared x) :
    p.occurrences.count x = 1 := by
  obtain ⟨order, hperm, hb⟩ := hf
  have honce := hb.namedOnce hshared
  rw [NamedOnce, if_pos ⟨Nat.zero_le _, hx⟩, partsIn_all] at honce
  rw [occurrences, List.count_append, ← (hperm.flatMap_right _).count_eq, ← List.count_append, honce]

theorem returns (hf : p.Forest) {d : NodeId} (hx : x ∈ p.arena.children d) (hr : p.arena.IsReturn x) :
    ∃ params temps body, p.arena.expr? d = some (.block params temps body) := by
  obtain ⟨order, -, hb⟩ := hf
  obtain ⟨e, he, -⟩ := expr_of_mem_children hx
  exact hb.returnsIn d x (Nat.zero_le _) (lt_size_of_expr he) hx hr

end Program.Forest

/-- A program that a source text spells has its nodes in post-order, each in one place. -/
theorem postOrder_ofBytes {bytes : List UInt8} {p : Program} (h : Program.ofBytes bytes = .ok p) : p.PostOrder := by
  have hf : p.Forest := (Program.parsed_ofBytes h).forest
  obtain ⟨hclasses, hnodes⟩ := Program.readAs_ofTokens trivial (fun _ ht => formed_tokenize ht) h
  exact {
    ordered := hf.ordered
    held := fun _ hx => hf.held hx
    once := fun _ hx hshared => hf.count_occurrences hx hshared
    targets := fun _ _ _ hd => (hf.assign_parts hd).1
    returns := fun _ _ hx hr => hf.returns hx hr
    sends := fun d receiver selector args hd => Selects.arity_eq (hnodes d _ hd)
    methods := fun m hm => by
      obtain ⟨c, hc, hm⟩ := List.mem_flatMap.1 hm
      exact ((hclasses c hc).methods m hm).selects.arity_eq }

/-- The receiver of this cascade is named by the cascade and by both messages, and every other node once. -/
theorem postOrder_cascade : ∃ p : Program,
    Program.ofBytes "A : nil [ at: i put: v [ ^ [ ^ i foo; bar: v * 2 ] ] ]".toUTF8.toList = .ok p ∧
      p.arena.ids.map (p.occurrences.count ·) = [3, 1, 1, 1, 1, 1, 1, 1, 1, 1] ∧ p.PostOrder := by
  obtain ⟨p, hp, hcheck⟩ := Program.exists_ofBytes "A : nil [ at: i put: v [ ^ [ ^ i foo; bar: v * 2 ] ] ]".toUTF8
    (fun p => p.arena.ids.map (p.occurrences.count ·) = [3, 1, 1, 1, 1, 1, 1, 1, 1, 1]) (by decide +kernel)
  exact ⟨p, hp, of_decide_eq_true hcheck, postOrder_ofBytes hp⟩

end BlockScope
