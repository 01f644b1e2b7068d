import BlockScope.Proofs.Program.Events
import Mathlib.Logic.Relation
/-!
# What walks pass over

A walk visits the receiver of a cascade and the arguments of its messages. Where a message is sent to the result
of a send, that send is no argument and is passed over, with all it holds but the receiver of the cascade.
`Forest.noted_iff` says that nothing else is: a node is met by a walk over all methods if and only if it is not
`Hidden`.
-/
namespace BlockScope
namespace Arena

/-- The second node is the first or lies somewhere in it. -/
def Contains (a : Arena) : NodeId → NodeId → Prop := Relation.ReflTransGen fun d x => x ∈ a.children d

/-- The second node lies somewhere in the first, at least one step down. -/
def Holds (a : Arena) : NodeId → NodeId → Prop := Relation.TransGen fun d x => x ∈ a.children d

/-- The node lies in what a message of the cascade is sent to, but not in the receiver of the cascade. -/
def HiddenBy (a : Arena) (d x : NodeId) : Prop :=
  ∃ receiver messages message target selector args, a.expr? d = some (.cascade receiver messages) ∧ message ∈ messages ∧
    a.expr? message = some (.send target selector args) ∧ a.Contains target x ∧ ¬ a.Contains receiver x

/-- Some cascade hides the node. -/
def Hidden (a : Arena) (x : NodeId) : Prop := ∃ d, a.HiddenBy d x

/-- The nodes that a visit takes note of: the node itself, and the messages of a cascade. -/
def noted (a : Arena) (id : NodeId) : List NodeId :=
  match a.expr? id with
  | some (.cascade _ messages) => id :: messages
  | _ => [id]

variable {a : Arena} {piece : Piece} {st : Standing} {lo mid hi n : Nat} {id d x y base : NodeId} {ids ids' : List NodeId}

theorem mem_noted_self (a : Arena) (id : NodeId) : id ∈ a.noted id := by
  unfold noted
  split <;> simp

theorem noted_of_expr {e : Expr} (h : a.expr? id = some e) (hc : ∀ r ms, e ≠ .cascade r ms) : a.noted id = [id] := by
  unfold noted
  rw [h]
  cases e with
  | cascade r ms => exact absurd rfl (hc r ms)
  | _ => rfl

theorem noted_of_cascade {receiver : NodeId} {messages : List NodeId} (h : a.expr? id = some (.cascade receiver messages)) :
    a.noted id = id :: messages := by
  unfold noted
  rw [h]

/-! ## Where contained nodes stand -/

theorem Ordered.contains_le (ho : a.Ordered) (h : a.Contains d x) : x.index ≤ d.index := by
  induction h with
  | refl => exact Nat.le_refl _
  | tail _ hx ih =>
    have := ho _ _ hx
    omega

theorem Holds.contains (h : a.Holds d x) : a.Contains d x := h.to_reflTransGen

/-- What a walk visits next lies in the node. -/
theorem holds_of_parts (hx : x ∈ a.parts d) : a.Holds d x := by
  unfold parts at hx
  split at hx
  · next receiver messages he =>
    have hchildren : a.children d = receiver :: messages := children_of_expr he
    simp only [cascadeParts, List.mem_cons, List.mem_flatMap] at hx
    rcases hx with rfl | ⟨message, hm, hx⟩
    · exact .single (by rw [hchildren]; exact List.mem_cons_self)
    · have hmessage : message ∈ a.children d := by
        rw [hchildren]
        exact List.mem_cons_of_mem _ hm
      exact .head hmessage (.single (mem_children_of_argsOf hx))
  · next e _ he =>
    rw [← children_of_expr he] at hx
    exact .single hx
  · cases hx

theorem Contains.child (h : y ∈ a.children d) (hx : a.Contains y x) : a.Contains d x := .head h hx

/-- What a node of some closed places contains stands there too, or the base of the places contains it. -/
theorem Closed.contains {outer : Option NodeId} (hc : a.Closed lo hi outer) (hd : lo ≤ d.index) (hd' : d.index < hi)
    (h : a.Contains d x) : lo ≤ x.index ∨ ∃ b, outer = some b ∧ a.Contains b x := by
  induction h using Relation.ReflTransGen.head_induction_on with
  | refl => exact .inl hd
  | head hy hx ih =>
    rcases hc _ _ hd hd' hy with ⟨hlo, hlt⟩ | hb
    · exact ih hlo (by omega)
    · exact .inr ⟨_, hb, hx⟩

/-- Everything in the places of a piece is contained in it. -/
theorem Fills.contains (h : a.Fills piece lo hi) (hlo : lo ≤ x.index) (hhi : x.index < hi) :
    ∃ d ∈ tops piece, a.Contains d x := by
  -- The last node is contained in itself, and it contains what its parts contain.
  have node : ∀ {n lo : Nat} {ids : List NodeId}, (∀ y ∈ ids, y ∈ a.children ⟨n⟩) →
      (lo ≤ x.index → x.index < n → ∃ d ∈ ids, a.Contains d x) → lo ≤ x.index → x.index < n + 1 →
      ∃ d ∈ [(⟨n⟩ : NodeId)], a.Contains d x := by
    intro n lo ids hids ih hlo hhi
    refine ⟨⟨n⟩, by simp, ?_⟩
    by_cases hn : x.index < n
    · obtain ⟨d, hd, hx⟩ := ih hlo hn
      exact .child (hids d hd) hx
    · obtain rfl := NodeId.eq_of_lt_succ hhi hn
      exact .refl
  have append : ∀ {lo mid hi : Nat} {ids ids' : List NodeId}, (lo ≤ x.index → x.index < mid → ∃ d ∈ ids, a.Contains d x) →
      (mid ≤ x.index → x.index < hi → ∃ d ∈ ids', a.Contains d x) → lo ≤ x.index → x.index < hi →
      ∃ d ∈ ids ++ ids', a.Contains d x := by
    intro lo mid hi ids ids' first rest hlo hhi
    by_cases hm : x.index < mid
    · obtain ⟨d, hd, hx⟩ := first hlo hm
      exact ⟨d, List.mem_append_left _ hd, hx⟩
    · obtain ⟨d, hd, hx⟩ := rest (by omega) hhi
      exact ⟨d, List.mem_append_right _ hd, hx⟩
  induction h with
  | literal | ident => exact node (List.forall_mem_nil _) (by omega) hlo hhi
  | assign h _ first rest ihf ihr | send h first rest ihf ihr | cascade h first rest ihf ihr | chain h first rest ihf ihr =>
    refine node ?_ (append ihf ihr) hlo hhi
    intro y hy
    rw [children_of_expr h]
    exact hy
  | block h rest ih | paren h rest ih | array h rest ih | ret h rest ih =>
    refine node ?_ ih hlo hhi
    intro y hy
    rw [children_of_expr h]
    exact hy
  | direct h rest ih =>
    refine node ?_ ih hlo hhi
    intro y hy
    rw [children_of_expr h]
    exact List.mem_cons_of_mem _ hy
  | expression _ ih => exact ih hlo hhi
  | nil => omega
  | cons first rest ihf ihr => exact append ihf ihr hlo hhi

/-- A cascade is made of its receiver and the messages after it. -/
theorem Fills.of_cascade {receiver : NodeId} {messages : List NodeId} (h : a.Fills (.one st d) lo hi)
    (he : a.expr? d = some (.cascade receiver messages)) :
    ∃ mid, a.Fills (.one .operand receiver) lo mid ∧ a.Fills (.row (.message receiver) messages) mid d.index := by
  generalize hp : Piece.one st d = piece at h
  induction h generalizing st with
  | cascade h' first rest =>
    cases hp
    rw [he] at h'
    cases h'
    exact ⟨_, first, rest⟩
  | expression _ ih =>
    cases hp
    exact ih rfl
  | literal h' | ident h' | send h' | assign h' | block h' | paren h' | array h' | ret h' | direct h' | chain h' =>
    cases hp
    rw [he] at h'
    cases h'
  | nil | cons => cases hp

theorem Ordered.hidden_lt (ho : a.Ordered) (h : a.HiddenBy d x) : x.index < d.index := by
  obtain ⟨receiver, messages, m, target, selector, args, he, hm, hem, hx, -⟩ := h
  have := ho.contains_le hx
  have := ho m target (by rw [children_of_expr hem]; exact List.mem_cons_self)
  have := ho d m (by rw [children_of_expr he]; exact List.mem_cons_of_mem _ hm)
  omega

/-- What a cascade hides lies in the cascade. -/
theorem HiddenBy.contains (h : a.HiddenBy d x) : a.Contains d x := by
  obtain ⟨receiver, messages, m, target, selector, args, he, hm, hem, hx, -⟩ := h
  refine .child (y := m) ?_ (.child (y := target) ?_ hx)
  · rw [children_of_expr he]
    exact List.mem_cons_of_mem _ hm
  · rw [children_of_expr hem]
    exact List.mem_cons_self

/-- A cascade hides only what stands in its own places. -/
theorem Fills.le_of_hidden (h : a.Fills piece lo hi) (hd : lo ≤ d.index) (hd' : d.index < hi) (hx : a.HiddenBy d x) :
    lo ≤ x.index := by
  obtain ⟨receiver, messages, m, target, selector, args, he, -⟩ := id hx
  obtain ⟨st, lo', hle, hfills⟩ := h.at_node hd hd'
  obtain ⟨mid, first, rest⟩ := hfills.of_cascade he
  have hclosed : a.Closed lo' (d.index + 1) none := (Fills.cascade he first rest).closed
  rcases hclosed.contains (Nat.le_of_lt_succ hfills.last.1) (Nat.lt_succ_self _) hx.contains with hlo | ⟨b, hb, -⟩
  · omega
  · cases hb

/-! ## Nodes met and nodes lost -/

/-- A cascade in these places hides the node. -/
def HiddenIn (a : Arena) (lo hi : Nat) (x : NodeId) : Prop := ∃ d : NodeId, lo ≤ d.index ∧ d.index < hi ∧ a.HiddenBy d x

/-- The node lies in what one of these messages is sent to. -/
def Behind (a : Arena) (messages : List NodeId) (x : NodeId) : Prop :=
  ∃ m ∈ messages, ∃ target selector args, a.expr? m = some (.send target selector args) ∧ a.Contains target x

theorem hiddenBy_iff {receiver : NodeId} {messages : List NodeId} (h : a.expr? d = some (.cascade receiver messages)) :
    a.HiddenBy d x ↔ a.Behind messages x ∧ ¬ a.Contains receiver x := by
  constructor
  · rintro ⟨receiver', messages', m, target, selector, args, he, hm, hem, hx, hno⟩
    rw [h] at he
    cases he
    exact ⟨⟨m, hm, target, selector, args, hem, hx⟩, hno⟩
  · rintro ⟨⟨m, hm, target, selector, args, hem, hx⟩, hno⟩
    exact ⟨receiver, messages, m, target, selector, args, h, hm, hem, hx, hno⟩

theorem HiddenIn.lt (h : a.HiddenIn lo hi x) (ho : a.Ordered) : x.index < hi := by
  obtain ⟨d, -, hd, hx⟩ := h
  exact Nat.lt_trans (ho.hidden_lt hx) hd

theorem hiddenIn_append (ho : a.Ordered) (hrest : ∀ d : NodeId, mid ≤ d.index → d.index < hi → a.HiddenBy d x → mid ≤ x.index)
    (hle : lo ≤ mid) (hle' : mid ≤ hi) :
    a.HiddenIn lo hi x ↔ x.index < mid ∧ a.HiddenIn lo mid x ∨ mid ≤ x.index ∧ a.HiddenIn mid hi x := by
  constructor
  · rintro ⟨d, hd, hd', hx⟩
    by_cases hm : d.index < mid
    · exact .inl ⟨Nat.lt_trans (ho.hidden_lt hx) hm, d, hd, hm, hx⟩
    · exact .inr ⟨hrest d (by omega) hd' hx, d, by omega, hd', hx⟩
  · rintro (⟨-, d, hd, hd', hx⟩ | ⟨-, d, hd, hd', hx⟩)
    · exact ⟨d, hd, by omega, hx⟩
    · exact ⟨d, by omega, hd', hx⟩

theorem hiddenIn_succ (hle : lo ≤ n) : a.HiddenIn lo (n + 1) x ↔ a.HiddenIn lo n x ∨ a.HiddenBy ⟨n⟩ x := by
  constructor
  · rintro ⟨d, hd, hd', hx⟩
    by_cases hn : d.index < n
    · exact .inl ⟨d, hd, hn, hx⟩
    · obtain rfl := NodeId.eq_of_lt_succ hd' hn
      exact .inr hx
  · rintro (⟨d, hd, hd', hx⟩ | hx)
    · exact ⟨d, hd, by omega, hx⟩
    · exact ⟨⟨n⟩, hle, Nat.lt_succ_self n, hx⟩

theorem not_hiddenBy {e : Expr} (h : a.expr? d = some e) (hc : ∀ r ms, e ≠ .cascade r ms) : ¬ a.HiddenBy d x := by
  rintro ⟨r, ms, -, -, -, -, he, -⟩
  rw [h] at he
  cases he
  exact hc r ms rfl

/-- Each node of these places is either met, which happens nowhere else, or lost. -/
structure Splits (lo hi : Nat) (met lost : NodeId → Prop) : Prop where
  places : ∀ x, met x → lo ≤ x.index ∧ x.index < hi
  exact : ∀ x, lo ≤ x.index → x.index < hi → (met x ↔ ¬ lost x)

namespace Splits
variable {met met' lost lost' : NodeId → Prop}

theorem congr (h : Splits lo hi met lost) (hmet : ∀ x, met' x ↔ met x)
    (hlost : ∀ x, lo ≤ x.index → x.index < hi → (lost' x ↔ lost x)) : Splits lo hi met' lost' := by
  constructor
  · intro x hx
    exact h.places x ((hmet x).1 hx)
  · intro x hlo hhi
    rw [hmet, hlost x hlo hhi, h.exact x hlo hhi]

theorem empty : Splits lo lo (fun _ => False) (fun _ => False) := by
  constructor
  · intro x hx
    exact hx.elim
  · intro x hlo hhi
    omega

theorem allLost : Splits lo hi (fun _ => False) (fun _ => True) := by
  constructor
  · intro x hx
    exact hx.elim
  · simp

theorem append (h : Splits lo mid met lost) (h' : Splits mid hi met' lost') (hle : lo ≤ mid) (hle' : mid ≤ hi) :
    Splits lo hi (fun x => met x ∨ met' x) (fun x => x.index < mid ∧ lost x ∨ mid ≤ x.index ∧ lost' x) := by
  constructor
  · rintro x (hx | hx)
    · have := h.places x hx
      omega
    · have := h'.places x hx
      omega
  · intro x hlo hhi
    by_cases hm : x.index < mid
    · have hno : ¬ met' x := fun hx => by have := h'.places x hx; omega
      have hmid : ¬ mid ≤ x.index := by omega
      simp [h.exact x hlo hm, hno, hm, hmid]
    · have hno : ¬ met x := fun hx => by have := h.places x hx; omega
      have hmid : mid ≤ x.index := by omega
      simp [h'.exact x hmid hhi, hno, hm, hmid]

theorem node (h : Splits lo n met lost) (hle : lo ≤ n) :
    Splits lo (n + 1) (fun x => x = ⟨n⟩ ∨ met x) (fun x => x.index < n ∧ lost x) := by
  constructor
  · rintro x (rfl | hx)
    · exact ⟨hle, Nat.lt_succ_self n⟩
    · have := h.places x hx
      omega
  · intro x hlo hhi
    by_cases hn : x.index < n
    · have hne : x ≠ ⟨n⟩ := by
        rintro rfl
        exact Nat.lt_irrefl n hn
      simp [h.exact x hlo hn, hne, hn]
    · obtain rfl := NodeId.eq_of_lt_succ hhi hn
      simp

end Splits

/-- The node is noted by a visit from this piece, or is a message that the cascade around the piece notes. -/
def Met (a : Arena) (piece : Piece) (x : NodeId) : Prop :=
  (∃ y ∈ a.reachedFrom piece, x ∈ a.noted y) ∨ piece.standing.base?.isSome ∧ x ∈ tops piece

/-- The node is hidden in these places, or lies in what a message of the piece is sent to. -/
def Lost (a : Arena) (piece : Piece) (lo hi : Nat) (x : NodeId) : Prop :=
  piece.standing.base?.isSome ∧ a.Behind (tops piece) x ∨ a.HiddenIn lo hi x

theorem met_operand (piece : Piece) (h : piece.standing.base? = none) : a.Met piece x ↔ ∃ y ∈ a.reachedFrom piece, x ∈ a.noted y := by
  simp [Met, h]

theorem lost_operand (piece : Piece) (h : piece.standing.base? = none) : a.Lost piece lo hi x ↔ a.HiddenIn lo hi x := by
  simp [Lost, h]

namespace Splits
variable {piece' : Piece}

/-- Two pieces, one after the other, that reach back to nothing. -/
theorem pieces (h : Splits lo mid (a.Met piece) (a.Lost piece lo mid)) (h' : Splits mid hi (a.Met piece') (a.Lost piece' mid hi))
    (ho : a.Ordered) (first : a.Fills piece lo mid) (rest : a.Fills piece' mid hi) (hp : piece.standing.base? = none)
    (hp' : piece'.standing.base? = none) :
    Splits lo hi (fun x => ∃ y ∈ a.reachedFrom piece ++ a.reachedFrom piece', x ∈ a.noted y) (a.HiddenIn lo hi) := by
  refine (h.append h' first.le rest.le).congr (fun x => ?_) (fun x _ _ => ?_)
  · rw [met_operand _ hp, met_operand _ hp']
    simp only [List.mem_append, or_and_right, exists_or]
  · rw [lost_operand _ hp, lost_operand _ hp', hiddenIn_append ho (fun _ => rest.le_of_hidden) first.le rest.le]

theorem single (h : Splits lo hi (a.Met piece) (a.Lost piece lo hi)) (hp : piece.standing.base? = none) :
    Splits lo hi (fun x => ∃ y ∈ a.reachedFrom piece, x ∈ a.noted y) (a.HiddenIn lo hi) :=
  h.congr (fun _ => (met_operand piece hp).symm) (fun _ _ _ => (lost_operand piece hp).symm)

/-- A node that is no cascade, after its parts. -/
theorem operand {e : Expr} (h : Splits lo n (fun x => ∃ y ∈ ids, x ∈ a.noted y) (a.HiddenIn lo n)) (ho : a.Ordered) (hle : lo ≤ n)
    (he : a.expr? ⟨n⟩ = some e) (hc : ∀ r ms, e ≠ .cascade r ms) (hst : st.base? = none)
    (hreach : a.reachedFrom (.one st ⟨n⟩) = ⟨n⟩ :: ids) :
    Splits lo (n + 1) (a.Met (.one st ⟨n⟩)) (a.Lost (.one st ⟨n⟩) lo (n + 1)) := by
  refine (h.node hle).congr (fun x => ?_) (fun x _ _ => ?_)
  · rw [met_operand (.one st ⟨n⟩) hst, hreach]
    simp only [List.mem_cons, exists_eq_or_imp, noted_of_expr he hc, List.not_mem_nil, or_false]
  · rw [lost_operand (.one st ⟨n⟩) hst, hiddenIn_succ hle]
    simp only [not_hiddenBy he hc, or_false]
    exact ⟨fun hx => ⟨hx.lt ho, hx⟩, And.right⟩

end Splits

theorem reached_operand {e : Expr} (ho : a.Ordered) (h : a.expr? ⟨n⟩ = some e) (hc : ∀ r ms, e ≠ .cascade r ms)
    (hst : st.base? = none) : a.reachedFrom (.one st ⟨n⟩) = ⟨n⟩ :: e.children.flatMap a.reached := by
  have hone : a.reachedFrom (.one st ⟨n⟩) = a.reached ⟨n⟩ := by
    cases st with
    | operand | statement => rfl
    | message base => cases hst
  rw [hone, ho.reached_eq, parts_of_expr h hc]

theorem splits_nil (ids : NodeId → Prop) (hids : ∀ x, ¬ ids x) : Splits lo lo ids (a.HiddenIn lo lo) := by
  refine Splits.empty.congr (fun x => iff_false_intro (hids x)) (fun x hlo hhi => ?_)
  omega

theorem Fills.top_places (h : a.Fills piece lo hi) (hx : x ∈ tops piece) : lo ≤ x.index ∧ x.index < hi := by
  cases piece with
  | one st id =>
    cases List.mem_singleton.1 hx
    have := h.last
    omega
  | row st ids => exact h.row_mem hx

/-- What a message is sent to stands in the places of the messages, or lies in the base. -/
theorem Fills.behind (h : a.Fills piece lo hi) (ho : a.Ordered) (hx : a.Behind (tops piece) x) :
    x.index < hi ∧ (lo ≤ x.index ∨ ∃ b, piece.standing.base? = some b ∧ a.Contains b x) := by
  obtain ⟨m, hm, target, selector, args, hem, hx⟩ := hx
  obtain ⟨hlo, hhi⟩ := h.top_places hm
  have htarget : target ∈ a.children m := by
    rw [children_of_expr hem]
    exact List.mem_cons_self
  have := ho.contains_le hx
  have := ho _ _ htarget
  exact ⟨by omega, h.closed.contains hlo hhi (.child htarget hx)⟩

namespace Splits

theorem cascade {messages : List NodeId} (ho : a.Ordered) (he : a.expr? ⟨n⟩ = some (.cascade base messages))
    (first : a.Fills (.one .operand base) lo mid) (rest : a.Fills (.row (.message base) messages) mid n)
    (h : Splits lo mid (a.Met (.one .operand base)) (a.Lost (.one .operand base) lo mid))
    (h' : Splits mid n (a.Met (.row (.message base) messages)) (a.Lost (.row (.message base) messages) mid n)) :
    Splits lo (n + 1) (a.Met (.one .operand ⟨n⟩)) (a.Lost (.one .operand ⟨n⟩) lo (n + 1)) := by
  have hle := Nat.le_trans first.le rest.le
  have hbase : base.index < mid := by
    have := first.last
    omega
  refine ((h.append h' first.le rest.le).node hle).congr (fun x => ?_) (fun x _ _ => ?_)
  -- What is met: the messages themselves are noted by the cascade and not by a visit of their own.
  · have hreach : a.reachedFrom (.one .operand ⟨n⟩) =
        ⟨n⟩ :: (a.reachedFrom (.one .operand base) ++ a.reachedFrom (.row (.message base) messages)) := by
      rw [reachedFrom, reachedAs, ho.reached_eq, parts_of_cascade he, List.flatMap_cons, List.flatMap_assoc]
      rfl
    rw [met_operand (.one .operand _) rfl, met_operand (.one .operand _) rfl, hreach]
    simp only [Met, noted_of_cascade he, Piece.standing, Standing.base?, tops, Option.isSome_some, true_and, List.mem_cons,
      List.mem_append, or_and_right, exists_or, exists_eq_left]
    rw [or_assoc, or_left_comm (a := x ∈ messages), or_comm (a := x ∈ messages)]
  -- What is lost: nothing after the receiver lies in it, so all that is behind a message there is hidden.
  · have hnot : mid ≤ x.index → ¬ a.Contains base x := by
      intro hx hc
      have := ho.contains_le hc
      omega
    rw [lost_operand (.one .operand _) rfl, hiddenIn_succ hle, hiddenIn_append ho (fun _ => rest.le_of_hidden) first.le rest.le,
      hiddenBy_iff he, lost_operand (.one .operand _) rfl]
    simp only [Lost, Piece.standing, Standing.base?, tops, Option.isSome_some, true_and]
    constructor
    · rintro ((⟨hx, hh⟩ | ⟨hx, hh⟩) | ⟨hx, hno⟩)
      · exact ⟨by have := rest.le; omega, .inl ⟨hx, hh⟩⟩
      · exact ⟨hh.lt ho, .inr ⟨hx, .inr hh⟩⟩
      · obtain ⟨hlt, hlo | ⟨b, hb, hc⟩⟩ := rest.behind ho hx
        · exact ⟨hlt, .inr ⟨hlo, .inl hx⟩⟩
        · cases hb
          exact absurd hc hno
    · rintro ⟨-, ⟨hx, hh⟩ | ⟨hx, hh | hh⟩⟩
      · exact .inl (.inl ⟨hx, hh⟩)
      · exact .inr ⟨hh, hnot hx⟩
      · exact .inl (.inr ⟨hx, hh⟩)

theorem met_message {receiver : NodeId} {selector : String} {args : List NodeId}
    (he : a.expr? ⟨n⟩ = some (.send receiver selector args)) :
    a.Met (.one (.message base) ⟨n⟩) x ↔ x = ⟨n⟩ ∨ a.Met (.row .operand args) x := by
  have hreach : a.reachedFrom (.one (.message base) ⟨n⟩) = a.reachedFrom (.row .operand args) := by
    rw [reachedFrom, reachedAs, argsOf_of_expr he]
    rfl
  rw [Met, hreach, met_operand (.row .operand args) rfl, or_comm]
  simp [Piece.standing, Standing.base?, tops]

/-- A message sent to the base itself. -/
theorem direct {selector : String} {args : List NodeId} (ho : a.Ordered) (he : a.expr? ⟨n⟩ = some (.send base selector args))
    (rest : a.Fills (.row .operand args) lo n) (hbase : base.index < lo)
    (h : Splits lo n (a.Met (.row .operand args)) (a.Lost (.row .operand args) lo n)) :
    Splits lo (n + 1) (a.Met (.one (.message base) ⟨n⟩)) (a.Lost (.one (.message base) ⟨n⟩) lo (n + 1)) := by
  refine (h.node rest.le).congr (fun x => met_message he) (fun x hlo _ => ?_)
  -- The base stands before these places, and so does all it holds.
  have hnot : ¬ a.Behind [⟨n⟩] x := by
    rintro ⟨m, hm, target, selector', args', hem, hx⟩
    cases List.mem_singleton.1 hm
    rw [he] at hem
    cases hem
    have := ho.contains_le hx
    omega
  rw [Lost, lost_operand (.row .operand args) rfl, hiddenIn_succ rest.le]
  simp only [tops, hnot, and_false, false_or, not_hiddenBy he (by simp), or_false]
  exact ⟨fun hx => ⟨hx.lt ho, hx⟩, And.right⟩

/-- A message sent to the result of another: all of that is lost. -/
theorem chain {receiver : NodeId} {selector : String} {args : List NodeId} (ho : a.Ordered)
    (he : a.expr? ⟨n⟩ = some (.send receiver selector args)) (first : a.Fills (.one (.message base) receiver) lo mid)
    (rest : a.Fills (.row .operand args) mid n)
    (h : Splits mid n (a.Met (.row .operand args)) (a.Lost (.row .operand args) mid n)) :
    Splits lo (n + 1) (a.Met (.one (.message base) ⟨n⟩)) (a.Lost (.one (.message base) ⟨n⟩) lo (n + 1)) := by
  have hle := Nat.le_trans first.le rest.le
  refine ((allLost.append h first.le rest.le).node hle).congr (fun x => by rw [false_or]; exact met_message he) (fun x hlo _ => ?_)
  -- All places of the inner message lie in it, so the outer one is sent to all of them.
  have hbehind : a.Behind [⟨n⟩] x ↔ x.index < mid := by
    constructor
    · rintro ⟨m, hm, target, selector', args', hem, hx⟩
      cases List.mem_singleton.1 hm
      rw [he] at hem
      cases hem
      have := ho.contains_le hx
      have := first.last
      omega
    · intro hx
      obtain ⟨d, hd, hx⟩ := first.contains hlo hx
      cases List.mem_singleton.1 hd
      exact ⟨⟨n⟩, by simp, receiver, selector, args, he, hx⟩
  rw [Lost, lost_operand (.row .operand args) rfl, hiddenIn_succ hle, hiddenIn_append ho (fun _ => rest.le_of_hidden) first.le rest.le]
  simp only [Piece.standing, Standing.base?, tops, Option.isSome_some, true_and, hbehind, not_hiddenBy he (by simp), or_false,
    and_true]
  constructor
  · rintro (hx | ⟨hx, -⟩ | ⟨hx, hh⟩)
    · exact ⟨by have := rest.le; omega, .inl hx⟩
    · exact ⟨by have := rest.le; omega, .inl hx⟩
    · exact ⟨hh.lt ho, .inr ⟨hx, hh⟩⟩
  · rintro ⟨-, hx | hx⟩
    · exact .inl hx
    · exact .inr (.inr hx)

/-- A piece and those after it. -/
theorem cons (ho : a.Ordered) (first : a.Fills (.one st id) lo mid) (rest : a.Fills (.row st ids) mid hi)
    (hbase : ∀ b, st.base? = some b → b.index < lo) (h : Splits lo mid (a.Met (.one st id)) (a.Lost (.one st id) lo mid))
    (h' : Splits mid hi (a.Met (.row st ids)) (a.Lost (.row st ids) mid hi)) :
    Splits lo hi (a.Met (.row st (id :: ids))) (a.Lost (.row st (id :: ids)) lo hi) := by
  refine (h.append h' first.le rest.le).congr (fun x => ?_) (fun x hlo _ => ?_)
  · have hreach : a.reachedFrom (.row st (id :: ids)) = a.reachedFrom (.one st id) ++ a.reachedFrom (.row st ids) :=
      List.flatMap_cons
    simp only [Met, hreach, Piece.standing, tops, List.mem_append, List.mem_cons, List.not_mem_nil, or_false, or_and_right,
      exists_or, and_or_left]
    rw [or_assoc, or_assoc, or_left_comm (a := ∃ y ∈ a.reachedFrom (.row st ids), x ∈ a.noted y)]
  · have hcons : a.Behind (id :: ids) x ↔ a.Behind [id] x ∨ a.Behind ids x := by
      simp only [Behind, List.mem_cons, List.not_mem_nil, or_false, or_and_right, exists_or, exists_eq_left]
    simp only [Lost, Piece.standing, tops, hiddenIn_append ho (fun _ => rest.le_of_hidden) first.le rest.le, hcons]
    constructor
    · rintro (⟨hst, hx | hx⟩ | ⟨hx, hh⟩ | ⟨hx, hh⟩)
      · exact .inl ⟨(first.behind ho hx).1, .inl ⟨hst, hx⟩⟩
      · obtain ⟨-, hm | ⟨b, hb, hc⟩⟩ := rest.behind ho hx
        · exact .inr ⟨hm, .inl ⟨hst, hx⟩⟩
        · have := hbase b hb
          have := ho.contains_le hc
          omega
      · exact .inl ⟨hx, .inr hh⟩
      · exact .inr ⟨hx, .inr hh⟩
    · rintro (⟨hx, ⟨hst, hb⟩ | hh⟩ | ⟨hx, ⟨hst, hb⟩ | hh⟩)
      · exact .inl ⟨hst, .inl hb⟩
      · exact .inr (.inl ⟨hx, hh⟩)
      · exact .inl ⟨hst, .inr hb⟩
      · exact .inr (.inr ⟨hx, hh⟩)

end Splits

theorem no_base (b : NodeId) (h : (none : Option NodeId) = some b) : b.index < lo := by cases h

/-- Of the places of a piece, a walk meets all that is not lost. -/
theorem Fills.splits (h : a.Fills piece lo hi) (ho : a.Ordered) (hbase : ∀ b, piece.standing.base? = some b → b.index < lo) :
    Splits lo hi (a.Met piece) (a.Lost piece lo hi) := by
  induction h with
  | literal h | ident h =>
    exact (splits_nil _ (by simp [Expr.children])).operand ho (Nat.le_refl _) h (by simp) rfl (reached_operand ho h (by simp) rfl)
  | assign h _ first rest ihf ihr =>
    refine ((ihf no_base).pieces (ihr no_base) ho first rest rfl rfl).operand ho (Nat.le_trans first.le rest.le) h (by simp) rfl ?_
    rw [reached_operand ho h (by simp) rfl]
    simp [Expr.children, reachedFrom, reachedAs]
  | send h first rest ihf ihr =>
    exact ((ihf no_base).pieces (ihr no_base) ho first rest rfl rfl).operand ho (Nat.le_trans first.le rest.le) h (by simp) rfl
      (reached_operand ho h (by simp) rfl)
  | cascade h first rest ihf ihr =>
    refine .cascade ho h first rest (ihf no_base) (ihr ?_)
    rintro b ⟨⟩
    have := first.last
    omega
  | block h rest ih | array h rest ih =>
    exact ((ih no_base).single rfl).operand ho rest.le h (by simp) rfl (reached_operand ho h (by simp) rfl)
  | paren h rest ih | ret h rest ih =>
    refine ((ih no_base).single rfl).operand ho rest.le h (by simp) rfl ?_
    rw [reached_operand ho h (by simp) rfl]
    simp [Expr.children, reachedFrom, reachedAs]
  | expression _ ih => exact ih no_base
  | direct h rest ih => exact .direct ho h rest (hbase _ rfl) (ih no_base)
  | chain h first rest _ ihr => exact .chain ho h first rest (ihr no_base)
  | nil =>
    refine Splits.empty.congr (fun x => ?_) (fun x hlo hhi => by omega)
    simp [Met, reachedFrom, tops]
  | cons first rest ihf ihr =>
    refine .cons ho first rest hbase (ihf hbase) (ihr fun b hb => ?_)
    have := hbase b hb
    have := first.le
    omega

/-! ## All of a program -/

theorem Bodies.splits {ms : List Method} (h : a.Bodies lo ms hi) (ho : a.Ordered) :
    Splits lo hi (fun x => ∃ y ∈ ms.flatMap fun m => m.body.flatMap a.reached, x ∈ a.noted y) (a.HiddenIn lo hi) := by
  induction ms generalizing lo with
  | nil =>
    obtain rfl : lo = hi := h
    exact splits_nil _ (by simp)
  | cons m ms ih =>
    obtain ⟨mid, first, rest⟩ := h
    have hrest : ∀ d x : NodeId, mid ≤ d.index → d.index < hi → a.HiddenBy d x → mid ≤ x.index := by
      intro d x hd hd' hx
      rcases rest.closed.contains hd hd' hx.contains with hle | ⟨b, hb, -⟩
      · exact hle
      · cases hb
    refine (((first.splits ho no_base).single rfl).append (ih rest) first.le rest.le).congr (fun x => ?_) (fun x _ _ => ?_)
    · rw [List.flatMap_cons]
      simp only [List.mem_append, or_and_right, exists_or]
      rfl
    · exact hiddenIn_append ho (fun d => hrest d x) first.le rest.le

theorem Fills.message_send {messages : List NodeId} (h : a.Fills (.row (.message base) messages) lo hi) (hx : x ∈ messages) :
    ∃ target selector args, a.expr? x = some (.send target selector args) := by
  induction messages generalizing lo with
  | nil => cases hx
  | cons m messages ih =>
    cases h with
    | cons first rest =>
      rcases List.mem_cons.1 hx with rfl | hx
      · cases first with
        | direct h => exact ⟨_, _, _, h⟩
        | chain h => exact ⟨_, _, _, h⟩
      · exact ih rest hx

end Arena

namespace Program.Forest
variable {p : Program} {x y d : NodeId}

/-- An event takes note of the node if and only if no cascade hides it. -/
theorem noted_iff (hf : p.Forest) (hx : x.index < p.arena.size) :
    (∃ o role y, .node o role y ∈ p.events ∧ x ∈ p.arena.noted y) ↔ ¬ p.arena.Hidden x := by
  have hreached : ∀ y, (∃ o role, .node o role y ∈ p.events) ↔
      y ∈ p.methods.flatMap fun m => m.body.flatMap p.arena.reached := by
    intro y
    rw [← filterMap_events, List.mem_filterMap]
    constructor
    · rintro ⟨o, role, hev⟩
      exact ⟨_, hev, rfl⟩
    · rintro ⟨ev, hev, hy⟩
      cases ev with
      | method => cases hy
      | node o role y' =>
        cases hy
        exact ⟨o, role, hev⟩
  obtain ⟨order, hperm, hbodies⟩ := id hf
  have hsplit := (hbodies.splits hf.ordered).exact x (Nat.zero_le _) hx
  have hhidden : p.arena.HiddenIn 0 p.arena.size x ↔ p.arena.Hidden x := by
    constructor
    · rintro ⟨d, -, -, h⟩
      exact ⟨d, h⟩
    · rintro ⟨d, h⟩
      obtain ⟨receiver, messages, -, -, -, -, he, -⟩ := id h
      exact ⟨d, Nat.zero_le _, Arena.lt_size_of_expr he, h⟩
  rw [← hhidden, ← hsplit]
  simp only [(hperm.flatMap_right _).mem_iff, ← hreached]
  constructor
  · rintro ⟨o, role, y, hev, hy⟩
    exact ⟨y, ⟨o, role, hev⟩, hy⟩
  · rintro ⟨y, ⟨o, role, hev⟩, hy⟩
    exact ⟨o, role, y, hev, hy⟩

theorem message_send {receiver : NodeId} {messages : List NodeId} (hf : p.Forest)
    (he : p.arena.expr? d = some (.cascade receiver messages)) (hx : x ∈ messages) :
    ∃ target selector args, p.arena.expr? x = some (.send target selector args) := by
  obtain ⟨order, -, hbodies⟩ := hf
  obtain ⟨st, lo, hfills⟩ := hbodies.at_node (Nat.zero_le _) (Arena.lt_size_of_expr he)
  obtain ⟨mid, -, rest⟩ := hfills.of_cascade he
  exact rest.message_send hx

/-- A node that is no send has an event if and only if no cascade hides it. -/
theorem event_iff {e : Expr} (hf : p.Forest) (he : p.arena.expr? x = some e)
    (hsend : ∀ target selector args, e ≠ .send target selector args) :
    (∃ o role, .node o role x ∈ p.events) ↔ ¬ p.arena.Hidden x := by
  rw [← hf.noted_iff (Arena.lt_size_of_expr he)]
  constructor
  · rintro ⟨o, role, hev⟩
    exact ⟨o, role, x, hev, Arena.mem_noted_self _ x⟩
  · rintro ⟨o, role, y, hev, hx⟩
    unfold Arena.noted at hx
    split at hx
    · next receiver messages hy =>
      rcases List.mem_cons.1 hx with rfl | hx
      · exact ⟨o, role, hev⟩
      · obtain ⟨target, selector, args, hx⟩ := hf.message_send hy hx
        rw [he] at hx
        cases hx
        exact absurd rfl (hsend target selector args)
    · cases List.mem_singleton.1 hx
      exact ⟨o, role, hev⟩

end Program.Forest
end BlockScope
