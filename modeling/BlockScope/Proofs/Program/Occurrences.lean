import BlockScope.Proofs.Program.Reached
import BlockScope.Proofs.Program.Visited
import Mathlib.Data.List.Perm.Basic
/-!
# How often a node occurs

No node is noted twice. A walk visits every node at most once, so a node has one opener and one role
(`Forest.event_unique`); and a message of a cascade is noted by its cascade and visited by nothing
(`Forest.not_event_of_message`). A role other than the plain one comes from the node that the visited one is a part of
(`Program.event_cases`).
-/
namespace BlockScope
namespace Arena
variable {a : Arena} {piece : Piece} {st : Standing} {lo mid hi n : Nat} {base d x y : NodeId} {ids ids' : List NodeId}

/-- The node is a message of a cascade. -/
def IsMessage (a : Arena) (id : NodeId) : Prop :=
  ∃ d receiver messages, a.expr? d = some (.cascade receiver messages) ∧ id ∈ messages

/-! ## Nothing is noted twice -/

/-- What is noted from a node on. -/
def notedBelow (a : Arena) (id : NodeId) : List NodeId := (a.reached id).flatMap a.noted

/-- What is noted from a node on; a message is noted by the cascade around it, and passed over. -/
def notedAs (a : Arena) : Standing → NodeId → List NodeId
  | .operand, id | .statement, id => a.notedBelow id
  | .message _, id => id :: (a.argsOf id).flatMap a.notedBelow

/-- What is noted in a piece. -/
def notedFrom (a : Arena) : Piece → List NodeId
  | .one st id => a.notedAs st id
  | .row st ids => ids.flatMap (a.notedAs st)

theorem Spread.perm (h : Spread lo hi ids) (hp : ids.Perm ids') : Spread lo hi ids' :=
  ⟨hp.nodup_iff.1 h.1, fun x hx => h.2 x (hp.mem_iff.2 hx)⟩

theorem notedBelow_eq {e : Expr} (ho : a.Ordered) (he : a.expr? d = some e) (hc : ∀ r ms, e ≠ .cascade r ms) :
    a.notedBelow d = d :: e.children.flatMap a.notedBelow := by
  unfold notedBelow
  rw [ho.reached_eq, parts_of_expr he hc, List.flatMap_cons, noted_of_expr he hc, List.flatMap_assoc]
  rfl

/-- A cascade notes its messages together, before all that lies in their arguments. -/
theorem notedBelow_cascade {receiver : NodeId} {messages : List NodeId} (ho : a.Ordered)
    (he : a.expr? d = some (.cascade receiver messages)) :
    (d :: (a.notedBelow receiver ++ messages.flatMap (a.notedAs (.message receiver)))).Perm (a.notedBelow d) := by
  have hmessages : (messages.flatMap (a.notedAs (.message receiver))).Perm
      (messages ++ messages.flatMap fun m => (a.argsOf m).flatMap a.notedBelow) := by
    have hperm := List.map_append_flatMap_perm messages (fun m => m) fun m => (a.argsOf m).flatMap a.notedBelow
    rw [List.map_id'] at hperm
    exact hperm.symm
  have hcascade : a.notedBelow d = d :: (messages ++ (a.notedBelow receiver ++
      messages.flatMap fun m => (a.argsOf m).flatMap a.notedBelow)) := by
    unfold notedBelow
    rw [ho.reached_eq, parts_of_cascade he, List.flatMap_cons, noted_of_cascade he]
    simp only [List.flatMap_cons, List.flatMap_append, List.flatMap_assoc, List.cons_append]
  rw [hcascade]
  refine .cons d ((hmessages.append_left _).trans ?_)
  rw [← List.append_assoc, ← List.append_assoc]
  exact List.perm_append_comm.append_right _

/-- What is noted in a piece are different places of the piece. -/
theorem Fills.spread_noted (h : a.Fills piece lo hi) (ho : a.Ordered) : Spread lo hi (a.notedFrom piece) := by
  induction h with
  | literal h | ident h =>
    rw [notedFrom, notedAs, notedBelow_eq ho h (by simp)]
    exact Spread.nil.node (Nat.le_refl _)
  | assign h _ first rest ihf ihr =>
    rw [notedFrom, notedAs, notedBelow_eq ho h (by simp)]
    simp only [Expr.children, List.flatMap_cons, List.flatMap_nil, List.append_nil]
    exact (ihf.append ihr first.le rest.le).node (Nat.le_trans first.le rest.le)
  | send h first rest ihf ihr =>
    rw [notedFrom, notedAs, notedBelow_eq ho h (by simp)]
    exact (ihf.append ihr first.le rest.le).node (Nat.le_trans first.le rest.le)
  | cascade h first rest ihf ihr =>
    exact ((ihf.append ihr first.le rest.le).node (Nat.le_trans first.le rest.le)).perm (notedBelow_cascade ho h)
  | block h rest ih | array h rest ih =>
    rw [notedFrom, notedAs, notedBelow_eq ho h (by simp)]
    exact ih.node rest.le
  | paren h rest ih | ret h rest ih =>
    rw [notedFrom, notedAs, notedBelow_eq ho h (by simp)]
    simp only [Expr.children, List.flatMap_singleton]
    exact ih.node rest.le
  | expression _ ih => exact ih
  | direct h rest ih =>
    rw [notedFrom, notedAs, argsOf_of_expr h]
    exact ih.node rest.le
  | chain h first rest _ iha =>
    rw [notedFrom, notedAs, argsOf_of_expr h]
    exact (iha.mono first.le (Nat.le_refl _)).node (Nat.le_trans first.le rest.le)
  | nil => exact Spread.nil
  | cons first rest ih ihs =>
    rw [notedFrom, List.flatMap_cons]
    exact ih.append ihs first.le rest.le

theorem Bodies.spread_noted {ms : List Method} (h : a.Bodies lo ms hi) (ho : a.Ordered) :
    Spread lo hi (ms.flatMap fun m => m.body.flatMap a.notedBelow) := by
  induction ms generalizing lo with
  | nil => exact .nil
  | cons m ms ih =>
    obtain ⟨mid, first, rest⟩ := h
    rw [List.flatMap_cons]
    exact (first.spread_noted ho).append (ih rest) first.le rest.le

/-! ## The places that a node has to itself -/

theorem Fills.args_of_send {receiver : NodeId} {selector : String} {args : List NodeId} (h : a.Fills (.one st d) lo hi)
    (he : a.expr? d = some (.send receiver selector args)) : ∃ mid, lo ≤ mid ∧ a.Fills (.row .operand args) mid d.index := by
  generalize hp : Piece.one st d = piece at h
  induction h generalizing st with
  | send h' first rest | chain h' first rest =>
    cases hp
    rw [he] at h'
    cases h'
    exact ⟨_, first.le, rest⟩
  | direct h' rest =>
    cases hp
    rw [he] at h'
    cases h'
    exact ⟨_, Nat.le_refl _, rest⟩
  | expression _ ih =>
    cases hp
    exact ih rfl
  | literal h' | ident h' | assign h' | cascade h' | block h' | paren h' | array h' | ret h' =>
    cases hp
    rw [he] at h'
    cases h'
  | nil | cons => cases hp

/-- A node, its arguments and its messages stand in its own places. -/
theorem Fills.le_of_own (h : a.Fills (.one st d) lo hi) (hx : x ∈ a.argsOf d ∨ x ∈ a.noted d) : lo ≤ x.index := by
  have hlast := h.last
  rcases hx with hx | hx
  · unfold argsOf at hx
    split at hx
    · next he =>
      obtain ⟨mid, hle, rest⟩ := h.args_of_send he
      have := rest.row_mem hx
      omega
    · cases hx
  · unfold noted at hx
    split at hx
    · next he =>
      obtain ⟨mid, first, rest⟩ := h.of_cascade he
      rcases List.mem_cons.1 hx with rfl | hx
      · omega
      · have := first.le
        have := rest.row_mem hx
        omega
    · cases List.mem_singleton.1 hx
      omega

theorem contains_of_own (hx : x ∈ a.argsOf d ∨ x ∈ a.noted d) : a.Contains d x := by
  rcases hx with hx | hx
  · exact .single (mem_children_of_argsOf hx)
  · unfold noted at hx
    split at hx
    · next he =>
      rcases List.mem_cons.1 hx with rfl | hx
      · exact .refl
      · refine .single ?_
        rw [children_of_expr he]
        exact List.mem_cons_of_mem _ hx
    · cases List.mem_singleton.1 hx
      exact .refl

end Arena

namespace Program
open Arena
variable {p : Program} {o o' : Opener} {role role' : Role} {d x y : NodeId} {ev : Event} {n : Nat}

/-- A cascade that hides a node hides its arguments and messages with it. -/
theorem Forest.hidden_of_own (hf : p.Forest) (hd : p.arena.Hidden d) (hx : x ∈ p.arena.argsOf d ∨ x ∈ p.arena.noted d) :
    p.arena.Hidden x := by
  obtain ⟨c, hc⟩ := hd
  have hlt := hf.ordered.hidden_lt hc
  obtain ⟨receiver, messages, message, target, selector, args, he, hm, hem, hcontains, hno⟩ := hc
  obtain ⟨order, -, hbodies⟩ := id hf
  obtain ⟨st, lo, hfills⟩ := hbodies.at_node (Nat.zero_le _) (lt_size_of_expr he)
  obtain ⟨mid, first, rest⟩ := hfills.of_cascade he
  -- The node stands among the messages, and so does what stands in its places.
  have hmid : mid ≤ d.index := by
    obtain ⟨hlo, hhi⟩ := rest.row_mem hm
    have hmd : p.arena.Contains message d := .child (by rw [children_of_expr hem]; exact List.mem_cons_self) hcontains
    rcases rest.closed.contains hlo hhi hmd with hle | ⟨b, hb, hbd⟩
    · exact hle
    · cases hb
      exact absurd hbd hno
  obtain ⟨st', lo', hle, hown⟩ := rest.at_node hmid hlt
  refine ⟨c, receiver, messages, message, target, selector, args, he, hm, hem, hcontains.trans (contains_of_own hx), ?_⟩
  intro hreceiver
  have := hf.ordered.contains_le hreceiver
  have := hown.le_of_own hx
  have := first.last
  omega

/-! ## Events and their parts -/

theorem Forest.nodup_noted (hf : p.Forest) : ((p.events.filterMap Event.node?).flatMap p.arena.noted).Nodup := by
  have ho := hf.ordered
  obtain ⟨order, hperm, hbodies⟩ := hf
  rw [filterMap_events, List.flatMap_assoc]
  simp only [List.flatMap_assoc]
  exact (hperm.flatMap_right _).nodup_iff.1 (hbodies.spread_noted ho).1

/-- No node has two events. -/
theorem Forest.event_unique (hf : p.Forest) (hev : .node o role x ∈ p.events) (hev' : .node o' role' x ∈ p.events) :
    o = o' ∧ role = role' := by
  have heq := eq_of_nodup_filterMap hf.nodup_events hev hev' rfl rfl
  cases heq
  exact ⟨rfl, rfl⟩

/-- A message of a cascade has no event. -/
theorem Forest.not_event_of_message (hf : p.Forest) (hx : p.arena.IsMessage x) : .node o role x ∉ p.events := by
  obtain ⟨d, receiver, messages, he, hm⟩ := hx
  intro hev
  obtain ⟨target, selector, args, hsend⟩ := hf.message_send he hm
  have hnoted : x ∈ p.arena.noted d := by
    rw [noted_of_cascade he]
    exact List.mem_cons_of_mem _ hm
  have hshown : ¬ p.arena.Hidden x := (hf.noted_iff (lt_size_of_expr hsend)).1 ⟨o, role, x, hev, mem_noted_self _ x⟩
  obtain ⟨o', role', hev'⟩ := (hf.event_iff he nofun).2 fun hhidden => hshown (hf.hidden_of_own hhidden (.inr hnoted))
  -- Both the cascade and the message itself would note the message.
  have heq : d = x := eq_of_nodup_flatMap hf.nodup_noted (List.mem_filterMap.2 ⟨_, hev', rfl⟩)
    (List.mem_filterMap.2 ⟨_, hev, rfl⟩) hnoted (mem_noted_self _ x)
  rw [heq, hsend] at he
  cases he

/-- What is below a node with its role is a part of something there, in the role that this gives it. -/
theorem cases_of_mem_events (hev : .node o' role' x ∈ p.arena.events n o role d) :
    role' = role ∧ x = d ∨ ∃ o₁ role₁ y, .node o₁ role₁ y ∈ p.arena.events n o role d ∧ (role', x) ∈ p.arena.partRoles y := by
  induction n generalizing o role d with
  | zero => cases hev
  | succ n ih =>
    rcases List.mem_cons.1 hev with heq | hev
    · cases heq
      exact .inl ⟨rfl, rfl⟩
    · obtain ⟨⟨role₀, z⟩, hz, hev⟩ := List.mem_flatMap.1 hev
      right
      rcases ih hev with ⟨rfl, rfl⟩ | ⟨o₁, role₁, y, hy, hx⟩
      · exact ⟨o, role, d, List.mem_cons_self, hz⟩
      · exact ⟨o₁, role₁, y, List.mem_cons_of_mem _ (List.mem_flatMap.2 ⟨_, hz, hy⟩), hx⟩

/-- A role other than the plain one is given by the node of another event. -/
theorem event_cases (hev : .node o role x ∈ p.events) :
    role = .plain ∨ ∃ o' role' y, .node o' role' y ∈ p.events ∧ (role, x) ∈ p.arena.partRoles y := by
  obtain ⟨cls, place, m, hm, hev⟩ := mem_events.1 hev
  rcases List.mem_cons.1 hev with heq | hev
  · cases heq
  · obtain ⟨z, hz, hev⟩ := List.mem_flatMap.1 hev
    rcases cases_of_mem_events hev with ⟨rfl, -⟩ | ⟨o', role', y, hy, hx⟩
    · exact .inl rfl
    · exact .inr ⟨o', role', y, mem_events.2 ⟨cls, place, m, hm, List.mem_cons_of_mem _ (List.mem_flatMap.2 ⟨z, hz, hy⟩)⟩, hx⟩

end Program
end BlockScope
