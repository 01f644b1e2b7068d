import BlockScope.Proofs.Program.Events
/-!
# What a walk visits

A walk makes the visits of the nodes that it reaches, one node after the other and each before its parts
(`Forest.visits_body`). Over a whole program it visits as expressions exactly the nodes of the events
(`Forest.visited_iff`), and with a node all its parts (`Forest.event_of_part`).
-/
namespace BlockScope

/-- The node that is visited as an expression. -/
def Visit.expr? : Visit → Option NodeId
  | .expr id => some id
  | _ => none

/-- Every visit of a walk over the program, in order. -/
def Program.visits (p : Program) : List Visit := ((Walk.program collect p).run #[]).2.toList

/-- A walk over the program visits the node. -/
def Program.Visited (p : Program) (id : NodeId) : Prop := .expr id ∈ p.visits

/-! ## The visits of a walk -/

/-- The visits that a node brings, without those of its parts. -/
def Arena.shown (a : Arena) (id : NodeId) : List Visit :=
  .expr id :: match a.expr? id with
    | some (.ident name) => [.ident id name]
    | some (.assign _ _) => [.assign id]
    | some (.send _ _ _) => [.send id]
    | some (.cascade _ _) => [.cascade id]
    | some (.block params temps _) => .block id :: (params ++ temps).map fun d => .declaration d.name
    | some (.ret _) => [.ret id]
    | _ => []

/-- The walk makes these visits, in this order. -/
def Tells (walk : StateM (Array Visit) Unit) (visits : List Visit) : Prop :=
  ∀ before, (walk.run before).2.toList = before.toList ++ visits

namespace Tells
variable {walk : StateM (Array Visit) Unit} {next : Unit → StateM (Array Visit) Unit} {visits visits' : List Visit}
  {visit : NodeId → StateM (Array Visit) Unit} {f : NodeId → List Visit} {arena : Arena}

theorem pure : Tells (pure ()) [] := by
  intro before
  rw [List.append_nil]
  rfl

theorem bind (h : Tells walk visits) (h' : Tells (next ()) visits') : Tells (walk >>= next) (visits ++ visits') := by
  intro before
  have hrun : ((walk >>= next).run before).2 = ((next ()).run (walk.run before).2).2 := rfl
  rw [hrun, h', h, List.append_assoc]

theorem forM {α : Type} {g : α → StateM (Array Visit) Unit} {f : α → List Visit} (xs : List α)
    (h : ∀ x ∈ xs, Tells (g x) (f x)) : Tells (xs.forM g) (xs.flatMap f) := by
  induction xs with
  | nil => exact .pure
  | cons x xs ih =>
    rw [List.flatMap_cons]
    exact (h x (by simp)).bind (ih fun y hy => h y (List.mem_cons_of_mem _ hy))

theorem collect (v : Visit) : Tells (collect v) [v] := by
  intro before
  have hrun : ((BlockScope.collect v).run before).2 = before.push v := rfl
  rw [hrun, Array.toList_push]

/-- A visit before others. -/
theorem after (v : Visit) (h : Tells (next ()) visits) : Tells (BlockScope.collect v >>= next) (v :: visits) := (collect v).bind h

theorem declarations (ds : List Declaration) :
    Tells (Walk.declarations BlockScope.collect ds) (ds.map fun d => .declaration d.name) := by
  rw [List.map_eq_flatMap]
  exact forM ds fun d _ => collect _

theorem exprNode (h : ∀ x, Tells (visit x) (f x)) (id : NodeId) :
    Tells (Walk.exprNode BlockScope.collect arena visit id) (arena.shown id ++ (arena.parts id).flatMap f) := by
  have hall : ∀ xs : List NodeId, Tells (xs.forM visit) (xs.flatMap f) := fun xs => forM xs fun x _ => h x
  unfold Arena.shown
  rw [List.cons_append]
  refine after (.expr id) ?_
  cases he : arena.expr? id with
  | none =>
    simp only [Arena.parts, he]
    exact .pure
  | some e =>
    have hparts := fun hc => Arena.parts_of_expr he hc
    cases e with
    | literal value =>
      rw [hparts (by simp)]
      exact .pure
    | ident name =>
      rw [hparts (by simp)]
      exact collect _
    | paren inner =>
      rw [hparts (by simp)]
      simpa [Expr.children] using h inner
    | array elements =>
      rw [hparts (by simp)]
      exact hall elements
    | assign target value =>
      rw [hparts (by simp)]
      refine after _ ?_
      rw [he]
      exact hall [target, value]
    | send receiver selector args =>
      rw [hparts (by simp)]
      refine after _ ?_
      rw [he]
      exact hall (receiver :: args)
    | cascade receiver messages =>
      rw [Arena.parts_of_cascade he]
      refine after _ ?_
      rw [he]
      exact hall (arena.cascadeParts receiver messages)
    | ret value =>
      rw [hparts (by simp)]
      refine after _ ?_
      rw [he]
      simpa [Expr.children] using h value
    | block params temps body =>
      rw [hparts (by simp)]
      refine after _ ?_
      rw [he]
      exact (declarations (params ++ temps)).bind (hall body)

/-- A walk makes the visits of all nodes that it reaches. -/
theorem exprWithin (n : Nat) (id : NodeId) :
    Tells (Walk.exprWithin BlockScope.collect arena n id) ((arena.reachedWithin n id).flatMap arena.shown) := by
  induction n generalizing id with
  | zero => exact .pure
  | succ n ih =>
    rw [Arena.reachedWithin, List.flatMap_cons, List.flatMap_assoc]
    exact exprNode ih id

theorem statements (body : List NodeId) : Tells (body.forM (Walk.expr BlockScope.collect arena))
    ((body.flatMap (arena.reachedWithin (arena.size + 1))).flatMap arena.shown) := by
  rw [List.flatMap_assoc]
  exact forM body fun x _ => exprWithin _ x

theorem program (p : Program) : Tells (Walk.program BlockScope.collect p) (.program :: p.classes.flatMap fun c =>
    .classDefinition c.name :: c.methods.flatMap fun m => .method m.selector :: ((m.params ++ m.temps).map fun d =>
      .declaration d.name) ++ (m.body.flatMap (p.arena.reachedWithin (p.arena.size + 1))).flatMap p.arena.shown) :=
  after _ (forM p.classes fun _ _ => after _ (forM _ fun m _ => after _ ((declarations _).bind (statements m.body))))

end Tells

/-! ## Visits and events -/

theorem filterMap_declarations {α : Type} (pick : Visit → Option α) (h : ∀ name, pick (.declaration name) = none)
    (ds : List Declaration) : (ds.map fun d => .declaration d.name).filterMap pick = [] := by
  rw [List.filterMap_map, List.filterMap_eq_nil_iff]
  exact fun d _ => h d.name

theorem Arena.filterMap_shown (a : Arena) (id : NodeId) : (a.shown id).filterMap Visit.expr? = [id] := by
  unfold Arena.shown
  rw [List.filterMap_cons]
  cases a.expr? id with
  | none => rfl
  | some e =>
    cases e with
    | block params temps body => exact congrArg (id :: ·) (filterMap_declarations _ (fun _ => rfl) (params ++ temps))
    | _ => rfl

namespace Program.Forest
variable {p : Program} {m : Method}

theorem reachedWithin_body (hf : p.Forest) (hm : m ∈ p.methods) :
    m.body.flatMap (p.arena.reachedWithin (p.arena.size + 1)) = m.body.flatMap p.arena.reached := by
  apply List.flatMap_congr
  intro x hx
  obtain ⟨lo, hi, hhi, hfills⟩ := hf.fills hm
  have := (hfills.row_mem hx).2
  exact hf.ordered.reachedWithin_eq (by omega) (by omega)

/-- Visiting a body makes the visits of the nodes in it, each before its parts. -/
theorem visits_body (hf : p.Forest) (hm : m ∈ p.methods) :
    p.arena.visits m.body = (m.body.flatMap p.arena.reached).flatMap p.arena.shown := by
  rw [← hf.reachedWithin_body hm]
  exact Tells.statements m.body #[]

theorem visited_iff {id : NodeId} (hf : p.Forest) :
    p.Visited id ↔ ∃ o role, .node o role id ∈ p.events := by
  have hvisits : p.visits.filterMap Visit.expr? = p.events.filterMap Event.node? := by
    have h : p.visits = _ := Tells.program p #[]
    rw [h, filterMap_events, methods, List.flatMap_assoc, List.nil_append, List.filterMap_cons_none rfl, List.filterMap_flatMap]
    apply List.flatMap_congr
    intro c hc
    rw [List.filterMap_cons_none rfl, List.filterMap_flatMap]
    apply List.flatMap_congr
    intro m hm
    rw [List.cons_append, List.filterMap_cons_none rfl, List.filterMap_append, filterMap_declarations _ (fun _ => rfl),
      List.nil_append, List.filterMap_flatMap]
    simp only [Arena.filterMap_shown, List.flatMap_singleton']
    exact hf.reachedWithin_body (List.mem_flatMap.2 ⟨c, hc, hm⟩)
  have hmem : p.Visited id ↔ id ∈ p.visits.filterMap Visit.expr? := by
    simp only [Visited, List.mem_filterMap]
    constructor
    · intro h
      exact ⟨_, h, rfl⟩
    · rintro ⟨v, hv, he⟩
      cases v <;> cases he
      exact hv
  rw [hmem, hvisits]
  simp only [List.mem_filterMap]
  constructor
  · rintro ⟨ev, hev, he⟩
    cases ev <;> cases he
    exact ⟨_, _, hev⟩
  · rintro ⟨o, role, hev⟩
    exact ⟨_, hev, rfl⟩

end Program.Forest

/-- The events below a node are those of a tree: with a node come its parts, each in its role and in its opener. -/
theorem Arena.Ordered.event_of_part {a : Arena} {o o' : Opener} {role role' r : Role} {id y x : NodeId} (ho : a.Ordered)
    (hev : .node o' role' y ∈ a.eventsOf o role id) (hx : (r, x) ∈ a.partRoles y) :
    .node (a.openerOfParts o' y) r x ∈ a.eventsOf o role id := by
  generalize hn : id.index = n
  induction n using Nat.strongRecOn generalizing o role id with
  | _ n ih =>
    subst hn
    rw [ho.eventsOf_eq] at hev ⊢
    refine List.mem_cons_of_mem _ (List.mem_flatMap.2 ?_)
    rcases List.mem_cons.1 hev with h | hev
    · cases h
      exact ⟨(r, x), hx, by rw [ho.eventsOf_eq]; simp⟩
    · obtain ⟨part, hpart, hev⟩ := List.mem_flatMap.1 hev
      exact ⟨part, hpart, ih _ (ho.parts_lt (mem_parts_of_partRoles hpart)) hev rfl⟩

theorem Program.Forest.event_of_part {p : Program} {o : Opener} {role r : Role} {id x : NodeId} (hf : p.Forest)
    (hev : .node o role id ∈ p.events) (hx : (r, x) ∈ p.arena.partRoles id) :
    .node (p.arena.openerOfParts o id) r x ∈ p.events := by
  obtain ⟨cls, place, m, hm, hev⟩ := mem_events.1 hev
  refine mem_events.2 ⟨cls, place, m, hm, List.mem_cons_of_mem _ (List.mem_flatMap.2 ?_)⟩
  rcases List.mem_cons.1 hev with h | hev
  · cases h
  · obtain ⟨y, hy, hev⟩ := List.mem_flatMap.1 hev
    exact ⟨y, hy, hf.ordered.event_of_part hev hx⟩

end BlockScope
