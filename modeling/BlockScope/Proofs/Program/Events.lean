import BlockScope.Proofs.Program.Literals
import BlockScope.Analysis.Capture
import Mathlib.Data.List.Pairwise
/-!
# The order of events

Both passes over the bodies of a program go through the same nodes in the same order. `Program.events` lists
them: the start of each method, and each node with the opener it lies in and its role there. The opener and
the role of an event are what the program says they are (`Program.around_of_event`, `Forest.fits_of_event`), and
the sites of the second pass are those of the events (`Event.sites`).
-/
namespace BlockScope

inductive Role where
  | plain
  /-- A name that is assigned to. -/
  | target
  /-- A block that is compiled in place. -/
  | inlined
  deriving DecidableEq, Repr

inductive Event where
  | method (cls place : Nat)
  | node (o : Opener) (role : Role) (id : NodeId)
  deriving DecidableEq, Repr

namespace Arena

/-- The role of an argument of a send. -/
def argRole (a : Arena) (id : NodeId) (entry : NodeId × Nat) : Role :=
  match a.sendShape? id with
  | some (.inlined intrinsic) =>
    if entry.2 ∈ intrinsic.inlinedArgs ∧ (a.blockCode? entry.1).isSome then .inlined else .plain
  | _ => .plain

/-- The parts of a node that a walk visits, with their roles. -/
def partRoles (a : Arena) (id : NodeId) : List (Role × NodeId) :=
  match a.expr? id with
  | some (.assign target value) => [(.target, target), (.plain, value)]
  | some (.send receiver _ args) => (.plain, receiver) :: args.zipIdx.map fun e => (a.argRole id e, e.1)
  | _ => (a.parts id).map fun x => (.plain, x)

/-- The opener that the parts of a node lie in. -/
def openerOfParts (a : Arena) (o : Opener) (id : NodeId) : Opener :=
  if (a.blockCode? id).isSome then .block id else o

/-- The events of a node with its parts down to some depth. -/
def events (a : Arena) : Nat → Opener → Role → NodeId → List Event
  | 0, _, _, _ => []
  | n + 1, o, role, id =>
    .node o role id :: (a.partRoles id).flatMap fun part => a.events n (a.openerOfParts o id) part.1 part.2

/-- The events of a node with all its parts. -/
def eventsOf (a : Arena) (o : Opener) (role : Role) (id : NodeId) : List Event := a.events (id.index + 1) o role id

end Arena

/-- The events of a method, its start first. -/
def Program.methodEvents (p : Program) (cls place : Nat) (m : Method) : List Event :=
  .method cls place :: m.body.flatMap (p.arena.eventsOf (.method cls place) .plain)

/-- The events of a class, method by method. -/
def Program.classEvents (p : Program) (cls : Nat) (c : ClassDefinition) : List Event :=
  c.methods.zipIdx.flatMap fun (m, place) => p.methodEvents cls place m

def Program.events (p : Program) : List Event := p.classes.zipIdx.flatMap fun (c, cls) => p.classEvents cls c

/-- The node of an event. -/
def Event.node? : Event → Option NodeId
  | .method _ _ => none
  | .node _ _ id => some id

namespace Arena
variable {a : Arena} {id x : NodeId} {o : Opener} {role : Role} {n : Nat}

theorem map_partRoles (a : Arena) (id : NodeId) : (a.partRoles id).map (·.2) = a.parts id := by
  unfold partRoles
  split
  · next h => rw [parts_of_expr h (by simp)]; rfl
  · next receiver selector args h =>
    rw [parts_of_expr h (by simp), List.map_cons, List.map_map]
    have : args.zipIdx.map (fun e => e.1) = args := List.zipIdx_map_fst 0 args
    exact congrArg (receiver :: ·) this
  · simp [Function.comp_def]

theorem flatMap_partRoles {β : Type} (f : NodeId → List β) (id : NodeId) :
    ((a.partRoles id).flatMap fun part => f part.2) = (a.parts id).flatMap f := by
  rw [← map_partRoles, List.flatMap_map]

theorem mem_parts_of_partRoles (h : (role, x) ∈ a.partRoles id) : x ∈ a.parts id := by
  rw [← map_partRoles]
  exact List.mem_map.2 ⟨(role, x), h, rfl⟩

/-- Events are visits, each at a node. -/
theorem filterMap_events (n : Nat) (o : Opener) (role : Role) (id : NodeId) :
    (a.events n o role id).filterMap Event.node? = a.reachedWithin n id := by
  induction n generalizing o role id with
  | zero => rfl
  | succ n ih =>
    rw [events, reachedWithin, ← flatMap_partRoles]
    simp only [List.filterMap_cons, Event.node?, List.filterMap_flatMap, ih]

theorem Ordered.events_eq {k : Nat} (ho : a.Ordered) (hn : id.index < n) (hk : id.index < k) :
    a.events n o role id = a.events k o role id := by
  induction n generalizing k o role id with
  | zero => omega
  | succ n ih =>
    obtain ⟨k, rfl⟩ : ∃ j, k = j + 1 := ⟨k - 1, by omega⟩
    unfold events
    congr 1
    apply List.flatMap_congr
    intro part hpart
    have := ho.parts_lt (mem_parts_of_partRoles hpart)
    exact ih (by omega) (by omega)

theorem Ordered.eventsOf_eq (ho : a.Ordered) (o : Opener) (role : Role) (id : NodeId) : a.eventsOf o role id =
    .node o role id :: (a.partRoles id).flatMap fun part => a.eventsOf (a.openerOfParts o id) part.1 part.2 := by
  unfold eventsOf
  rw [events]
  congr 1
  apply List.flatMap_congr
  intro part hpart
  have := ho.parts_lt (mem_parts_of_partRoles hpart)
  exact ho.events_eq (by omega) (by omega)

end Arena

namespace Program
variable {p : Program} {cls place : Nat} {m : Method} {o : Opener} {outer : List Opener} {id x : NodeId} {role : Role}
  {n : Nat} {ev : Event}

theorem mem_events : ev ∈ p.events ↔ ∃ cls place m, p.method? cls place = some m ∧ ev ∈ p.methodEvents cls place m := by
  simp only [events, classEvents, List.mem_flatMap, method?]
  constructor
  · rintro ⟨⟨c, cls⟩, hc, ⟨m, place⟩, hm, h⟩
    refine ⟨cls, place, m, ?_, h⟩
    rw [List.mem_zipIdx_iff_getElem?.1 hc, Option.bind_some]
    exact List.mem_zipIdx_iff_getElem?.1 hm
  · rintro ⟨cls, place, m, hm, h⟩
    obtain ⟨c, hc, hm⟩ := Option.bind_eq_some_iff.1 hm
    exact ⟨(c, cls), List.mem_zipIdx_iff_getElem?.2 hc, (m, place), List.mem_zipIdx_iff_getElem?.2 hm, h⟩

/-! ## The opener of an event -/

theorem Around.head (h : p.Around id (o :: outer)) : p.Encloses o id := by
  cases h with
  | method h => exact h
  | block h _ => exact h

/-- The outermost opener is a method of the program. -/
theorem Around.outermost {openers : List Opener} (h : p.Around id openers) :
    ∃ cls place m, openers.getLast? = some (.method cls place) ∧ p.method? cls place = some m := by
  induction h with
  | @method id cls place hencl =>
    obtain ⟨code, hcode, -⟩ := hencl
    obtain ⟨m, hm, -⟩ := Option.map_eq_some_iff.1 hcode
    exact ⟨cls, place, m, rfl, hm⟩
  | block _ _ ih =>
    obtain ⟨cls, place, m, hlast, hm⟩ := ih
    refine ⟨cls, place, m, ?_, hm⟩
    rw [List.getLast?_cons, hlast]
    rfl

theorem Around.change (h : p.Around id (o :: outer)) (hx : p.Encloses o x) : p.Around x (o :: outer) := by
  cases h with
  | method _ => exact .method hx
  | block _ rest => exact .block hx rest

theorem Encloses.part (h : p.Encloses o id) (hid : p.arena.blockCode? id = none) (hx : x ∈ p.arena.parts id) :
    p.Encloses o x := by
  obtain ⟨code, hc, hi⟩ := h
  refine ⟨code, hc, ?_⟩
  unfold Arena.parts at hx
  split at hx
  · next receiver messages he =>
    have hchild : ∀ y ∈ receiver :: messages, p.arena.Inside code.body y := by
      intro y hy
      exact hi.part hid (by rw [Arena.children_of_expr he]; exact hy)
    -- The arguments of a message are parts of the message, which is a part of the cascade.
    simp only [Arena.cascadeParts, List.mem_cons, List.mem_flatMap] at hx
    rcases hx with rfl | ⟨m, hm, hx⟩
    · exact hchild x (by simp)
    · refine (hchild m (by simp [hm])).part ?_ (Arena.mem_children_of_argsOf hx)
      unfold Arena.argsOf at hx
      unfold Arena.blockCode?
      split at hx
      · next h => rw [h]
      · cases hx
  · next e _ he => exact hi.part hid (by rw [Arena.children_of_expr he]; exact hx)
  · cases hx

theorem Around.part (h : p.Around id (o :: outer)) (hx : x ∈ p.arena.parts id) :
    ∃ outer', p.Around x (p.arena.openerOfParts o id :: outer') ∧
      (p.arena.openerOfParts o id :: outer').getLast? = (o :: outer).getLast? := by
  unfold Arena.openerOfParts
  cases hb : p.arena.blockCode? id with
  | none => exact ⟨outer, h.change (h.head.part hb hx), rfl⟩
  | some code =>
    refine ⟨o :: outer, .block ⟨code, hb, .statement ?_⟩ h, by simp⟩
    rw [Arena.parts_of_expr (Arena.blockCode?_eq_some.1 hb) (by simp)] at hx
    exact hx

/-- An event below a node has its opener from the program, and the same outermost opener. -/
theorem around_of_mem_events (h : p.Around id (o :: outer)) (hev : ev ∈ p.arena.events n o role id) :
    ∃ o' role' x outer', ev = .node o' role' x ∧ p.Around x (o' :: outer') ∧ (o' :: outer').getLast? = (o :: outer).getLast? := by
  induction n generalizing o outer role id with
  | zero => cases hev
  | succ n ih =>
    rcases List.mem_cons.1 hev with rfl | hev
    · exact ⟨o, role, id, outer, rfl, h, rfl⟩
    · obtain ⟨⟨role', x⟩, hx, hev⟩ := List.mem_flatMap.1 hev
      obtain ⟨outer', h', hlast⟩ := h.part (Arena.mem_parts_of_partRoles hx)
      rw [← hlast]
      exact ih h' hev

/-- An event of a method has the method as its outermost opener. -/
theorem around_of_methodEvents (hm : p.method? cls place = some m) (hev : .node o role id ∈ p.methodEvents cls place m) :
    ∃ outer, p.Around id (o :: outer) ∧ (o :: outer).getLast? = some (.method cls place) := by
  rcases List.mem_cons.1 hev with h | hev
  · cases h
  · obtain ⟨x, hx, hev⟩ := List.mem_flatMap.1 hev
    have h : p.Around x [.method cls place] := .method ⟨m.code, by simp [code?, hm], .statement hx⟩
    obtain ⟨o', role', x', outer, he, h, hlast⟩ := around_of_mem_events h hev
    cases he
    exact ⟨outer, h, hlast⟩

theorem around_of_event (hev : .node o role id ∈ p.events) : ∃ outer, p.Around id (o :: outer) := by
  obtain ⟨cls, place, m, hm, hev⟩ := mem_events.1 hev
  obtain ⟨outer, haround, -⟩ := around_of_methodEvents hm hev
  exact ⟨outer, haround⟩

/-- A block around an event has its own event. -/
theorem block_of_mem_events {b : NodeId} {role' : Role} (hev : .node (.block b) role' x ∈ p.arena.events n o role id) :
    o = .block b ∨ ∃ o' role', .node o' role' b ∈ p.arena.events n o role id := by
  induction n generalizing o role id with
  | zero => cases hev
  | succ n ih =>
    rcases List.mem_cons.1 hev with h | hev
    · cases h
      exact .inl rfl
    · obtain ⟨part, hpart, hev⟩ := List.mem_flatMap.1 hev
      rcases ih hev with h | ⟨o', role', h⟩
      · unfold Arena.openerOfParts at h
        split at h
        · cases h
          exact .inr ⟨o, role, by simp [Arena.events]⟩
        · exact .inl h
      · exact .inr ⟨o', role', List.mem_cons_of_mem _ (List.mem_flatMap.2 ⟨part, hpart, h⟩)⟩

theorem event_of_block {b : NodeId} (hev : .node (.block b) role id ∈ p.events) :
    ∃ o' role', .node o' role' b ∈ p.events := by
  obtain ⟨cls, place, m, hm, hev⟩ := mem_events.1 hev
  rcases List.mem_cons.1 hev with h | hev
  · cases h
  · obtain ⟨x, hx, hev⟩ := List.mem_flatMap.1 hev
    rcases block_of_mem_events hev with h | ⟨o', role', h⟩
    · cases h
    · exact ⟨o', role', mem_events.2 ⟨cls, place, m, hm, List.mem_cons_of_mem _ (List.mem_flatMap.2 ⟨x, hx, h⟩)⟩⟩

theorem event_of_method (h : p.method? cls place = some m) : .method cls place ∈ p.events :=
  mem_events.2 ⟨cls, place, m, h, by simp [methodEvents]⟩

/-! ## The role of an event -/

/-- The role says whether the node is assigned to. -/
def Fits (p : Program) (role : Role) (id : NodeId) : Prop := role = .target ↔ p.arena.IsTarget id

theorem Forest.not_target_of_part (hf : p.Forest) (hid : ∀ target value, p.arena.expr? id ≠ some (.assign target value))
    (hx : x ∈ p.arena.parts id) : ¬ p.arena.IsTarget x := by
  intro ht
  unfold Arena.parts at hx
  split at hx
  · next receiver messages he =>
    simp only [Arena.cascadeParts, List.mem_cons, List.mem_flatMap] at hx
    rcases hx with rfl | ⟨m, hm, hx⟩
    · obtain ⟨value, h⟩ := hf.target_of_child (d := id) (by rw [Arena.children_of_expr he]; simp [Expr.children]) ht
      exact hid _ _ h
    · obtain ⟨value, h⟩ := hf.target_of_child (Arena.mem_children_of_argsOf hx) ht
      simp [Arena.argsOf, h] at hx
  · next e _ he =>
    obtain ⟨value, h⟩ := hf.target_of_child (d := id) (by rw [Arena.children_of_expr he]; exact hx) ht
    exact hid _ _ h
  · cases hx

theorem fits_other (hrole : role ≠ .target) (h : ¬ p.arena.IsTarget x) : p.Fits role x := by simp [Fits, hrole, h]

theorem argRole_ne_target (a : Arena) (id : NodeId) (entry : NodeId × Nat) : a.argRole id entry ≠ .target := by
  unfold Arena.argRole
  split
  · split <;> simp
  · simp

theorem Forest.fits_part (hf : p.Forest) (hx : (role, x) ∈ p.arena.partRoles id) : p.Fits role x := by
  unfold Arena.partRoles at hx
  split at hx
  · next target value he =>
    have hchild : ∀ y ∈ [target, value], y ∈ p.arena.children id := by
      intro y hy
      rw [Arena.children_of_expr he]
      exact hy
    simp only [List.mem_cons, Prod.mk.injEq, List.not_mem_nil, or_false] at hx
    rcases hx with ⟨rfl, rfl⟩ | ⟨rfl, rfl⟩
    · exact ⟨fun _ => ⟨id, value, he⟩, fun _ => rfl⟩
    · apply fits_other (by simp)
      intro ht
      obtain ⟨value', h⟩ := hf.target_of_child (hchild x (by simp)) ht
      rw [he] at h
      cases h
      exact (hf.assign_parts he).2 rfl
  · next receiver selector args he =>
    have hnot : ∀ y ∈ receiver :: args, ¬ p.arena.IsTarget y := by
      intro y hy
      have hid : ∀ target value, p.arena.expr? id ≠ some (.assign target value) := by simp [he]
      apply hf.not_target_of_part hid
      rw [Arena.parts_of_expr he (by simp)]
      exact hy
    rcases List.mem_cons.1 hx with h | hx
    · cases h
      exact fits_other (by simp) (hnot x (by simp))
    · obtain ⟨entry, hentry, h⟩ := List.mem_map.1 hx
      cases h
      exact fits_other (argRole_ne_target _ _ _) (hnot _ (List.mem_cons_of_mem _ (List.fst_mem_of_mem_zipIdx hentry)))
  · next hassign hsend =>
    obtain ⟨y, hy, h⟩ := List.mem_map.1 hx
    cases h
    exact fits_other (by simp) (hf.not_target_of_part hassign hy)

theorem Forest.fits_of_mem_events (hf : p.Forest) (h : p.Fits role id) (hev : ev ∈ p.arena.events n o role id) :
    ∃ o' role' x, ev = .node o' role' x ∧ p.Fits role' x := by
  induction n generalizing o role id with
  | zero => cases hev
  | succ n ih =>
    rcases List.mem_cons.1 hev with rfl | hev
    · exact ⟨o, role, id, rfl, h⟩
    · obtain ⟨⟨role', x⟩, hx, hev⟩ := List.mem_flatMap.1 hev
      exact ih (hf.fits_part hx) hev

theorem Forest.fits_of_event (hf : p.Forest) (hev : .node o role id ∈ p.events) : p.Fits role id := by
  obtain ⟨cls, place, m, hm, hev⟩ := mem_events.1 hev
  rcases List.mem_cons.1 hev with h | hev
  · cases h
  · obtain ⟨x, hx, hev⟩ := List.mem_flatMap.1 hev
    have h : p.Fits .plain x := fits_other (by simp) (hf.not_target_of_mem_body (Forest.mem_methods hm) hx)
    obtain ⟨o', role', x', he, h⟩ := hf.fits_of_mem_events h hev
    cases he
    exact h

/-! ## No node twice -/

theorem eq_of_nodup_flatMap {α β : Type} {f : α → List β} {l : List α} {a b : α} {c : β} (h : (l.flatMap f).Nodup) (ha : a ∈ l)
    (hb : b ∈ l) (hca : c ∈ f a) (hcb : c ∈ f b) : a = b := by
  by_contra hne
  have : Std.Symm fun a b => ∀ c ∈ f a, ∀ d ∈ f b, c ≠ d := ⟨fun a b hne c hc d hd hcd => hne d hd c hc hcd.symm⟩
  exact (List.pairwise_flatMap.1 h).2.forall ha hb hne c hca c hcb rfl

theorem eq_of_nodup_filterMap {α β : Type} {f : α → Option β} {l : List α} {a b : α} {c : β} (h : (l.filterMap f).Nodup)
    (ha : a ∈ l) (hb : b ∈ l) (hca : f a = some c) (hcb : f b = some c) : a = b := by
  rw [List.filterMap_eq_flatMap_toList] at h
  exact eq_of_nodup_flatMap h ha hb (Option.mem_toList.2 hca) (Option.mem_toList.2 hcb)

theorem filterMap_methodEvents (cls place : Nat) (m : Method) :
    (p.methodEvents cls place m).filterMap Event.node? = m.body.flatMap p.arena.reached := by
  rw [methodEvents, List.filterMap_cons_none (by rfl), List.filterMap_flatMap]
  simp only [Arena.eventsOf, Arena.filterMap_events]
  rfl

theorem flatMap_zipIdx {α β : Type} (f : α → List β) (l : List α) (k : Nat) :
    ((l.zipIdx k).flatMap fun e => f e.1) = l.flatMap f := by
  induction l generalizing k with
  | nil => rfl
  | cons x l ih => rw [List.zipIdx_cons, List.flatMap_cons, ih, List.flatMap_cons]

theorem filterMap_events (p : Program) :
    p.events.filterMap Event.node? = p.methods.flatMap fun m => m.body.flatMap p.arena.reached := by
  unfold events classEvents methods
  simp only [List.filterMap_flatMap, filterMap_methodEvents, List.flatMap_assoc]
  rw [← flatMap_zipIdx (fun c : ClassDefinition => c.methods.flatMap _) p.classes 0]
  apply List.flatMap_congr
  intro e _
  exact flatMap_zipIdx (fun m : Method => m.body.flatMap _) e.1.methods 0

theorem Forest.nodup_events (hf : p.Forest) : (p.events.filterMap Event.node?).Nodup := by
  rw [filterMap_events]
  exact hf.nodup_reached

end Program

/-! ## Sites -/

/-- The site of an event, for openers whose scopes are known. -/
def Event.sites (a : Arena) (scopeOf : Opener → Option ScopeId) : Event → List Site
  | .method cls place => ((scopeOf (.method cls place)).map Site.enter).toList
  | .node o _ id =>
    match a.expr? id with
    | some (.ident _) => ((scopeOf o).map (Site.use · id)).toList
    | some (.block _ _ _) => ((scopeOf (.block id)).map Site.enter).toList
    | some (.ret _) => ((scopeOf o).map (Site.ret · id)).toList
    | _ => []

namespace Event
variable {arena : Arena} {scopeOf : Opener → Option ScopeId} {ev : Event} {s : ScopeId} {id : NodeId} {site : Site}

/-- The sites of an event in a body, by what the node is. -/
theorem mem_sites_node {o : Opener} {role : Role} : site ∈ (Event.node o role id).sites arena scopeOf ↔
    (∃ name s, arena.expr? id = some (.ident name) ∧ scopeOf o = some s ∧ .use s id = site) ∨
    (∃ params temps body s, arena.expr? id = some (.block params temps body) ∧ scopeOf (.block id) = some s ∧ .enter s = site) ∨
    ∃ value s, arena.expr? id = some (.ret value) ∧ scopeOf o = some s ∧ .ret s id = site := by
  simp only [Event.sites]
  cases he : arena.expr? id with
  | none => simp
  | some e => cases e <;> simp

theorem use_mem_sites : .use s id ∈ ev.sites arena scopeOf ↔
    ∃ o role name, ev = .node o role id ∧ arena.expr? id = some (.ident name) ∧ scopeOf o = some s := by
  cases ev with
  | method cls place => simp [Event.sites]
  | node o role id' =>
    simp only [mem_sites_node, Site.use.injEq, reduceCtorEq, and_false, exists_false, or_false, Event.node.injEq]
    constructor
    · rintro ⟨name, s', he, ho, rfl, rfl⟩
      exact ⟨o, role, name, ⟨rfl, rfl, rfl⟩, he, ho⟩
    · rintro ⟨_, _, name, ⟨rfl, rfl, rfl⟩, he, ho⟩
      exact ⟨name, s, he, ho, rfl, rfl⟩

theorem ret_mem_sites : .ret s id ∈ ev.sites arena scopeOf ↔
    ∃ o role value, ev = .node o role id ∧ arena.expr? id = some (.ret value) ∧ scopeOf o = some s := by
  cases ev with
  | method cls place => simp [Event.sites]
  | node o role id' =>
    simp only [mem_sites_node, Site.ret.injEq, reduceCtorEq, and_false, exists_false, false_or, Event.node.injEq]
    constructor
    · rintro ⟨value, s', he, ho, rfl, rfl⟩
      exact ⟨o, role, value, ⟨rfl, rfl, rfl⟩, he, ho⟩
    · rintro ⟨_, _, value, ⟨rfl, rfl, rfl⟩, he, ho⟩
      exact ⟨value, s, he, ho, rfl, rfl⟩

end Event

namespace Arena
variable {a : Arena} {scopeOf : Opener → Option ScopeId} {table : Table ScopeId} {o : Opener} {role : Role} {id : NodeId}
  {scope : ScopeId} {n : Nat}

/-- The sites of a node are its own, then those of its parts in order. -/
theorem sitesOfNode_eq (role : Role) (visit : ScopeId → NodeId → List Site) (htable : ∀ b, scopeOf (.block b) = table.get? b)
    (hs : scopeOf o = some scope) (hb : (a.blockCode? id).isSome → ∃ inner, table.get? id = some inner) :
    ∃ inner, scopeOf (a.openerOfParts o id) = some inner ∧
      sitesOfNode a table visit scope id =
        (Event.node o role id).sites a scopeOf ++ (a.parts id).flatMap (visit inner) := by
  unfold sitesOfNode Event.sites openerOfParts
  cases he : a.expr? id with
  | none => exact ⟨scope, by simp [blockCode?, he, hs], by simp [parts, he]⟩
  | some e =>
    cases e with
    | block params temps body =>
      have hcode : a.blockCode? id = some ⟨params, temps, body⟩ := blockCode?_eq_some.2 he
      obtain ⟨inner, hinner⟩ := hb (by simp [hcode])
      refine ⟨inner, by simp [hcode, htable, hinner], ?_⟩
      simp [he, hinner, htable, parts, Expr.children]
    | literal | ident | assign | send | cascade | paren | array | ret =>
      refine ⟨scope, by simp [blockCode?, he, hs], ?_⟩
      simp [hs, parts, he, Expr.children]

/-- The sites of the second pass are the events that matter to it. -/
theorem sitesWithin_eq (htable : ∀ b, scopeOf (.block b) = table.get? b) (hs : scopeOf o = some scope)
    (hb : ∀ b ∈ a.reachedWithin n id, (a.blockCode? b).isSome → ∃ inner, table.get? b = some inner) :
    sitesWithin a table n scope id = (a.events n o role id).flatMap (Event.sites a scopeOf) := by
  induction n generalizing o role id scope with
  | zero => rfl
  | succ n ih =>
    obtain ⟨inner, hinner, h⟩ :=
      sitesOfNode_eq role (sitesWithin a table n) htable hs (hb id (by simp [reachedWithin]))
    rw [sitesWithin, h, events, List.flatMap_cons, List.flatMap_assoc, ← flatMap_partRoles]
    congr 1
    refine List.flatMap_congr fun part hpart => ih hinner fun b hb' => hb b ?_
    rw [reachedWithin]
    exact List.mem_cons_of_mem _ (List.mem_flatMap.2 ⟨part.2, mem_parts_of_partRoles hpart, hb'⟩)

end Arena
end BlockScope
