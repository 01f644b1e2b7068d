import BlockScope.Proofs.Program.Reached
import Mathlib.Data.Finset.Card
/-!
# Walks that stop

A walk that fails at some visit has recorded what the same walk would have recorded up to there, and nothing after
(`walk_stops_at_first_failure`). All walks over a program are put together from visits in the same way, so two of them are compared
visit by visit: a relation that holds of single visits and is kept by doing one thing after the other holds of the walks
(`Walk.Relates`). Where no node lies in itself the depth to which a walk descends is no limit, and the walk of expressions is the
one solution of its own equation (`Arena.Acyclic.solves_iff`).
-/
namespace BlockScope

/-- No node lies in itself. -/
def Arena.Acyclic (a : Arena) : Prop := ∀ id, ¬ a.Holds id id

theorem Arena.Ordered.acyclic {a : Arena} (ho : a.Ordered) : a.Acyclic := by
  have hlt : ∀ {d x}, a.Holds d x → x.index < d.index := by
    intro d x h
    induction h with
    | single hx => exact ho _ _ hx
    | tail _ hx ih => exact Nat.lt_trans (ho _ _ hx) ih
  exact fun id h => Nat.lt_irrefl _ (hlt h)

/-- A visit that a walk may start with, and what it is given. -/
inductive Start where
  | program
  | classDefinition (c : ClassDefinition)
  | method (m : Method)
  | declaration (d : Declaration)
  | expr (id : NodeId)
  | block (id : NodeId)
  | inlinedBlock (id : NodeId)
  | send (id : NodeId)
  | cascade (id : NodeId)
  | assign (id : NodeId)
  | ret (id : NodeId)
  | ident (id : NodeId) (name : String)
  deriving DecidableEq, Repr

/-- The walk that starts there. -/
def Walk.start {m : Type → Type} [Monad m] (note : Visit → m Unit) (p : Program) : Start → m Unit
  | .program => program note p
  | .classDefinition c => classDefinition note p.arena c
  | .method d => method note p.arena d
  | .declaration d => note (.declaration d.name)
  | .expr id => expr note p.arena id
  | .block id => blockNode note p.arena (expr note p.arena) id
  | .inlinedBlock id => inlinedBlockNode note p.arena (expr note p.arena) id
  | .send id => sendNode note p.arena (expr note p.arena) id
  | .cascade id => cascadeNode note p.arena (expr note p.arena) id
  | .assign id => assignNode note p.arena (expr note p.arena) id
  | .ret id => retNode note p.arena (expr note p.arena) id
  | .ident id name => note (.ident id name)

/-! ## Walks side by side -/

/-- The relation holds of single visits and is kept by doing one thing after the other. -/
structure Walk.Relates {m m' : Type → Type} [Monad m] [Monad m'] (R : m Unit → m' Unit → Prop) (note : Visit → m Unit)
    (note' : Visit → m' Unit) : Prop where
  pure : R (pure ()) (pure ())
  bind : ∀ {w : m Unit} {w' : m' Unit} {next : Unit → m Unit} {next' : Unit → m' Unit}, R w w' → R (next ()) (next' ()) →
    R (w >>= next) (w' >>= next')
  note : ∀ v, R (note v) (note' v)

namespace Walk.Relates
variable {m m' : Type → Type} [Monad m] [Monad m'] {R : m Unit → m' Unit → Prop} {note : Visit → m Unit} {note' : Visit → m' Unit}
  {visit : NodeId → m Unit} {visit' : NodeId → m' Unit} {arena : Arena} {id : NodeId}

theorem forM {α : Type} {f : α → m Unit} {f' : α → m' Unit} (h : Relates R note note') {xs : List α} (hf : ∀ x ∈ xs, R (f x) (f' x)) :
    R (xs.forM f) (xs.forM f') := by
  induction xs with
  | nil => exact h.pure
  | cons x xs ih => exact h.bind (hf x List.mem_cons_self) (ih fun y hy => hf y (List.mem_cons_of_mem _ hy))

theorem declarations (h : Relates R note note') (ds : List Declaration) : R (declarations note ds) (declarations note' ds) :=
  h.forM fun d _ => h.note (.declaration d.name)

/-! What is done with the parts of a node has to be related; what is done with others does not matter. -/

section
variable (h : Relates R note note') (hv : ∀ x ∈ arena.parts id, R (visit x) (visit' x))
include h hv

theorem blockNode : R (blockNode note arena visit id) (blockNode note' arena visit' id) := by
  refine h.bind (h.note _) ?_
  split
  · next params temps body he =>
    rw [Arena.parts_of_expr he (by simp)] at hv
    exact h.bind (h.declarations (params ++ temps)) (h.forM hv)
  · exact h.pure

theorem inlinedBlockNode : R (inlinedBlockNode note arena visit id) (inlinedBlockNode note' arena visit' id) :=
  h.bind (h.note _) (h.blockNode hv)

theorem sendNode : R (sendNode note arena visit id) (sendNode note' arena visit' id) := by
  refine h.bind (h.note _) ?_
  split
  · next he =>
    rw [Arena.parts_of_expr he (by simp)] at hv
    exact h.forM hv
  · exact h.pure

theorem cascadeNode : R (cascadeNode note arena visit id) (cascadeNode note' arena visit' id) := by
  refine h.bind (h.note _) ?_
  split
  · next he =>
    rw [Arena.parts_of_cascade he] at hv
    exact h.forM hv
  · exact h.pure

theorem assignNode : R (assignNode note arena visit id) (assignNode note' arena visit' id) := by
  refine h.bind (h.note _) ?_
  split
  · next he =>
    rw [Arena.parts_of_expr he (by simp)] at hv
    exact h.forM hv
  · exact h.pure

theorem retNode : R (retNode note arena visit id) (retNode note' arena visit' id) := by
  refine h.bind (h.note _) ?_
  split
  · next value he =>
    rw [Arena.parts_of_expr he (by simp)] at hv
    exact hv value (List.mem_singleton_self _)
  · exact h.pure

theorem exprNode : R (exprNode note arena visit id) (exprNode note' arena visit' id) := by
  refine h.bind (h.note _) ?_
  cases he : arena.expr? id with
  | none => exact h.pure
  | some e =>
    cases e with
    | literal => exact h.pure
    | ident name => exact h.note _
    | assign => exact h.assignNode hv
    | send => exact h.sendNode hv
    | cascade => exact h.cascadeNode hv
    | block => exact h.blockNode hv
    | ret => exact h.retNode hv
    | paren inner =>
      rw [Arena.parts_of_expr he (by simp)] at hv
      exact hv inner (List.mem_singleton_self _)
    | array elements =>
      rw [Arena.parts_of_expr he (by simp)] at hv
      exact h.forM hv

end

section
variable (h : Relates R note note')
include h

theorem exprWithin (n : Nat) (id : NodeId) : R (exprWithin note arena n id) (exprWithin note' arena n id) := by
  induction n generalizing id with
  | zero => exact h.pure
  | succ n ih => exact h.exprNode fun x _ => ih x

theorem expr (id : NodeId) : R (expr note arena id) (expr note' arena id) := h.exprWithin _ id

theorem method (d : Method) : R (method note arena d) (method note' arena d) :=
  h.bind (h.note _) (h.bind (h.declarations _) (h.forM fun x _ => h.expr x))

theorem classDefinition (c : ClassDefinition) : R (classDefinition note arena c) (classDefinition note' arena c) :=
  h.bind (h.note _) (h.forM fun d _ => h.method d)

theorem program (p : Program) : R (program note p) (program note' p) :=
  h.bind (h.note _) (h.forM fun c _ => h.classDefinition c)

/-- Walks are related wherever they start. -/
theorem start (p : Program) (s : Start) : R (start note p s) (start note' p s) := by
  have hexpr : ∀ id, ∀ x ∈ p.arena.parts id, R (Walk.expr note p.arena x) (Walk.expr note' p.arena x) := fun _ x _ => h.expr x
  cases s with
  | program => exact h.program p
  | classDefinition c => exact h.classDefinition c
  | method d => exact h.method d
  | declaration | ident => exact h.note _
  | expr id => exact h.expr id
  | block id => exact h.blockNode (hexpr id)
  | inlinedBlock id => exact h.inlinedBlockNode (hexpr id)
  | send id => exact h.sendNode (hexpr id)
  | cascade id => exact h.cascadeNode (hexpr id)
  | assign id => exact h.assignNode (hexpr id)
  | ret id => exact h.retNode (hexpr id)

end
end Walk.Relates

/-! ## Depth is no limit -/

section
variable {m : Type → Type} [Monad m] {note : Visit → m Unit} {arena : Arena} {id x : NodeId} {f g : NodeId → m Unit}

/-- What a walk does at a node depends on what is done with its parts, and on nothing else. -/
theorem Walk.exprNode_congr (h : ∀ x ∈ arena.parts id, f x = g x) : exprNode note arena f id = exprNode note arena g id := by
  have hsame : Relates (· = ·) note note := by
    refine ⟨rfl, ?_, fun _ => rfl⟩
    rintro w _ next next' rfl hnext
    rw [show next = next' from funext fun _ => hnext]
  exact hsame.exprNode h

theorem Arena.lt_size_of_parts (hx : x ∈ arena.parts id) : id.index < arena.size := by
  cases he : arena.expr? id with
  | none => simp [parts, he] at hx
  | some e => exact lt_size_of_expr he

/-- Two ways to descend by the same equation agree at every depth that the nodes above leave no room for. -/
theorem Walk.eq_of_depth {F G : Nat → NodeId → m Unit} (ha : arena.Acyclic) (hF : ∀ n id, F (n + 1) id = exprNode note arena (F n) id)
    (hG : ∀ n id, G (n + 1) id = exprNode note arena (G n) id) (n : Nat) (above : Finset Nat)
    (habove : ∀ i ∈ above, i < arena.size ∧ arena.Holds ⟨i⟩ id) (hn : arena.size < above.card + n) : F n id = G n id := by
  -- The nodes above are different ones, since none lies in itself, so at depth zero there would be more than the arena has.
  induction n generalizing id above with
  | zero =>
    have hsub : above ⊆ Finset.range arena.size := fun i hi => Finset.mem_range.2 (habove i hi).1
    have := Finset.card_le_card hsub
    rw [Finset.card_range] at this
    omega
  | succ n ih =>
    rw [hF, hG]
    refine exprNode_congr fun x hx => ih (insert id.index above) (fun i hi => ?_) ?_
    · rcases Finset.mem_insert.1 hi with rfl | hi
      · exact ⟨Arena.lt_size_of_parts hx, Arena.holds_of_parts hx⟩
      · exact ⟨(habove i hi).1, (habove i hi).2.trans (Arena.holds_of_parts hx)⟩
    · have hnew : id.index ∉ above := fun hi => ha id (habove _ hi).2
      rw [Finset.card_insert_of_notMem hnew]
      omega

/-- If no node lies in itself, then visiting expressions by their parts is what the walk does, and nothing else does it. -/
theorem Arena.Acyclic.solves_iff (ha : arena.Acyclic) (visit : NodeId → m Unit) :
    (∀ id, visit id = Walk.exprNode note arena visit id) ↔ visit = Walk.expr note arena := by
  constructor
  · intro hvisit
    funext id
    exact Walk.eq_of_depth (F := fun _ => visit) ha (fun _ => hvisit) (fun _ _ => rfl) (arena.size + 1) ∅ (by simp) (by simp)
  · rintro rfl id
    exact Walk.eq_of_depth (F := Walk.exprWithin note arena) (G := fun n => Walk.exprWithin note arena (n + 1)) ha
      (fun _ _ => rfl) (fun _ _ => rfl) (arena.size + 1) ∅ (by simp) (by simp)

end

/-! ## Stopping -/

/-- What is recorded of some visits if the first that fails is the last one, and which that is. -/
inductive StopsAt (fails : Visit → Bool) (visits : List Visit) : List Visit → Option Visit → Prop where
  | nowhere (h : ∀ v ∈ visits, fails v = false) : StopsAt fails visits visits none
  | visit {before after : List Visit} {v : Visit} (h : visits = before ++ v :: after) (hbefore : ∀ u ∈ before, fails u = false)
    (hv : fails v = true) : StopsAt fails visits (before ++ [v]) (some v)

namespace StopsAt
variable {fails : Visit → Bool} {visits visits' recorded : List Visit} {stop : Option Visit} {v : Visit}

/-- Visits after the one that fails do not matter. -/
theorem append_right (h : StopsAt fails visits recorded (some v)) : StopsAt fails (visits ++ visits') recorded (some v) := by
  cases h with
  | visit hsplit hbefore hv => exact .visit (by rw [hsplit, List.append_assoc]; rfl) hbefore hv

/-- Visits before, of which none fails, are all recorded. -/
theorem append_left (hnone : ∀ v ∈ visits, fails v = false) (h : StopsAt fails visits' recorded stop) :
    StopsAt fails (visits ++ visits') (visits ++ recorded) stop := by
  cases h with
  | nowhere hnone' =>
    refine .nowhere fun v hv => ?_
    rcases List.mem_append.1 hv with hv | hv
    · exact hnone v hv
    · exact hnone' v hv
  | visit hsplit hbefore hv =>
    rw [← List.append_assoc]
    refine .visit (by rw [hsplit, List.append_assoc]) (fun u hu => ?_) hv
    rcases List.mem_append.1 hu with hu | hu
    · exact hnone u hu
    · exact hbefore u hu

end StopsAt

namespace Recording

/-- How a walk ends that stops there. -/
def ending : Option Visit → Except Visit Unit
  | none => .ok ()
  | some v => .error v

/-- One walk goes through, and the other stops at the first visit that fails. -/
def Cuts (fails : Visit → Bool) (all cut : Recording Unit) : Prop :=
  ∀ before : Array Visit, ∃ visits recorded stop, (ExceptT.run all).run before = (.ok (), before ++ visits.toArray) ∧
    (ExceptT.run cut).run before = (ending stop, before ++ recorded.toArray) ∧ StopsAt fails visits recorded stop

variable {fails : Visit → Bool}

/-- A visit that is not shown changes nothing; one that is shown is recorded, and only then may fail. -/
theorem run_note (shown fails : Visit → Bool) (v : Visit) (before : Array Visit) : (ExceptT.run (note shown fails v)).run before =
    if shown v then (ending (if fails v then some v else none), before.push v) else (.ok (), before) := by
  unfold note
  by_cases hshown : shown v
  · by_cases hfails : fails v
    · simp only [hshown, hfails, if_true]
      rfl
    · simp only [hshown, hfails, if_true]
      rfl
  · simp only [hshown]
    rfl

theorem run_bind (w : Recording Unit) (next : Unit → Recording Unit) (before : Array Visit) :
    (ExceptT.run (w >>= next)).run before = match (ExceptT.run w).run before with
      | (.ok (), visits) => (ExceptT.run (next ())).run visits
      | (.error v, visits) => (.error v, visits) := by
  have hbind : (ExceptT.run (w >>= next)).run before =
      (ExceptT.bindCont next ((ExceptT.run w).run before).1).run ((ExceptT.run w).run before).2 := rfl
  rw [hbind]
  obtain ⟨result, visits⟩ := (ExceptT.run w).run before
  cases result <;> rfl

namespace Cuts

theorem pure : Cuts fails (pure ()) (pure ()) := fun before => ⟨[], [], none, by simp; rfl, by simp; rfl, .nowhere (by simp)⟩

theorem note (shown : Visit → Bool) (v : Visit) : Cuts fails (note shown (fun _ => false) v) (note shown fails v) := by
  intro before
  simp only [run_note]
  by_cases hshown : shown v
  · by_cases hfails : fails v
    · have hstop : StopsAt fails [v] ([] ++ [v]) (some v) := .visit rfl (by simp) hfails
      exact ⟨[v], [v], some v, by simp [hshown, ending], by simp [hshown, hfails, ending], hstop⟩
    · exact ⟨[v], [v], none, by simp [hshown, ending], by simp [hshown, hfails, ending], .nowhere (by simpa using hfails)⟩
  · exact ⟨[], [], none, by simp [hshown], by simp [hshown, ending], .nowhere (by simp)⟩

theorem bind {w w' : Recording Unit} {next next' : Unit → Recording Unit} (h : Cuts fails w w')
    (h' : Cuts fails (next ()) (next' ())) : Cuts fails (w >>= next) (w' >>= next') := by
  intro before
  obtain ⟨visits, recorded, stop, hall, hcut, hstop⟩ := h before
  obtain ⟨visits', recorded', stop', hall', hcut', hstop'⟩ := h' (before ++ visits.toArray)
  have hgoes : (ExceptT.run (w >>= next)).run before = (.ok (), before ++ (visits ++ visits').toArray) := by
    rw [run_bind, hall]
    simp [hall']
  cases stop with
  | none =>
    cases hstop with
    | nowhere hnone =>
      refine ⟨visits ++ visits', visits ++ recorded', stop', hgoes, ?_, hstop'.append_left hnone⟩
      rw [run_bind, hcut]
      simp [ending, hcut']
  | some v =>
    -- The first part stops, and the second is not begun.
    refine ⟨visits ++ visits', recorded, some v, hgoes, ?_, hstop.append_right⟩
    rw [run_bind, hcut]
    rfl

theorem relates (shown : Visit → Bool) : Walk.Relates (Cuts fails) (Recording.note shown fun _ => false) (Recording.note shown fails) :=
  ⟨pure, bind, note shown⟩

end Cuts

theorem outcome_of_run {w : Recording Unit} {recorded : List Visit} {stop : Option Visit}
    (h : (ExceptT.run w).run #[] = (ending stop, #[] ++ recorded.toArray)) : w.outcome = (recorded, stop) := by
  unfold outcome
  rw [h]
  cases stop <;> simp [ending]

end Recording

/-- In a program in which no node lies in itself, visiting expressions by their parts ends and is what a walk does. From
wherever a walk starts, and whichever visits it shows: if it is to stop at visits with some property, then it records what it
would record without stopping up to the first of them, and stops at that one; if there is none, it records everything and
does not stop. -/
theorem walk_stops_at_first_failure {p : Program} (hp : p.arena.Acyclic) :
    (∀ (m : Type → Type) [Monad m] (note : Visit → m Unit) (visit : NodeId → m Unit),
      (∀ id, visit id = Walk.exprNode note p.arena visit id) ↔ visit = Walk.expr note p.arena) ∧
    ∀ (s : Start) (shown fails : Visit → Bool), ∃ visits recorded stop,
      (Walk.start (Recording.note shown fun _ => false) p s).outcome = (visits, none) ∧
      (Walk.start (Recording.note shown fails) p s).outcome = (recorded, stop) ∧ StopsAt fails visits recorded stop := by
  refine ⟨fun m _ note visit => hp.solves_iff visit, fun s shown fails => ?_⟩
  obtain ⟨visits, recorded, stop, hall, hcut, hstop⟩ := (Recording.Cuts.relates shown).start p s #[]
  exact ⟨visits, recorded, stop, Recording.outcome_of_run hall, Recording.outcome_of_run hcut, hstop⟩

/-- An array that holds one name twice and another between. -/
def arrayOfNames : Program where
  arena := ⟨#[⟨.ident "a", default⟩, ⟨.ident "b", default⟩, ⟨.array [⟨0⟩, ⟨1⟩, ⟨0⟩], default⟩]⟩
  classes := []

/-- The walk that is to stop at the second name does not come back to the first. -/
theorem walk_stops_at_first_failure_array : arrayOfNames.arena.Acyclic ∧ ∃ visits recorded stop,
    StopsAt (· = .ident ⟨1⟩ "b") visits recorded stop ∧
    (Walk.start (Recording.note (fun _ => true) (· = .ident ⟨1⟩ "b")) arrayOfNames (.expr ⟨2⟩)).outcome = (recorded, stop) ∧
    visits = [.expr ⟨2⟩, .expr ⟨0⟩, .ident ⟨0⟩ "a", .expr ⟨1⟩, .ident ⟨1⟩ "b", .expr ⟨0⟩, .ident ⟨0⟩ "a"] ∧
    recorded = [.expr ⟨2⟩, .expr ⟨0⟩, .ident ⟨0⟩ "a", .expr ⟨1⟩, .ident ⟨1⟩ "b"] ∧ stop = some (.ident ⟨1⟩ "b") := by
  have hordered : arrayOfNames.arena.Ordered := by
    rintro ⟨_ | _ | _ | n⟩ x hx
    · cases hx
    · cases hx
    · revert x
      decide
    · cases hx
  obtain ⟨visits, recorded, stop, hall, hcut, hstop⟩ :=
    (walk_stops_at_first_failure hordered.acyclic).2 (.expr ⟨2⟩) (fun _ => true) (· = .ident ⟨1⟩ "b")
  refine ⟨hordered.acyclic, visits, recorded, stop, hstop, hcut, ?_⟩
  cases hall
  cases hcut
  decide +kernel

end BlockScope
