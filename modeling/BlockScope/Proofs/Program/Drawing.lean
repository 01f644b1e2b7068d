import BlockScope.Program.Graph
import BlockScope.Proofs.Program.Reached
import BlockScope.Proofs.Text.Dot
import Mathlib.Data.Finset.Card
/-!
# What a graph shows

The graph of a program has one box for every expression that a body reaches, with an arrow to each part in order, also
where expressions share parts or contain themselves; and one for every class and method. The descent leaves a mark on each
expression before it goes on to the parts, so it draws each once. What one call adds is said by `Grown`: the new marks are on
expressions that are reached, everything below a new mark is marked, and each newly marked expression gets its lines.
Every call marks one more expression, so that the descent ends by itself: `unboundedGraph` counts nothing and draws the
same.
-/
namespace BlockScope

/-- All parts of nodes, and all statements, are nodes of the arena. -/
structure Program.InRange (p : Program) : Prop where
  children : ∀ d x, x ∈ p.arena.children d → x.index < p.arena.size
  bodies : ∀ m ∈ p.methods, ∀ x ∈ m.body, x.index < p.arena.size

/-- The node is a statement of some method or lies somewhere in one. -/
def Program.Reaches (p : Program) (id : NodeId) : Prop :=
  ∃ m ∈ p.methods, ∃ root ∈ m.body, p.arena.Contains root id

/-- The vertex that a line labels or starts from. -/
def GraphLine.source : GraphLine → Vertex
  | .box vertex _ => vertex
  | .arrow source _ => source

/-- The lines of a vertex, in order: its labels and the arrows from it. -/
def linesOf (v : Vertex) (lines : List GraphLine) : List GraphLine := lines.filter (·.source = v)

/-- Arrows from a vertex to some expressions. -/
def arrowsTo (v : Vertex) (ids : List NodeId) : List GraphLine := ids.map fun id => .arrow v (.exprBox id)

/-- The label of an expression and the arrows to its parts. -/
def Arena.linesAt (a : Arena) (id : NodeId) : List GraphLine :=
  match a.expr? id with
  | some e => .box (.exprBox id) e.label :: arrowsTo (.exprBox id) e.children
  | none => []

def Method.boxLabel (m : Method) : String := (if m.classSide then "class " else "") ++ m.selector

def ClassDefinition.boxLabel (c : ClassDefinition) : String := "class " ++ c.name ++ " : " ++ c.superName.getD "nil"

theorem Arena.expr?_of_lt {a : Arena} {id : NodeId} (h : id.index < a.size) : ∃ e, a.expr? id = some e :=
  ⟨_, by rw [expr?, get?, Array.getElem?_eq_getElem h, Option.map_some]⟩

/-! ## Drawing without a bound -/

namespace Drawing

/-- Draws an expression and all it reaches, unless it is drawn already. Nothing comes of a descent that never ends, or of an
expression that is not there. -/
def unboundedNode (arena : Arena) (d : Drawing) (id : NodeId) : Option Drawing := do
  if ← d.seen[id.index]? then return d
  else
    let e ← arena.expr? id
    e.children.foldlM (fun d child => by
        apply unboundedNode
        · exact arena
        · exact d.draw (.arrow (.exprBox id) (.exprBox child))
        · exact child)
      ((d.see id).draw (.box (.exprBox id) e.label))
partial_fixpoint

def unboundedMethod (arena : Arena) (c : Nat) (d : Drawing) (entry : Method × Nat) : Option Drawing :=
  let (m, position) := entry
  let box := Vertex.methodBox c position
  let headed := (d.draw (.box box m.boxLabel)).draw (.arrow (.classBox c) box)
  m.body.foldlM (fun d id => unboundedNode arena (d.draw (.arrow box (.exprBox id))) id) headed

def unboundedClass (arena : Arena) (d : Drawing) (entry : ClassDefinition × Nat) : Option Drawing :=
  let (c, position) := entry
  c.methods.zipIdx.foldlM (unboundedMethod arena position) (d.draw (.box (.classBox position) c.boxLabel))

end Drawing

/-- The lines of a program's graph, drawn without a bound. -/
def Program.unboundedGraph (p : Program) : Option (List GraphLine) :=
  (p.classes.zipIdx.foldlM (Drawing.unboundedClass p.arena) (.blank p.arena.size)).map (·.lines.toList)

/-! ## Marks -/

namespace Drawing

/-- The expression has been drawn. -/
def Seen (d : Drawing) (id : NodeId) : Prop := d.seen[id.index]? = some true

instance (d : Drawing) : DecidablePred d.Seen := fun _ => inferInstanceAs (Decidable (_ = _))

variable {d d' d'' : Drawing} {id x : NodeId} {v : Vertex} {line : GraphLine} {n : Nat} {arena : Arena}

@[simp] theorem seen_draw : (d.draw line).Seen x ↔ d.Seen x := Iff.rfl

theorem seen_see (h : id.index < d.seen.size) : (d.see id).Seen x ↔ x = id ∨ d.Seen x := by
  unfold Seen see
  rw [Array.getElem?_setIfInBounds]
  have hid : x = id ↔ id.index = x.index := by
    constructor
    · rintro rfl
      rfl
    · intro hx
      cases x
      cases id
      cases hx
      rfl
  by_cases hx : id.index = x.index
  · simp [hid, hx, hx ▸ h]
  · simp [hid, hx]

@[simp] theorem size_see : (d.see id).seen.size = d.seen.size := Array.size_setIfInBounds

theorem isNew_iff (h : id.index < d.seen.size) : d.isNew id = true ↔ ¬ d.Seen id := by
  unfold isNew Seen
  rw [Array.getElem?_eq_getElem h]
  cases d.seen[id.index] <;> simp

/-- The lines of a vertex so far. -/
def linesAt (d : Drawing) (v : Vertex) : List GraphLine := linesOf v d.lines.toList

@[simp] theorem linesAt_draw : (d.draw line).linesAt v = d.linesAt v ++ linesOf v [line] := by
  simp only [linesAt, linesOf, draw, Array.toList_push, List.filter_append]

@[simp] theorem linesAt_see : (d.see id).linesAt v = d.linesAt v := rfl

/-- No more lines of the vertex come from drawing expressions: it is a class, a method or an expression drawn already. -/
def Settled (d : Drawing) (v : Vertex) : Prop := ∀ x, v = .exprBox x → d.Seen x

/-- The lines of a vertex that come with new marks. -/
def fresh (arena : Arena) (d d' : Drawing) : Vertex → List GraphLine
  | .exprBox x => if d'.Seen x ∧ ¬ d.Seen x then arena.linesAt x else []
  | _ => []

theorem fresh_of_settled (h : d.Settled v) : fresh arena d d' v = [] := by
  cases v with
  | exprBox x => simp [fresh, h x rfl]
  | classBox | methodBox => rfl

theorem fresh_append (h : ∀ x, d.Seen x → d'.Seen x) (h' : ∀ x, d'.Seen x → d''.Seen x) :
    fresh arena d d' v ++ fresh arena d' d'' v = fresh arena d d'' v := by
  cases v with
  | exprBox x =>
    have := h x
    have := h' x
    by_cases hd : d.Seen x <;> by_cases hd' : d'.Seen x <;> simp_all [fresh]
  | classBox | methodBox => rfl

/-! ## What drawing adds -/

/-- From one drawing to the other everything in `roots` is drawn, and the lines `extra` besides. -/
structure Grown (arena : Arena) (roots : List NodeId) (extra : List GraphLine) (d d' : Drawing) : Prop where
  size : d'.seen.size = d.seen.size
  kept : ∀ x, d.Seen x → d'.Seen x
  drawn : ∀ x ∈ roots, d'.Seen x
  reached : ∀ x, d'.Seen x → d.Seen x ∨ ∃ root ∈ roots, arena.Contains root x
  closed : ∀ x, d'.Seen x → d.Seen x ∨ ∀ y ∈ arena.children x, d'.Seen y
  lines : ∀ v, d'.linesAt v = d.linesAt v ++ linesOf v extra ++ fresh arena d d' v

namespace Grown
variable {roots roots' : List NodeId} {extra extra' : List GraphLine}

/-- Lines without new marks. -/
theorem unmarked (hseen : d'.seen = d.seen) (hdrawn : ∀ x ∈ roots, d.Seen x)
    (hlines : ∀ v, d'.linesAt v = d.linesAt v ++ linesOf v extra) : Grown arena roots extra d d' := by
  have hsame : ∀ x, d'.Seen x ↔ d.Seen x := fun x => by rw [Seen, Seen, hseen]
  refine ⟨by rw [hseen], fun x => (hsame x).2, fun x hx => (hsame x).2 (hdrawn x hx), fun x hx => .inl ((hsame x).1 hx),
    fun x hx => .inl ((hsame x).1 hx), fun v => ?_⟩
  have hnone : fresh arena d d' v = [] := by
    cases v <;> simp [fresh, hsame]
  rw [hlines, hnone, List.append_nil]

theorem draw (line : GraphLine) : Grown arena [] [line] d (d.draw line) :=
  unmarked rfl (by simp) fun _ => linesAt_draw

/-- Of an expression that is drawn already, nothing is drawn. -/
theorem seen (h : d.Seen id) : Grown arena [id] [] d d :=
  unmarked rfl (by simpa using h) fun _ => (List.append_nil _).symm

theorem refl : Grown arena [] [] d d := unmarked rfl (by simp) fun _ => (List.append_nil _).symm

/-- One after the other, where the second adds lines of vertices that the first had no more lines of. -/
theorem trans (h : Grown arena roots extra d d') (h' : Grown arena roots' extra' d' d'')
    (hsettled : ∀ line ∈ extra', d.Settled line.source) : Grown arena (roots ++ roots') (extra ++ extra') d d'' where
  size := h'.size.trans h.size
  kept x hx := h'.kept x (h.kept x hx)
  drawn x hx := by
    rcases List.mem_append.1 hx with hx | hx
    · exact h'.kept x (h.drawn x hx)
    · exact h'.drawn x hx
  reached x hx := by
    rcases h'.reached x hx with hx | ⟨root, hroot, hx⟩
    · rcases h.reached x hx with hx | ⟨root, hroot, hx⟩
      · exact .inl hx
      · exact .inr ⟨root, List.mem_append_left _ hroot, hx⟩
    · exact .inr ⟨root, List.mem_append_right _ hroot, hx⟩
  closed x hx := by
    rcases h'.closed x hx with hx | hparts
    · rcases h.closed x hx with hx | hparts
      · exact .inl hx
      · exact .inr fun y hy => h'.kept y (hparts y hy)
    · exact .inr hparts
  lines v := by
    -- Of one vertex, there are no fresh lines of the first part or no further lines of the second.
    have hswap : fresh arena d d' v ++ linesOf v extra' = linesOf v extra' ++ fresh arena d d' v := by
      by_cases hv : d.Settled v
      · simp [fresh_of_settled hv]
      · have hnone : linesOf v extra' = [] := by
          refine List.filter_eq_nil_iff.2 fun line hline hsource => hv ?_
          rw [← of_decide_eq_true hsource]
          exact hsettled line hline
        simp [hnone]
    calc d''.linesAt v = d.linesAt v ++ linesOf v extra ++ (fresh arena d d' v ++ linesOf v extra') ++ fresh arena d' d'' v := by
          rw [h'.lines, h.lines, List.append_assoc (d.linesAt v ++ linesOf v extra)]
      _ = d.linesAt v ++ (linesOf v extra ++ linesOf v extra') ++ (fresh arena d d' v ++ fresh arena d' d'' v) := by
          rw [hswap]
          simp only [List.append_assoc]
      _ = _ := by
          rw [fresh_append h.kept h'.kept, linesOf, linesOf, linesOf, List.filter_append]

/-- An expression that was not drawn, its label and then all of its parts. -/
theorem expression {e : Expr} (he : arena.expr? id = some e) (hsize : id.index < d.seen.size) (hnew : ¬ d.Seen id)
    (h : Grown arena e.children (arrowsTo (.exprBox id) e.children) ((d.see id).draw (.box (.exprBox id) e.label)) d') :
    Grown arena [id] [] d d' where
  size := by
    rw [h.size]
    exact size_see
  kept x hx := h.kept x ((seen_see hsize).2 (.inr hx))
  drawn x hx := by
    cases List.mem_singleton.1 hx
    exact h.kept id ((seen_see hsize).2 (.inl rfl))
  reached x hx := by
    rcases h.reached x hx with hx | ⟨root, hroot, hx⟩
    · rcases (seen_see hsize).1 hx with rfl | hx
      · exact .inr ⟨x, List.mem_singleton_self _, .refl⟩
      · exact .inl hx
    · rw [← Arena.children_of_expr he] at hroot
      exact .inr ⟨id, List.mem_singleton_self _, .child hroot hx⟩
  closed x hx := by
    rcases h.closed x hx with hx | hparts
    · rcases (seen_see hsize).1 hx with rfl | hx
      · rw [Arena.children_of_expr he]
        exact .inr h.drawn
      · exact .inl hx
    · exact .inr hparts
  lines v := by
    rw [h.lines, linesAt_draw, linesAt_see]
    by_cases hv : v = .exprBox id
    · subst hv
      have hseen : d'.Seen id := h.kept id ((seen_see hsize).2 (.inl rfl))
      have harrows : linesOf (.exprBox id) (arrowsTo (.exprBox id) e.children) = arrowsTo (.exprBox id) e.children := by
        simp [linesOf, arrowsTo, GraphLine.source]
      have hsettled : ((d.see id).draw (.box (.exprBox id) e.label)).Settled (.exprBox id) := by
        rintro x ⟨⟩
        exact (seen_see hsize).2 (.inl rfl)
      rw [harrows, fresh_of_settled hsettled]
      simp [fresh, hseen, hnew, Arena.linesAt, he, linesOf, GraphLine.source]
    · have hnone : linesOf v [.box (.exprBox id) e.label] = [] ∧ linesOf v (arrowsTo (.exprBox id) e.children) = [] := by
        simp [linesOf, arrowsTo, GraphLine.source, Ne.symm hv]
      have hfresh : fresh arena ((d.see id).draw (.box (.exprBox id) e.label)) d' v = fresh arena d d' v := by
        cases v with
        | exprBox x =>
          have hx : x ≠ id := fun h => hv (h ▸ rfl)
          simp [fresh, seen_see hsize, hx]
        | classBox | methodBox => rfl
      rw [hnone.1, hnone.2, hfresh]
      simp [linesOf]

end Grown

/-! ## Depth enough -/

/-- The places of the expressions that have not been drawn. -/
def left (d : Drawing) : Finset Nat := {i ∈ Finset.range d.seen.size | ¬ d.Seen ⟨i⟩}

/-- The drawing has a mark for each place of the arena, and fewer than this many expressions are left. -/
structure Within (arena : Arena) (n : Nat) (d : Drawing) : Prop where
  size : d.seen.size = arena.size
  left : d.left.card < n

theorem within_blank (arena : Arena) : Within arena (arena.size + 1) (blank arena.size) where
  size := Array.size_replicate
  left := by
    refine Nat.lt_succ_of_le ((Finset.card_filter_le _ _).trans ?_)
    rw [Finset.card_range, blank, Array.size_replicate]

theorem Within.draw (h : Within arena n d) : Within arena n (d.draw line) := ⟨h.size, h.left⟩

theorem Grown.within {roots : List NodeId} {extra : List GraphLine} (h : Grown arena roots extra d d') (hd : Within arena n d) :
    Within arena n d' where
  size := h.size.trans hd.size
  left := by
    refine Nat.lt_of_le_of_lt (Finset.card_le_card fun i hi => ?_) hd.left
    simp only [Drawing.left, Finset.mem_filter, h.size] at hi ⊢
    exact ⟨hi.1, fun hseen => hi.2 (h.kept _ hseen)⟩

/-- A new mark leaves one expression less. -/
theorem Within.see (hd : Within arena (n + 1) d) (hid : id.index < arena.size) (hnew : ¬ d.Seen id) : Within arena n (d.see id) where
  size := size_see.trans hd.size
  left := by
    have hsize : id.index < d.seen.size := by rwa [hd.size]
    have hsub : (d.see id).left ⊆ d.left.erase id.index := by
      intro i hi
      simp only [Drawing.left, Finset.mem_filter, Finset.mem_erase, seen_see hsize, not_or, size_see] at hi ⊢
      refine ⟨?_, hi.1, hi.2.2⟩
      rintro rfl
      exact hi.2.1 rfl
    have hmem : id.index ∈ d.left := Finset.mem_filter.2 ⟨Finset.mem_range.2 hsize, hnew⟩
    have hcard := Finset.card_le_card hsub
    rw [Finset.card_erase_of_mem hmem] at hcard
    have := Finset.card_pos.2 ⟨_, hmem⟩
    have := hd.left
    omega

/-! ## Drawing everything -/

theorem Settled.mono (h : d.Settled v) (hkept : ∀ x, d.Seen x → d'.Seen x) : d'.Settled v := fun x hx => hkept x (h x hx)

/-- Drawing one thing after the other, each with lines that later ones do not add to. -/
theorem Grown.foldl {α : Type} {draw : Drawing → α → Drawing} {roots : α → List NodeId} {extra : α → List GraphLine} (xs : List α)
    (h : ∀ x ∈ xs, ∀ d, Within arena n d → Grown arena (roots x) (extra x) d (draw d x))
    (hsettled : ∀ x ∈ xs, ∀ line ∈ extra x, d.Settled line.source) (hd : Within arena n d) :
    Grown arena (xs.flatMap roots) (xs.flatMap extra) d (xs.foldl draw d) := by
  induction xs generalizing d with
  | nil => exact .refl
  | cons x xs ih =>
    have hx := h x List.mem_cons_self d hd
    have hrest : ∀ y ∈ xs, ∀ line ∈ extra y, d.Settled line.source := fun y hy => hsettled y (List.mem_cons_of_mem _ hy)
    refine hx.trans (ih (fun y hy => h y (List.mem_cons_of_mem _ hy)) (fun y hy line hline => ?_) (hx.within hd)) ?_
    · exact (hrest y hy line hline).mono hx.kept
    · intro line hline
      obtain ⟨y, hy, hline⟩ := List.mem_flatMap.1 hline
      exact hrest y hy line hline

/-- Arrows to some expressions, each followed by the expression. -/
theorem Grown.arrows (hnode : ∀ d id, Within arena n d → id.index < arena.size → Grown arena [id] [] d (node arena n d id))
    {ids : List NodeId} (hids : ∀ x ∈ ids, x.index < arena.size) (hv : d.Settled v) (hd : Within arena n d) :
    Grown arena ids (arrowsTo v ids) d (ids.foldl (fun d id => node arena n (d.draw (.arrow v (.exprBox id))) id) d) := by
  have h : Grown arena (ids.flatMap fun id => [id]) (ids.flatMap fun id => [.arrow v (.exprBox id)]) d
      (ids.foldl (fun d id => node arena n (d.draw (.arrow v (.exprBox id))) id) d) := by
    refine .foldl ids (fun id hid d hd => ?_) (fun id _ line hline => ?_) hd
    · exact (Grown.draw _).trans (hnode _ id hd.draw (hids id hid)) (by simp)
    · cases List.mem_singleton.1 hline
      exact hv
  rwa [List.flatMap_singleton', ← List.map_eq_flatMap] at h

theorem grown_node (hr : ∀ d x, x ∈ arena.children d → x.index < arena.size) (n : Nat) (d : Drawing) (id : NodeId)
    (hd : Within arena n d) (hid : id.index < arena.size) : Grown arena [id] [] d (node arena n d id) := by
  -- The depth stays above the number of expressions left: it goes down with every call, and so does that number.
  induction n generalizing d id with
  | zero => exact absurd hd.left (Nat.not_lt_zero _)
  | succ n ih =>
    have hsize : id.index < d.seen.size := by rwa [hd.size]
    obtain ⟨e, he⟩ := Arena.expr?_of_lt hid
    have hparts : ∀ x ∈ e.children, x.index < arena.size := fun x hx => hr id x (by rwa [Arena.children_of_expr he])
    simp only [node, he]
    split
    · next hnew =>
      have hnew : ¬ d.Seen id := (isNew_iff hsize).1 hnew
      refine .expression he hsize hnew (.arrows ih hparts ?_ (hd.see hid hnew).draw)
      rintro x ⟨⟩
      exact (seen_see hsize).2 (.inl rfl)
    · next hold =>
      refine .seen ?_
      by_contra hnew
      exact hold ((isNew_iff hsize).2 hnew)

/-! ## Methods and classes -/

/-- The label of a method, the arrow from its class and those to the statements. -/
def methodLines (c : Nat) (entry : Method × Nat) : List GraphLine :=
  [.box (.methodBox c entry.2) entry.1.boxLabel, .arrow (.classBox c) (.methodBox c entry.2)] ++
    arrowsTo (.methodBox c entry.2) entry.1.body

/-- The label of a class and the lines of its methods. -/
def classLines (entry : ClassDefinition × Nat) : List GraphLine :=
  .box (.classBox entry.2) entry.1.boxLabel :: entry.1.methods.zipIdx.flatMap (methodLines entry.2)

theorem settled_methodLines {c : Nat} {entry : Method × Nat} (h : line ∈ methodLines c entry) : d.Settled line.source := by
  simp only [methodLines, arrowsTo, List.cons_append, List.nil_append, List.mem_cons, List.mem_map] at h
  rintro x hx
  rcases h with rfl | rfl | ⟨y, -, rfl⟩ <;> cases hx

theorem settled_classLines {entry : ClassDefinition × Nat} (h : line ∈ classLines entry) : d.Settled line.source := by
  rcases List.mem_cons.1 h with rfl | h
  · rintro x ⟨⟩
  · obtain ⟨m, -, h⟩ := List.mem_flatMap.1 h
    exact settled_methodLines h

section
variable {c : Nat} (hr : ∀ d x, x ∈ arena.children d → x.index < arena.size)
include hr

theorem grown_method {entry : Method × Nat} (hbody : ∀ x ∈ entry.1.body, x.index < arena.size)
    (hd : Within arena (arena.size + 1) d) :
    Grown arena entry.1.body (methodLines c entry) d (method arena c d entry) := by
  refine ((Grown.draw _).trans (.draw _) ?_).trans (.arrows (grown_node hr _) hbody ?_ hd.draw.draw) ?_
  · simp [Settled, GraphLine.source]
  · rintro x ⟨⟩
  · simp [Settled, GraphLine.source, arrowsTo]

theorem grown_class {entry : ClassDefinition × Nat} (hbody : ∀ m ∈ entry.1.methods, ∀ x ∈ m.body, x.index < arena.size)
    (hd : Within arena (arena.size + 1) d) :
    Grown arena (entry.1.methods.flatMap (·.body)) (classLines entry) d (classDefinition arena d entry) := by
  have h : Grown arena (entry.1.methods.zipIdx.flatMap (·.1.body)) (entry.1.methods.zipIdx.flatMap (methodLines entry.2))
      (d.draw (.box (.classBox entry.2) entry.1.boxLabel)) (classDefinition arena d entry) := by
    refine .foldl _ (fun m hm d hd => ?_) (fun m _ line hline => settled_methodLines hline) hd.draw
    exact grown_method hr (hbody m.1 (List.fst_mem_of_mem_zipIdx hm)) hd
  rw [Program.flatMap_zipIdx] at h
  refine (Grown.draw _).trans h fun line hline => ?_
  obtain ⟨m, -, hline⟩ := List.mem_flatMap.1 hline
  exact settled_methodLines hline

end
end Drawing

/-- Everything that is drawn of a program. -/
def Program.drawing (p : Program) : Drawing := p.classes.zipIdx.foldl (Drawing.classDefinition p.arena) (.blank p.arena.size)

namespace Program.InRange
open Drawing
variable {p : Program} {x : NodeId}

theorem body {c : ClassDefinition} (hp : p.InRange) (hc : c ∈ p.classes) : ∀ m ∈ c.methods, ∀ x ∈ m.body, x.index < p.arena.size :=
  fun m hm => hp.bodies m (List.mem_flatMap.2 ⟨c, hc, hm⟩)

theorem grown (hp : p.InRange) : Grown p.arena (p.methods.flatMap (·.body)) (p.classes.zipIdx.flatMap classLines)
    (blank p.arena.size) p.drawing := by
  have h : Grown p.arena (p.classes.zipIdx.flatMap fun e => e.1.methods.flatMap (·.body)) (p.classes.zipIdx.flatMap classLines)
      (blank p.arena.size) p.drawing := by
    refine .foldl _ (fun c hc d hd => ?_) (fun c _ line hline => settled_classLines hline) (within_blank _)
    exact grown_class hp.children (hp.body (List.fst_mem_of_mem_zipIdx hc)) hd
  rwa [Program.flatMap_zipIdx (fun c : ClassDefinition => c.methods.flatMap (·.body)), ← List.flatMap_assoc] at h

theorem not_seen_blank (n : Nat) : ¬ (blank n).Seen x := by
  simp [Seen, blank, Array.getElem?_replicate]

/-- An expression is drawn if a body reaches it, and only then. -/
theorem seen_iff (hp : p.InRange) : p.drawing.Seen x ↔ p.Reaches x := by
  constructor
  · intro hx
    rcases hp.grown.reached x hx with hx | ⟨root, hroot, hx⟩
    · exact absurd hx (not_seen_blank _)
    · obtain ⟨m, hm, hroot⟩ := List.mem_flatMap.1 hroot
      exact ⟨m, hm, root, hroot, hx⟩
  · rintro ⟨m, hm, root, hroot, hx⟩
    induction hx with
    | refl => exact hp.grown.drawn root (List.mem_flatMap.2 ⟨m, hm, hroot⟩)
    | tail _ hy ih =>
      rcases hp.grown.closed _ ih with hblank | hparts
      · exact absurd hblank (not_seen_blank _)
      · exact hparts _ hy

end Program.InRange

/-! ## The descent ends -/

/-- A fold in which every step gives what another fold does, as long as a property is kept. -/
theorem foldlM_eq_some {α β : Type} {P : β → Prop} {f : β → α → Option β} {g : β → α → β} (xs : List α)
    (h : ∀ x ∈ xs, ∀ b, P b → f b x = some (g b x) ∧ P (g b x)) (b : β) (hb : P b) : xs.foldlM f b = some (xs.foldl g b) := by
  induction xs generalizing b with
  | nil => rfl
  | cons x xs ih =>
    obtain ⟨hx, hP⟩ := h x List.mem_cons_self b hb
    rw [List.foldlM_cons, hx, List.foldl_cons]
    exact ih (fun y hy => h y (List.mem_cons_of_mem _ hy)) _ hP

namespace Drawing
variable {arena : Arena} {d : Drawing}

section
variable (hr : ∀ d x, x ∈ arena.children d → x.index < arena.size)
include hr

theorem unboundedNode_eq (n : Nat) (d : Drawing) (id : NodeId) (hd : Within arena n d) (hid : id.index < arena.size) :
    unboundedNode arena d id = some (node arena n d id) := by
  induction n generalizing d id with
  | zero => exact absurd hd.left (Nat.not_lt_zero _)
  | succ n ih =>
    have hsize : id.index < d.seen.size := by rwa [hd.size]
    obtain ⟨e, he⟩ := Arena.expr?_of_lt hid
    rw [unboundedNode, node, he]
    by_cases hseen : d.Seen id
    · have hold : d.isNew id = false := by
        simpa using (isNew_iff hsize).not_left.2 hseen
      simp [hold, show d.seen[id.index]? = some true from hseen]
    · have hnew := (isNew_iff hsize).2 hseen
      have hmark : d.seen[id.index]? = some false := of_decide_eq_true hnew
      simp only [hmark, hnew, Option.bind_eq_bind, Option.bind_some, Bool.false_eq_true, if_false, if_true]
      refine foldlM_eq_some (P := Within arena n) _ (fun x hx d hd => ?_) _ (hd.see hid hseen).draw
      have hx : x.index < arena.size := hr id x (by rwa [Arena.children_of_expr he])
      exact ⟨ih _ x hd.draw hx, (grown_node hr n _ x hd.draw hx).within hd.draw⟩

theorem unboundedMethod_eq {c : Nat} {entry : Method × Nat} (hbody : ∀ x ∈ entry.1.body, x.index < arena.size)
    (hd : Within arena (arena.size + 1) d) : unboundedMethod arena c d entry = some (method arena c d entry) := by
  refine foldlM_eq_some (P := Within arena (arena.size + 1)) _ (fun x hx d hd => ?_) _ hd.draw.draw
  exact ⟨unboundedNode_eq hr _ _ x hd.draw (hbody x hx), (grown_node hr _ _ x hd.draw (hbody x hx)).within hd.draw⟩

theorem unboundedClass_eq {entry : ClassDefinition × Nat} (hbody : ∀ m ∈ entry.1.methods, ∀ x ∈ m.body, x.index < arena.size)
    (hd : Within arena (arena.size + 1) d) : unboundedClass arena d entry = some (classDefinition arena d entry) := by
  refine foldlM_eq_some (P := Within arena (arena.size + 1)) _ (fun m hm d hd => ?_) _ hd.draw
  have hbody := hbody m.1 (List.fst_mem_of_mem_zipIdx hm)
  exact ⟨unboundedMethod_eq hr hbody hd, (grown_method hr hbody hd).within hd⟩

end
end Drawing

theorem Program.InRange.unboundedGraph_eq {p : Program} (hp : p.InRange) : p.unboundedGraph = some p.graph := by
  have h : p.classes.zipIdx.foldlM (Drawing.unboundedClass p.arena) (.blank p.arena.size) = some p.drawing := by
    refine foldlM_eq_some (P := Drawing.Within p.arena (p.arena.size + 1)) _ (fun c hc d hd => ?_) _ (Drawing.within_blank _)
    have hbody := hp.body (List.fst_mem_of_mem_zipIdx hc)
    exact ⟨Drawing.unboundedClass_eq hp.children hbody hd, (Drawing.grown_class hp.children hbody hd).within hd⟩
  rw [unboundedGraph, h]
  rfl

/-! ## The lines of each vertex -/

theorem linesOf_append (v : Vertex) (lines lines' : List GraphLine) : linesOf v (lines ++ lines') = linesOf v lines ++ linesOf v lines' :=
  List.filter_append ..

theorem linesOf_flatMap {α : Type} (v : Vertex) (f : α → List GraphLine) (l : List α) :
    linesOf v (l.flatMap f) = l.flatMap fun x => linesOf v (f x) := List.filter_flatMap

/-- If only the one at some place has lines of a vertex, then these are all. -/
theorem linesOf_zipIdx {α : Type} {v : Vertex} {f : α × Nat → List GraphLine} (l : List α) (n k : Nat)
    (h : ∀ x i, i ≠ n + k → linesOf v (f (x, i)) = []) :
    linesOf v ((l.zipIdx n).flatMap f) = (l[k]?.map fun x => linesOf v (f (x, n + k))).getD [] := by
  induction l generalizing n k with
  | nil => rfl
  | cons x l ih =>
    rw [List.zipIdx_cons, List.flatMap_cons, linesOf_append]
    cases k with
    | zero =>
      have hrest : linesOf v ((l.zipIdx (n + 1)).flatMap f) = [] := by
        rw [linesOf_flatMap, List.flatMap_eq_nil_iff]
        rintro ⟨y, i⟩ hy
        have := List.le_snd_of_mem_zipIdx hy
        exact h y i (by simp at this; omega)
      simp [hrest]
    | succ k =>
      rw [h x n (by omega), ih (n + 1) k fun y i hi => h y i (by omega)]
      simp [Nat.add_assoc, Nat.add_comm 1 k]

section
open Drawing
variable {i j k : Nat} {m : Method} {c : ClassDefinition}

theorem linesOf_methodLines_class {entry : Method × Nat} : linesOf (.classBox i) (methodLines k entry) =
    if k = i then [.arrow (.classBox i) (.methodBox i entry.2)] else [] := by
  by_cases h : k = i <;> simp [methodLines, linesOf, arrowsTo, GraphLine.source, h]

theorem linesOf_methodLines_method {j' : Nat} : linesOf (.methodBox i j) (methodLines k (m, j')) =
    if k = i ∧ j' = j then .box (.methodBox i j) m.boxLabel :: arrowsTo (.methodBox i j) m.body else [] := by
  by_cases h : k = i ∧ j' = j
  · obtain ⟨rfl, rfl⟩ := h
    simp [methodLines, linesOf, arrowsTo, GraphLine.source]
  · simp [methodLines, linesOf, arrowsTo, GraphLine.source, h]

theorem linesOf_classLines_class : linesOf (.classBox i) (classLines (c, k)) =
    if k = i then .box (.classBox i) c.boxLabel :: (List.range c.methods.length).map fun j => .arrow (.classBox i) (.methodBox i j)
    else [] := by
  have hmethods : linesOf (.classBox i) (c.methods.zipIdx.flatMap (methodLines k)) =
      if k = i then (List.range c.methods.length).map fun j => .arrow (.classBox i) (.methodBox i j) else [] := by
    rw [linesOf_flatMap]
    simp only [linesOf_methodLines_class]
    by_cases h : k = i
    · simp only [h, if_true, ← List.map_eq_flatMap]
      rw [List.range_eq_range', ← List.zipIdx_map_snd, List.map_map]
      rfl
    · simp [h]
  rw [classLines, ← List.singleton_append, linesOf_append, hmethods]
  by_cases h : k = i <;> simp [linesOf, GraphLine.source, h]

theorem linesOf_classLines_method : linesOf (.methodBox i j) (classLines (c, k)) =
    if k = i then (c.methods[j]?.map fun m => .box (.methodBox i j) m.boxLabel :: arrowsTo (.methodBox i j) m.body).getD [] else [] := by
  have hbox : linesOf (.methodBox i j) (classLines (c, k)) = linesOf (.methodBox i j) (c.methods.zipIdx.flatMap (methodLines k)) :=
    List.filter_cons_of_neg (by simp [GraphLine.source])
  rw [hbox, linesOf_zipIdx _ 0 j fun m j' hj => by simp [linesOf_methodLines_method, show j' ≠ j by omega]]
  by_cases h : k = i <;> cases c.methods[j]? <;> simp [linesOf_methodLines_method, h]

end

/-- The lines have one box for each class, each method and each expression that a body reaches, each with all of its arrows
in order and with no others. -/
structure Program.ShownBy (p : Program) (lines : List GraphLine) : Prop where
  expression : ∀ id, p.Reaches id → ∃ e, p.arena.expr? id = some e ∧
    linesOf (.exprBox id) lines = .box (.exprBox id) e.label :: arrowsTo (.exprBox id) e.children
  unreached : ∀ id, ¬ p.Reaches id → linesOf (.exprBox id) lines = []
  classDefinition : ∀ i c, p.classes[i]? = some c → linesOf (.classBox i) lines =
    .box (.classBox i) c.boxLabel :: (List.range c.methods.length).map fun j => .arrow (.classBox i) (.methodBox i j)
  noClass : ∀ i, p.classes[i]? = none → linesOf (.classBox i) lines = []
  method : ∀ i j m, p.method? i j = some m → linesOf (.methodBox i j) lines =
    .box (.methodBox i j) m.boxLabel :: arrowsTo (.methodBox i j) m.body
  noMethod : ∀ i j, p.method? i j = none → linesOf (.methodBox i j) lines = []

namespace Program.InRange
open Drawing
variable {p : Program}

theorem linesOf_graph (hp : p.InRange) (v : Vertex) :
    linesOf v p.graph = linesOf v (p.classes.zipIdx.flatMap classLines) ++ fresh p.arena (blank p.arena.size) p.drawing v := by
  have h := hp.grown.lines v
  rwa [show (blank p.arena.size).linesAt v = [] from rfl, List.nil_append] at h

theorem linesOf_expr (hp : p.InRange) (id : NodeId) :
    linesOf (.exprBox id) p.graph = if p.drawing.Seen id then p.arena.linesAt id else [] := by
  have hnone : linesOf (.exprBox id) (p.classes.zipIdx.flatMap classLines) = [] := by
    refine List.filter_eq_nil_iff.2 fun line hline hsource => ?_
    obtain ⟨c, -, hline⟩ := List.mem_flatMap.1 hline
    exact not_seen_blank 0 (settled_classLines hline id (of_decide_eq_true hsource))
  rw [hp.linesOf_graph, hnone]
  simp [fresh, not_seen_blank]

theorem linesOf_class (hp : p.InRange) (i : Nat) : linesOf (.classBox i) p.graph = (p.classes[i]?.map fun c =>
    .box (.classBox i) c.boxLabel :: (List.range c.methods.length).map fun j => .arrow (.classBox i) (.methodBox i j)).getD [] := by
  rw [hp.linesOf_graph, linesOf_zipIdx _ 0 i fun c k hk => by simp [linesOf_classLines_class, show k ≠ i by omega]]
  simp [fresh, linesOf_classLines_class]

theorem linesOf_method (hp : p.InRange) (i j : Nat) : linesOf (.methodBox i j) p.graph = ((p.method? i j).map fun m =>
    .box (.methodBox i j) m.boxLabel :: arrowsTo (.methodBox i j) m.body).getD [] := by
  rw [hp.linesOf_graph, linesOf_zipIdx _ 0 i fun c k hk => by simp [linesOf_classLines_method, show k ≠ i by omega], method?]
  cases p.classes[i]? <;> simp [fresh, linesOf_classLines_method]

theorem shownBy (hp : p.InRange) : p.ShownBy p.graph where
  expression id hid := by
    have hseen := hp.seen_iff.2 hid
    have hlt : id.index < p.arena.size := by
      have := (Array.getElem?_eq_some_iff.1 hseen).1
      rwa [hp.grown.size, (within_blank p.arena).size] at this
    obtain ⟨e, he⟩ := Arena.expr?_of_lt hlt
    refine ⟨e, he, ?_⟩
    rw [hp.linesOf_expr, if_pos hseen, Arena.linesAt, he]
  unreached id hid := by
    rw [hp.linesOf_expr, if_neg (mt hp.seen_iff.1 hid)]
  classDefinition i c hc := by
    rw [hp.linesOf_class, hc]
    rfl
  noClass i hc := by
    rw [hp.linesOf_class, hc]
    rfl
  method i j m hm := by
    rw [hp.linesOf_method, hm]
    rfl
  noMethod i j hm := by
    rw [hp.linesOf_method, hm]
    rfl

end Program.InRange

/-- Drawing a program whose parts are all there ends, also where expressions share parts or contain themselves, and its text
has one reading. In it every expression that some body reaches has one label and one arrow to each of its parts, in order, and
no other expression has any line; every class and every method has one label, every method an arrow from its class, and every
statement one from its method. -/
theorem graph_exact {p : Program} (hp : p.InRange) : p.unboundedGraph = some p.graph ∧
    (∀ lines, p.dot = dotText lines ↔ lines = p.graph) ∧ p.ShownBy p.graph := by
  refine ⟨hp.unboundedGraph_eq, fun lines => ⟨fun h => (dotText_inj h).symm, ?_⟩, hp.shownBy⟩
  rintro rfl
  exact p.dot_eq

/-- An array that holds a parenthesis around itself, twice, and itself; and a name that nothing reaches. -/
def knot : Program where
  arena := ⟨#[⟨.array [⟨1⟩, ⟨1⟩, ⟨0⟩], default⟩, ⟨.paren ⟨0⟩, default⟩, ⟨.ident "x", default⟩]⟩
  classes := [⟨"A", none, default, [], [], [⟨false, "m", [], [], [⟨1⟩, ⟨0⟩], default⟩], [], default⟩]

theorem graph_exact_knot : knot.InRange ∧ knot.unboundedGraph = some knot.graph ∧ knot.Reaches ⟨0⟩ ∧ ¬ knot.Reaches ⟨2⟩ ∧
    linesOf (.exprBox ⟨0⟩) knot.graph = [.box (.exprBox ⟨0⟩) "#( ) [3]", .arrow (.exprBox ⟨0⟩) (.exprBox ⟨1⟩),
      .arrow (.exprBox ⟨0⟩) (.exprBox ⟨1⟩), .arrow (.exprBox ⟨0⟩) (.exprBox ⟨0⟩)] := by
  have hrange : knot.InRange := by
    constructor
    · rintro ⟨_ | _ | _ | n⟩ x hx
      · revert x
        decide
      · revert x
        decide
      · cases hx
      · cases hx
    · decide
  obtain ⟨hends, -, hshown⟩ := graph_exact hrange
  have hreached : knot.Reaches ⟨0⟩ := ⟨_, List.mem_singleton_self _, ⟨0⟩, by decide, .refl⟩
  have hunreached : ¬ knot.Reaches ⟨2⟩ := by
    intro h
    obtain ⟨e, -, hlines⟩ := hshown.expression _ h
    have hnone : linesOf (.exprBox ⟨2⟩) knot.graph = [] := by decide +kernel
    rw [hnone] at hlines
    cases hlines
  obtain ⟨e, he, hlines⟩ := hshown.expression _ hreached
  cases he
  exact ⟨hrange, hends, hreached, hunreached, hlines⟩

end BlockScope
