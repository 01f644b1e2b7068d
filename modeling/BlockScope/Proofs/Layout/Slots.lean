import BlockScope.Proofs.Analysis.Hierarchy
import BlockScope.Proofs.Layout.Frames
import BlockScope.Proofs.Outcomes
/-!
# Where instance variables lie

`link` lays out the slots of a class from its lineage, the topmost class first. Nothing after it touches them: bodies get
scopes of their own, and what is learned of a variable changes neither its name nor its number. `Analysis.KeepsSlots` says so
of every operation on scopes and is carried through both passes over the bodies. So in the end a class has the slots of its
superclass and then its own (`slots_inherited_first`).
-/
namespace BlockScope

/-- The name and the number of a variable. -/
def ScopeTree.numbered? (t : ScopeTree) (x : VarId) : Option (String × Option Nat) := (t.var? x).map fun v => (v.name, v.index)

/-- Scopes that are no method or block stay, and variables keep their names and numbers. -/
structure ScopeTree.KeepsSlots (t t' : ScopeTree) : Prop where
  scopes : ∀ id s, t.scope? id = some s → s.frame? = none → t'.scope? id = some s
  vars : ∀ x, (t.var? x).isSome → t'.numbered? x = t.numbered? x

/-- Classes stay but for their methods, and so do their slots. -/
structure Analysis.KeepsSlots (a b : Analysis) : Prop where
  classes : ∀ (i : Nat) (info : ClassInfo), a.classes[i]? = some info → ∃ info', b.classes[i]? = some info' ∧ info.SameClass info'
  scopes : a.scopes.KeepsSlots b.scopes

/-! ## Operations on scopes -/

namespace ScopeTree.KeepsSlots
variable {t t' t'' : ScopeTree}

theorem refl (t : ScopeTree) : t.KeepsSlots t := ⟨fun _ _ hs _ => hs, fun _ _ => rfl⟩

theorem isSome (h : t.KeepsSlots t') {x : VarId} (hx : (t.var? x).isSome) : (t'.var? x).isSome := by
  have hsame := h.vars x hx
  obtain ⟨v, hv⟩ := Option.isSome_iff_exists.1 hx
  rw [numbered?, numbered?, hv] at hsame
  cases hv' : t'.var? x with
  | none =>
    rw [hv'] at hsame
    cases hsame
  | some v' => rfl

theorem trans (h : t.KeepsSlots t') (h' : t'.KeepsSlots t'') : t.KeepsSlots t'' := by
  refine ⟨fun id s hs hf => h'.scopes id s (h.scopes id s hs hf) hf, fun x hx => ?_⟩
  rw [h'.vars x (h.isSome hx), h.vars x hx]

theorem addScope (t : ScopeTree) (outer : Option ScopeId) (body : ScopeBody) : t.KeepsSlots (t.addScope outer body).2 := by
  refine ⟨fun id s hs _ => ?_, fun _ _ => rfl⟩
  have := scope?_lt hs
  rw [scope?_addScope, if_neg (by omega), hs]

theorem addVar (t : ScopeTree) (v : Variable) : t.KeepsSlots (t.addVar v).2 := by
  refine ⟨fun _ _ hs _ => hs, fun x hx => ?_⟩
  obtain ⟨w, hw⟩ := Option.isSome_iff_exists.1 hx
  have := var?_lt hw
  rw [numbered?, var?_addVar, if_neg (by omega), numbered?]

theorem modifyFrame (t : ScopeTree) (id : ScopeId) (f : Frame → Frame) : t.KeepsSlots (t.modifyFrame id f) := by
  refine ⟨fun id' s hs hf => ?_, fun _ _ => rfl⟩
  have hsame : s.mapFrame f = s := by
    obtain ⟨o, body⟩ := s
    cases body with
    | code => cases hf
    | root | side => rfl
  rw [scope?_modifyFrame, hs, Option.map_some, hsame, ite_self]

theorem modifyVar (t : ScopeTree) (x : VarId) {f : Variable → Variable} (hname : ∀ v, (f v).name = v.name)
    (hindex : ∀ v, (f v).index = v.index) : t.KeepsSlots (t.modifyVar x f) := by
  refine ⟨fun _ _ hs _ => hs, fun y _ => ?_⟩
  rw [numbered?, numbered?, var?_modifyVar]
  split
  · rw [Option.map_map]
    congr 1
    funext v
    rw [Function.comp_apply, hname, hindex]
  · rfl

theorem foldl {α : Type} {f : ScopeTree → α → ScopeTree} (h : ∀ (t : ScopeTree) x, t.KeepsSlots (f t x)) (xs : List α)
    (t : ScopeTree) : t.KeepsSlots (xs.foldl f t) := by
  induction xs generalizing t with
  | nil => exact .refl t
  | cons x xs ih => exact (h t x).trans (ih _)

theorem addListed (t : ScopeTree) (v : Variable) (list : VarId → Frame → Frame) : t.KeepsSlots (t.addListed v list).2 :=
  (addVar t v).trans (modifyFrame _ _ _)

theorem declare {scope : ScopeId} {d : Declaration} {isParameter : Bool} {x : VarId}
    (h : Runs (Scoping.declare scope d isParameter) t x t') : t.KeepsSlots t' :=
  Scoping.leaves_of_declare trans addListed h

theorem markFound (t : ScopeTree) (found : Found) (forWrite : Bool) : t.KeepsSlots (t.markFound found forWrite) := by
  unfold ScopeTree.markFound
  split
  · exact modifyVar _ _ (fun _ => rfl) fun _ => rfl
  · exact .refl t

theorem promote (t : ScopeTree) (scope : ScopeId) : t.KeepsSlots (t.promote scope).2 := by
  unfold ScopeTree.promote
  split
  · exact .refl t
  · have hkinds : ∀ ids : List VarId,
        t.KeepsSlots (ids.foldl (fun t id => t.modifyVar id fun v => { v with kind := .heap }) t) := fun ids =>
      foldl (fun t x => modifyVar t x (f := fun v => { v with kind := .heap }) (fun _ => rfl) fun _ => rfl) ids t
    dsimp only
    split
    · exact hkinds _
    · exact (hkinds _).trans (modifyFrame _ _ _)

theorem capture (t : ScopeTree) (scope : ScopeId) (x : VarId) : t.KeepsSlots (t.capture scope x) := by
  unfold ScopeTree.capture
  dsimp only
  split
  · exact .refl t
  · split
    · exact foldl (fun t s => modifyFrame t s _) _ t
    · exact foldl (fun t s => modifyFrame t s _) _ t
    · exact foldl (fun t s => modifyFrame t s _) _ t
    · exact .refl t

end ScopeTree.KeepsSlots

/-! ## The first pass -/

namespace Analysis.KeepsSlots
variable {a b c : Analysis}

theorem of_scopes {t : ScopeTree} (h : a.scopes.KeepsSlots t) : a.KeepsSlots { a with scopes := t } :=
  ⟨fun _ info hi => ⟨info, hi, rfl⟩, h⟩

theorem refl (a : Analysis) : a.KeepsSlots a := .of_scopes (.refl _)

theorem trans (h : a.KeepsSlots b) (h' : b.KeepsSlots c) : a.KeepsSlots c := by
  refine ⟨fun i info hi => ?_, h.scopes.trans h'.scopes⟩
  obtain ⟨info₁, h₁, e₁⟩ := h.classes i info hi
  obtain ⟨info₂, h₂, e₂⟩ := h'.classes i info₁ h₁
  exact ⟨info₂, h₂, by rw [e₂, e₁]; rfl⟩

instance : Std.Refl Analysis.KeepsSlots := ⟨refl⟩

instance : IsTrans Analysis Analysis.KeepsSlots := ⟨fun _ _ _ => trans⟩

theorem addMethod (a : Analysis) (i : Nat) (classSide : Bool) (scope : ScopeId) :
    a.KeepsSlots (a.modifyClass i (ClassInfo.addMethod classSide scope)) := by
  refine ⟨fun j info hj => ?_, .refl _⟩
  refine ⟨if i = j then info.addMethod classSide scope else info, by simp [getElem?_modifyClass, hj], ?_⟩
  split
  · cases classSide <;> rfl
  · rfl

end Analysis.KeepsSlots

open Stage Analysis

theorem leaves_declareIn (scope : ScopeId) (isParameter : Bool) (d : Declaration) :
    Leaves KeepsSlots (declareIn scope isParameter d) := by
  unfold declareIn
  refine .bind (.tryScopes Scoping.atomic_declare fun a x t h => .of_scopes (.declare h)) fun var => .bind .analysis fun a => ?_
  dsimp only
  split
  · exact .tell _
  · exact .pure _

theorem leaves_enterScope {visit : ScopeId → NodeId → Stage Unit} (hv : ∀ s id, Leaves KeepsSlots (visit s id)) (scope : ScopeId)
    (params temps : List Declaration) (body : List NodeId) : Leaves KeepsSlots (enterScope visit scope params temps body) := by
  unfold enterScope
  simp only [List.forM_eq_forM]
  exact .bind (.forM fun d _ => leaves_declareIn scope true d) fun _ =>
    .bind (.forM fun d _ => leaves_declareIn scope false d) fun _ => .forM fun id _ => hv scope id

theorem leaves_lookupAt (arena : Arena) (scope : ScopeId) (id : NodeId) (name : String) (forWrite : Bool) :
    Leaves KeepsSlots (lookupAt arena scope id name forWrite) := by
  unfold lookupAt lookup
  refine .rename (.bind (.tryScopes Scoping.atomic_lookup fun a found t h => .of_scopes ?_) fun found =>
    .bind (.tell _) fun _ => .pure _)
  obtain ⟨-, rfl⟩ := Scoping.runs_lookup_iff.1 h
  exact .markFound _ _ _

theorem leaves_resolveBlock {visit : ScopeId → NodeId → Stage Unit} (hv : ∀ s id, Leaves KeepsSlots (visit s id)) (outer : ScopeId)
    (kind : CodeKind) (id : NodeId) (params temps : List Declaration) (body : List NodeId) :
    Leaves KeepsSlots (resolveBlock visit outer kind id params temps body) := by
  unfold resolveBlock
  exact .bind (.onScopes fun a => .of_scopes (.addScope _ _ _)) fun scope =>
    .bind (.update fun a => ⟨fun _ info hi => ⟨info, hi, rfl⟩, .refl _⟩) fun _ => leaves_enterScope hv scope params temps body

theorem leaves_resolveTarget (arena : Arena) (scope : ScopeId) (id : NodeId) (name : String) :
    Leaves KeepsSlots (resolveTarget arena scope id name) := by
  unfold resolveTarget
  refine .bind (leaves_lookupAt arena scope id name true) fun var => .bind .analysis fun a => ?_
  split
  · split
    · exact .update fun a => ⟨fun _ info hi => ⟨info, hi, rfl⟩, .refl _⟩
    · exact .throw _
  · exact .pure _

theorem leaves_resolveInlinedArg {arena : Arena} {visit : ScopeId → NodeId → Stage Unit}
    (hv : ∀ s id, Leaves KeepsSlots (visit s id)) (scope : ScopeId) (intrinsic : Intrinsic) (entry : NodeId × Nat) :
    Leaves KeepsSlots (resolveInlinedArg arena visit scope intrinsic entry) := by
  unfold resolveInlinedArg
  dsimp only
  split
  · split
    · exact leaves_resolveBlock hv _ _ _ _ _ _
    · exact hv scope _
  · exact hv scope _

theorem leaves_resolveNode {arena : Arena} {visit : ScopeId → NodeId → Stage Unit} (hv : ∀ s id, Leaves KeepsSlots (visit s id))
    (scope : ScopeId) (id : NodeId) : Leaves KeepsSlots (resolveNode arena visit scope id) := by
  have hvisits : ∀ ids, Leaves KeepsSlots (forM ids (visit scope)) := fun ids => .forM fun id _ => hv scope id
  have hkeeps : ∀ g : Analysis → Analysis, (∀ a, (g a).classes = a.classes ∧ (g a).scopes = a.scopes) →
      Leaves KeepsSlots (update g) := fun g hg => .update fun a => by
    obtain ⟨hc, hs⟩ := hg a
    exact ⟨fun i info hi => ⟨info, by rw [hc, hi], rfl⟩, by rw [hs]; exact .refl _⟩
  unfold resolveNode
  simp only [List.forM_eq_forM]
  split
  · exact .pure _
  · exact .pure _
  · exact .bind (leaves_lookupAt arena scope id _ false) fun var => hkeeps _ fun _ => ⟨rfl, rfl⟩
  · split
    · exact .bind (leaves_resolveTarget arena scope _ _) fun _ => hv scope _
    · exact .bind (.pure _) fun _ => hv scope _
  · refine .bind (hkeeps _ fun _ => ⟨rfl, rfl⟩) fun _ => ?_
    split
    · exact hvisits _
    · exact .bind (.tell _) fun _ => .bind (hv scope _) fun _ => .forM fun entry _ => leaves_resolveInlinedArg hv scope _ entry
  · exact .bind (hkeeps _ fun _ => ⟨rfl, rfl⟩) fun _ => hvisits _
  · exact leaves_resolveBlock hv _ _ _ _ _ _
  · exact hv scope _
  · exact hvisits _
  · exact hv scope _

theorem leaves_resolveWithin (arena : Arena) (n : Nat) (scope : ScopeId) (id : NodeId) :
    Leaves KeepsSlots (resolveWithin arena n scope id) := by
  induction n generalizing scope id with
  | zero => exact .pure _
  | succ n ih => exact leaves_resolveNode ih scope id

theorem leaves_resolve (p : Program) : Leaves KeepsSlots (resolve p) := by
  unfold resolve
  refine .forM fun entry _ => ?_
  unfold resolveClass
  refine .bind (.tell _) fun _ => .forM fun m _ => ?_
  unfold resolveMethod
  refine .bind .analysis fun a => ?_
  split
  · exact .pure _
  · exact .bind (.tell _) fun _ => .bind (.onScopes fun a => .of_scopes (.addScope _ _ _)) fun scope =>
      .bind (.update fun a => .addMethod a entry.2 m.classSide scope) fun _ =>
      leaves_enterScope (leaves_resolveWithin _ _) scope m.params m.temps m.body

/-! ## The second pass -/

namespace Work
variable {arena : Arena}

theorem keepsSlots_use (w : Work) (scope : ScopeId) (id : NodeId) : w.analysis.KeepsSlots (w.use scope id).analysis := by
  unfold use
  split
  · exact .of_scopes (.capture _ _ _)
  · exact .refl _

theorem keepsSlots_keepContext (w : Work) (method : ScopeId) (span : Span) :
    w.analysis.KeepsSlots (w.keepContext method span).analysis := by
  unfold keepContext
  split
  · exact .refl _
  · dsimp only
    split
    · exact .of_scopes (.modifyFrame _ _ _)
    · exact .of_scopes (.modifyFrame _ _ _)

theorem keepsSlots_returnFrom (w : Work) (scope : ScopeId) (id : NodeId) :
    w.analysis.KeepsSlots (returnFrom arena w scope id).analysis := by
  unfold returnFrom
  dsimp only
  have hkind : ∀ kind, w.analysis.KeepsSlots
      (w.mapAnalysis fun a => { a with returns := a.returns.insert id kind }).analysis := fun kind =>
    ⟨fun _ info hi => ⟨info, hi, rfl⟩, .refl _⟩
  split
  · exact (hkind _).trans (keepsSlots_keepContext _ _ _)
  · exact hkind _

theorem keepsSlots_atSite (w : Work) (site : Site) : w.analysis.KeepsSlots (atSite arena w site).analysis := by
  cases site with
  | enter scope => exact .of_scopes (.promote _ _)
  | use scope id => exact keepsSlots_use w scope id
  | ret scope id => exact keepsSlots_returnFrom w scope id

theorem keepsSlots_foldl {α : Type} {f : Work → α → Work} (h : ∀ (w : Work) x, w.analysis.KeepsSlots (f w x).analysis) (xs : List α)
    (w : Work) : w.analysis.KeepsSlots (xs.foldl f w).analysis := by
  induction xs generalizing w with
  | nil => exact .refl _
  | cons x xs ih => exact (h w x).trans (ih _)

end Work

theorem leaves_convert (p : Program) : Leaves KeepsSlots (convert p) := by
  intro w
  refine Work.keepsSlots_foldl (fun w entry => ?_) p.classes.zipIdx w
  exact Work.keepsSlots_foldl Work.keepsSlots_atSite _ (w.tell [.converting entry.1.name])

/-! ## Slots in the end -/

/-- An accepted program has classes that are laid out, and keeps their slots. -/
theorem exists_ready {p : Program} {a : Analysis} (ha : p.analyze = .ok a) : ∃ a₀, Ready p a₀ ∧ a₀.KeepsSlots a := by
  obtain ⟨w, hr, rfl⟩ := runs_of_analyze ha
  unfold analysisStages at hr
  obtain ⟨_, w₁, h₁, hr⟩ := Runs.bind_iff.1 hr
  obtain ⟨_, w₂, h₂, hr⟩ := Runs.bind_iff.1 hr
  obtain ⟨_, w₃, h₃, hr⟩ := Runs.bind_iff.1 hr
  have hbodies : Leaves KeepsSlots (do tell [.semantics]; resolve p; tell [.closures]; convert p) :=
    .bind (.tell _) fun _ => .bind (leaves_resolve p) fun _ => .bind (.tell _) fun _ => leaves_convert p
  exact ⟨w₃.analysis, ready_of_link (by rw [runs_tell.1 h₁]; rfl) h₂ h₃, hbodies.of_runs hr⟩

section
variable {p : Program} {a b : Analysis} {i j : Nat} {c : ClassDefinition} {info parent : ClassInfo} {line : List ClassDefinition}

/-- Slots are numbered from the topmost class down. -/
theorem Ready.slots_numbered (h : Ready p a) (hk : a.KeepsSlots b) (hi : a.classes[i]? = some info) (hline : p.Lineage i line)
    (side : Bool) : (info.slots side).map b.scopes.numbered? =
      (line.reverse.flatMap (·.vars side)).zipIdx.map fun (d, k) => some (d.name, some k) := by
  obtain ⟨receiver, -, -, hlaid⟩ := h.outline.sides i info hi side
  rw [← hline.laidOut_eq h.linked (h.length_lineage hline)]
  apply List.ext_getElem?
  intro k
  rw [List.getElem?_map, List.getElem?_map, List.getElem?_zipIdx]
  cases hx : (info.slots side)[k]? with
  | none =>
    rw [List.getElem?_eq_none_iff, hlaid.length] at hx
    rw [List.getElem?_eq_none hx]
    rfl
  | some x =>
    have hlt : k < (p.laidOut a i side).length := by
      rw [← hlaid.length]
      exact (List.getElem?_eq_some_iff.1 hx).1
    have hd : (p.laidOut a i side)[k]? = some (p.laidOut a i side)[k] := List.getElem?_eq_getElem hlt
    have hv := hlaid.var k _ x hd hx
    rw [hd, Option.map_some, hk.scopes.vars x (by rw [hv]; rfl), ScopeTree.numbered?, hv]
    simp [Variable.new]

theorem Ready.exists_class (h : Ready p a) (hk : a.KeepsSlots b) (hc : p.classes[i]? = some c) :
    ∃ info₀ info, a.classes[i]? = some info₀ ∧ b.classes[i]? = some info ∧ info₀.SameClass info := by
  have hlt : i < a.classes.size := by
    rw [h.size]
    exact (List.getElem?_eq_some_iff.1 hc).1
  obtain ⟨info, hi, hsame⟩ := hk.classes i _ (Array.getElem?_eq_getElem hlt)
  exact ⟨_, info, Array.getElem?_eq_getElem hlt, hi, hsame⟩

/-- The slots of a superclass come first, under the numbers they have there. -/
theorem Ready.slots_prefix (h : Ready p a) (hk : a.KeepsSlots b) (hi : a.classes[i]? = some info) (hj : a.classes[j]? = some parent)
    (hs : p.Super i j) (side : Bool) :
    (parent.slots side).map b.scopes.numbered? <+: (info.slots side).map b.scopes.numbered? := by
  obtain ⟨c, c', hc, hc', -⟩ := id hs
  obtain ⟨line, hline⟩ := h.lineage hc'
  rw [h.slots_numbered hk hj hline, h.slots_numbered hk hi (.above hc hs hline), List.reverse_cons, List.flatMap_append,
    List.zipIdx_append, List.map_append]
  exact List.prefix_append _ _

end

/-- In an accepted program the slots of a class are numbered without a gap, those of the topmost class of its lineage first
and its own last, with different names. Those of its superclass come before the rest, its scope lists the same slots, and its
layout has room for as many. -/
theorem slots_inherited_first {p : Program} {a : Analysis} {i : Nat} {c : ClassDefinition} (ha : p.analyze = .ok a)
    (hc : p.classes[i]? = some c) : ∃ info line layout, a.classes[i]? = some info ∧ p.Lineage i line ∧
      (p.layout a).classes[i]? = some layout ∧ layout.instanceSize = (info.slots false).length ∧
      layout.classSize = (info.slots true).length ∧ ∀ side,
        (info.slots side).map a.scopes.numbered? =
          ((line.reverse.flatMap (·.vars side)).zipIdx.map fun (d, k) => some (d.name, some k)) ∧
        ((line.reverse.flatMap (·.vars side)).map (·.name)).Nodup ∧
        (∀ j parent, p.Super i j → a.classes[j]? = some parent →
          (parent.slots side).map a.scopes.numbered? <+: (info.slots side).map a.scopes.numbered?) ∧
        ∃ outer receiver, a.scopes.scope? (info.side side) = some ⟨outer, .side i side receiver (info.slots side)⟩ := by
  obtain ⟨a₀, h, hk⟩ := exists_ready ha
  obtain ⟨info₀, info, h₀, hi, hsame⟩ := h.exists_class hk hc
  obtain ⟨line, hline⟩ := h.lineage hc
  refine ⟨info, line, _, hi, hline, Program.getElem?_layout hc hi, rfl, rfl, fun side => ?_⟩
  obtain ⟨receiver, hscope, -, hlaid⟩ := h.outline.sides i info₀ h₀ side
  rw [hsame.slots, hsame.side]
  refine ⟨h.slots_numbered hk h₀ hline side, ?_, ?_, _, receiver, hk.scopes.scopes _ _ hscope rfl⟩
  · rw [← hline.laidOut_eq h.linked (h.length_lineage hline)]
    exact hlaid.names
  · intro j parent hs hj
    obtain ⟨-, c', -, hc', -⟩ := id hs
    obtain ⟨parent₀, parent', hp₀, hp, hparent⟩ := h.exists_class hk hc'
    rw [hj] at hp
    cases hp
    rw [hparent.slots]
    exact h.slots_prefix hk h₀ hp₀ hs side

/-- Each class comes before its superclass, and a closure assigns to what the first inherits. -/
theorem slots_inherited_first_reversed : ∃ (p : Program) (a : Analysis) (info : ClassInfo) (line : List ClassDefinition),
    p.analyze = .ok a ∧ p.classes.map (·.name) = ["C", "B", "A"] ∧ a.classes[0]? = some info ∧ p.Lineage 0 line ∧
    ∀ side, (info.slots side).map a.scopes.numbered? =
      ((line.reverse.flatMap (·.vars side)).zipIdx.map fun (d, k) => some (d.name, some k)) := by
  obtain ⟨p, a, -, ha, hcheck⟩ := exists_of_accepted
    "C : B [ |z| class |k| m [ ^ [ x := y ] ] ] B : A [ |y| class |j| ] A : nil [ |x| ]".toUTF8
    (fun p _ => p.classes.map (·.name) = ["C", "B", "A"]) (by decide +kernel)
  have hnames : p.classes.map (·.name) = ["C", "B", "A"] := of_decide_eq_true hcheck
  have hlt : 0 < p.classes.length := by
    rw [← List.length_map (·.name), hnames]
    decide
  obtain ⟨info, line, _, hi, hline, -, -, -, hslots⟩ := slots_inherited_first ha (List.getElem?_eq_getElem hlt)
  exact ⟨p, a, info, line, ha, hnames, hi, hline, fun side => (hslots side).1⟩

end BlockScope
