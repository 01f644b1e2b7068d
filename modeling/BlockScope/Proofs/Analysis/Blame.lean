import BlockScope.Analysis
import BlockScope.Proofs.Analysis.Simulation
import BlockScope.Proofs.Outcomes
import BlockScope.Proofs.Scope.Listing
/-!
# What an error blames

Errors are made in the scopes, most of them without a place, and get one on the way out. `Program.Blames` lists what an error of the
analysis can be: each has a place, and the place belongs to the part of the program that the error names. A stage that fails does so with
one of these (`blames_of_analyze`). The scopes could also refuse a declaration for want of a frame, which would have no place; but names
are only declared in a scope that was just made with a frame, and declaring keeps it.
-/
namespace BlockScope
open Stage

/-- What the errors of an analysis are, with the part of the program that each is about. -/
inductive Program.Blames (p : Program) : AnalysisError → Prop where
  | undeclared {id : NodeId} {name : String} (h : p.arena.expr? id = some (.ident name)) :
    p.Blames ⟨.undeclaredName name, some (p.arena.span id)⟩
  | assignment {id : NodeId} {name : String} {kind : VarKind} (h : p.arena.expr? id = some (.ident name)) :
    p.Blames ⟨.invalidAssignment name kind, some (p.arena.span id)⟩
  | superclass {c : ClassDefinition} {superName : String} (h : c ∈ p.classes) (hname : c.superName = some superName) :
    p.Blames ⟨.unresolvedSuperclass c.name superName, some c.superSpan⟩
  | ofClass {c : ClassDefinition} {d : Declaration} (h : c ∈ p.classes) (hd : d ∈ c.instanceVars ++ c.classVars) :
    p.Blames ⟨.duplicateDeclaration d.name, some d.span⟩
  | ofMethod {c : ClassDefinition} {m : Method} {d : Declaration} (h : c ∈ p.classes) (hm : m ∈ c.methods)
    (hd : d ∈ m.params ++ m.temps) :
    p.Blames ⟨.duplicateDeclaration d.name, some d.span⟩
  | ofBlock {id : NodeId} {params temps : List Declaration} {body : List NodeId} {d : Declaration}
    (h : p.arena.expr? id = some (.block params temps body)) (hd : d ∈ params ++ temps) :
    p.Blames ⟨.duplicateDeclaration d.name, some d.span⟩
  | sameClass {c : ClassDefinition} (h : c ∈ p.classes) : p.Blames ⟨.duplicateClass c.name, some c.span⟩
  | cycle {c : ClassDefinition} (h : c ∈ p.classes) : p.Blames ⟨.cyclicInheritance c.name, some c.span⟩

/-! ## Errors of stages -/

/-- The stage fails with errors of this kind only. -/
def Stage.FailsAs {α : Type} (Q : AnalysisError → Prop) (m : Stage α) : Prop := ∀ w e w', Fails m w e w' → Q e

namespace Stage.FailsAs
variable {α β : Type} {Q : AnalysisError → Prop} {m : Stage α} {f : α → Stage β}

theorem pure (x : α) : FailsAs Q (pure x : Stage α) := fun _ _ _ h => (Fails.pure_iff.1 h).elim

theorem throw {e : AnalysisError} (h : Q e) : FailsAs Q (throw e : Stage α) := fun _ _ _ hf => (Fails.throw_iff.1 hf).1 ▸ h

theorem tell (entries : List Entry) : FailsAs Q (Stage.tell entries) := fun _ _ _ h => (fails_tell.1 h).elim

theorem update (g : Analysis → Analysis) : FailsAs Q (Stage.update g) := fun _ _ _ h => (fails_update.1 h).elim

theorem onScopes (g : ScopeTree → α × ScopeTree) : FailsAs Q (Stage.onScopes g) := fun _ _ _ h => (fails_onScopes.1 h).elim

theorem bind (h : FailsAs Q m) (h' : ∀ x, FailsAs Q (f x)) : FailsAs Q (m >>= f) := by
  intro w e w' hf
  rcases Fails.bind_iff.1 hf with hm | ⟨x, t, -, hx⟩
  · exact h w e w' hm
  · exact h' x t e w' hx

theorem analysis_bind {f : Analysis → Stage β} (h : ∀ a, FailsAs Q (f a)) : FailsAs Q (Stage.analysis >>= f) :=
  fun w e w' hf => h w.analysis w e w' (fails_analysis_bind.1 hf)

theorem forM {l : List α} {g : α → Stage PUnit} (h : ∀ x ∈ l, FailsAs Q (g x)) : FailsAs Q (forM l g) := by
  intro w e w' hf
  obtain ⟨x, hx, t, hx'⟩ := Fails.of_forM hf
  exact h x hx t e w' hx'

theorem foldlM {l : List α} {g : β → α → Stage β} (h : ∀ y, ∀ x ∈ l, FailsAs Q (g y x)) (z : β) : FailsAs Q (l.foldlM g z) := by
  intro w e w' hf
  obtain ⟨x, hx, y, t, hx'⟩ := Fails.of_foldlM hf
  exact h y x hx t e w' hx'

end Stage.FailsAs

/-! ## Names -/

section
variable {w w' : Work} {e : AnalysisError} {scope : ScopeId} {name : String} {forWrite : Bool}

/-- A name that is not found is an error without a place. -/
theorem fails_lookup (h : Fails (lookup scope name forWrite) w e w') : e = ⟨.undeclaredName name, none⟩ := by
  unfold lookup at h
  simp only [Fails.bind_iff, fails_tryScopes, fails_tell, Fails.pure_iff, and_false, exists_false, or_false] at h
  obtain ⟨t, hlookup, -⟩ := h
  exact (Scoping.fails_lookup_iff.1 hlookup).2.1

/-- The node that the name was looked up for gives the place. -/
theorem fails_lookupAt {arena : Arena} {id : NodeId} (h : Fails (lookupAt arena scope id name forWrite) w e w') :
    e = ⟨.undeclaredName name, some (arena.span id)⟩ := by
  obtain ⟨e', hlookup, rfl⟩ := Fails.tryCatch_throw_iff.1 h
  rw [fails_lookup hlookup]
  rfl

end

/-! ## Declarations -/

namespace ScopeTree
variable {t t' : ScopeTree} {s scope : ScopeId} {d : Declaration} {isParameter : Bool} {x : VarId} {e : AnalysisError}

theorem isSome_frame?_declare (hd : Runs (Scoping.declare scope d isParameter) t x t') (h : (t.frame? s).isSome) :
    (t'.frame? s).isSome :=
  Scoping.leaves_of_declare (R := fun t t' => (t.frame? s).isSome → (t'.frame? s).isSome) (fun h h' hs => h' (h hs))
    isSome_frame?_addListed hd h

/-- In a scope with a frame, only a name that is there already is refused. -/
theorem declare_error (hd : Fails (Scoping.declare scope d isParameter) t e t') (h : (t.frame? scope).isSome) :
    e = ⟨.duplicateDeclaration d.name, some d.span⟩ := by
  cases (Scoping.fails_declare_iff.1 hd).1 with
  | noFrame hnone =>
    rw [hnone] at h
    cases h
  | taken => rfl

end ScopeTree

section
variable {w w' : Work} {e : AnalysisError} {scope : ScopeId} {isParameter : Bool}

theorem fails_declareIn {d : Declaration} (h : Fails (declareIn scope isParameter d) w e w')
    (hframe : (w.analysis.scopes.frame? scope).isSome) : e = ⟨.duplicateDeclaration d.name, some d.span⟩ := by
  unfold declareIn at h
  rcases Fails.bind_iff.1 h with h | ⟨x, t, -, h⟩
  · obtain ⟨t, hd, -⟩ := fails_tryScopes.1 h
    exact ScopeTree.declare_error hd hframe
  · rw [fails_analysis_bind] at h
    dsimp only at h
    split at h
    · exact (fails_tell.1 h).elim
    · exact (Fails.pure_iff.1 h).elim

/-- Declaring one name after the other keeps the frame of the scope. -/
theorem isSome_frame?_declareAll {ds : List Declaration} (h : Runs (forM ds (declareIn scope isParameter)) w ⟨⟩ w')
    (hframe : (w.analysis.scopes.frame? scope).isSome) : (w'.analysis.scopes.frame? scope).isSome := by
  induction ds generalizing w with
  | nil =>
    obtain rfl := Runs.forM_nil_iff.1 h
    exact hframe
  | cons d ds ih =>
    obtain ⟨w₁, h₁, h₂⟩ := Runs.forM_cons_iff.1 h
    obtain ⟨v, t, hd, e₁⟩ := runs_declareIn h₁
    refine ih h₂ ?_
    rw [e₁]
    exact ScopeTree.isSome_frame?_declare hd hframe

theorem fails_declareAll {ds : List Declaration} (h : Fails (forM ds (declareIn scope isParameter)) w e w')
    (hframe : (w.analysis.scopes.frame? scope).isSome) : ∃ d ∈ ds, e = ⟨.duplicateDeclaration d.name, some d.span⟩ := by
  induction ds generalizing w with
  | nil => exact (Fails.pure_iff.1 h).elim
  | cons d ds ih =>
    rw [List.forM_cons] at h
    rcases Fails.bind_iff.1 h with h | ⟨_, w₁, h₁, h⟩
    · exact ⟨d, List.mem_cons_self, fails_declareIn h hframe⟩
    · obtain ⟨v, t, hd, e₁⟩ := runs_declareIn h₁
      obtain ⟨d', hd', he⟩ := ih h (by rw [e₁]; exact ScopeTree.isSome_frame?_declare hd hframe)
      exact ⟨d', List.mem_cons_of_mem _ hd', he⟩

/-- In a scope with a frame, an error is one of a declaration or one of a statement. -/
theorem fails_enterScope {Q : AnalysisError → Prop} {visit : ScopeId → NodeId → Stage Unit} {params temps : List Declaration}
    {body : List NodeId} (hframe : (w.analysis.scopes.frame? scope).isSome)
    (hds : ∀ d ∈ params ++ temps, Q ⟨.duplicateDeclaration d.name, some d.span⟩) (hbody : ∀ id ∈ body, FailsAs Q (visit scope id))
    (h : Fails (enterScope visit scope params temps body) w e w') : Q e := by
  unfold enterScope at h
  simp only [List.forM_eq_forM] at h
  rcases Fails.bind_iff.1 h with h | ⟨_, w₁, h₁, h⟩
  · obtain ⟨d, hd, rfl⟩ := fails_declareAll h hframe
    exact hds d (List.mem_append_left _ hd)
  rcases Fails.bind_iff.1 h with h | ⟨_, w₂, h₂, h⟩
  · obtain ⟨d, hd, rfl⟩ := fails_declareAll h (isSome_frame?_declareAll h₁ hframe)
    exact hds d (List.mem_append_right _ hd)
  · exact FailsAs.forM hbody w₂ e w' h

/-- A scope that was just made has a frame. -/
theorem isSome_frame?_addScope (t : ScopeTree) (outer : Option ScopeId) (kind : CodeKind) :
    ((t.addScope outer (.code kind .empty)).2.frame? (t.addScope outer (.code kind .empty)).1).isSome := by
  have hindex : (t.addScope outer (.code kind .empty)).1.index = t.scopes.size := rfl
  rw [ScopeTree.frame?, ScopeTree.scope?_addScope, if_pos hindex]
  rfl

end

/-! ## Resolving -/

section
variable {p : Program} {visit : ScopeId → NodeId → Stage Unit}

theorem blames_resolveBlock {id : NodeId} {params temps : List Declaration} {body : List NodeId}
    (hv : ∀ scope id, FailsAs p.Blames (visit scope id)) (hblock : p.arena.expr? id = some (.block params temps body)) (outer : ScopeId)
    (kind : CodeKind) : FailsAs p.Blames (resolveBlock visit outer kind id params temps body) := by
  intro w e w' h
  unfold resolveBlock at h
  simp only [Fails.bind_iff, fails_onScopes, fails_update, runs_onScopes, runs_update, false_or] at h
  obtain ⟨_, _, ⟨rfl, rfl⟩, _, _, rfl, h⟩ := h
  exact fails_enterScope (isSome_frame?_addScope _ _ _) (fun d hd => .ofBlock hblock hd) (fun id _ => hv _ id) h

theorem blames_resolveTarget {id : NodeId} {name : String} (hident : p.arena.expr? id = some (.ident name)) (scope : ScopeId) :
    FailsAs p.Blames (resolveTarget p.arena scope id name) := by
  unfold resolveTarget
  refine .bind (fun w e w' h => ?_) fun var => .analysis_bind fun a => ?_
  · rw [fails_lookupAt h]
    exact .undeclared hident
  · split
    · split
      · exact .update _
      · exact .throw (.assignment hident)
    · exact .pure _

theorem blames_resolveIdent {id : NodeId} {name : String} (hident : p.arena.expr? id = some (.ident name)) (scope : ScopeId) :
    FailsAs p.Blames (resolveIdent p.arena scope id name) := by
  refine .bind (fun w e w' h => ?_) fun var => .update _
  rw [fails_lookupAt h]
  exact .undeclared hident

theorem blames_resolveInlinedArg (hv : ∀ scope id, FailsAs p.Blames (visit scope id)) (scope : ScopeId) (intrinsic : Intrinsic)
    (entry : NodeId × Nat) : FailsAs p.Blames (resolveInlinedArg p.arena visit scope intrinsic entry) := by
  unfold resolveInlinedArg
  dsimp only
  split
  · split
    · next hblock => exact blames_resolveBlock hv hblock _ _
    · exact hv scope _
  · exact hv scope _

theorem blames_resolveNode (hv : ∀ scope id, FailsAs p.Blames (visit scope id)) (scope : ScopeId) (id : NodeId) :
    FailsAs p.Blames (resolveNode p.arena visit scope id) := by
  have hvisits : ∀ ids, FailsAs p.Blames (forM ids (visit scope)) := fun ids => .forM fun id _ => hv scope id
  unfold resolveNode
  simp only [List.forM_eq_forM]
  split
  · exact .pure _
  · exact .pure _
  · next hident => exact blames_resolveIdent hident scope
  · split
    · next hident => exact .bind (blames_resolveTarget hident scope) fun _ => hv scope _
    · exact .bind (.pure _) fun _ => hv scope _
  · refine .bind (.update _) fun _ => ?_
    split
    · exact hvisits _
    · exact .bind (.tell _) fun _ => .bind (hv scope _) fun _ => .forM fun entry _ => blames_resolveInlinedArg hv scope _ entry
  · exact .bind (.update _) fun _ => hvisits _
  · next hblock => exact blames_resolveBlock hv hblock _ _
  · exact hv scope _
  · exact hvisits _
  · exact hv scope _

theorem blames_resolveWithin (n : Nat) (scope : ScopeId) (id : NodeId) : FailsAs p.Blames (resolveWithin p.arena n scope id) := by
  induction n generalizing scope id with
  | zero => exact .pure _
  | succ n ih => exact blames_resolveNode ih scope id

theorem blames_resolveMethod {c : ClassDefinition} {m : Method} (hc : c ∈ p.classes) (hm : m ∈ c.methods) (index : Nat) :
    FailsAs p.Blames (resolveMethod p.arena index m) := by
  unfold resolveMethod
  refine .analysis_bind fun a => ?_
  split
  · exact .pure _
  · refine .bind (.tell _) fun _ w e w' h => ?_
    simp only [Fails.bind_iff, fails_onScopes, fails_update, runs_onScopes, runs_update, false_or] at h
    obtain ⟨_, _, ⟨rfl, rfl⟩, _, _, rfl, h⟩ := h
    exact fails_enterScope (isSome_frame?_addScope _ _ _) (fun d hd => .ofMethod hc hm hd) (fun id _ => blames_resolveWithin _ _ id) h

theorem blames_resolve (p : Program) : FailsAs p.Blames (resolve p) := by
  refine .forM fun ⟨c, index⟩ hentry => .bind (.tell _) fun _ => .forM fun m hm => ?_
  exact blames_resolveMethod (List.fst_mem_of_mem_zipIdx hentry) hm index

/-! ## Registering and linking -/

theorem blames_registerClass {c : ClassDefinition} (hc : c ∈ p.classes) (index : Nat) : FailsAs p.Blames (registerClass (c, index)) := by
  have hrest : ∀ a : Analysis, FailsAs p.Blames (do
      let member ← onScopes (·.addMember (.new c.name a.root .member (some c.span) (some index)))
      let instanceScope ← onScopes (·.addSide a.root index false)
      let classScope ← onScopes (·.addSide a.root index true)
      tell [.registered c.name instanceScope classScope]
      let info : ClassInfo := {
        name := c.name, superClass := none, member, instanceScope, classScope,
        instanceMethods := [], classMethods := [], instanceVars := [], classVars := [] }
      update fun a => { a with classes := a.classes.push info }) := fun a =>
    .bind (.onScopes _) fun _ => .bind (.onScopes _) fun _ => .bind (.onScopes _) fun _ => .bind (.tell _) fun _ => .update _
  refine .analysis_bind fun a => ?_
  dsimp only
  split
  · exact .bind (.throw (.sameClass hc)) fun _ => hrest a
  · exact hrest a

theorem blames_linkClass {c : ClassDefinition} (hc : c ∈ p.classes) (index : Nat) : FailsAs p.Blames (linkClass (c, index)) := by
  unfold linkClass
  dsimp only
  split
  · exact .pure _
  · next superName hsuper =>
    refine .analysis_bind fun a => .bind (fun w e w' h => ?_) fun member => .analysis_bind fun a => .bind (.update _) fun _ => .tell _
    obtain ⟨e', -, rfl⟩ := Fails.tryCatch_throw_iff.1 h
    exact .superclass hc hsuper

theorem blames_checkAcyclic {c : ClassDefinition} (hc : c ∈ p.classes) (index : Nat) : FailsAs p.Blames (checkAcyclic (c, index)) := by
  refine .analysis_bind fun a => ?_
  split
  · exact .throw (.cycle hc)
  · exact .pure _

theorem failsAs_declareSlots {Q : AnalysisError → Prop} {ds : List Declaration}
    (h : ∀ d ∈ ds, Q ⟨.duplicateDeclaration d.name, some d.span⟩) (scope : ScopeId) : FailsAs Q (declareSlots scope ds) := by
  refine .bind (.foldlM (fun made d hd => .analysis_bind fun a => ?_) []) fun vars => .bind (.onScopes _) fun _ => .pure _
  dsimp only
  split
  · exact .bind (.throw (h d hd)) fun _ => .bind (.onScopes _) fun _ => .pure _
  · exact .bind (.onScopes _) fun _ => .pure _

/-- What a class inherits is declared by some class. -/
theorem mem_inherited {own : ClassDefinition → List Declaration} {ancestors : List Nat} {d : Declaration}
    (h : d ∈ inherited p ancestors own) : ∃ c ∈ p.classes, d ∈ own c := by
  obtain ⟨i, -, hi⟩ := List.mem_flatMap.1 h
  cases hc : p.classes[i]? with
  | none => simp [hc] at hi
  | some c =>
    rw [hc] at hi
    exact ⟨c, List.mem_of_getElem? hc, hi⟩

theorem blames_layOutClass (entry : ClassDefinition × Nat) : FailsAs p.Blames (layOutClass p entry) := by
  have hslots : ∀ (own : ClassDefinition → List Declaration), (∀ c, ∀ d ∈ own c, d ∈ c.instanceVars ++ c.classVars) →
      ∀ scope ancestors, FailsAs p.Blames (declareSlots scope (inherited p ancestors own)) := by
    intro own hown scope ancestors
    refine failsAs_declareSlots (fun d hd => ?_) scope
    obtain ⟨c, hc, hd⟩ := mem_inherited hd
    exact .ofClass hc (hown c d hd)
  refine .analysis_bind fun a => ?_
  dsimp only
  split
  · exact .pure _
  · refine .bind (hslots _ (fun _ _ => List.mem_append_left _) _ _) fun _ => .bind (.update _) fun _ => ?_
    exact .bind (hslots _ (fun _ _ => List.mem_append_right _) _ _) fun _ => .bind (.update _) fun _ => .tell _

theorem blames_link (p : Program) : FailsAs p.Blames (link p) := by
  refine .bind (.forM fun ⟨c, index⟩ h => ?_) fun _ => .bind (.forM fun ⟨c, index⟩ h => ?_) fun _ => .forM fun entry _ => ?_
  · exact blames_linkClass (List.fst_mem_of_mem_zipIdx h) index
  · exact blames_checkAcyclic (List.fst_mem_of_mem_zipIdx h) index
  · exact blames_layOutClass entry

end

/-- An analysis that fails blames a part of the program, at the place of that part. -/
theorem Program.blames_of_analyze {p : Program} {e : AnalysisError} (h : p.analyze = .error e) : p.Blames e := by
  have hstages : FailsAs p.Blames (analysisStages p) :=
    .bind (.tell _) fun _ => .bind (.forM fun ⟨c, index⟩ h => blames_registerClass (List.fst_mem_of_mem_zipIdx h) index) fun _ =>
      .bind (blames_link p) fun _ => .bind (.tell _) fun _ => .bind (blames_resolve p) fun _ => .bind (.tell _) fun _ =>
      fun _ _ _ h => (Fails.modify_iff.1 h).elim
  unfold Program.analyze analyzeTelling at h
  rcases hr : (analysisStages p).runOn .fresh with ⟨r, w⟩
  rw [hr] at h
  cases r with
  | ok u => cases h
  | error e' =>
    cases h
    exact hstages _ _ _ hr

end BlockScope
