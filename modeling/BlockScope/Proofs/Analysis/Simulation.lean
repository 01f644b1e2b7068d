import BlockScope.Proofs.Analysis.Steps
import BlockScope.Proofs.Runs
/-!
# Resolution takes these steps

A run of the first pass over a node takes the steps of the node's events, in order (`sim_resolveWithin`). The
scopes that openers end up with are looked up in a fixed table `scopeOf`; a run goes with it if the blocks it
met are entered there as they are in the analysis after the run.
-/
namespace BlockScope
open Stage

/-! ## Runs of stages -/

section
variable {α : Type} {w w' : Work} {x : α} {u : Unit} {a : Analysis} {scope : ScopeId} {name : String} {forWrite : Bool}

theorem runs_analysis : Runs Stage.analysis w a w' ↔ a = w.analysis ∧ w' = w := by
  unfold Stage.analysis
  rw [Runs.get_bind_iff, Runs.pure_iff]

theorem runs_analysis_bind {β : Type} {y : β} {g : Analysis → Stage β} :
    Runs (Stage.analysis >>= g) w y w' ↔ Runs (g w.analysis) w y w' := by
  unfold Stage.analysis
  rw [bind_assoc, Runs.get_bind_iff, pure_bind]

theorem runs_tell {entries : List Entry} : Runs (Stage.tell entries) w u w' ↔ w' = w.tell entries := Runs.modify_iff

theorem runs_update {f : Analysis → Analysis} : Runs (Stage.update f) w u w' ↔ w' = w.mapAnalysis f := Runs.modify_iff

theorem runs_onScopes {f : ScopeTree → α × ScopeTree} :
    Runs (Stage.onScopes f) w x w' ↔ x = (f w.analysis.scopes).1 ∧ w' = w.withScopes (f w.analysis.scopes).2 := by
  unfold Stage.onScopes
  rw [Runs.get_bind_iff]
  rcases f w.analysis.scopes with ⟨r, t⟩
  simp only [Runs.bind_iff, Runs.set_iff, Runs.pure_iff]
  constructor
  · rintro ⟨_, _, rfl, rfl, rfl⟩
    exact ⟨rfl, rfl⟩
  · rintro ⟨rfl, rfl⟩
    exact ⟨⟨⟩, _, rfl, rfl, rfl⟩

theorem runs_lookup {v : VarId} (h : Runs (Stage.lookup scope name forWrite) w v w') :
    ∃ found, w.analysis.scopes.find scope name false = some found ∧ v = found.var ∧
      w'.analysis = { w.analysis with scopes := w.analysis.scopes.markFound found forWrite } := by
  unfold Stage.lookup at h
  simp only [Runs.bind_iff, runs_tryScopes, runs_tell, Runs.pure_iff] at h
  obtain ⟨found, _, ⟨t, hlookup, rfl⟩, _, _, rfl, rfl, rfl⟩ := h
  obtain ⟨hf, rfl⟩ := Scoping.runs_lookup_iff.1 hlookup
  exact ⟨found, hf, rfl, rfl⟩

/-- A name that is found can be looked up. -/
theorem exists_lookup {found : Found} (forWrite : Bool)
    (h : w.analysis.scopes.find scope name false = some found) : ∃ w', Runs (Stage.lookup scope name forWrite) w found.var w' ∧
      w'.analysis = { w.analysis with scopes := w.analysis.scopes.markFound found forWrite } := by
  unfold Stage.lookup
  simp only [Runs.bind_iff, runs_tryScopes, runs_tell, Runs.pure_iff]
  exact ⟨_, ⟨_, _, ⟨_, Scoping.runs_lookup_iff.2 ⟨h, rfl⟩, rfl⟩, ⟨⟩, _, rfl, rfl, rfl⟩, rfl⟩

theorem runs_lookupAt {arena : Arena} {id : NodeId} {v : VarId} (h : Runs (lookupAt arena scope id name forWrite) w v w') :
    ∃ found, w.analysis.scopes.find scope name false = some found ∧ v = found.var ∧
      w'.analysis = { w.analysis with scopes := w.analysis.scopes.markFound found forWrite } := by
  unfold lookupAt at h
  exact runs_lookup (Runs.tryCatch_throw_iff.1 h)

/-! ## Opening scopes -/

theorem runs_declareIn {d : Declaration} {isParameter : Bool} (h : Runs (declareIn scope isParameter d) w u w') :
    ∃ v t, Runs (Scoping.declare scope d isParameter) w.analysis.scopes v t ∧ w'.analysis = { w.analysis with scopes := t } := by
  unfold declareIn at h
  obtain ⟨v, w₁, h₁, h⟩ := Runs.bind_iff.1 h
  obtain ⟨t, ht, rfl⟩ := runs_tryScopes.1 h₁
  rw [runs_analysis_bind] at h
  refine ⟨v, t, ht, ?_⟩
  simp only at h
  split at h
  · rw [runs_tell.1 h]
    rfl
  · rw [(Runs.pure_iff.1 h).2]
    rfl

theorem runs_declareAll {ds : List Declaration} {isParameter : Bool} (h : Runs (forM ds (declareIn scope isParameter)) w u w') :
    ∃ t, ScopeTree.Declares scope isParameter w.analysis.scopes ds t ∧ w'.analysis = { w.analysis with scopes := t } := by
  induction ds generalizing w with
  | nil =>
    obtain rfl := Runs.forM_nil_iff.1 h
    exact ⟨_, .nil, rfl⟩
  | cons d ds ih =>
    obtain ⟨w₁, h₁, h₂⟩ := Runs.forM_cons_iff.1 h
    obtain ⟨v, t, hd, e₁⟩ := runs_declareIn h₁
    obtain ⟨t', hds, e₂⟩ := ih h₂
    rw [e₁] at hds e₂
    exact ⟨t', .cons hd hds, e₂⟩

theorem runs_enterScope {visit : ScopeId → NodeId → Stage Unit} {params temps : List Declaration} {body : List NodeId}
    (h : Runs (enterScope visit scope params temps body) w u w') :
    ∃ mid t w₁, ScopeTree.Declares scope true w.analysis.scopes params mid ∧ ScopeTree.Declares scope false mid temps t ∧
      w₁.analysis = { w.analysis with scopes := t } ∧ Runs (forM body (visit scope)) w₁ ⟨⟩ w' := by
  unfold enterScope at h
  simp only [List.forM_eq_forM, Runs.bind_iff] at h
  obtain ⟨_, w₁, h₁, _, w₂, h₂, h⟩ := h
  obtain ⟨mid, hparams, e₁⟩ := runs_declareAll h₁
  obtain ⟨t, htemps, e₂⟩ := runs_declareAll h₂
  rw [e₁] at htemps e₂
  exact ⟨mid, t, w₂, hparams, htemps, e₂, h⟩

theorem runs_resolveBlock {visit : ScopeId → NodeId → Stage Unit} {outer : ScopeId} {k : CodeKind} {id : NodeId}
    {params temps : List Declaration} {body : List NodeId}
    (h : Runs (resolveBlock visit outer k id params temps body) w u w') :
    ∃ scope t w₁, w.analysis.scopes.Opens outer k ⟨params, temps, body⟩ scope t ∧
      w₁.analysis = { w.analysis with scopes := t, blockScopes := w.analysis.blockScopes.insert id scope } ∧
      Runs (forM body (visit scope)) w₁ ⟨⟩ w' := by
  unfold resolveBlock at h
  simp only [Runs.bind_iff, runs_onScopes, runs_update] at h
  obtain ⟨_, _, ⟨rfl, rfl⟩, _, _, rfl, h⟩ := h
  obtain ⟨mid, t, w₁, hparams, htemps, e₁, h⟩ := runs_enterScope h
  exact ⟨_, t, w₁, ⟨rfl, mid, hparams, htemps⟩, e₁, h⟩

end

/-! ## Going with a table of scopes -/

/-- The blocks among the events are entered in the table as they are in the analysis. -/
def Agrees (p : Program) (scopeOf : Opener → Option ScopeId) (a : Analysis) (evs : List Event) : Prop :=
  ∀ id ∈ evs.filterMap Event.node?, (p.arena.blockCode? id).isSome → scopeOf (.block id) = a.blockScopes.get? id

/-- A run of the stage in the scope of an opener enters only blocks among the events, and takes their steps. -/
structure Sim (p : Program) (scopeOf : Opener → Option ScopeId) (o : Opener) (scope : ScopeId) (m : Stage Unit)
    (evs : List Event) : Prop where
  frame : ∀ w w', Runs m w ⟨⟩ w' → ∀ id, id ∉ evs.filterMap Event.node? →
    w'.analysis.blockScopes.get? id = w.analysis.blockScopes.get? id
  classes : ∀ w w', Runs m w ⟨⟩ w' → w'.analysis.classes = w.analysis.classes
  steps : ∀ w w', Runs m w ⟨⟩ w' → scopeOf o = some scope → w.analysis.scopes.Wf → w.analysis.scopes.IsCode scope →
    (evs.filterMap Event.node?).Nodup → Agrees p scopeOf w'.analysis evs → Steps p scopeOf w.analysis evs w'.analysis

namespace Sim
variable {p : Program} {scopeOf : Opener → Option ScopeId} {scope : ScopeId} {m : Stage Unit} {m' : Unit → Stage Unit}
  {evs evs' : List Event} {o : Opener} {role : Role} {id : NodeId}

theorem pure : Sim p scopeOf o scope (pure ()) [] := by
  constructor
  · intro w w' h id _
    rw [(Runs.pure_iff.1 h).2]
  · intro w w' h
    rw [(Runs.pure_iff.1 h).2]
  · intro w w' h _ _ _ _ _
    rw [(Runs.pure_iff.1 h).2]
    exact .nil

theorem bind (h : Sim p scopeOf o scope m evs) (h' : Sim p scopeOf o scope (m' ()) evs') :
    Sim p scopeOf o scope (m >>= m') (evs ++ evs') := by
  constructor
  · intro w w' hr id hid
    rw [List.filterMap_append, List.mem_append, not_or] at hid
    obtain ⟨_, w₁, hr₁, hr₂⟩ := Runs.bind_iff.1 hr
    rw [h'.frame w₁ w' hr₂ id hid.2, h.frame w w₁ hr₁ id hid.1]
  · intro w w' hr
    obtain ⟨_, w₁, hr₁, hr₂⟩ := Runs.bind_iff.1 hr
    rw [h'.classes w₁ w' hr₂, h.classes w w₁ hr₁]
  · intro w w' hr ho hw hcode hnodup hagrees
    obtain ⟨_, w₁, hr₁, hr₂⟩ := Runs.bind_iff.1 hr
    unfold Agrees at hagrees
    rw [List.filterMap_append] at hnodup hagrees
    obtain ⟨hn, hn', hdisj⟩ := List.nodup_append.1 hnodup
    -- The second run leaves the blocks of the first alone.
    have hagrees₁ : Agrees p scopeOf w₁.analysis evs := by
      intro id hid hb
      rw [hagrees id (List.mem_append_left _ hid) hb]
      exact h'.frame w₁ w' hr₂ id fun hid' => hdisj id hid id hid' rfl
    have hs := h.steps w w₁ hr₁ ho hw hcode hn hagrees₁
    obtain ⟨hw₁, hg₁⟩ := hs.wf_grows hw
    exact hs.append (h'.steps w₁ w' hr₂ ho hw₁ (hcode.grow hg₁) hn' fun id hid => hagrees id (List.mem_append_right _ hid))

theorem forM {α : Type} {g : α → Stage Unit} {ev : α → List Event} (xs : List α)
    (h : ∀ x ∈ xs, Sim p scopeOf o scope (g x) (ev x)) : Sim p scopeOf o scope (forM xs g) (xs.flatMap ev) := by
  induction xs with
  | nil => exact .pure
  | cons x xs ih =>
    rw [List.forM_cons, List.flatMap_cons]
    exact (h x (by simp)).bind (ih fun y hy => h y (List.mem_cons_of_mem _ hy))

/-- A node of no concern of its own, but for the sends it records. -/
theorem other (hi : ∀ name, p.arena.expr? id ≠ some (.ident name)) (hb : p.arena.blockCode? id = none)
    (hm : ∀ w w', Runs m w ⟨⟩ w' → w'.analysis = { w.analysis with sends := p.arena.recordSends id w.analysis.sends }) :
    Sim p scopeOf o scope m [.node o role id] := by
  constructor
  · intro w w' hr id' _
    rw [hm w w' hr]
  · intro w w' hr
    rw [hm w w' hr]
  · intro w w' hr _ _ _ _ _
    rw [hm w w' hr]
    exact .cons (.other hi hb) .nil

/-- Such a node before its parts, when nothing is recorded of it. -/
theorem cons (hi : ∀ name, p.arena.expr? id ≠ some (.ident name)) (hb : p.arena.blockCode? id = none)
    (hs : ∀ sends, p.arena.recordSends id sends = sends) (h : Sim p scopeOf o scope m evs) :
    Sim p scopeOf o scope m (.node o role id :: evs) := by
  have hhead : Sim p scopeOf o scope (Pure.pure ()) [.node o role id] := by
    refine .other hi hb fun w w' hr => ?_
    rw [(Runs.pure_iff.1 hr).2, hs]
  have hboth : Sim p scopeOf o scope (Pure.pure () >>= fun _ => m) ([.node o role id] ++ evs) := hhead.bind h
  rwa [pure_bind] at hboth

theorem tell (entries : List Entry) : Sim p scopeOf o scope (Stage.tell entries) [] := by
  constructor
  · intro w w' h id _
    rw [runs_tell.1 h]
    rfl
  · intro w w' h
    rw [runs_tell.1 h]
    rfl
  · intro w w' h _ _ _ _ _
    rw [runs_tell.1 h]
    exact .nil

theorem ident {name : String} (he : p.arena.expr? id = some (.ident name)) :
    Sim p scopeOf o scope (resolveIdent p.arena scope id name) [.node o .plain id] := by
  have key : ∀ w w', Runs (resolveIdent p.arena scope id name) w ⟨⟩ w' → ∃ found,
      w.analysis.scopes.find scope name false = some found ∧ w'.analysis = { w.analysis with
        scopes := w.analysis.scopes.markFound found false, bindings := w.analysis.bindings.insert id found.var } := by
    intro w w' hr
    unfold resolveIdent at hr
    obtain ⟨v, w₁, hr₁, hr₂⟩ := Runs.bind_iff.1 hr
    obtain ⟨found, hf, rfl, e₁⟩ := runs_lookupAt hr₁
    rw [runs_update.1 hr₂]
    exact ⟨found, hf, by rw [Work.mapAnalysis, e₁]⟩
  constructor
  · intro w w' hr id' _
    obtain ⟨found, -, e⟩ := key w w' hr
    rw [e]
  · intro w w' hr
    obtain ⟨found, -, e⟩ := key w w' hr
    rw [e]
  · intro w w' hr ho _ hcode _ _
    obtain ⟨found, hf, e⟩ := key w w' hr
    rw [e]
    exact .cons (.use he ho hcode hf nofun) .nil

theorem target {name : String} (he : p.arena.expr? id = some (.ident name)) :
    Sim p scopeOf o scope (resolveTarget p.arena scope id name) [.node o .target id] := by
  have key : ∀ w w', Runs (resolveTarget p.arena scope id name) w ⟨⟩ w' → ∃ found w₁,
      w.analysis.scopes.find scope name false = some found ∧
      w₁.analysis = { w.analysis with scopes := w.analysis.scopes.markFound found true } ∧
      ((∃ v, w₁.analysis.scopes.var? found.var = some v ∧ v.writable ∧
        w'.analysis = { w₁.analysis with bindings := w₁.analysis.bindings.insert id found.var }) ∨
        (w₁.analysis.scopes.var? found.var = none ∧ w' = w₁)) := by
    intro w w' hr
    unfold resolveTarget at hr
    obtain ⟨v, w₁, hr₁, hr₂⟩ := Runs.bind_iff.1 hr
    obtain ⟨found, hf, rfl, e₁⟩ := runs_lookupAt hr₁
    rw [runs_analysis_bind] at hr₂
    refine ⟨found, w₁, hf, e₁, ?_⟩
    split at hr₂
    · next v hv =>
      split at hr₂
      · next hw =>
        rw [runs_update.1 hr₂]
        exact .inl ⟨v, hv, hw, rfl⟩
      · simp at hr₂
    · next hv => exact .inr ⟨hv, (Runs.pure_iff.1 hr₂).2⟩
  constructor
  · intro w w' hr id' _
    obtain ⟨found, w₁, -, e₁, ⟨v, -, -, e⟩ | ⟨-, rfl⟩⟩ := key w w' hr
    · rw [e, e₁]
    · rw [e₁]
  · intro w w' hr
    obtain ⟨found, w₁, -, e₁, ⟨v, -, -, e⟩ | ⟨-, rfl⟩⟩ := key w w' hr
    · rw [e, e₁]
    · rw [e₁]
  · intro w w' hr ho hw hcode _ _
    obtain ⟨found, w₁, hf, e₁, h⟩ := key w w' hr
    -- What is found is there, and marking it does not change whether it may be assigned to.
    obtain ⟨v₀, hv₀⟩ := hw.var_of_find hf
    obtain ⟨level, hv'⟩ := (ScopeTree.grows_markFound _ found true).vars _ v₀ hv₀
    rcases h with ⟨v, hv, hwritable, e⟩ | ⟨hv, -⟩
    · rw [e₁, hv'] at hv
      cases hv
      rw [e, e₁]
      exact .cons (.use he ho hcode hf fun _ => ⟨v₀, hv₀, hwritable⟩) .nil
    · rw [e₁, hv'] at hv
      cases hv

/-- A block opens its scope; its body is then resolved there. -/
theorem block (role : Role) {visit : ScopeId → NodeId → Stage Unit} {code : Code} {ev : NodeId → List Event}
    (hb : p.arena.blockCode? id = some code)
    (hbody : ∀ inner, ∀ x ∈ code.body, Sim p scopeOf (.block id) inner (visit inner x) (ev x)) :
    Sim p scopeOf o scope (resolveBlock visit scope role.blockKind id code.params code.temps code.body)
      (.node o role id :: code.body.flatMap ev) := by
  constructor
  · intro w w' hr id' hid'
    obtain ⟨inner, t, w₁, -, e₁, hr⟩ := runs_resolveBlock hr
    simp only [List.filterMap_cons, Event.node?, List.mem_cons, not_or] at hid'
    rw [(forM code.body (hbody inner)).frame w₁ w' hr id' hid'.2, e₁, Table.get?_insert, if_neg (Ne.symm hid'.1)]
  · intro w w' hr
    obtain ⟨inner, t, w₁, -, e₁, hr⟩ := runs_resolveBlock hr
    rw [(forM code.body (hbody inner)).classes w₁ w' hr, e₁]
  · intro w w' hr ho hw hcode hnodup hagrees
    obtain ⟨inner, t, w₁, hopens, e₁, hr⟩ := runs_resolveBlock hr
    have hsim := forM code.body (hbody inner)
    unfold Agrees at hagrees
    simp only [List.filterMap_cons, Event.node?, List.nodup_cons] at hnodup hagrees
    -- The body resolves other blocks only, so in the end the table still has this scope.
    have hinner : scopeOf (.block id) = some inner := by
      rw [hagrees id (by simp) (by simp [hb]), hsim.frame w₁ w' hr id hnodup.1, e₁, Table.get?_insert, if_pos rfl]
    have hstep : Step p scopeOf w.analysis (.node o role id) w₁.analysis := by
      rw [e₁]
      exact .block hb hinner ho hcode hopens
    obtain ⟨o', k', f', hs⟩ := hcode
    obtain ⟨hw', -, -, hentered, -⟩ := hopens.spec hw hs fun _ => ⟨k', f', rfl⟩
    refine .cons hstep (hsim.steps w₁ w' hr hinner ?_ ?_ hnodup.2 fun id' hid' => hagrees id' (List.mem_cons_of_mem _ hid'))
    · rw [e₁]
      exact hw'
    · rw [e₁]
      exact hentered.isCode

end Sim

/-! ## Nodes -/

section
variable {p : Program} {scopeOf : Opener → Option ScopeId} {o : Opener} {role : Role} {id : NodeId} {e : Expr}

theorem events_of_parts (ho : p.arena.Ordered) (hb : p.arena.blockCode? id = none)
    (hparts : p.arena.partRoles id = (p.arena.parts id).map fun x => (.plain, x)) :
    p.arena.eventsOf o role id = .node o role id :: (p.arena.parts id).flatMap (p.arena.eventsOf o .plain) := by
  rw [ho.eventsOf_eq, hparts, List.flatMap_map]
  simp [Arena.openerOfParts, hb]

/-- A name has no parts. -/
theorem events_of_ident {name : String} (ho : p.arena.Ordered) (he : p.arena.expr? id = some (.ident name)) :
    p.arena.eventsOf o role id = [.node o role id] := by
  rw [events_of_parts ho (by simp [Arena.blockCode?, he]) (by simp [Arena.partRoles, he])]
  simp [Arena.parts, he, Expr.children]

theorem events_of_assign {target value : NodeId} (hf : p.Forest) (he : p.arena.expr? id = some (.assign target value)) :
    p.arena.eventsOf o role id =
      .node o role id :: ([.node o .target target] ++ p.arena.eventsOf o .plain value) := by
  obtain ⟨name, hname⟩ := (hf.assign_parts he).1
  have hpart : p.arena.partRoles id = [(.target, target), (.plain, value)] := by simp [Arena.partRoles, he]
  have hopener : p.arena.openerOfParts o id = o := by simp [Arena.openerOfParts, Arena.blockCode?, he]
  rw [hf.ordered.eventsOf_eq, hpart, hopener]
  simp [events_of_ident hf.ordered hname]

theorem events_of_send {receiver : NodeId} {selector : String} {args : List NodeId} (ho : p.arena.Ordered)
    (he : p.arena.expr? id = some (.send receiver selector args)) :
    p.arena.eventsOf o role id = [.node o role id] ++ (p.arena.eventsOf o .plain receiver ++
      args.zipIdx.flatMap fun entry => p.arena.eventsOf o (p.arena.argRole id entry) entry.1) := by
  have hpart : p.arena.partRoles id =
      (.plain, receiver) :: args.zipIdx.map fun e => (p.arena.argRole id e, e.1) := by simp [Arena.partRoles, he]
  have hopener : p.arena.openerOfParts o id = o := by simp [Arena.openerOfParts, Arena.blockCode?, he]
  rw [ho.eventsOf_eq, hpart, hopener, List.flatMap_cons, List.flatMap_map]
  rfl

theorem events_of_block {code : Code} (ho : p.arena.Ordered) (hb : p.arena.blockCode? id = some code) :
    p.arena.eventsOf o role id = .node o role id :: code.body.flatMap (p.arena.eventsOf (.block id) .plain) := by
  have he := Arena.blockCode?_eq_some.1 hb
  have hpart : p.arena.partRoles id = code.body.map fun x => (.plain, x) := by
    simp [Arena.partRoles, he, Arena.parts, Expr.children]
  have hopener : p.arena.openerOfParts o id = .block id := by simp [Arena.openerOfParts, hb]
  rw [ho.eventsOf_eq, hpart, hopener, List.flatMap_map]

/-- A node of which nothing is recorded, with parts of no special role. -/
theorem Sim.node {scope : ScopeId} {m : Stage Unit} (ho : p.arena.Ordered) (hi : ∀ name, p.arena.expr? id ≠ some (.ident name))
    (hb : p.arena.blockCode? id = none) (hs : ∀ sends, p.arena.recordSends id sends = sends)
    (hparts : p.arena.partRoles id = (p.arena.parts id).map fun x => (.plain, x))
    (h : Sim p scopeOf o scope m ((p.arena.parts id).flatMap (p.arena.eventsOf o .plain))) :
    Sim p scopeOf o scope m (p.arena.eventsOf o role id) := by
  rw [events_of_parts ho hb hparts]
  exact .cons hi hb hs h

theorem sim_inlinedArg {scope : ScopeId} {n : Nat} {intrinsic : Intrinsic} {entry : NodeId × Nat} (ho : p.arena.Ordered)
    (hshape : p.arena.sendShape? id = some (.inlined intrinsic))
    (visit : ∀ o scope x, x.index ≤ entry.1.index → Sim p scopeOf o scope (resolveWithin p.arena n scope x) (p.arena.eventsOf o .plain x)) :
    Sim p scopeOf o scope (resolveInlinedArg p.arena (resolveWithin p.arena n) scope intrinsic entry)
      (p.arena.eventsOf o (p.arena.argRole id entry) entry.1) := by
  obtain ⟨arg, position⟩ := entry
  unfold resolveInlinedArg Arena.argRole
  simp only [hshape]
  -- A literal block at such a place is opened as inlined; anything else there is an argument like any other.
  by_cases hpos : position ∈ intrinsic.inlinedArgs
  · rw [if_pos hpos]
    cases hb : p.arena.blockCode? arg with
    | some code =>
      rw [Arena.blockCode?_eq_some.1 hb, events_of_block ho hb]
      simp only [hpos, Option.isSome_some, and_self, if_true]
      refine Sim.block .inlined hb fun inner x hx => visit (.block arg) inner x ?_
      have hx' : x ∈ p.arena.children arg := by
        rw [Arena.children_of_expr (Arena.blockCode?_eq_some.1 hb)]
        exact hx
      exact Nat.le_of_lt (ho arg x hx')
    | none =>
      simp only [Option.isSome_none, Bool.false_eq_true, and_false, if_false]
      split
      · next h => simp [Arena.blockCode?, h] at hb
      · exact visit o scope arg (Nat.le_refl _)
  · rw [if_neg hpos, if_neg (by simp [hpos])]
    exact visit o scope arg (Nat.le_refl _)

theorem sim_send {scope : ScopeId} {n : Nat} {receiver : NodeId} {selector : String} {args : List NodeId} (ho : p.arena.Ordered)
    (he : p.arena.expr? id = some (.send receiver selector args))
    (visit : ∀ o scope x, x.index < id.index → Sim p scopeOf o scope (resolveWithin p.arena n scope x) (p.arena.eventsOf o .plain x)) :
    Sim p scopeOf o scope (resolveNode p.arena (resolveWithin p.arena n) scope id) (p.arena.eventsOf o role id) := by
  have hlt : ∀ x ∈ receiver :: args, x.index < id.index := by
    intro x hx
    exact ho id x (by rw [Arena.children_of_expr he]; exact hx)
  have hb : p.arena.blockCode? id = none := by simp [Arena.blockCode?, he]
  obtain ⟨shape, hshape⟩ : ∃ shape, p.arena.sendShape? id = some shape := by simp [Arena.sendShape?, he]
  rw [events_of_send ho he]
  unfold resolveNode
  simp only [he, hshape, Option.getD_some]
  refine Sim.bind (.other (by simp [he]) hb fun w w' hr => ?_) ?_
  · rw [runs_update.1 hr]
    simp [Work.mapAnalysis, Arena.recordSends, he, hshape]
  · cases shape with
    | plain =>
      have hrole : ∀ entry, p.arena.argRole id entry = .plain := by simp [Arena.argRole, hshape]
      simp only [hrole]
      rw [Program.flatMap_zipIdx (p.arena.eventsOf o .plain), ← List.flatMap_cons]
      exact Sim.forM (receiver :: args) fun x hx => visit o scope x (hlt x hx)
    | inlined intrinsic =>
      refine (Sim.tell [.inlining intrinsic (p.arena.span id)]).bind ?_
      refine (visit o scope receiver (hlt receiver (by simp))).bind ?_
      refine Sim.forM args.zipIdx fun entry hentry => sim_inlinedArg ho hshape fun o scope x hx => visit o scope x ?_
      have := hlt entry.1 (List.mem_cons_of_mem _ (List.fst_mem_of_mem_zipIdx hentry))
      omega

/-- Resolving a node takes the steps of its events. -/
theorem sim_resolveWithin (hf : p.Forest) (n : Nat) (o : Opener) (scope : ScopeId) (id : NodeId) (hid : id.index < n) :
    Sim p scopeOf o scope (resolveWithin p.arena n scope id) (p.arena.eventsOf o .plain id) := by
  have ho := hf.ordered
  -- By induction on the fuel: parts stand before their node, so one less is enough for them.
  induction n generalizing o scope id with
  | zero => omega
  | succ n ih =>
    have visit : ∀ o scope x, x.index < id.index →
        Sim p scopeOf o scope (resolveWithin p.arena n scope x) (p.arena.eventsOf o .plain x) := by
      intro o scope x hx
      exact ih o scope x (by omega)
    have parts : ∀ o scope, ∀ x ∈ p.arena.parts id,
        Sim p scopeOf o scope (resolveWithin p.arena n scope x) (p.arena.eventsOf o .plain x) := by
      intro o scope x hx
      exact visit o scope x (ho.parts_lt hx)
    rw [resolveWithin]
    cases he : p.arena.expr? id with
    | none =>
      have hb : p.arena.blockCode? id = none := by simp [Arena.blockCode?, he]
      unfold resolveNode
      simp only [he]
      refine .node ho (by simp [he]) hb (by simp [Arena.recordSends, he]) (by simp [Arena.partRoles, he]) ?_
      simpa [Arena.parts, he] using Sim.pure
    | some e =>
      cases e with
      | ident name =>
        rw [events_of_ident ho he]
        unfold resolveNode
        simp only [he]
        exact .ident he
      | assign target value =>
        obtain ⟨name, hname⟩ := (hf.assign_parts he).1
        have hb : p.arena.blockCode? id = none := by simp [Arena.blockCode?, he]
        rw [events_of_assign hf he]
        unfold resolveNode
        simp only [he, hname]
        refine .cons (by simp [he]) hb (by simp [Arena.recordSends, he]) ?_
        exact (Sim.target hname).bind (parts o scope value (by simp [Arena.parts, he, Expr.children]))
      | send receiver selector args => exact sim_send ho he visit
      | cascade receiver messages =>
        have hb : p.arena.blockCode? id = none := by simp [Arena.blockCode?, he]
        rw [events_of_parts ho hb (by simp [Arena.partRoles, he])]
        unfold resolveNode
        simp only [he]
        rw [← List.singleton_append]
        refine Sim.bind (.other (by simp [he]) hb fun w w' hr => ?_) ?_
        · rw [runs_update.1 hr]
          simp [Work.mapAnalysis, Arena.recordSends, he]
        · have hparts : p.arena.cascadeParts receiver messages = p.arena.parts id := by simp [Arena.parts, he]
          rw [hparts]
          exact .forM _ (parts o scope)
      | block params temps body =>
        have hb : p.arena.blockCode? id = some ⟨params, temps, body⟩ := Arena.blockCode?_eq_some.2 he
        rw [events_of_block ho hb]
        unfold resolveNode
        simp only [he]
        refine Sim.block .plain hb fun inner x hx => parts (.block id) inner x ?_
        rw [Arena.parts_of_expr he (by simp)]
        exact hx
      | literal value | paren inner | array elements | ret value =>
        have hb : p.arena.blockCode? id = none := by simp [Arena.blockCode?, he]
        refine .node ho (by simp [he]) hb (by simp [Arena.recordSends, he]) (by simp [Arena.partRoles, he]) ?_
        have hrun : resolveNode p.arena (resolveWithin p.arena n) scope id =
            ForM.forM (p.arena.parts id) (resolveWithin p.arena n scope) := by
          unfold resolveNode
          simp [he, Arena.parts, Expr.children]
        rw [hrun]
        exact .forM _ (parts o scope)

end
end BlockScope
