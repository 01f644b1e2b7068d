import BlockScope.Proofs.Analysis.Hierarchy
/-!
# Valid programs are resolved

The first pass fails at no node of a valid program. `Goes` says that a stage succeeds wherever the scopes of the
openers around a node are entered one inside the other, and that it only lets the scopes grow, so that what is
resolved next stands in the same scopes. It holds of every node (`goes_resolveWithin`), and from there the pass is
built up method by method (`exists_resolve`).
-/
namespace BlockScope
open Stage

/-! ## Entering a scope -/

section
variable {w : Work} {scope outer : ScopeId} {t t' : ScopeTree} {k : CodeKind} {params temps : List Declaration}
  {body : List NodeId} {visit : ScopeId → NodeId → Stage Unit} {isParameter : Bool}

theorem exists_declareIn {d : Declaration} {x : VarId} (h : Runs (Scoping.declare scope d isParameter) w.analysis.scopes x t) :
    ∃ w', Runs (declareIn scope isParameter d) w ⟨⟩ w' ∧ w'.analysis = { w.analysis with scopes := t } := by
  unfold declareIn
  simp only [Runs.bind_iff, runs_tryScopes, runs_analysis]
  cases ha : (t.var? x).bind (·.aliasOf) with
  | none =>
    refine ⟨w.withScopes t, ⟨x, _, ⟨t, h, rfl⟩, _, _, ⟨rfl, rfl⟩, ?_⟩, rfl⟩
    simp only [Work.withScopes, Work.mapAnalysis, ha]
    exact Runs.pure_iff.2 ⟨rfl, rfl⟩
  | some slot =>
    refine ⟨(w.withScopes t).tell [.inlinedLocal d.name scope slot (t.realScope scope)],
      ⟨x, _, ⟨t, h, rfl⟩, _, _, ⟨rfl, rfl⟩, ?_⟩, rfl⟩
    simp only [Work.withScopes, Work.mapAnalysis, ha]
    exact runs_tell.2 rfl

theorem exists_declareAll {ds : List Declaration} (h : ScopeTree.Declares scope isParameter w.analysis.scopes ds t) :
    ∃ w', Runs (forM ds (declareIn scope isParameter)) w ⟨⟩ w' ∧ w'.analysis = { w.analysis with scopes := t } := by
  generalize hs : w.analysis.scopes = s at h
  induction h generalizing w with
  | nil => exact ⟨w, Runs.forM_nil_iff.2 rfl, by rw [← hs]⟩
  | cons hd _ ih =>
    rw [← hs] at hd
    obtain ⟨w₁, h₁, e₁⟩ := exists_declareIn hd
    obtain ⟨w', h', e'⟩ := ih (w := w₁) (by rw [e₁])
    exact ⟨w', Runs.forM_cons_iff.2 ⟨w₁, h₁, h'⟩, by rw [e', e₁]⟩

/-- Once a scope has its declarations, entering it is resolving its body. -/
theorem exists_enterScope (hparams : ScopeTree.Declares scope true w.analysis.scopes params t)
    (htemps : ScopeTree.Declares scope false t temps t') : ∃ w₁, w₁.analysis = { w.analysis with scopes := t' } ∧
      ∀ w', Runs (forM body (visit scope)) w₁ ⟨⟩ w' → Runs (enterScope visit scope params temps body) w ⟨⟩ w' := by
  obtain ⟨w₁, h₁, e₁⟩ := exists_declareAll hparams
  obtain ⟨w₂, h₂, e₂⟩ := exists_declareAll (w := w₁) (by rw [e₁]; exact htemps)
  refine ⟨w₂, by rw [e₂, e₁], fun w' hbody => ?_⟩
  unfold enterScope
  simp only [List.forM_eq_forM, Runs.bind_iff]
  exact ⟨⟨⟩, w₁, h₁, ⟨⟩, w₂, h₂, hbody⟩

theorem exists_resolveBlock (id : NodeId) (h : w.analysis.scopes.Opens outer k ⟨params, temps, body⟩ scope t) :
    ∃ w₁, w₁.analysis = { w.analysis with scopes := t, blockScopes := w.analysis.blockScopes.insert id scope } ∧
      ∀ w', Runs (forM body (visit scope)) w₁ ⟨⟩ w' → Runs (resolveBlock visit outer k id params temps body) w ⟨⟩ w' := by
  obtain ⟨rfl, mid, hparams, htemps⟩ := h
  obtain ⟨w₁, e₁, hbody⟩ := exists_enterScope
    (w := (w.withScopes (w.analysis.scopes.addScope (some outer) (.code k .empty)).2).mapAnalysis fun a =>
      { a with blockScopes := a.blockScopes.insert id ⟨w.analysis.scopes.scopes.size⟩ }) hparams htemps
  refine ⟨w₁, e₁, fun w' h' => ?_⟩
  unfold resolveBlock
  simp only [Runs.bind_iff, runs_onScopes, runs_update]
  exact ⟨_, _, ⟨rfl, rfl⟩, ⟨⟩, _, rfl, hbody w' h'⟩

theorem exists_resolveMethod (arena : Arena) {cls : Nat} {m : Method} {info : ClassInfo}
    (hinfo : w.analysis.classes[cls]? = some info)
    (h : w.analysis.scopes.Opens (info.side m.classSide) .method m.code scope t) :
    ∃ w₁, w₁.analysis = { w.analysis with scopes := t }.modifyClass cls (ClassInfo.addMethod m.classSide scope) ∧
      ∀ w', Runs (forM m.body (resolveWithin arena (arena.size + 1) scope)) w₁ ⟨⟩ w' →
        Runs (resolveMethod arena cls m) w ⟨⟩ w' := by
  obtain ⟨rfl, mid, hparams, htemps⟩ := h
  obtain ⟨w₁, e₁, hbody⟩ := exists_enterScope
    (w := ((w.tell [.method info.name m.selector]).withScopes
      (w.analysis.scopes.addScope (some (info.side m.classSide)) (.code .method .empty)).2).mapAnalysis
        (·.modifyClass cls (ClassInfo.addMethod m.classSide ⟨w.analysis.scopes.scopes.size⟩))) hparams htemps
  refine ⟨w₁, e₁, fun w' h' => ?_⟩
  unfold resolveMethod
  rw [runs_analysis_bind]
  simp only [hinfo, Runs.bind_iff, runs_tell, runs_onScopes, runs_update]
  exact ⟨⟨⟩, _, rfl, _, _, ⟨rfl, rfl⟩, ⟨⟩, _, rfl, hbody w' h'⟩

end

/-! ## Stages that succeed -/

/-- The scopes have grown from those of an analysis, and these openers have theirs. -/
structure Stands (p : Program) (a : Analysis) (stack : List (Opener × ScopeId)) (w : Work) : Prop where
  wf : w.analysis.scopes.Wf
  grows : a.scopes.Grows w.analysis.scopes
  stacked : Stacked p a w.analysis.scopes stack

/-- What resolving a node leaves as it was. -/
structure Follows (w w' : Work) : Prop where
  wf : w'.analysis.scopes.Wf
  grows : w.analysis.scopes.Grows w'.analysis.scopes
  classes : w'.analysis.classes = w.analysis.classes

/-- The stage succeeds where these openers have their scopes. -/
def Goes (p : Program) (a : Analysis) (stack : List (Opener × ScopeId)) (m : Stage Unit) : Prop :=
  ∀ w, Stands p a stack w → ∃ w', Runs m w ⟨⟩ w' ∧ Follows w w'

theorem Follows.refl {w : Work} (hw : w.analysis.scopes.Wf) : Follows w w := ⟨hw, .refl _, rfl⟩

theorem Follows.trans {w w' w'' : Work} (h : Follows w w') (h' : Follows w' w'') : Follows w w'' :=
  ⟨h'.wf, h.grows.trans h'.grows, h'.classes.trans h.classes⟩

theorem Stands.follow {p : Program} {a : Analysis} {stack : List (Opener × ScopeId)} {w w' : Work} (h : Stands p a stack w)
    (hf : Follows w w') : Stands p a stack w' :=
  ⟨hf.wf, h.grows.trans hf.grows, h.stacked.grow hf.grows⟩

namespace Goes
variable {p : Program} {a : Analysis} {stack outer : List (Opener × ScopeId)} {m : Stage Unit} {m' : Unit → Stage Unit}
  {o : Opener} {U : ScopeId} {id : NodeId} {n : String} {r : Referent}

theorem pure : Goes p a stack (pure ()) := fun w hw => ⟨w, Runs.pure_iff.2 ⟨rfl, rfl⟩, .refl hw.wf⟩

theorem bind (h : Goes p a stack m) (h' : Goes p a stack (m' ())) : Goes p a stack (m >>= m') := by
  intro w hw
  obtain ⟨w₁, hr₁, hf₁⟩ := h w hw
  obtain ⟨w₂, hr₂, hf₂⟩ := h' w₁ (hw.follow hf₁)
  exact ⟨w₂, Runs.bind_iff.2 ⟨⟨⟩, w₁, hr₁, hr₂⟩, hf₁.trans hf₂⟩

theorem forM {α : Type} {g : α → Stage Unit} (xs : List α) (h : ∀ x ∈ xs, Goes p a stack (g x)) :
    Goes p a stack (forM xs g) := by
  intro w hw
  refine Runs.exists_forM (Follows w) xs (fun x hx w₁ hf => ?_) (.refl hw.wf)
  obtain ⟨w₂, hr, hf'⟩ := h x hx w₁ (hw.follow hf)
  exact ⟨w₂, hr, hf.trans hf'⟩

theorem tell (entries : List Entry) : Goes p a stack (tell entries) :=
  fun w hw => ⟨w.tell entries, runs_tell.2 rfl, hw.wf, .refl _, rfl⟩

/-- A change of other tables. -/
theorem update {f : Analysis → Analysis} (hf : ∀ b, (f b).scopes = b.scopes ∧ (f b).classes = b.classes) :
    Goes p a stack (update f) := by
  intro w hw
  obtain ⟨hs, hc⟩ := hf w.analysis
  refine ⟨w.mapAnalysis f, runs_update.2 rfl, ?_, ?_, hc⟩
  · simp only [Work.mapAnalysis, hs]
    exact hw.wf
  · simp only [Work.mapAnalysis, hs]
    exact .refl _

/-- A name that refers to something is looked up. -/
theorem lookupAt (hready : Ready p a) (hname : Spelled n) (href : p.Refers n (o :: outer.map (·.1)) r) {w : Work}
    (hw : Stands p a ((o, U) :: outer) w) (id : NodeId) (forWrite : Bool) :
    ∃ x v w', Runs (lookupAt p.arena U id n forWrite) w x w' ∧ Follows w w' ∧ w'.analysis.scopes.var? x = some v ∧ v.writable = r.writable := by
  obtain ⟨found, v, hf, hv, hwritable⟩ := hw.stacked.finds hready hw.wf hw.grows hname href false
  obtain ⟨w', hr, e⟩ := exists_lookup forWrite hf
  have hg : w.analysis.scopes.Grows w'.analysis.scopes := by
    rw [e]
    exact ScopeTree.grows_markFound _ _ _
  obtain ⟨level, hv'⟩ := hg.vars _ v hv
  refine ⟨found.var, _, w', Runs.tryCatch_throw_iff.2 hr, ⟨?_, hg, by rw [e]⟩, hv', hwritable⟩
  rw [e]
  exact hw.wf.markFound _ _

theorem ident (hready : Ready p a) (hname : Spelled n) (href : p.Refers n (o :: outer.map (·.1)) r) :
    Goes p a ((o, U) :: outer) (resolveIdent p.arena U id n) := by
  intro w hw
  obtain ⟨x, v, w', hr, hf, -⟩ := lookupAt hready hname href hw id false
  exact ⟨_, Runs.bind_iff.2 ⟨x, w', hr, runs_update.2 rfl⟩, hf.wf, hf.grows, hf.classes⟩

theorem target (hready : Ready p a) (hname : Spelled n) (href : p.Refers n (o :: outer.map (·.1)) r) (hr : r.writable) :
    Goes p a ((o, U) :: outer) (resolveTarget p.arena U id n) := by
  intro w hw
  obtain ⟨x, v, w', hrun, hf, hv, hwritable⟩ := lookupAt hready hname href hw id true
  refine ⟨w'.mapAnalysis fun b => { b with bindings := b.bindings.insert id x }, Runs.bind_iff.2 ⟨x, w', hrun, ?_⟩,
    hf.wf, hf.grows, hf.classes⟩
  rw [runs_analysis_bind, hv]
  simp only [hwritable, hr, if_true]
  exact runs_update.2 rfl

/-- A block that declares no name twice is opened; its body is then resolved there. -/
theorem block (k : CodeKind) {visit : ScopeId → NodeId → Stage Unit} {code : Code} (hb : p.arena.blockCode? id = some code)
    (hd : Distinct code.declared)
    (hbody : ∀ inner, ∀ x ∈ code.body, Goes p a ((.block id, inner) :: (o, U) :: outer) (visit inner x)) :
    Goes p a ((o, U) :: outer) (resolveBlock visit U k id code.params code.temps code.body) := by
  intro w hw
  obtain ⟨o', k', f', hs⟩ := hw.stacked.isCode
  obtain ⟨t, hopens⟩ := hw.wf.exists_opens (k := k) hs (fun _ => ⟨k', f', rfl⟩) hd
  obtain ⟨hwf, hg, -, hentered, -⟩ := hopens.spec hw.wf hs fun _ => ⟨k', f', rfl⟩
  obtain ⟨w₁, e₁, hrun⟩ := exists_resolveBlock id hopens
  have hscopes : w₁.analysis.scopes = t := by rw [e₁]
  have hw₁ : Stands p a ((.block id, ⟨w.analysis.scopes.scopes.size⟩) :: (o, U) :: outer) w₁ := by
    refine ⟨hscopes ▸ hwf, hw.grows.trans (hscopes ▸ hg), ?_⟩
    rw [hscopes]
    exact .block hb hentered (hw.stacked.grow hg)
  obtain ⟨w', hr, hf⟩ := forM code.body (hbody _) w₁ hw₁
  exact ⟨w', hrun w' hr, hf.wf, (hscopes ▸ hg).trans hf.grows, by rw [hf.classes, e₁]⟩

end Goes

/-! ## Nodes -/

/-- A node that the pass meets in a role, with the openers around it. -/
structure Program.Meets (p : Program) (o : Opener) (outer : List Opener) (role : Role) (id : NodeId) : Prop where
  event : .node o role id ∈ p.events
  around : p.Around id (o :: outer)

namespace Program.Meets
variable {p : Program} {o : Opener} {outer : List Opener} {role r : Role} {id x : NodeId} {code : Code} {n : String}

theorem part (h : p.Meets o outer role id) (hf : p.Forest) (hb : p.arena.blockCode? id = none)
    (hx : (r, x) ∈ p.arena.partRoles id) : p.Meets o outer r x := by
  have hev := hf.event_of_part h.event hx
  rw [Arena.openerOfParts, hb] at hev
  exact ⟨hev, h.around.change (h.around.head.part hb (Arena.mem_parts_of_partRoles hx))⟩

theorem statement (h : p.Meets o outer role id) (hf : p.Forest) (hb : p.arena.blockCode? id = some code) (hx : x ∈ code.body) :
    p.Meets (.block id) (o :: outer) .plain x := by
  have he := Arena.blockCode?_eq_some.1 hb
  have hpart : (Role.plain, x) ∈ p.arena.partRoles id := by
    simp [Arena.partRoles, he, Arena.parts, Expr.children, hx]
  have hev := hf.event_of_part h.event hpart
  rw [Arena.openerOfParts, hb] at hev
  exact ⟨hev, .block ⟨code, hb, .statement hx⟩ h.around⟩

theorem visited (h : p.Meets o outer role id) (hf : p.Forest) : p.Visited id := hf.visited_iff.2 ⟨o, role, h.event⟩

theorem refers (h : p.Meets o outer role id) (hf : p.Forest) (hv : p.Valid) (he : p.arena.expr? id = some (.ident n)) :
    ∃ ref, p.Refers n (o :: outer) ref := by
  obtain ⟨openers, ref, haround, href⟩ := hv.names id n (h.visited hf) he
  rw [hf.around_unique haround h.around] at href
  exact ⟨ref, href⟩

theorem assigned {d value : NodeId} (h : p.Meets o outer role id) (hf : p.Forest) (hv : p.Valid)
    (he : p.arena.expr? d = some (.assign id value)) :
    ∃ n ref, p.arena.expr? id = some (.ident n) ∧ p.Refers n (o :: outer) ref ∧ ref.writable := by
  obtain ⟨n, openers, ref, hn, haround, href, hwritable⟩ := hv.targets d id value he (h.visited hf)
  rw [hf.around_unique haround h.around] at href
  exact ⟨n, ref, hn, href, hwritable⟩

end Program.Meets

section
variable {p : Program} {a : Analysis} {o : Opener} {U : ScopeId} {outer : List (Opener × ScopeId)} {role : Role} {id : NodeId}
  {code : Code} {n : Nat}

/-- The nodes that are met are resolved down to this depth. -/
def GoesWithin (p : Program) (a : Analysis) (n : Nat) : Prop :=
  ∀ {o : Opener} {U : ScopeId} {outer : List (Opener × ScopeId)} {role : Role} {id : NodeId},
    p.Meets o (outer.map (·.1)) role id → Goes p a ((o, U) :: outer) (resolveWithin p.arena n U id)

theorem goes_block (hf : p.Forest) (hv : p.Valid) (hvisit : GoesWithin p a n) (h : p.Meets o (outer.map (·.1)) role id)
    (hb : p.arena.blockCode? id = some code) (k : CodeKind) : Goes p a ((o, U) :: outer)
      (resolveBlock (resolveWithin p.arena n) U k id code.params code.temps code.body) :=
  .block k hb (hv.blocks id code (h.visited hf) hb) fun _ _ hx => hvisit (h.statement hf hb hx)

theorem goes_inlinedArg {intrinsic : Intrinsic} {entry : NodeId × Nat} (hf : p.Forest) (hv : p.Valid) (hvisit : GoesWithin p a n)
    (h : p.Meets o (outer.map (·.1)) role entry.1) :
    Goes p a ((o, U) :: outer) (resolveInlinedArg p.arena (resolveWithin p.arena n) U intrinsic entry) := by
  unfold resolveInlinedArg
  simp only
  split
  · split
    · next params temps body he =>
      have hb : p.arena.blockCode? entry.1 = some ⟨params, temps, body⟩ := Arena.blockCode?_eq_some.2 he
      exact goes_block hf hv hvisit h hb .inlinedBlock
    · exact hvisit h
  · exact hvisit h

theorem goes_send {receiver : NodeId} {selector : String} {args : List NodeId} (hf : p.Forest) (hv : p.Valid)
    (hvisit : GoesWithin p a n) (h : p.Meets o (outer.map (·.1)) role id)
    (he : p.arena.expr? id = some (.send receiver selector args)) :
    Goes p a ((o, U) :: outer) (resolveNode p.arena (resolveWithin p.arena n) U id) := by
  have hb : p.arena.blockCode? id = none := by simp [Arena.blockCode?, he]
  have hparts : p.arena.partRoles id =
      (.plain, receiver) :: args.zipIdx.map fun e => (p.arena.argRole id e, e.1) := by simp [Arena.partRoles, he]
  have hreceiver : p.Meets o (outer.map (·.1)) .plain receiver := h.part hf hb (by rw [hparts]; simp)
  have harg : ∀ entry ∈ args.zipIdx, p.Meets o (outer.map (·.1)) (p.arena.argRole id entry) entry.1 := by
    intro entry hentry
    refine h.part hf hb ?_
    rw [hparts]
    exact List.mem_cons_of_mem _ (List.mem_map.2 ⟨entry, hentry, rfl⟩)
  unfold resolveNode
  simp only [he]
  refine Goes.bind (.update fun b => ⟨rfl, rfl⟩) ?_
  split
  · refine Goes.forM _ fun x hx => ?_
    rcases List.mem_cons.1 hx with rfl | hx
    · exact hvisit hreceiver
    · obtain ⟨i, hi⟩ := List.getElem?_of_mem hx
      exact hvisit (harg (x, i) (List.mem_zipIdx_iff_getElem?.2 hi))
  · refine Goes.bind (.tell _) (Goes.bind (hvisit hreceiver) ?_)
    exact Goes.forM _ fun entry hentry => goes_inlinedArg hf hv hvisit (harg entry hentry)

/-- No node of a valid program fails to be resolved. -/
theorem goes_resolveWithin (hp : p.Parsed Spelled) (hv : p.Valid) (hready : Ready p a) (n : Nat) : GoesWithin p a n := by
  have hf := hp.forest
  -- By induction on the depth, where the parts of a node are met inside its openers or inside the node itself.
  induction n with
  | zero => exact fun _ => .pure
  | succ n ih =>
    intro o U outer role id h
    have plain : p.arena.blockCode? id = none → p.arena.partRoles id = (p.arena.parts id).map (fun x => (.plain, x)) →
        Goes p a ((o, U) :: outer) (forM (p.arena.parts id) (resolveWithin p.arena n U)) := by
      intro hb hparts
      refine Goes.forM _ fun x hx => ih (h.part hf hb (r := .plain) ?_)
      rw [hparts]
      exact List.mem_map.2 ⟨x, hx, rfl⟩
    rw [resolveWithin]
    cases he : p.arena.expr? id with
    | none =>
      unfold resolveNode
      simp only [he]
      exact .pure
    | some e =>
      cases e with
      | ident name =>
        obtain ⟨ref, href⟩ := h.refers hf hv he
        unfold resolveNode
        simp only [he]
        exact .ident hready (hp.named id name he) href
      | assign target value =>
        have hb : p.arena.blockCode? id = none := by simp [Arena.blockCode?, he]
        have hparts : p.arena.partRoles id = [(.target, target), (.plain, value)] := by simp [Arena.partRoles, he]
        have htarget : p.Meets o (outer.map (·.1)) .target target := h.part hf hb (by rw [hparts]; simp)
        have hvalue : p.Meets o (outer.map (·.1)) .plain value := h.part hf hb (by rw [hparts]; simp)
        obtain ⟨name, ref, hname, href, hwritable⟩ := htarget.assigned hf hv he
        unfold resolveNode
        simp only [he, hname]
        exact Goes.bind (.target hready (hp.named target name hname) href hwritable) (ih hvalue)
      | send receiver selector args => exact goes_send hf hv ih h he
      | cascade receiver messages =>
        have hb : p.arena.blockCode? id = none := by simp [Arena.blockCode?, he]
        unfold resolveNode
        simp only [he]
        refine Goes.bind (.update fun b => ⟨rfl, rfl⟩) ?_
        have hparts : p.arena.cascadeParts receiver messages = p.arena.parts id := by simp [Arena.parts, he]
        rw [hparts]
        exact plain hb (by simp [Arena.partRoles, he])
      | block params temps body =>
        have hb : p.arena.blockCode? id = some ⟨params, temps, body⟩ := Arena.blockCode?_eq_some.2 he
        unfold resolveNode
        simp only [he]
        exact goes_block hf hv ih h hb .block
      | literal value | paren inner | array elements | ret value =>
        have hb : p.arena.blockCode? id = none := by simp [Arena.blockCode?, he]
        have hrun : resolveNode p.arena (resolveWithin p.arena n) U id =
            forM (p.arena.parts id) (resolveWithin p.arena n U) := by
          unfold resolveNode
          simp [he, Arena.parts, Expr.children]
        rw [hrun]
        exact plain hb (by simp [Arena.partRoles, he])

/-! ## Methods -/

theorem ClassInfo.SameClass.addMethod {c c' : ClassInfo} (h : c.SameClass c') (classSide : Bool) (scope : ScopeId) :
    c.SameClass (c'.addMethod classSide scope) := by
  unfold ClassInfo.SameClass ClassInfo.addMethod at *
  rw [h]
  cases classSide <;> rfl

/-- The scopes have grown from those of an analysis, and the classes are those it knows. -/
structure Carries (a : Analysis) (w : Work) : Prop where
  wf : w.analysis.scopes.Wf
  grows : a.scopes.Grows w.analysis.scopes
  classes : ∀ (i : Nat) (info : ClassInfo), a.classes[i]? = some info →
    ∃ info', w.analysis.classes[i]? = some info' ∧ info.SameClass info'

theorem goes_resolveMethod {cls place : Nat} {m : Method} {w : Work} (hp : p.Parsed Spelled) (hv : p.Valid) (hready : Ready p a)
    (hm : p.method? cls place = some m) (hw : Carries a w) : ∃ w', Runs (resolveMethod p.arena cls m) w ⟨⟩ w' ∧ Carries a w' := by
  have hlt : cls < a.classes.size := by
    obtain ⟨c, hc, -⟩ := Option.bind_eq_some_iff.1 hm
    rw [hready.size]
    exact (List.getElem?_eq_some_iff.1 hc).1
  have hi := Array.getElem?_eq_getElem hlt
  obtain ⟨info, hinfo, hsame⟩ := hw.classes cls _ hi
  obtain ⟨receiver, hs₀, -⟩ := hready.outline.sides cls _ hi m.classSide
  have hs := hw.grows.scope_eq hs₀ nofun
  rw [← hsame.side] at hs
  obtain ⟨t, hopens⟩ := hw.wf.exists_opens (k := .method) hs nofun (hv.methods m (Program.Forest.mem_methods hm))
  obtain ⟨hwf, hg, -, hentered, -⟩ := hopens.spec hw.wf hs nofun
  obtain ⟨w₁, e₁, hrun⟩ := exists_resolveMethod p.arena hinfo hopens
  have hscopes : w₁.analysis.scopes = t := by rw [e₁]; rfl
  have hw₁ : Stands p a [(.method cls place, ⟨w.analysis.scopes.scopes.size⟩)] w₁ := by
    refine ⟨hscopes ▸ hwf, hw.grows.trans (hscopes ▸ hg), ?_⟩
    rw [hsame.side] at hentered
    rw [hscopes]
    exact .method hm hi hentered
  have hmeets : ∀ x ∈ m.body, p.Meets (.method cls place) [] .plain x := by
    intro x hx
    refine ⟨Program.mem_events.2 ⟨cls, place, m, hm, List.mem_cons_of_mem _ (List.mem_flatMap.2 ⟨x, hx, ?_⟩)⟩,
      .method ⟨m.code, by rw [Program.code?, hm, Option.map_some], .statement hx⟩⟩
    rw [hp.forest.ordered.eventsOf_eq]
    simp
  obtain ⟨w', hr, hf⟩ := Goes.forM m.body (fun x hx => goes_resolveWithin hp hv hready _ (hmeets x hx)) w₁ hw₁
  refine ⟨w', hrun w' hr, hf.wf, hw₁.grows.trans hf.grows, fun i info₀ hi₀ => ?_⟩
  obtain ⟨info', hinfo', hsame'⟩ := hw.classes i info₀ hi₀
  simp only [hf.classes, e₁, Analysis.getElem?_modifyClass, hinfo', Option.map_some]
  split
  · exact ⟨_, rfl, hsame'.addMethod _ _⟩
  · exact ⟨_, rfl, hsame'⟩

theorem goes_resolveClass {cls : Nat} {c : ClassDefinition} {w : Work} (hp : p.Parsed Spelled) (hv : p.Valid) (hready : Ready p a)
    (hc : p.classes[cls]? = some c) (hw : Carries a w) : ∃ w', Runs (resolveClass p.arena (c, cls)) w ⟨⟩ w' ∧ Carries a w' := by
  have hmethod : ∀ m ∈ c.methods, ∀ w, Carries a w → ∃ w', Runs (resolveMethod p.arena cls m) w ⟨⟩ w' ∧ Carries a w' := by
    intro m hm w hw
    obtain ⟨place, hplace⟩ := List.getElem?_of_mem hm
    exact goes_resolveMethod hp hv hready (by rw [Program.method?, hc, Option.bind_some, hplace]) hw
  have htold : Carries a (w.tell [.resolving c.name]) := ⟨hw.wf, hw.grows, hw.classes⟩
  obtain ⟨w', hr, hw'⟩ := Runs.exists_forM (Carries a) c.methods hmethod htold
  refine ⟨w', ?_, hw'⟩
  unfold resolveClass
  simp only [List.forM_eq_forM, Runs.bind_iff, runs_tell]
  exact ⟨⟨⟩, _, rfl, hr⟩

/-- The first pass succeeds on a valid program. -/
theorem exists_resolve {w : Work} (hp : p.Parsed Spelled) (hv : p.Valid) (hready : Ready p w.analysis) :
    ∃ w', Runs (resolve p) w ⟨⟩ w' := by
  have hclass : ∀ entry ∈ p.classes.zipIdx, ∀ w₁, Carries w.analysis w₁ →
      ∃ w', Runs (resolveClass p.arena entry) w₁ ⟨⟩ w' ∧ Carries w.analysis w' := by
    intro entry hentry w₁ hw₁
    exact goes_resolveClass hp hv hready (List.mem_zipIdx_iff_getElem?.1 hentry) hw₁
  have hstart : Carries w.analysis w := ⟨hready.outline.wf, .refl _, fun i info hi => ⟨info, hi, rfl⟩⟩
  obtain ⟨w', hr, -⟩ := Runs.exists_forM (Carries w.analysis) p.classes.zipIdx hclass hstart
  exact ⟨w', by rw [resolve, List.forM_eq_forM]; exact hr⟩

end
end BlockScope
