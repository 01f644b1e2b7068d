import BlockScope.Proofs.Analysis.Conversion
import BlockScope.Proofs.Scope.Leaving
import BlockScope.Analysis
/-!
# The whole analysis

The sites that the second pass goes through are those of the program's events, in order, so that at each use the
owner has been entered (`Resolved.entered_before`). `Analyzed` is what holds of the analysis of a program in the end,
and `Program.Parsed.analyzed` that it does.
-/
namespace BlockScope

namespace Resolved
variable {p : Program} {a : Analysis} {cls place : Nat} {m : Method} {scope : ScopeId} {id : NodeId} {o : Opener} {role : Role}

/-! ## The sites of a program -/

theorem scope_of_method (h : Resolved p a) (hm : p.method? cls place = some m) :
    ∃ scope, a.scopeOf? (.method cls place) = some scope := by
  obtain ⟨a₀, hready, hsteps⟩ := h.run
  obtain ⟨m', info, scope, -, -, hs, -⟩ := hsteps.started hready.outline.wf (Program.event_of_method hm)
  exact ⟨scope, hs⟩

theorem scope_of_block (h : Resolved p a) (hev : .node o role id ∈ p.events) (hb : (p.arena.blockCode? id).isSome) :
    ∃ scope, a.blockScopes.get? id = some scope := by
  obtain ⟨a₀, hready, hsteps⟩ := h.run
  obtain ⟨code, hcode⟩ := Option.isSome_iff_exists.1 hb
  obtain ⟨scope, outer, -, -, hs, -⟩ := hsteps.opened hready.outline.wf h.parsed.forest.nodup_events hev hcode
  exact ⟨scope, hs⟩

theorem methodSites_eq (h : Resolved p a) (hm : p.method? cls place = some m)
    (hs : a.scopeOf? (.method cls place) = some scope) :
    methodSites p.arena a.blockScopes scope m = (p.methodEvents cls place m).flatMap (Event.sites p.arena a.scopeOf?) := by
  have ho := h.parsed.forest.ordered
  unfold methodSites Program.methodEvents
  rw [List.flatMap_cons, List.flatMap_assoc]
  simp only [Event.sites, hs, Option.map_some, Option.toList_some, List.singleton_append]
  congr 1
  apply List.flatMap_congr
  intro x hx
  obtain ⟨lo, hi, hhi, hfills⟩ := h.parsed.forest.fills (Program.Forest.mem_methods hm)
  have hlt := (hfills.row_mem hx).2
  have heq : p.arena.eventsOf (.method cls place) .plain x = p.arena.events (p.arena.size + 1) (.method cls place) .plain x :=
    ho.events_eq (by omega) (by omega)
  rw [heq]
  apply Arena.sitesWithin_eq (fun b => rfl) hs
  intro b hb hcode
  -- A block that the walk reaches has its event.
  rw [← Arena.filterMap_events (p.arena.size + 1) (.method cls place) .plain x] at hb
  obtain ⟨ev, hev, hnode⟩ := List.mem_filterMap.1 hb
  cases ev with
  | method => cases hnode
  | node o role b' =>
    cases hnode
    rw [← heq] at hev
    have hevent : .node o role b ∈ p.events := Program.mem_events.2
      ⟨cls, place, m, hm, List.mem_cons_of_mem _ (List.mem_flatMap.2 ⟨x, hx, hev⟩)⟩
    exact h.scope_of_block hevent hcode

theorem flatMap_zip {α β γ : Type} {l : List α} {r : List β} {f : α × β → List γ} {g : α × Nat → List γ} {k : Nat}
    (h : ∀ i x, l[i]? = some x → ∃ y, r[i]? = some y ∧ f (x, y) = g (x, k + i)) :
    (l.zip r).flatMap f = (l.zipIdx k).flatMap g := by
  induction l generalizing r k with
  | nil => rfl
  | cons x l ih =>
    obtain ⟨y, hy, hf⟩ := h 0 x rfl
    cases r with
    | nil => cases hy
    | cons y' r =>
      cases hy
      rw [List.zip_cons_cons, List.zipIdx_cons, List.flatMap_cons, List.flatMap_cons, hf]
      congr 1
      apply ih
      intro i z hz
      obtain ⟨y'', hy'', hf'⟩ := h (i + 1) z hz
      exact ⟨y'', hy'', by rw [hf', show k + (i + 1) = k + 1 + i by omega]⟩

theorem classSites_eq (h : Resolved p a) {c : ClassDefinition} (hc : p.classes[cls]? = some c) :
    ((c.methods.zip ((a.classes[cls]?.map ClassInfo.methods).getD [])).flatMap fun (m, scope) =>
      methodSites p.arena a.blockScopes scope m) = (p.classEvents cls c).flatMap (Event.sites p.arena a.scopeOf?) := by
  unfold Program.classEvents
  rw [List.flatMap_assoc]
  apply flatMap_zip
  intro place m hm
  have hm' : p.method? cls place = some m := by rw [Program.method?, hc, Option.bind_some, hm]
  obtain ⟨scope, hs⟩ := h.scope_of_method hm'
  obtain ⟨info, hinfo, hscope⟩ := Option.bind_eq_some_iff.1 hs
  refine ⟨scope, by rw [hinfo, Option.map_some, Option.getD_some, hscope], ?_⟩
  rw [Nat.zero_add]
  exact h.methodSites_eq hm' hs

end Resolved

/-! ## The second pass -/

/-- What the second pass has made of an analysis after some sites. -/
structure Work.After (a : Analysis) (done : List Site) (w : Work) : Prop where
  rest : w.analysis = { a with scopes := w.analysis.scopes, returns := w.analysis.returns }
  converts : a.scopes.Converts a.bindings done w.analysis.scopes
  returns : ∀ id, (w.analysis.returns.get? id).isSome ↔ (a.returns.get? id).isSome ∨ ∃ s, .ret s id ∈ done
  kinds : ∀ id kind, w.analysis.returns.get? id = some kind →
    a.returns.get? id = some kind ∨ ∃ s, .ret s id ∈ done ∧ kind = a.scopes.returnKind s
  contexts : ∀ m, w.analysis.scopes.keepsContext m ↔
    a.scopes.keepsContext m ∨ ∃ s id, .ret s id ∈ done ∧ a.scopes.leaves s = some m

/-- A return records its kind, and keeps the context of the method that it leaves. -/
theorem Work.analysis_returnFrom (arena : Arena) (w : Work) (s : ScopeId) (id : NodeId) :
    (Work.returnFrom arena w s id).analysis = { w.analysis with
      returns := w.analysis.returns.insert id (w.analysis.scopes.returnKind s)
      scopes := match w.analysis.scopes.leaves s with
        | some m => w.analysis.scopes.modifyFrame m ({ · with needsHeapContext := true })
        | none => w.analysis.scopes } := by
  unfold Work.returnFrom
  rw [ScopeTree.returnKind, ScopeTree.leaves]
  simp only
  split
  · next m hm =>
    obtain ⟨f, hf⟩ := ScopeTree.frame_of_method (ScopeTree.isMethod_of_leaves hm)
    have hf' : (w.mapAnalysis fun a => { a with returns := a.returns.insert id .nonLocal }).analysis.scopes.frame? m = some f := hf
    rw [hm, Option.isSome_some, if_pos rfl, Work.keepContext, hf']
    simp only
    split <;> rfl
  · next hnone =>
    rw [hnone]
    rfl

namespace Work.After
variable {p : Program} {a : Analysis} {w w' : Work} {done : List Site} {arena : Arena} {pre post evs : List Event} {ev : Event}
  {id : NodeId} {U s : ScopeId} {site : Site}

theorem tell (h : After a done w) (entries : List Entry) : After a done (w.tell entries) :=
  ⟨h.rest, h.converts, h.returns, h.kinds, h.contexts⟩

/-- Other sites leave returns and contexts alone. -/
theorem other (h : After a done w) (hsite : ∀ s id, site ≠ .ret s id)
    (hrest : w'.analysis = { w.analysis with scopes := w'.analysis.scopes })
    (hconverts : a.scopes.Converts a.bindings (done ++ [site]) w'.analysis.scopes)
    (hcontexts : ∀ m, w'.analysis.scopes.keepsContext m = w.analysis.scopes.keepsContext m) : After a (done ++ [site]) w' := by
  have hret : ∀ s id, .ret s id ∈ done ++ [site] ↔ .ret s id ∈ done := by
    intro s id
    simp only [List.mem_append, List.mem_singleton, (hsite _ _).symm, or_false]
  have hreturns : w'.analysis.returns = w.analysis.returns := by rw [hrest]
  refine ⟨?_, hconverts, fun id => ?_, fun id kind hkind => ?_, fun m => ?_⟩
  · rw [hrest]
    have := h.rest
    simp only
    rw [this]
  · rw [hreturns, h.returns]
    simp only [hret]
  · rw [hreturns] at hkind
    simp only [hret]
    exact h.kinds id kind hkind
  · rw [hcontexts, h.contexts]
    simp only [hret]

theorem enter (h : After a done w) (s : ScopeId) : After a (done ++ [.enter s]) (w.enter s) :=
  h.other (by simp) rfl (h.converts.enter s) (ScopeTree.keepsContext_promote _ s)

theorem use {o : Opener} {role : Role} {name : String} {found : Found} (hr : Resolved p a) (h : After a done w)
    (hb : Bound p a id o role name U found)
    (hentered : ∀ v, a.scopes.var? (a.scopes.realVar found.var) = some v → a.scopes.IsCode v.scope → .enter v.scope ∈ done) :
    After a (done ++ [.use U id]) (w.use U id) := by
  have hbinding : w.analysis.bindings.get? id = some found.var := by rw [h.rest, hb.binding]
  unfold Work.use
  rw [hbinding]
  exact h.other (by simp) rfl (h.converts.use hr.wf hb.find hb.binding hentered) (ScopeTree.keepsContext_capture _ U _)

theorem ret (hn : a.scopes.Nested) (h : After a done w) (s : ScopeId) (id : NodeId) :
    After a (done ++ [.ret s id]) (Work.returnFrom arena w s id) := by
  have hleaves : w.analysis.scopes.leaves s = a.scopes.leaves s := h.converts.shape.leaves_eq hn s
  have hkind : w.analysis.scopes.returnKind s = a.scopes.returnKind s := by rw [ScopeTree.returnKind, hleaves, ScopeTree.returnKind]
  have hanalysis := Work.analysis_returnFrom arena w s id
  rw [hkind, hleaves] at hanalysis
  constructor
  case rest =>
    have := h.rest
    rw [hanalysis]
    simp only
    rw [this]
  case converts =>
    rw [hanalysis]
    simp only
    split
    · exact (h.converts.ret s id).keepContext _
    · exact h.converts.ret s id
  case returns =>
    intro id'
    rw [hanalysis]
    simp only [Table.get?_insert, List.mem_append, List.mem_singleton, Site.ret.injEq]
    by_cases hid : id = id'
    · simp [hid]
    · simp [hid, Ne.symm hid, h.returns]
  case kinds =>
    intro id' kind hget
    rw [hanalysis, Table.get?_insert] at hget
    split at hget
    · next hid =>
      cases hget
      exact .inr ⟨s, by simp [hid], rfl⟩
    · rcases h.kinds id' kind hget with hold | ⟨s', hs', hk⟩
      · exact .inl hold
      · exact .inr ⟨s', List.mem_append_left _ hs', hk⟩
  case contexts =>
    intro m
    have hsites : (∃ s' id', .ret s' id' ∈ done ++ [.ret s id] ∧ a.scopes.leaves s' = some m) ↔
        (∃ s' id', .ret s' id' ∈ done ∧ a.scopes.leaves s' = some m) ∨ a.scopes.leaves s = some m := by
      simp only [List.mem_append, List.mem_singleton, Site.ret.injEq, or_and_right, exists_or]
      simp
    rw [hanalysis, hsites, ← or_assoc, ← h.contexts]
    simp only
    cases hl : a.scopes.leaves s with
    | none => simp
    | some m' =>
      rw [hl] at hleaves
      obtain ⟨f, hf⟩ := ScopeTree.frame_of_method (ScopeTree.isMethod_of_leaves hleaves)
      rw [ScopeTree.keepsContext_keep hf, Option.some.injEq, eq_comm (a := m')]

/-! ### Events -/

theorem site? {sites : Option Site} (h : After a done w)
    (hsite : ∀ site, sites = some site → After a (done ++ [site]) (w.atSite arena site)) :
    After a (done ++ sites.toList) (sites.toList.foldl (Work.atSite arena) w) := by
  cases sites with
  | none => simpa using h
  | some site => exact hsite site rfl

/-- One event of the program. -/
theorem event (hr : Resolved p a) (hevents : p.events = pre ++ ev :: post)
    (h : After a (pre.flatMap (Event.sites p.arena a.scopeOf?)) w) :
    After a ((pre ++ [ev]).flatMap (Event.sites p.arena a.scopeOf?))
      ((ev.sites p.arena a.scopeOf?).foldl (Work.atSite p.arena) w) := by
  have hmem : ev ∈ p.events := by
    rw [hevents]
    simp
  rw [List.flatMap_append, List.flatMap_singleton]
  generalize hdone : pre.flatMap (Event.sites p.arena a.scopeOf?) = done at h ⊢
  have henter : ∀ scope? : Option ScopeId, After a (done ++ (scope?.map Site.enter).toList)
      ((scope?.map Site.enter).toList.foldl (Work.atSite p.arena) w) := by
    intro scope?
    refine h.site? fun site hsite => ?_
    obtain ⟨scope, -, rfl⟩ := Option.map_eq_some_iff.1 hsite
    exact h.enter scope
  have hnone : After a (done ++ []) (List.foldl (Work.atSite p.arena) w []) := by
    rw [List.append_nil]
    exact h
  cases ev with
  | method cls place => exact henter _
  | node o role id =>
    cases he : p.arena.expr? id with
    | none => simpa only [Event.sites, he] using hnone
    | some e =>
      simp only [Event.sites, he]
      cases e with
      | ident name =>
        obtain ⟨U, found, hb⟩ := hr.bound_of_event hmem he
        refine h.site? fun site hsite => ?_
        rw [hb.scope] at hsite
        cases hsite
        apply h.use hr hb
        -- By now the owner has been entered, and with it all it holds has been moved that ever will be.
        intro v hv hcode
        obtain ⟨ev, hev, hs⟩ := hr.entered_before hevents hb hv hcode
        rw [← hdone]
        exact List.mem_flatMap.2 ⟨ev, hev, hs⟩
      | block params temps body => exact henter _
      | ret value =>
        refine h.site? fun site hsite => ?_
        obtain ⟨scope, -, rfl⟩ := Option.map_eq_some_iff.1 hsite
        exact h.ret hr.wf.nested scope id
      | literal | assign | send | cascade | paren | array => exact hnone

/-- Several events, one after the other. -/
theorem events (hr : Resolved p a) (hevents : p.events = pre ++ evs ++ post)
    (h : After a (pre.flatMap (Event.sites p.arena a.scopeOf?)) w) :
    After a ((pre ++ evs).flatMap (Event.sites p.arena a.scopeOf?))
      ((evs.flatMap (Event.sites p.arena a.scopeOf?)).foldl (Work.atSite p.arena) w) := by
  induction evs generalizing pre w with
  | nil => simpa using h
  | cons ev evs ih =>
    rw [List.flatMap_cons, List.foldl_append]
    have hsplit : p.events = pre ++ ev :: (evs ++ post) := by simpa using hevents
    have hrest := ih (by simpa using hevents) (event hr hsplit h)
    simpa using hrest

theorem convertClass (hr : Resolved p a) {c : ClassDefinition} {cls : Nat} (hc : p.classes[cls]? = some c)
    (hevents : p.events = pre ++ p.classEvents cls c ++ post)
    (h : After a (pre.flatMap (Event.sites p.arena a.scopeOf?)) w) :
    After a ((pre ++ p.classEvents cls c).flatMap (Event.sites p.arena a.scopeOf?)) (Work.convertClass p.arena w (c, cls)) := by
  have hclasses : w.analysis.classes = a.classes := by rw [h.rest]
  have hblocks : w.analysis.blockScopes = a.blockScopes := by rw [h.rest]
  unfold Work.convertClass
  simp only [hclasses, hblocks]
  rw [hr.classSites_eq hc]
  exact events hr hevents (h.tell _)

theorem convertClasses (hr : Resolved p a) {cs : List ClassDefinition} {start : Nat}
    (hcs : ∀ (i : Nat) c, cs[i]? = some c → p.classes[start + i]? = some c)
    (hevents : p.events = pre ++ (cs.zipIdx start).flatMap fun (c, cls) => p.classEvents cls c)
    (h : After a (pre.flatMap (Event.sites p.arena a.scopeOf?)) w) :
    After a (p.events.flatMap (Event.sites p.arena a.scopeOf?))
      ((cs.zipIdx start).foldl (Work.convertClass p.arena) w) := by
  induction cs generalizing start pre w with
  | nil =>
    rw [hevents, List.zipIdx_nil, List.flatMap_nil, List.append_nil]
    exact h
  | cons c cs ih =>
    rw [List.zipIdx_cons, List.foldl_cons]
    rw [List.zipIdx_cons, List.flatMap_cons, ← List.append_assoc] at hevents
    refine ih (fun i d hd => ?_) hevents (convertClass hr (hcs 0 c rfl) hevents h)
    have := hcs (i + 1) d hd
    rwa [show start + 1 + i = start + (i + 1) by omega]

end Work.After

/-! ## From source text to analysis -/

/-- An analysis in the end, and what it was when every name was resolved. -/
structure Analyzed (p : Program) (a b : Analysis) : Prop where
  resolved : Resolved p a
  rest : b = { a with scopes := b.scopes, returns := b.returns }
  converts : a.scopes.Converts a.bindings (p.events.flatMap (Event.sites p.arena a.scopeOf?)) b.scopes
  returns : ∀ id, (b.returns.get? id).isSome ↔ ∃ s, .ret s id ∈ p.events.flatMap (Event.sites p.arena a.scopeOf?)
  kinds : ∀ id kind, b.returns.get? id = some kind →
    ∃ s, .ret s id ∈ p.events.flatMap (Event.sites p.arena a.scopeOf?) ∧ kind = a.scopes.returnKind s
  contexts : ∀ m, b.scopes.keepsContext m ↔ a.scopes.keepsContext m ∨
    ∃ s id, .ret s id ∈ p.events.flatMap (Event.sites p.arena a.scopeOf?) ∧ a.scopes.leaves s = some m

theorem runs_of_analyze {p : Program} {b : Analysis} (h : p.analyze = .ok b) :
    ∃ w, Runs (analysisStages p) ⟨.fresh, #[]⟩ ⟨⟩ w ∧ w.analysis = b := by
  unfold Program.analyze Program.analyzeTelling at h
  rcases hr : (analysisStages p).runOn .fresh with ⟨r, w⟩
  rw [hr] at h
  cases r with
  | error e => cases h
  | ok u =>
    cases h
    exact ⟨w, hr, rfl⟩

/-- The source text is accepted, and the check holds of the program and its analysis. -/
def accepted (bytes : List UInt8) (check : Program → Analysis → Bool) : Bool :=
  match Program.ofBytes bytes with
  | .error _ => false
  | .ok p => match p.analyze with
    | .error _ => false
    | .ok a => check p a

theorem exists_of_accepted (bytes : ByteArray) (check : Program → Analysis → Bool) (h : accepted bytes.data.toList check = true) :
    ∃ p a, Program.ofBytes bytes.toList = .ok p ∧ p.analyze = .ok a ∧ check p a = true := by
  rw [Text.toList_eq]
  unfold accepted at h
  split at h
  · cases h
  · next p hp =>
    split at h
    · cases h
    · next a ha => exact ⟨p, a, hp, ha, h⟩

/-- The run of a program that is accepted: its names are resolved, and what is left is conversion. -/
theorem Program.Parsed.converted {p : Program} {b : Analysis} (hp : p.Parsed Spelled) (hb : p.analyze = .ok b) :
    ∃ w, Resolved p w.analysis ∧ w.analysis.returns = .empty ∧
      (p.classes.zipIdx.foldl (Work.convertClass p.arena) w).analysis = b := by
  obtain ⟨w, hr, rfl⟩ := runs_of_analyze hb
  unfold analysisStages at hr
  simp only [Runs.bind_iff, runs_tell] at hr
  obtain ⟨_, w₁, e₁, _, w₂, h₂, _, w₃, h₃, _, w₄, e₄, _, w₅, h₅, _, w₆, e₆, h₇⟩ := hr
  -- The classes are known after `w₃`, all names are resolved at `w₅`, and the rest is conversion.
  have hlinked : Ready p w₃.analysis := ready_of_link (by rw [e₁]; rfl) h₂ h₃
  have hready : Ready p w₄.analysis := by
    rw [e₄]
    exact hlinked
  have hsides : w₄.analysis.Sides := by
    intro i info hi side
    obtain ⟨receiver, hs, -⟩ := hready.outline.sides i info hi side
    exact ⟨_, hs⟩
  have hempty : ∀ (i : Nat) (info : ClassInfo), w₄.analysis.classes[i]? = some info →
      info.instanceMethods = [] ∧ info.classMethods = [] := by
    intro i info hi
    obtain ⟨c, -, -, him, hcm, -⟩ := hready.outline.classes i info hi
    exact ⟨him, hcm⟩
  have hsteps := steps_of_resolve hp hready.outline.wf hsides hempty hready.size h₅
  have hresolved : Resolved p w₅.analysis := ⟨hp, w₄.analysis, hready, hsteps⟩
  have hsame : w₆.analysis = w₅.analysis := by
    rw [e₆]
    rfl
  refine ⟨w₆, by rw [hsame]; exact hresolved, by rw [hsame, hsteps.returns_eq, hready.outline.tables.2.2.2], ?_⟩
  unfold convert at h₇
  rw [Runs.modify_iff.1 h₇]

/-- What is known of the second pass before its first site. -/
theorem Work.After.start {a : Analysis} {w : Work} (hw : a.scopes.Wf) (h : w.analysis = a) : Work.After a [] w := by
  subst h
  exact ⟨rfl, ScopeTree.converts_nil hw _, by simp, fun _ _ h => .inl h, by simp⟩

/-- What the second pass makes of a program whose names are resolved. -/
theorem Resolved.analyzed {p : Program} {w : Work} (h : Resolved p w.analysis) (hnone : w.analysis.returns = .empty) :
    Analyzed p w.analysis (p.classes.zipIdx.foldl (Work.convertClass p.arena) w).analysis := by
  have hevents : p.events = [] ++ p.classes.zipIdx.flatMap fun (c, cls) => p.classEvents cls c := rfl
  have hafter := Work.After.convertClasses h (fun i c hc => by rw [Nat.zero_add]; exact hc) hevents (.start h.wf rfl)
  refine ⟨h, hafter.rest, hafter.converts, fun id => ?_, fun id kind hkind => ?_, hafter.contexts⟩
  · rw [hafter.returns, hnone]
    simp
  · rcases hafter.kinds id kind hkind with hold | hnew
    · rw [hnone] at hold
      cases hold
    · exact hnew

/-- What holds of every program that is accepted. -/
theorem Program.Parsed.analyzed {p : Program} {b : Analysis} (hp : p.Parsed Spelled) (hb : p.analyze = .ok b) :
    ∃ a, Analyzed p a b := by
  obtain ⟨w, hresolved, hnone, rfl⟩ := hp.converted hb
  exact ⟨_, hresolved.analyzed hnone⟩

theorem analyzed_of_ok {bytes : List UInt8} {p : Program} {b : Analysis} (hp : Program.ofBytes bytes = .ok p)
    (hb : p.analyze = .ok b) : ∃ a, Analyzed p a b := (Program.parsed_ofBytes hp).analyzed hb

/-! ## What is left as it was -/

namespace Analyzed
variable {p : Program} {a b : Analysis} {e : NodeId} {x : VarId} {v : Variable} {s U : ScopeId} {f : Frame}

theorem scopeOf?_eq (h : Analyzed p a b) (o : Opener) : b.scopeOf? o = a.scopeOf? o := by
  rw [h.rest]
  cases o <;> rfl

theorem bindings_eq (h : Analyzed p a b) : b.bindings = a.bindings := by rw [h.rest]

theorem classes_eq (h : Analyzed p a b) : b.classes = a.classes := by rw [h.rest]

theorem blockScopes_eq (h : Analyzed p a b) : b.blockScopes = a.blockScopes := by rw [h.rest]

theorem sends_eq (h : Analyzed p a b) : b.sends = a.sends := by rw [h.rest]

theorem realVar_eq (h : Analyzed p a b) (x : VarId) : b.scopes.realVar x = a.scopes.realVar x := h.converts.realVar x

theorem isTrueBlock_eq (h : Analyzed p a b) (s : ScopeId) :
    b.scopes.scopeIs (·.isTrueBlock) s = a.scopes.scopeIs (·.isTrueBlock) s := h.converts.shape.isTrueBlock s

/-- Conversion changes at most the kind of a variable. -/
theorem var_iff (h : Analyzed p a b) :
    (∃ v, b.scopes.var? x = some v) ↔ ∃ v, a.scopes.var? x = some v := by
  constructor
  · rintro ⟨v, hv⟩
    cases hx : a.scopes.var? x with
    | none =>
      rw [h.converts.noVar x hx] at hv
      cases hv
    | some v' => exact ⟨v', rfl⟩
  · rintro ⟨v, hv⟩
    obtain ⟨kind, hk⟩ := h.converts.var_of_var hv
    exact ⟨_, hk⟩

theorem var_of_var (h : Analyzed p a b) (hv : b.scopes.var? x = some v) :
    ∃ v₀, a.scopes.var? x = some v₀ ∧ ∃ kind, v = { v₀ with kind } := by
  obtain ⟨v₀, hv₀⟩ := h.var_iff.1 ⟨v, hv⟩
  obtain ⟨kind, hk⟩ := h.converts.var_of_var hv₀
  rw [hk] at hv
  cases hv
  exact ⟨v₀, hv₀, kind, rfl⟩

theorem useSite_iff (h : Analyzed p a b) : p.UseSite b e U ↔ p.UseSite a e U := by
  unfold Program.UseSite
  simp only [h.scopeOf?_eq]

theorem passes_iff (h : Analyzed p a b) : p.Passes b e x s ↔ p.Passes a e x s := by
  constructor
  · rintro ⟨hi, ⟨y, hy, hx⟩, U, v, hU, hv, hb⟩
    obtain ⟨v₀, hv₀, kind, rfl⟩ := h.var_of_var hv
    exact ⟨hi, ⟨y, by rw [← h.bindings_eq, hy], by rw [← h.realVar_eq, hx]⟩, U, v₀, h.useSite_iff.1 hU, hv₀,
      h.converts.shape.between.1 hb⟩
  · rintro ⟨hi, ⟨y, hy, hx⟩, U, v, hU, hv, hb⟩
    obtain ⟨kind, hk⟩ := h.converts.var_of_var hv
    exact ⟨hi, ⟨y, by rw [h.bindings_eq, hy], by rw [h.realVar_eq, hx]⟩, U, _, h.useSite_iff.2 hU, hk,
      h.converts.shape.between.2 hb⟩

/-- Every method and block is entered. -/
theorem enters (h : Analyzed p a b) (hs : a.scopes.IsCode s) : .enter s ∈ p.events.flatMap (Event.sites p.arena a.scopeOf?) := by
  obtain ⟨a₀, hready, hsteps⟩ := h.resolved.run
  obtain ⟨ev, hev, hs⟩ := Resolved.enters hready hsteps hs
  exact List.mem_flatMap.2 ⟨ev, hev, hs⟩

/-- A frame in the end, and what it was before. -/
theorem frame_of_frame (h : Analyzed p a b) (hf : b.scopes.frame? s = some f) : ∃ f₀, a.scopes.frame? s = some f₀ ∧
    f.storage = (f₀.moveToHeap (a.scopes.toMove f₀)).storage ∧
    a.scopes.Handed a.bindings (p.events.flatMap (Event.sites p.arena a.scopeOf?)) s f := by
  cases hf₀ : a.scopes.frame? s with
  | none =>
    rw [h.converts.shape.frame?_eq_none hf₀] at hf
    cases hf
  | some f₀ =>
    obtain ⟨f', hf', hst, hh⟩ := h.converts.frames s f₀ hf₀
    rw [hf] at hf'
    cases hf'
    obtain ⟨o, k, hs⟩ := ScopeTree.scope_of_frame hf₀
    rw [if_pos (h.enters ⟨o, k, f₀, hs⟩)] at hst
    exact ⟨f₀, rfl, hst, hh⟩

end Analyzed
end BlockScope
