import BlockScope.Proofs.Analysis.Lockstep
/-!
# Methods do not depend on each other

The second pass goes in step as the first one does: at paired events of two programs it leaves twins, and whatever is not
paired stays as it is (`Twins.atEvents`). So it converts the closures of a method without regard to other methods
(`Stretch.convert`), and a method that two programs have in common is in the end the same in both
(`Resolved.method_twins`).
-/
namespace BlockScope

/-! ## The second pass, event by event -/

namespace Work
variable {arena : Arena} {w w' : Work}

theorem analysis_use (w : Work) (s : ScopeId) (id : NodeId) {x : VarId} (hx : w.analysis.bindings.get? id = some x) :
    (w.use s id).analysis = { w.analysis with scopes := w.analysis.scopes.capture s x } := by
  rw [Work.use, hx]
  rfl

/-- What a site does to the analysis does not depend on the journal. -/
theorem atSite_congr (h : w.analysis = w'.analysis) (site : Site) :
    (w.atSite arena site).analysis = (w'.atSite arena site).analysis := by
  cases site with
  | enter s =>
    have henter : ∀ w : Work, (w.enter s).analysis = { w.analysis with scopes := (w.analysis.scopes.promote s).2 } := fun _ => rfl
    rw [atSite, atSite, henter, henter, h]
  | use s id =>
    rw [atSite, atSite]
    cases hx : w.analysis.bindings.get? id with
    | none => rw [Work.use, Work.use, ← h, hx, h]
    | some x => rw [analysis_use w s id hx, analysis_use w' s id (by rw [← h, hx]), h]
  | ret s id => rw [atSite, atSite, analysis_returnFrom, analysis_returnFrom, h]

theorem foldl_atSite_congr (h : w.analysis = w'.analysis) (sites : List Site) :
    (sites.foldl (atSite arena) w).analysis = (sites.foldl (atSite arena) w').analysis := by
  induction sites generalizing w w' with
  | nil => exact h
  | cons site sites ih => exact ih (atSite_congr h site)

/-- The second pass over some events of a resolved program. -/
def through (p : Program) (a : Analysis) (evs : List Event) (w : Work) : Work :=
  (evs.flatMap (Event.sites p.arena a.scopeOf?)).foldl (atSite p.arena) w

theorem through_append (p : Program) (a : Analysis) (evs evs' : List Event) (w : Work) :
    through p a (evs ++ evs') w = through p a evs' (through p a evs w) := by
  unfold through
  rw [List.flatMap_append, List.foldl_append]

/-- Class by class or event by event, the analysis is the same in the end. -/
theorem analysis_convertClasses {p : Program} {a : Analysis} {pre : List Event} (hr : Resolved p a) {cs : List ClassDefinition}
    {start : Nat} (hcs : ∀ (i : Nat) c, cs[i]? = some c → p.classes[start + i]? = some c)
    (hevents : p.events = pre ++ (cs.zipIdx start).flatMap fun (c, cls) => p.classEvents cls c)
    (h : After a (pre.flatMap (Event.sites p.arena a.scopeOf?)) w) : ((cs.zipIdx start).foldl (convertClass p.arena) w).analysis =
      (through p a ((cs.zipIdx start).flatMap fun (c, cls) => p.classEvents cls c) w).analysis := by
  induction cs generalizing start pre w with
  | nil => rfl
  | cons c cs ih =>
    have hc : p.classes[start]? = some c := hcs 0 c rfl
    rw [List.zipIdx_cons, List.flatMap_cons, ← List.append_assoc] at hevents
    have hclass := After.convertClass hr hc hevents h
    have hanalysis : (w.convertClass p.arena (c, start)).analysis = (through p a (p.classEvents start c) w).analysis := by
      have hclasses : w.analysis.classes = a.classes := by rw [h.rest]
      have hblocks : w.analysis.blockScopes = a.blockScopes := by rw [h.rest]
      unfold convertClass
      simp only [hclasses, hblocks]
      rw [hr.classSites_eq hc]
      have htold : (w.tell [.converting c.name]).analysis = w.analysis := rfl
      exact foldl_atSite_congr htold _
    rw [List.zipIdx_cons, List.foldl_cons, List.flatMap_cons, through_append, ih (fun i d hd => ?_) hevents hclass]
    · exact foldl_atSite_congr hanalysis _
    · have := hcs (i + 1) d hd
      rwa [show start + 1 + i = start + (i + 1) by omega]

end Work

/-! ## Twins converted in step -/

namespace ScopeTree
variable {t u : ScopeTree}

theorem Outermost.of_shape (h : t.Outermost) (hs : t.SameShape u) : u.Outermost := by
  intro m o f hm x k g o' hw hx
  obtain ⟨f₀, hm₀⟩ := hs.code_of_code hm
  obtain ⟨g₀, hx₀⟩ := hs.code_of_code hx
  exact h m o f₀ hm₀ x k g₀ o' (hs.within.1 hw) hx₀

/-- What is not stored in code is not handed over. -/
theorem Converts.capture_of_fixed {bindings : Table VarId} {done : List Site} {U : ScopeId} {name : String} {found : Found}
    (h : t.Converts bindings done u) (hw : t.Wf) (hfind : t.find U name false = some found) (hfixed : found.Fixed) :
    u.capture U found.var = u := by
  obtain ⟨v, hv, -, hl⟩ := hw.find_spec hfind
  cases hl with
  | stored hplace => exact absurd hplace (hfixed _ _)
  | fixed _ hkind _ =>
    unfold ScopeTree.capture
    simp only [h.realVar]
    rw [h.kept _ v hv (not_moved_of_fixed hw hv hkind)]
    rcases hkind with hk | hk | hk <;> simp only [hk]

end ScopeTree

namespace Twins
variable {p q : Program} {c d : Analysis} {r : Pairing} {w w' : Work} {done done' : List Site} {ev ev' : Event} {U U' : ScopeId}
  {id : NodeId}

theorem enter {s s' : ScopeId} (h : Twins r w.analysis.scopes w'.analysis.scopes) (hs : r.scope s s') :
    Twins r (w.enter s).analysis.scopes (w'.enter s').analysis.scopes ∧ r.Spares w.analysis.scopes (w.enter s).analysis.scopes :=
  h.promote hs

theorem use {o o' : Opener} {role : Role} {name : String} (hc : Resolved p c) (hd : Resolved q d)
    (h₀ : Twins r c.scopes d.scopes) (ha : Work.After c done w) (ha' : Work.After d done' w')
    (hmem : .node o role id ∈ p.events) (hmem' : .node o' role id ∈ q.events) (he : p.arena.expr? id = some (.ident name))
    (he' : q.arena.expr? id = some (.ident name)) (ho : c.scopeOf? o = some U) (ho' : d.scopeOf? o' = some U')
    (hU : r.scope U U') (h : Twins r w.analysis.scopes w'.analysis.scopes) :
    Twins r (w.use U id).analysis.scopes (w'.use U' id).analysis.scopes ∧
      r.Spares w.analysis.scopes (w.use U id).analysis.scopes := by
  obtain ⟨_, ⟨x, place⟩, hb⟩ := hc.bound_of_event hmem he
  obtain ⟨_, ⟨x', place'⟩, hb'⟩ := hd.bound_of_event hmem' he'
  cases ho.symm.trans hb.scope
  cases ho'.symm.trans hb'.scope
  rw [Work.analysis_use w U id (by rw [ha.rest, hb.binding]), Work.analysis_use w' U' id (by rw [ha'.rest, hb'.binding])]
  have hfound := h₀.find (n := name) hc.wf.nested hd.wf.nested hc.outermost hd.outermost hU false
  rw [hb.find, hb'.find] at hfound
  cases hfound with
  | stored remote hx _ =>
    have hn := ha.converts.shape.nested hc.wf.nested
    have hn' := ha'.converts.shape.nested hd.wf.nested
    exact h.capture hn hn' (hc.outermost.of_shape ha.converts.shape) (hd.outermost.of_shape ha'.converts.shape) hU hx
      (ha.converts.direct (hc.wf.direct_of_find hb.find))
  | fixed hfixed hfixed' =>
    have hsame := ha.converts.capture_of_fixed hc.wf hb.find (hfixed _ rfl)
    have hsame' := ha'.converts.capture_of_fixed hd.wf hb'.find (hfixed' _ rfl)
    simp only at hsame hsame'
    simp only [hsame, hsame']
    exact ⟨h, .refl _ _⟩

theorem ret {arena arena' : Arena} (hc : Resolved p c) (hd : Resolved q d) (ha : Work.After c done w) (ha' : Work.After d done' w')
    (hU : r.scope U U') (h : Twins r w.analysis.scopes w'.analysis.scopes) :
    Twins r (Work.returnFrom arena w U id).analysis.scopes (Work.returnFrom arena' w' U' id).analysis.scopes ∧
      r.Spares w.analysis.scopes (Work.returnFrom arena w U id).analysis.scopes := by
  have hn := ha.converts.shape.nested hc.wf.nested
  have hn' := ha'.converts.shape.nested hd.wf.nested
  have hleaves := h.leaves hn hn' (hc.outermost.of_shape ha.converts.shape) (hd.outermost.of_shape ha'.converts.shape) hU
  rw [Work.analysis_returnFrom, Work.analysis_returnFrom]
  generalize w.analysis.scopes.leaves U = m at hleaves
  generalize w'.analysis.scopes.leaves U' = m' at hleaves
  cases hleaves with
  | none => exact ⟨h, .refl _ _⟩
  | some hm => exact ⟨h.modifyFrame hm fun f f' hf => { hf with context := rfl }, Pairing.spares_modifyFrame hm _ _⟩

/-- One event of each program. -/
theorem atEvent (hc : Resolved p c) (hd : Resolved q d) (harena : q.arena = p.arena) (h₀ : Twins r c.scopes d.scopes)
    (hmem : ev ∈ p.events) (hmem' : ev' ∈ q.events) (hev : r.Event p.arena c.scopeOf? d.scopeOf? ev ev')
    (ha : Work.After c done w) (ha' : Work.After d done' w') (h : Twins r w.analysis.scopes w'.analysis.scopes) :
    Twins r ((ev.sites p.arena c.scopeOf?).foldl (Work.atSite p.arena) w).analysis.scopes
        ((ev'.sites q.arena d.scopeOf?).foldl (Work.atSite q.arena) w').analysis.scopes ∧
      r.Spares w.analysis.scopes ((ev.sites p.arena c.scopeOf?).foldl (Work.atSite p.arena) w).analysis.scopes := by
  cases hev with
  | method hopeners =>
    obtain ⟨s, s', hs, hs', hpair⟩ := hopeners
    simp only [Event.sites, hs, hs']
    exact h.enter hpair
  | @node o o' role id hopeners hblock =>
    obtain ⟨U, U', hU, hU', hpair⟩ := hopeners
    cases he : p.arena.expr? id with
    | none =>
      simp only [Event.sites, harena, he]
      exact ⟨h, .refl _ _⟩
    | some e =>
      cases e with
      | ident name =>
        simp only [Event.sites, harena, he, hU, hU']
        exact use hc hd h₀ ha ha' hmem hmem' he (by rw [harena, he]) hU hU' hpair h
      | block params temps body =>
        obtain ⟨s, s', hs, hs', hinner⟩ := hblock (by simp [Arena.blockCode?, he])
        simp only [Event.sites, harena, he, hs, hs']
        exact h.enter hinner
      | ret value =>
        simp only [Event.sites, harena, he, hU, hU']
        exact h.ret hc hd ha ha' hpair
      | literal | assign | send | cascade | paren | array =>
        simp only [Event.sites, harena, he]
        exact ⟨h, .refl _ _⟩

/-- Several events, one after the other. -/
theorem atEvents {pre post pre' post' evs evs' : List Event} (hc : Resolved p c) (hd : Resolved q d) (harena : q.arena = p.arena)
    (h₀ : Twins r c.scopes d.scopes) (hevents : p.events = pre ++ evs ++ post) (hevents' : q.events = pre' ++ evs' ++ post')
    (hevs : List.Forall₂ (r.Event p.arena c.scopeOf? d.scopeOf?) evs evs')
    (ha : Work.After c (pre.flatMap (Event.sites p.arena c.scopeOf?)) w)
    (ha' : Work.After d (pre'.flatMap (Event.sites q.arena d.scopeOf?)) w') (h : Twins r w.analysis.scopes w'.analysis.scopes) :
    Twins r (w.through p c evs).analysis.scopes (w'.through q d evs').analysis.scopes ∧
      r.Spares w.analysis.scopes (w.through p c evs).analysis.scopes := by
  induction hevs generalizing pre pre' w w' with
  | nil => exact ⟨h, .refl _ _⟩
  | @cons ev ev' evs evs' hev _ ih =>
    have hsplit : p.events = pre ++ ev :: (evs ++ post) := by simpa using hevents
    have hsplit' : q.events = pre' ++ ev' :: (evs' ++ post') := by simpa using hevents'
    obtain ⟨h₁, hspares⟩ := atEvent hc hd harena h₀ (by simp [hsplit]) (by simp [hsplit']) hev ha ha' h
    have hrest : p.events = pre ++ [ev] ++ evs ++ post := by simp [hsplit]
    have hrest' : q.events = pre' ++ [ev'] ++ evs' ++ post' := by simp [hsplit']
    obtain ⟨h₂, hspares'⟩ := ih hrest hrest' (.event hc hsplit ha) (.event hd hsplit' ha') h₁
    simp only [Work.through, List.flatMap_cons, List.foldl_append]
    exact ⟨h₂, hspares.trans hspares'⟩

end Twins

/-! ## Stretches of methods -/

/-- Some methods of a resolved program, with the analysis as the first pass had it before and after them. -/
structure Stretch (p : Program) (c : Analysis) (before jobs after : List Job) (a b : Analysis) : Prop where
  jobs_eq : p.jobs = before ++ jobs ++ after
  wf : a.scopes.Wf
  steps : Steps p c.scopeOf? a (jobs.flatMap (Job.events p)) b
  rest : Steps p c.scopeOf? b (after.flatMap (Job.events p)) c

namespace Stretch
variable {p : Program} {c a b : Analysis} {before jobs jobs' after : List Job}

theorem events_eq (h : Stretch p c before jobs after a b) : p.events =
    before.flatMap (Job.events p) ++ jobs.flatMap (Job.events p) ++ after.flatMap (Job.events p) := by
  rw [← flatMap_jobs, h.jobs_eq, List.flatMap_append, List.flatMap_append]

theorem wf_after (h : Stretch p c before jobs after a b) : b.scopes.Wf := (h.steps.wf_grows h.wf).1

theorem outermost (h : Stretch p c before jobs after a b) (hc : Resolved p c) : b.scopes.Outermost :=
  hc.outermost.of_grows (h.rest.wf_grows h.wf_after).2

/-- What there is after the stretch is the same in the end. -/
theorem intact (h : Stretch p c before jobs after a b) (hc : Resolved p c) : b.scopes.Intact c.scopes :=
  h.rest.intact (fun job hjob => mem_jobs (by rw [h.jobs_eq]; exact List.mem_append_right _ hjob)) h.wf_after hc.outermost

theorem split (h : Stretch p c before (jobs ++ jobs') after a b) :
    ∃ b', Stretch p c before jobs (jobs' ++ after) a b' ∧ Stretch p c (before ++ jobs) jobs' after b' b := by
  have hsteps := h.steps
  rw [List.flatMap_append] at hsteps
  obtain ⟨b', hs, hs'⟩ := hsteps.split
  refine ⟨b', ⟨by rw [h.jobs_eq]; simp, h.wf, hs, ?_⟩, ⟨by rw [h.jobs_eq]; simp, (hs.wf_grows h.wf).1, hs', h.rest⟩⟩
  rw [List.flatMap_append]
  exact hs'.append h.rest

theorem through {w : Work} (h : Stretch p c before jobs after a b) (hc : Resolved p c)
    (ha : Work.After c ((before.flatMap (Job.events p)).flatMap (Event.sites p.arena c.scopeOf?)) w) :
    Work.After c (((before ++ jobs).flatMap (Job.events p)).flatMap (Event.sites p.arena c.scopeOf?))
      (w.through p c (jobs.flatMap (Job.events p))) := by
  rw [List.flatMap_append]
  exact ha.events hc h.events_eq

end Stretch

/-- All methods are one stretch. -/
theorem Resolved.stretch {p : Program} {c : Analysis} (h : Resolved p c) : ∃ a, Stretch p c [] p.jobs [] a c := by
  obtain ⟨a, hready, hsteps⟩ := h.run
  exact ⟨a, by simp, hready.outline.wf, by rwa [flatMap_jobs], .nil⟩

/-- A method that two programs have in common: all it made is paired, in the end as when it was made. -/
theorem Stretch.pairs {p q : Program} {c d a b a' b' : Analysis} {before after before' after' : List Job} {i j place place' : Nat}
    {m : Method} (hc : Resolved p c) (hd : Resolved q d) (harena : q.arena = p.arena)
    (h : Stretch p c before [⟨i, place, m⟩] after a b) (h' : Stretch q d before' [⟨j, place', m⟩] after' a' b') :
    ∃ r : Pairing, r.Abreast a.scopes a'.scopes b.scopes b'.scopes ∧ Twins r c.scopes d.scopes ∧
      List.Forall₂ (r.Event p.arena c.scopeOf? d.scopeOf?) (p.methodEvents i place m) (q.methodEvents j place' m) := by
  have hjob : ⟨i, place, m⟩ ∈ p.jobs := by simp [h.jobs_eq]
  have hjob' : ⟨j, place', m⟩ ∈ q.jobs := by simp [h'.jobs_eq]
  have hm : p.method? i place = some m := mem_jobs hjob
  have hm' : q.method? j place' = some m := mem_jobs hjob'
  have hs := h.steps
  have hs' := h'.steps
  simp only [List.flatMap_cons, List.flatMap_nil, List.append_nil] at hs hs'
  obtain ⟨r, hab, hevs⟩ := abreast_of_method harena hm hm' h.wf h'.wf hs hs' (h.outermost hc) (h'.outermost hd)
  have hi := h.intact hc
  have hi' := h'.intact hd
  refine ⟨r, hab, hab.twins.congr (fun s s' hpair => ?_) (fun x x' hpair => ?_), hevs⟩
  · obtain ⟨_, _, _, _, _, ht, ht', -⟩ := hab.twins.scope s s' hpair
    rw [hi.scope s _ ht, hi'.scope s' _ ht', ht, ht']
    exact ⟨rfl, rfl⟩
  · obtain ⟨_, _, hv, hv', -⟩ := hab.twins.var x x' hpair
    rw [hi.var x _ hv, hi'.var x' _ hv', hv, hv']
    exact ⟨rfl, rfl⟩

/-! ## Converting a stretch -/

namespace ScopeTree

/-- Whatever is not in the first tree is the same in the other two. -/
structure SameBeyond (t u w : ScopeTree) : Prop where
  scope : ∀ s, t.scope? s = none → w.scope? s = u.scope? s
  var : ∀ x, t.var? x = none → w.var? x = u.var? x

/-- Whatever is in the first tree is the same in the other two. -/
structure SameOn (t u w : ScopeTree) : Prop where
  scope : ∀ s sc, t.scope? s = some sc → w.scope? s = u.scope? s
  var : ∀ x v, t.var? x = some v → w.var? x = u.var? x

theorem SameOn.trans {t t' u w z : ScopeTree} (hi : t.Intact t') (h : t.SameOn u w) (h' : t'.SameOn w z) : t.SameOn u z :=
  ⟨fun s sc hs => (h'.scope s sc (hi.scope s sc hs)).trans (h.scope s sc hs),
    fun x v hv => (h'.var x v (hi.var x v hv)).trans (h.var x v hv)⟩

end ScopeTree

/-- Trees that have not been changed beyond those from before are twins as they were in the beginning. -/
theorem Pairing.New.twins {r : Pairing} {t t' u u' c d w w' : ScopeTree} (h : r.New t t' u u') (h₀ : Twins r c d)
    (hbeyond : t.SameBeyond c w) (hbeyond' : t'.SameBeyond d w') : Twins r w w' := by
  refine h₀.congr (fun s s' hpair => ?_) fun x x' hpair => ?_
  · exact ⟨hbeyond.scope s (h.left.scope s s' hpair), hbeyond'.scope s' (h.right.scope s' s hpair)⟩
  · exact ⟨hbeyond.var x (h.left.var x x' hpair), hbeyond'.var x' (h.right.var x' x hpair)⟩

/-- One method changes only what it made. -/
theorem Stretch.convert_method {p : Program} {c a b : Analysis} {before after : List Job} {job : Job} {w : Work}
    (hc : Resolved p c) (h : Stretch p c before [job] after a b)
    (ha : Work.After c ((before.flatMap (Job.events p)).flatMap (Event.sites p.arena c.scopeOf?)) w)
    (hbeyond : a.scopes.SameBeyond c.scopes w.analysis.scopes) :
    b.scopes.SameBeyond c.scopes (w.through p c (job.events p)).analysis.scopes ∧
      a.scopes.SameOn w.analysis.scopes (w.through p c (job.events p)).analysis.scopes := by
  -- The method is paired with itself.
  obtain ⟨r, hab, h₀, hevs⟩ := h.pairs hc hc rfl h
  have hw := hab.new.twins h₀ hbeyond hbeyond
  have hevents := h.events_eq
  simp only [List.flatMap_cons, List.flatMap_nil, List.append_nil] at hevents
  obtain ⟨-, hspares⟩ := h₀.atEvents hc hc rfl hevents hevents hevs ha ha hw
  have hi := hab.new.left.intact
  refine ⟨⟨fun s hs => ?_, fun x hx => ?_⟩, ⟨fun s sc hs => ?_, fun x v hx => ?_⟩⟩
  · refine (hspares.scope s fun s' hpair => ?_).trans (hbeyond.scope s (hi.scope_none hs))
    obtain ⟨_, _, _, _, _, ht, -⟩ := hab.twins.scope s s' hpair
    rw [hs] at ht
    cases ht
  · refine (hspares.var x fun x' hpair => ?_).trans (hbeyond.var x (hi.var_none hx))
    obtain ⟨_, _, hv, -⟩ := hab.twins.var x x' hpair
    rw [hx] at hv
    cases hv
  · refine hspares.scope s fun s' hpair => ?_
    rw [hab.new.left.scope s s' hpair] at hs
    cases hs
  · refine hspares.var x fun x' hpair => ?_
    rw [hab.new.left.var x x' hpair] at hx
    cases hx

/-- Several methods change only what they made. -/
theorem Stretch.convert {p : Program} {c a b : Analysis} {before jobs after : List Job} {w : Work} (hc : Resolved p c)
    (h : Stretch p c before jobs after a b)
    (ha : Work.After c ((before.flatMap (Job.events p)).flatMap (Event.sites p.arena c.scopeOf?)) w)
    (hbeyond : a.scopes.SameBeyond c.scopes w.analysis.scopes) :
    b.scopes.SameBeyond c.scopes (w.through p c (jobs.flatMap (Job.events p))).analysis.scopes ∧
      a.scopes.SameOn w.analysis.scopes (w.through p c (jobs.flatMap (Job.events p))).analysis.scopes := by
  induction jobs generalizing before a w with
  | nil =>
    cases h.steps
    exact ⟨hbeyond, ⟨fun _ _ _ => rfl, fun _ _ _ => rfl⟩⟩
  | cons job jobs ih =>
    rw [← List.singleton_append] at h
    obtain ⟨b', hjob, hjobs⟩ := h.split
    obtain ⟨hbeyond', hon⟩ := hjob.convert_method hc ha hbeyond
    have hafter := hjob.through hc ha
    rw [List.flatMap_singleton] at hafter
    obtain ⟨hbeyond'', hon'⟩ := ih hjobs hafter hbeyond'
    obtain ⟨r, hab, -⟩ := hjob.pairs hc hc rfl hjob
    rw [List.flatMap_cons, Work.through_append]
    exact ⟨hbeyond'', hon.trans hab.new.left.intact hon'⟩

/-- The second pass at one of the methods: before it, all that the method made is as it was, and after it, nothing of that
changes any more. -/
theorem Resolved.convert_around {p : Program} {w : Work} {job : Job} (hc : Resolved p w.analysis) (hjob : job ∈ p.jobs) :
    ∃ before after a b w₁, Stretch p w.analysis before [job] after a b ∧
      Work.After w.analysis ((before.flatMap (Job.events p)).flatMap (Event.sites p.arena w.analysis.scopeOf?)) w₁ ∧
      a.scopes.SameBeyond w.analysis.scopes w₁.analysis.scopes ∧
      b.scopes.SameOn (w₁.through p w.analysis (job.events p)).analysis.scopes
        (p.classes.zipIdx.foldl (Work.convertClass p.arena) w).analysis.scopes := by
  obtain ⟨before, after, hjobs⟩ := List.append_of_mem hjob
  obtain ⟨a₀, hall⟩ := hc.stretch
  have hstart : Work.After w.analysis [] w := .start hc.wf rfl
  have hanalysis : (p.classes.zipIdx.foldl (Work.convertClass p.arena) w).analysis = (w.through p w.analysis p.events).analysis :=
    Work.analysis_convertClasses hc (fun i c hi => by rw [Nat.zero_add]; exact hi) (List.nil_append _).symm hstart
  -- The pass is three stretches: the methods before this one, the method itself, and those after it.
  rw [hjobs, ← List.singleton_append] at hall
  obtain ⟨a, hbefore, hrest⟩ := hall.split
  obtain ⟨b, hmethod, hafter⟩ := hrest.split
  have hw₁ := hbefore.through hc hstart
  obtain ⟨hbeyond, -⟩ := hbefore.convert hc hstart ⟨fun _ _ => rfl, fun _ _ => rfl⟩
  have hw₂ := hmethod.through hc hw₁
  obtain ⟨hbeyond', -⟩ := hmethod.convert hc hw₁ hbeyond
  obtain ⟨-, hon⟩ := hafter.convert hc hw₂ hbeyond'
  refine ⟨before, _, a, b, _, hmethod, hw₁, hbeyond, ?_⟩
  rw [hanalysis, ← flatMap_jobs, hjobs, List.flatMap_append, List.flatMap_cons, Work.through_append, Work.through_append]
  rwa [List.flatMap_singleton] at hon

/-- A method that two programs with the same nodes have in common is in the end the same in both, up to a pairing of what it
made. -/
theorem Resolved.method_twins {p q : Program} {w w' : Work} {i j place place' : Nat} {m : Method} (hc : Resolved p w.analysis)
    (hd : Resolved q w'.analysis) (harena : q.arena = p.arena) (hm : p.method? i place = some m)
    (hm' : q.method? j place' = some m) : ∃ r : Pairing,
      Twins r (p.classes.zipIdx.foldl (Work.convertClass p.arena) w).analysis.scopes
        (q.classes.zipIdx.foldl (Work.convertClass q.arena) w').analysis.scopes ∧
      List.Forall₂ (r.Event p.arena w.analysis.scopeOf? w'.analysis.scopeOf?) (p.methodEvents i place m)
        (q.methodEvents j place' m) := by
  obtain ⟨before, after, a, b, w₁, hst, hw₁, hbeyond, hon⟩ := hc.convert_around (job_of_method hm)
  obtain ⟨before', after', a', b', w₁', hst', hw₁', hbeyond', hon'⟩ := hd.convert_around (job_of_method hm')
  obtain ⟨r, hab, h₀, hevs⟩ := hst.pairs hc hd harena hst'
  have h₁ := hab.new.twins h₀ hbeyond hbeyond'
  have hevents := hst.events_eq
  have hevents' := hst'.events_eq
  simp only [List.flatMap_cons, List.flatMap_nil, List.append_nil] at hevents hevents'
  obtain ⟨h₂, -⟩ := h₀.atEvents hc hd harena hevents hevents' hevs hw₁ hw₁' h₁
  refine ⟨r, h₂.congr (fun s s' hpair => ?_) (fun x x' hpair => ?_), hevs⟩
  · obtain ⟨_, _, _, _, _, ht, ht', -⟩ := hab.twins.scope s s' hpair
    exact ⟨hon.scope s _ ht, hon'.scope s' _ ht'⟩
  · obtain ⟨_, _, hv, hv', -⟩ := hab.twins.var x x' hpair
    exact ⟨hon.var x _ hv, hon'.var x' _ hv'⟩

end BlockScope
