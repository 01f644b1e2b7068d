import BlockScope.Proofs.Analysis.Levels
/-!
# Resolved programs

What holds when every name of a program is resolved: `Resolved` says that the analysis came from the classes
alone by the steps of all events. Names are bound as the tree says (`Resolved.bound`), the scope of a use is
that of the literal around it, and a level is reached exactly by the uses that pass a closure
(`Resolved.reaches_iff`).
-/
namespace BlockScope

/-- The scope of a use: that of the innermost block around the node, or else of the method. -/
def Program.UseSite (p : Program) (a : Analysis) (e : NodeId) (U : ScopeId) : Prop :=
  ∃ o, p.Encloses o e ∧ a.scopeOf? o = some U

/-- The name refers to the variable, and the scope is on the way from the use to the owner, which is not counted. -/
structure Program.Passes (p : Program) (a : Analysis) (e : NodeId) (x : VarId) (s : ScopeId) : Prop where
  ident : ∃ name, p.arena.expr? e = some (.ident name)
  refers : ∃ y, a.bindings.get? e = some y ∧ a.scopes.realVar y = x
  way : ∃ U v, p.UseSite a e U ∧ a.scopes.var? x = some v ∧ a.scopes.Between U s v.scope

/-- All names of the program are resolved, and nothing else is done. -/
structure Resolved (p : Program) (a : Analysis) : Prop where
  parsed : p.Parsed Spelled
  run : ∃ a₀, Ready p a₀ ∧ Steps p a.scopeOf? a₀ p.events a

/-- A name as the first pass leaves it. -/
structure Bound (p : Program) (a : Analysis) (e : NodeId) (o : Opener) (role : Role) (name : String) (U : ScopeId)
    (found : Found) : Prop where
  event : .node o role e ∈ p.events
  ident : p.arena.expr? e = some (.ident name)
  scope : a.scopeOf? o = some U
  code : a.scopes.IsCode U
  find : a.scopes.find U name false = some found
  binding : a.bindings.get? e = some found.var

/-- The openers around something, the innermost first and with its scope: it stands in the scope of the next opener, and
the last one on its side of the class. -/
inductive Placed (p : Program) (a : Analysis) : List Opener → ScopeId → Prop where
  | method {cls place : Nat} {m : Method} {info : ClassInfo} {U : ScopeId} (hm : p.method? cls place = some m)
    (hi : a.classes[cls]? = some info) (hU : a.scopeOf? (.method cls place) = some U)
    (h : a.scopes.Entered U (info.side m.classSide) .method m.params m.temps) : Placed p a [.method cls place] U
  | block {b : NodeId} {code : Code} {role : Role} {U S : ScopeId} {outer : List Opener}
    (hb : p.arena.blockCode? b = some code) (hU : a.scopeOf? (.block b) = some U)
    (h : a.scopes.Entered U S role.blockKind code.params code.temps) (rest : Placed p a outer S) :
    Placed p a (.block b :: outer) U

namespace Resolved
variable {p : Program} {a : Analysis} {e id : NodeId} {o : Opener} {role : Role} {name : String} {U s : ScopeId}
  {found : Found} {x : VarId} {v : Variable} {level : RemoteAccess} {openers : List Opener}

theorem wf (h : Resolved p a) : a.scopes.Wf := by
  obtain ⟨a₀, hready, hsteps⟩ := h.run
  exact (hsteps.wf_grows hready.outline.wf).1

theorem bound_of_event (h : Resolved p a) (hev : .node o role e ∈ p.events) (he : p.arena.expr? e = some (.ident name)) :
    ∃ U found, Bound p a e o role name U found := by
  obtain ⟨a₀, hready, hsteps⟩ := h.run
  obtain ⟨U, found, ho, hcode, hf, hb⟩ :=
    hsteps.binding hready.outline.wf h.parsed.forest.nodup_events (h.parsed.named e name he) hev he
  exact ⟨U, found, hev, he, ho, hcode, hf, hb⟩

/-- Whatever is bound is a name with an event. -/
theorem bound (h : Resolved p a) {y : VarId} (hy : a.bindings.get? e = some y) :
    ∃ o role name U found, Bound p a e o role name U found ∧ y = found.var := by
  obtain ⟨a₀, hready, hsteps⟩ := h.run
  have hev : ∃ o role name, .node o role e ∈ p.events ∧ p.arena.expr? e = some (.ident name) := by
    by_contra hno
    have hnone : a.bindings.get? e = a₀.bindings.get? e :=
      hsteps.bindings_eq fun o role name hev he => hno ⟨o, role, name, hev, he⟩
    rw [hnone, hready.outline.tables.1] at hy
    cases hy
  obtain ⟨o, role, name, hev, he⟩ := hev
  obtain ⟨U, found, hb⟩ := h.bound_of_event hev he
  rw [hb.binding] at hy
  cases hy
  exact ⟨o, role, name, U, found, hb, rfl⟩

theorem useSite_iff (h : Resolved p a) (hb : Bound p a e o role name U found) {U' : ScopeId} : p.UseSite a e U' ↔ U' = U := by
  obtain ⟨outer, haround⟩ := Program.around_of_event hb.event
  constructor
  · rintro ⟨o', ho', hU'⟩
    rw [h.parsed.forest.encloses_unique ho' haround.head, hb.scope] at hU'
    cases hU'
    rfl
  · rintro rfl
    exact ⟨o, haround.head, hb.scope⟩

theorem passes_iff (h : Resolved p a) (hb : Bound p a e o role name U found)
    (hv : a.scopes.var? (a.scopes.realVar found.var) = some v) :
    p.Passes a e x s ↔ x = a.scopes.realVar found.var ∧ a.scopes.Between U s v.scope := by
  constructor
  · rintro ⟨-, ⟨y, hy, hx⟩, U', v', hU', hv', hbetween⟩
    rw [hb.binding] at hy
    cases hy
    subst hx
    rw [hv] at hv'
    cases hv'
    rw [h.useSite_iff hb] at hU'
    subst hU'
    exact ⟨rfl, hbetween⟩
  · rintro ⟨rfl, hbetween⟩
    exact ⟨⟨name, hb.ident⟩, ⟨_, hb.binding, rfl⟩, U, v, (h.useSite_iff hb).2 rfl, hv, hbetween⟩

/-- A use from the far side of a closure is of storage of a method or block. -/
theorem holds_of_uses (h : Resolved p a) {ev : Event} {forWrite : Bool} (hu : ev.Uses p a.scopeOf? a.scopes forWrite x) :
    ∃ v, a.scopes.var? x = some v ∧ a.scopes.Holds x v := by
  obtain ⟨o, role, e, name, U, found, -, -, -, -, hf, ⟨D, hplace⟩, rfl⟩ := hu
  obtain ⟨v, hv, -, hl⟩ := h.wf.find_spec hf
  cases hl with
  | stored _ hholds => exact ⟨v, hv, hholds⟩
  | fixed hplace' => exact absurd hplace (hplace' _ _)

/-- Such uses in terms of the table of names. -/
theorem uses_iff (h : Resolved p a) (hb : Bound p a e o role name U found) {forWrite : Bool}
    (hv : a.scopes.var? x = some v) (hholds : a.scopes.Holds x v) :
    (Event.node o role e).Uses p a.scopeOf? a.scopes forWrite x ↔
      (forWrite = true ↔ p.arena.IsTarget e) ∧ ∃ s, p.Passes a e x s ∧ a.scopes.scopeIs (·.isTrueBlock) s := by
  have hfits : role = .target ↔ p.arena.IsTarget e := h.parsed.forest.fits_of_event hb.event
  have hforWrite : forWrite = decide (role = .target) ↔ (forWrite = true ↔ p.arena.IsTarget e) := by
    rw [← hfits]
    cases forWrite <;> simp
  obtain ⟨v', hv', -, hl⟩ := h.wf.find_spec hb.find
  constructor
  · rintro ⟨_, _, _, name', U', found', hev, hw, he, ho, hf, ⟨D, hplace⟩, hreal⟩
    cases hev
    rw [hb.ident] at he
    cases he
    rw [hb.scope] at ho
    cases ho
    rw [hb.find] at hf
    cases hf
    cases hl with
    | stored hplace' _ _ hremote =>
      rw [hplace] at hplace'
      cases hplace'
      obtain ⟨s, hs, ht⟩ := hremote.1 rfl
      exact ⟨hforWrite.1 hw, s, (h.passes_iff hb hv').2 ⟨hreal.symm, hs⟩, ht⟩
    | fixed hplace' => exact absurd hplace (hplace' _ _)
  · rintro ⟨hw, s, hpasses, ht⟩
    obtain ⟨hx, hs⟩ := (h.passes_iff hb hv').1 hpasses
    subst hx
    rw [hv] at hv'
    cases hv'
    cases hl with
    | @stored D r hplace _ _ hremote =>
      have hr : r = true := hremote.2 ⟨s, hs, ht⟩
      subst hr
      exact ⟨o, role, e, name, U, found, rfl, hforWrite.2 hw, hb.ident, hb.scope, hb.find, ⟨D, hplace⟩, rfl⟩
    | fixed _ _ hframe =>
      obtain ⟨f, hf, -⟩ := hholds
      rw [hframe] at hf
      cases hf

theorem reaches_iff_uses (h : Resolved p a) (hlevel : level ≠ .none) (hv : a.scopes.var? x = some v) :
    v.remote.Reaches level ↔ ∃ ev ∈ p.events, ∃ forWrite, ev.Uses p a.scopeOf? a.scopes forWrite x ∧
      (RemoteAccess.ofUse forWrite).Reaches level := by
  obtain ⟨a₀, hready, hsteps⟩ := h.run
  have hiff := hsteps.reaches_iff (x := x) hlevel hready.outline.wf h.parsed.named
  -- Before the bodies nothing has a level.
  have hstart : ¬ ∃ v, a₀.scopes.var? x = some v ∧ v.remote.Reaches level := by
    rintro ⟨v₀, hv₀, hr⟩
    rw [(hready.outline.vars x v₀ hv₀).1] at hr
    exact not_reaches_none hlevel hr
  simpa [hv, hstart] using hiff

/-- Storage reaches a level exactly by the uses of that level that pass a closure. -/
theorem reaches_iff (h : Resolved p a) (hlevel : level ≠ .none) (hv : a.scopes.var? x = some v)
    (hholds : a.scopes.Holds x v) : v.remote.Reaches level ↔ ∃ e forWrite, (forWrite = true ↔ p.arena.IsTarget e) ∧
      (RemoteAccess.ofUse forWrite).Reaches level ∧ ∃ s, p.Passes a e x s ∧ a.scopes.scopeIs (·.isTrueBlock) s := by
  rw [h.reaches_iff_uses hlevel hv]
  constructor
  · rintro ⟨ev, hev, forWrite, hu, hr⟩
    have ⟨o, role, e, name, U, found, hev', _, he, _⟩ := hu
    subst hev'
    obtain ⟨U', found', hb⟩ := h.bound_of_event hev he
    obtain ⟨hw, hs⟩ := (h.uses_iff hb hv hholds).1 hu
    exact ⟨e, forWrite, hw, hr, hs⟩
  · rintro ⟨e, forWrite, hw, hr, s, hpasses, ht⟩
    obtain ⟨y, hy, -⟩ := hpasses.refers
    obtain ⟨o, role, name, U, found, hb, -⟩ := h.bound hy
    exact ⟨_, hb.event, forWrite, (h.uses_iff hb hv hholds).2 ⟨hw, s, hpasses, ht⟩, hr⟩

theorem remote_of_not_holds (h : Resolved p a) (hv : a.scopes.var? x = some v) (hno : ¬ a.scopes.Holds x v) :
    v.remote = .none := by
  by_contra hne
  have hread : RemoteAccess.read ≠ .none := by simp
  obtain ⟨ev, -, forWrite, hu, -⟩ := (h.reaches_iff_uses hread hv).1 (reaches_read.2 hne)
  obtain ⟨v', hv', hholds⟩ := h.holds_of_uses hu
  rw [hv] at hv'
  cases hv'
  exact hno hholds

/-! ## Scopes of openers -/

theorem enters {a₀ c : Analysis} {pre : List Event} (hready : Ready p a₀) (hpre : Steps p a.scopeOf? a₀ pre c)
    (hs : c.scopes.IsCode s) : ∃ ev ∈ pre, .enter s ∈ ev.sites p.arena a.scopeOf? := by
  rcases hpre.enters hready.outline.wf hs with ⟨o', k, f, hs⟩ | h
  · exact absurd hs hready.outline.no_code
  · exact h

/-- Every scope of a method or block is that of an opener, and has variables for what the opener declares. -/
theorem opener_of_code (h : Resolved p a) (hs : a.scopes.IsCode s) : ∃ o code outer k, a.scopeOf? o = some s ∧
    p.code? o = some code ∧ a.scopes.Entered s outer k code.params code.temps := by
  obtain ⟨a₀, hready, hsteps⟩ := h.run
  obtain ⟨ev, hev, hsite⟩ := enters hready hsteps hs
  cases ev with
  | method cls place =>
    have hscope : a.scopeOf? (.method cls place) = some s := by simpa [Event.sites] using hsite
    obtain ⟨m, info, scope, hm, -, hscope', hentered⟩ := hsteps.started hready.outline.wf hev
    rw [hscope] at hscope'
    cases hscope'
    exact ⟨_, m.code, _, _, hscope, by rw [Program.code?, hm, Option.map_some], hentered⟩
  | node o role b =>
    rcases Event.mem_sites_node.1 hsite with ⟨_, _, -, -, he⟩ | ⟨params, temps, body, s', hb, hscope, he⟩ | ⟨_, _, -, -, he⟩
    · cases he
    · cases he
      have hcode : p.arena.blockCode? b = some ⟨params, temps, body⟩ := Arena.blockCode?_eq_some.2 hb
      obtain ⟨scope, outer, hscope', -, -, -, hentered⟩ :=
        hsteps.opened hready.outline.wf h.parsed.forest.nodup_events hev hcode
      rw [hscope] at hscope'
      cases hscope'
      exact ⟨_, _, outer, _, hscope, hcode, hentered⟩
    · cases he

/-- The openers around an event have their scopes, each inside the next. -/
theorem placed (h : Resolved p a) (haround : p.Around id openers) (hev : .node o role id ∈ p.events)
    (ho : openers.head? = some o) (hU : a.scopeOf? o = some U) : Placed p a openers U := by
  obtain ⟨a₀, hready, hsteps⟩ := h.run
  -- By induction outwards: the block around an event has its own event, in the next opener.
  induction haround generalizing o role U with
  | @method id cls place hencl =>
    cases ho
    obtain ⟨code, hcode, -⟩ := hencl
    obtain ⟨m', hm', -⟩ := Option.map_eq_some_iff.1 hcode
    obtain ⟨m, info, scope, hm, hi, hscope, hentered⟩ := hsteps.started hready.outline.wf (Program.event_of_method hm')
    rw [hU] at hscope
    cases hscope
    exact .method hm hi hU hentered
  | @block id b outer hencl rest ih =>
    cases ho
    obtain ⟨code, hcode, -⟩ := hencl
    obtain ⟨o', role', hev'⟩ := Program.event_of_block hev
    obtain ⟨scope, S, hscope, hS, -, -, hentered⟩ := hsteps.opened hready.outline.wf h.parsed.forest.nodup_events hev' hcode
    rw [hU] at hscope
    cases hscope
    obtain ⟨outer', haround'⟩ := Program.around_of_event hev'
    obtain rfl := h.parsed.forest.around_unique rest haround'
    exact .block hcode hU hentered (ih hev' rfl hS)

/-- A name at the time when it is met: it is found as in the end, and a target may be assigned to. -/
theorem at_use (h : Resolved p a) {pre post : List Event} (hevents : p.events = pre ++ .node o role e :: post)
    (hb : Bound p a e o role name U found) : ∃ a₀ c, Ready p a₀ ∧ Steps p a.scopeOf? a₀ pre c ∧ c.scopes.Wf ∧
      c.scopes.Grows a.scopes ∧ c.scopes.IsCode U ∧ c.scopes.find U name false = some found ∧
      (role = .target → ∃ v, c.scopes.var? found.var = some v ∧ v.writable) := by
  obtain ⟨a₀, hready, hsteps⟩ := h.run
  rw [hevents] at hsteps
  obtain ⟨c, d, hpre, hstep, hpost, hwc, hwa, hgd, hga⟩ := hsteps.wf_at_event hready.outline.wf
  have hg := hgd.trans hga
  cases hstep with
  | @use _ _ _ name' U' found' he ho hcode hf hwrite =>
    rw [hb.ident] at he
    cases he
    rw [hb.scope] at ho
    cases ho
    have ⟨o', k', f', hs⟩ := hcode
    have hfound : found' = found := by
      have := hg.find_eq (r := false) hwc.nested hwa.nested hwc.listed (h.parsed.named e name hb.ident) hs
      rw [hb.find, hf] at this
      exact (Option.some.inj this).symm
    subst hfound
    exact ⟨a₀, c, hready, hpre, hwc, hg, hcode, hf, hwrite⟩
  | block hb' =>
    have := hb.ident
    rw [Arena.blockCode?_eq_some.1 hb'] at this
    cases this
  | other hi => exact absurd hb.ident (hi name)

/-- A name that is assigned to refers to a variable that may be. -/
theorem writable (h : Resolved p a) (hb : Bound p a e o .target name U found) :
    ∃ v, a.scopes.var? found.var = some v ∧ v.writable := by
  obtain ⟨pre, post, hevents⟩ := List.append_of_mem hb.event
  obtain ⟨a₀, c, -, -, -, hg, -, -, hwrite⟩ := h.at_use hevents hb
  obtain ⟨v, hv, hw⟩ := hwrite rfl
  obtain ⟨level, hv'⟩ := hg.vars _ v hv
  exact ⟨_, hv', hw⟩

/-- The owner of what a name refers to is opened before the name is met. -/
theorem entered_before (h : Resolved p a) {pre post : List Event} (hevents : p.events = pre ++ .node o role e :: post)
    (hb : Bound p a e o role name U found) (hv : a.scopes.var? (a.scopes.realVar found.var) = some v)
    (hcode : a.scopes.IsCode v.scope) : ∃ ev ∈ pre, .enter v.scope ∈ ev.sites p.arena a.scopeOf? := by
  obtain ⟨a₀, c, hready, hpre, hwc, hg, ⟨o', k', f', hs⟩, hf, -⟩ := h.at_use hevents hb
  -- At that time the owner is around the use, so it is there, and then it was opened.
  obtain ⟨v', hv', hU, -⟩ := hwc.find_spec hf
  obtain ⟨w, hw⟩ := hwc.var_of_find hf
  rw [hg.realVar_eq hw] at hv
  obtain ⟨level, hv''⟩ := hg.vars _ v' hv'
  rw [hv] at hv''
  cases hv''
  obtain ⟨sv, hsv⟩ := hU.scope hwc.nested hs
  exact enters hready hpre (hcode.of_grows hg hsv)

end Resolved
end BlockScope
