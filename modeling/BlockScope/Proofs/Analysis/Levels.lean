import BlockScope.Proofs.Analysis.Tables
/-!
# How far away variables are used

A variable reaches a level while names are resolved if some use from the far side of a closure has that level
(`Steps.reaches_iff`). Which uses are such is read off the tree: `Wf.find_spec` says of what a name is found as
where its storage is, and that the use is remote if a closure lies on the way there.
-/
namespace BlockScope

/-- The first level is the second or a higher one. -/
def RemoteAccess.Reaches (r level : RemoteAccess) : Prop := r.max level = r

/-- The level of one use. -/
def RemoteAccess.ofUse (forWrite : Bool) : RemoteAccess := if forWrite then .written else .read

theorem reaches_mark (v : Variable) (forWrite : Bool) {level : RemoteAccess} :
    (v.mark forWrite).remote.Reaches level ↔ v.remote.Reaches level ∨ (RemoteAccess.ofUse forWrite).Reaches level := by
  unfold Variable.mark RemoteAccess.ofUse RemoteAccess.Reaches
  cases v.remote <;> cases forWrite <;> cases level <;> simp [RemoteAccess.max]

theorem reaches_written {r : RemoteAccess} : r.Reaches .written ↔ r = .written := by
  unfold RemoteAccess.Reaches
  cases r <;> simp [RemoteAccess.max]

theorem reaches_read {r : RemoteAccess} : r.Reaches .read ↔ r ≠ .none := by
  unfold RemoteAccess.Reaches
  cases r <;> simp [RemoteAccess.max]

theorem not_reaches_none {level : RemoteAccess} (h : level ≠ .none) : ¬ RemoteAccess.none.Reaches level := by
  unfold RemoteAccess.Reaches
  cases level <;> simp_all [RemoteAccess.max]

/-- The kinds of variables that no method or block stores: the receiver, instance variables and classes. -/
def VarKind.IsFixed (kind : VarKind) : Prop := kind = .receiver ∨ kind = .slot ∨ kind = .member

/-- The kinds of variables that methods and blocks store. -/
def VarKind.IsStored (kind : VarKind) : Prop := kind = .argument ∨ kind = .temporary ∨ kind = .heap

namespace ScopeTree
variable {t : ScopeTree} {U : ScopeId} {name : String} {found : Found} {x : VarId} {v : Variable}

/-! ## Where a name is found -/

/-- The variable is a parameter or local of the scope that owns it. -/
def Holds (t : ScopeTree) (x : VarId) (v : Variable) : Prop :=
  ∃ f, t.frame? v.scope = some f ∧ x ∈ f.arguments ++ f.locals

/-- What a name of a frame stands for, and where that is: in the frame itself, or with only inlined blocks on the
way. -/
theorem Wf.frame_spec {D : ScopeId} {o : Option ScopeId} {k : CodeKind} {f : Frame} (hw : t.Wf)
    (hs : t.scope? D = some ⟨o, .code k f⟩) (hx : x ∈ f.heapvars ++ f.arguments ++ f.locals ++ f.inlined) :
    ∃ v, t.var? (t.realVar x) = some v ∧ t.Holds (t.realVar x) v ∧ (v.kind = .argument ∨ v.kind = .temporary) ∧
      t.Within D v.scope ∧ ∀ s, t.Between D s v.scope → t.scopeIs (·.isInlined) s := by
  have hf := hw.code D o k f hs
  have hown : ∀ kind, t.Owns D kind x → (kind = .argument ∨ kind = .temporary) → x ∈ f.arguments ++ f.locals →
      ∃ v, t.var? (t.realVar x) = some v ∧ t.Holds (t.realVar x) v ∧ (v.kind = .argument ∨ v.kind = .temporary) ∧
        t.Within D v.scope ∧ ∀ s, t.Between D s v.scope → t.scopeIs (·.isInlined) s := by
    rintro kind ⟨v, hv, rfl, rfl, ha⟩ hkind hmem
    rw [realVar_of_no_alias hv ha]
    exact ⟨v, hv, ⟨f, frame?_of_scope hs, hmem⟩, hkind, .refl _, fun s hb => absurd hb (Between.not_refl hw.nested)⟩
  simp only [hf.idle.1, List.nil_append, List.mem_append] at hx
  rcases hx with (hx | hx) | hx
  · exact hown _ (hf.arguments x hx) (.inl rfl) (List.mem_append_left _ hx)
  · exact hown _ (hf.locals x hx) (.inr rfl) (List.mem_append_right _ hx)
  -- A name of an inlined block stands for a local of the host, with inlined blocks only on the way there.
  · obtain ⟨v, slot, host, fh, hv, -, -, ha, hhost, hfh, hslot⟩ := hf.inlined x hx
    obtain ⟨oh, kh, hsh⟩ := scope_of_frame hfh
    obtain ⟨w, hw', hscope, hkind, -⟩ := (hw.code host oh kh fh hsh).locals slot hslot
    rw [(hw.direct_of_aliases (hf.inlined x hx)).realVar_eq hv ha]
    subst hscope
    exact ⟨w, hw', ⟨fh, hfh, List.mem_append_right _ hslot⟩, .inr hkind, hhost.within,
      fun s hb => hhost.inlined_of_between hw.nested hb⟩

theorem not_inlined_of_trueBlock {s : ScopeId} (h : t.scopeIs (·.isTrueBlock) s) : ¬ t.scopeIs (·.isInlined) s := by
  intro h'
  cases hs : t.scope? s with
  | none => simp [scopeIs, hs] at h
  | some sc =>
    rw [scopeIs_of_scope hs] at h h'
    simp only [Scope.isTrueBlock, Scope.isInlined, decide_eq_true_eq] at h h'
    rw [h] at h'
    cases h'

/-- Inlined blocks on the rest of the way add no closure. -/
theorem Nested.closure_between {D host : ScopeId} (hn : t.Nested) (hU : t.Within U D) (hD : t.Within D host)
    (hrest : ∀ s, t.Between D s host → t.scopeIs (·.isInlined) s) :
    (∃ s, t.Between U s D ∧ t.scopeIs (·.isTrueBlock) s) ↔ ∃ s, t.Between U s host ∧ t.scopeIs (·.isTrueBlock) s := by
  constructor
  · rintro ⟨s, hb, hs⟩
    refine ⟨s, ⟨hb.start, hb.stop.trans hD, ?_⟩, hs⟩
    rintro rfl
    exact hb.ne (hb.stop.antisymm hn hD)
  · rintro ⟨s, hb, hs⟩
    rcases hb.start.total hU with h | h
    · by_cases hsD : s = D
      · subst hsD
        exact absurd (hrest s ⟨.refl _, hb.stop, hb.ne⟩) (not_inlined_of_trueBlock hs)
      · exact ⟨s, ⟨hb.start, h, hsD⟩, hs⟩
    · exact absurd (hrest s ⟨h, hb.stop, hb.ne⟩) (not_inlined_of_trueBlock hs)

/-- The storage behind a found name is of a method or block, used remotely if a closure lies on the way, or it is
none of these. -/
inductive Located (t : ScopeTree) (U : ScopeId) (found : Found) (v : Variable) : Prop where
  | stored {D : ScopeId} {r : Bool} (place : found.place = .frame D r) (holds : t.Holds (t.realVar found.var) v)
    (kind : v.kind = .argument ∨ v.kind = .temporary)
    (remote : r = true ↔ ∃ s, t.Between U s v.scope ∧ t.scopeIs (·.isTrueBlock) s)
  | fixed (place : ∀ D r, found.place ≠ .frame D r) (kind : v.kind.IsFixed) (frame : t.frame? v.scope = none)

theorem Wf.find_spec (hw : t.Wf) (h : t.find U name false = some found) :
    ∃ v, t.var? (t.realVar found.var) = some v ∧ t.Within U v.scope ∧ t.Located U found v := by
  obtain ⟨D, ⟨o, body⟩, remote, hD, hs, hfind, -, hremote⟩ := hw.nested.find_cases h
  have hfixed : ∀ kind, kind.IsFixed → t.Owns D kind found.var → (∀ k f, body ≠ .code k f) →
      (∀ D r, found.place ≠ .frame D r) →
      ∃ v, t.var? (t.realVar found.var) = some v ∧ t.Within U v.scope ∧ t.Located U found v := by
    rintro kind hkind ⟨v, hv, rfl, rfl, ha⟩ hbody hplace
    refine ⟨v, by rw [realVar_of_no_alias hv ha, hv], hD, .fixed hplace hkind ?_⟩
    rw [frame?_of_scope hs, Scope.frame?]
    cases body with
    | code k f => exact absurd rfl (hbody k f)
    | root | side => rfl
  cases foundIn_of_findIn hfind with
  | member hx => exact hfixed .member (.inr (.inr rfl)) (hw.root D o _ hs _ hx) (by simp) (by simp)
  | receiver => exact hfixed .receiver (.inl rfl) (hw.side D o _ _ _ _ hs).1 (by simp) (by simp)
  | slot hx => exact hfixed .slot (.inr (.inl rfl)) ((hw.side D o _ _ _ _ hs).2 _ hx) (by simp) (by simp)
  | code hx =>
    obtain ⟨v, hv, hholds, hkind, hhost, hrest⟩ := hw.frame_spec hs hx
    refine ⟨v, hv, hD.trans hhost, .stored rfl hholds hkind ?_⟩
    -- The flag was set on the way to the scope of the name; the owner of the storage may be further out.
    rw [hremote, hw.nested.closure_between hD hhost hrest]
    simp

end ScopeTree

/-! ## Levels reached -/

/-- The event is a use of the variable from the far side of a closure. -/
def Event.Uses (p : Program) (scopeOf : Opener → Option ScopeId) (t : ScopeTree) (ev : Event) (forWrite : Bool) (x : VarId) :
    Prop :=
  ∃ o role id name scope found, ev = .node o role id ∧ forWrite = decide (role = .target) ∧
    p.arena.expr? id = some (.ident name) ∧ scopeOf o = some scope ∧ t.find scope name false = some found ∧ t.Hits found x

section
variable {p : Program} {scopeOf : Opener → Option ScopeId} {a b : Analysis} {ev : Event} {evs : List Event} {x : VarId}
  {t t' : ScopeTree} {v : Variable} {level : RemoteAccess}

theorem ScopeTree.Grows.hits {found : Found} (hg : t.Grows t') (hv : t.var? found.var = some v) :
    t'.Hits found x ↔ t.Hits found x := by
  unfold ScopeTree.Hits
  rw [hg.realVar_eq hv]

/-- Which variables an event uses can be read off any later tree. -/
theorem Event.uses_iff {o : Opener} {role : Role} {id : NodeId} {name : String} {scope : ScopeId} {found : Found}
    {forWrite : Bool} (hw : t.Wf) (hw' : t'.Wf) (hg : t.Grows t') (hname : Spelled name)
    (he : p.arena.expr? id = some (.ident name)) (ho : scopeOf o = some scope) (hcode : t.IsCode scope)
    (hf : t.find scope name false = some found) :
    (Event.node o role id).Uses p scopeOf t' forWrite x ↔ forWrite = decide (role = .target) ∧ t.Hits found x := by
  have ⟨o', k', f', hs⟩ := hcode
  have hf' : t'.find scope name false = some found := by
    rw [hg.find_eq hw.nested hw'.nested hw.listed hname hs, hf]
  obtain ⟨v, hv⟩ := hw.var_of_find hf
  constructor
  · rintro ⟨_, _, _, name', scope', found', hev, hforWrite, he', ho', hfind, hhits⟩
    cases hev
    rw [he] at he'
    cases he'
    rw [ho] at ho'
    cases ho'
    rw [hf'] at hfind
    cases hfind
    exact ⟨hforWrite, (hg.hits hv).1 hhits⟩
  · rintro ⟨hforWrite, hhits⟩
    exact ⟨o, role, id, name, scope, found, rfl, hforWrite, he, ho, hf', (hg.hits hv).2 hhits⟩

/-- A level is reached at a step by being reached before it, or by its use. -/
theorem Step.reaches_iff (h : Step p scopeOf a ev b) (hlevel : level ≠ .none) (hw : a.scopes.Wf) (hw' : t.Wf)
    (hg : a.scopes.Grows t) (hnamed : ∀ id name, p.arena.expr? id = some (.ident name) → Spelled name) :
    (∃ v, b.scopes.var? x = some v ∧ v.remote.Reaches level) ↔
      (∃ v, a.scopes.var? x = some v ∧ v.remote.Reaches level) ∨
        ∃ forWrite, ev.Uses p scopeOf t forWrite x ∧ (RemoteAccess.ofUse forWrite).Reaches level := by
  -- An event that is no name uses nothing, and what it makes is used nowhere yet.
  have fresh : (∀ forWrite, ¬ ev.Uses p scopeOf t forWrite x) → a.scopes.Fresh b.scopes →
      ((∃ v, b.scopes.var? x = some v ∧ v.remote.Reaches level) ↔
        (∃ v, a.scopes.var? x = some v ∧ v.remote.Reaches level) ∨
          ∃ forWrite, ev.Uses p scopeOf t forWrite x ∧ (RemoteAccess.ofUse forWrite).Reaches level) := by
    intro hno hfresh
    simp only [hno, false_and, exists_false, or_false]
    rcases hfresh x with h | ⟨hnone, v, hv, hr⟩
    · rw [h]
    · simp only [hnone, hv, reduceCtorEq, false_and, exists_false, iff_false, Option.some.injEq, exists_eq_left']
      rw [hr]
      exact not_reaches_none hlevel
  cases h with
  | method hm hinfo hscope hside hopens =>
    refine fresh ?_ (hopens.spec hw hside nofun).2.2.1
    rintro forWrite ⟨_, _, _, _, _, _, hev, -⟩
    cases hev
  | block hb hscope ho hcode hopens =>
    obtain ⟨o', k', f', hs⟩ := hcode
    refine fresh ?_ (hopens.spec hw hs fun _ => ⟨k', f', rfl⟩).2.2.1
    rintro forWrite ⟨_, _, _, _, _, _, hev, -, he, -⟩
    cases hev
    rw [Arena.blockCode?_eq_some.1 hb] at he
    cases he
  | other hi hb =>
    refine fresh ?_ (.refl _)
    rintro forWrite ⟨_, _, _, name, _, _, hev, -, he, -⟩
    cases hev
    exact hi name he
  | @use o role id name scope found he ho hcode hf hwrite =>
    simp only [Event.uses_iff hw hw' hg (hnamed id name he) he ho hcode hf]
    by_cases hh : a.scopes.Hits found x
    · obtain ⟨v, hv, -⟩ := hw.find_spec hf
      rw [hh.2] at hv
      simp [ScopeTree.var?_markFound_of_hits hh, hv, hh, reaches_mark]
    · simp [ScopeTree.var?_markFound_of_not_hits hh, hh]

/-- A level is reached in a run by being reached before it, or by one of its uses. -/
theorem Steps.reaches_iff (h : Steps p scopeOf a evs b) (hlevel : level ≠ .none) (hw : a.scopes.Wf)
    (hnamed : ∀ id name, p.arena.expr? id = some (.ident name) → Spelled name) :
    (∃ v, b.scopes.var? x = some v ∧ v.remote.Reaches level) ↔
      (∃ v, a.scopes.var? x = some v ∧ v.remote.Reaches level) ∨
        ∃ ev ∈ evs, ∃ forWrite, ev.Uses p scopeOf b.scopes forWrite x ∧ (RemoteAccess.ofUse forWrite).Reaches level := by
  induction h with
  | nil => simp
  | cons h rest ih =>
    -- The uses are read off the tree at the end, which has grown out of the one at the event.
    obtain ⟨hw₁, hg₁⟩ := h.wf_grows hw
    obtain ⟨hw₂, hg₂⟩ := rest.wf_grows hw₁
    rw [ih hw₁, h.reaches_iff hlevel hw hw₂ (hg₁.trans hg₂) hnamed, or_assoc]
    simp only [List.mem_cons, or_and_right, exists_or, exists_eq_left]

end
end BlockScope
