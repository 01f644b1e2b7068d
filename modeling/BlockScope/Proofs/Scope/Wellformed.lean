import BlockScope.Proofs.Scope.Growth
/-!
# Well-formed trees

What holds of a tree all the time while names are resolved: scopes list variables of their own, each of the
kind that the list is for, and a name of an inlined block stands for a local of the scope that hosts the
block. `Wf.update` reduces a change of frames to the frames that changed.
-/
namespace BlockScope
namespace ScopeTree

/-- The variable belongs to the scope, is of this kind and stands for itself. -/
def Owns (t : ScopeTree) (id : ScopeId) (kind : VarKind) (x : VarId) : Prop :=
  ∃ v, t.var? x = some v ∧ v.scope = id ∧ v.kind = kind ∧ v.aliasOf = none

/-- The variable is a name of the inlined block and stands for a local of its host. -/
def Aliases (t : ScopeTree) (id : ScopeId) (x : VarId) : Prop :=
  ∃ v slot host f, t.var? x = some v ∧ v.scope = id ∧ v.kind = .inlined ∧ v.aliasOf = some slot ∧
    t.HostedBy id host ∧ t.frame? host = some f ∧ slot ∈ f.locals

theorem Owns.direct {t : ScopeTree} {id : ScopeId} {kind : VarKind} {x : VarId} (h : t.Owns id kind x) : t.Direct x := by
  obtain ⟨v, hv, -, -, ha⟩ := h
  intro v' slot w hv' ha'
  rw [hv] at hv'
  cases hv'
  rw [ha] at ha'
  cases ha'

structure FrameWf (t : ScopeTree) (id : ScopeId) (k : CodeKind) (f : Frame) : Prop where
  arguments : ∀ x ∈ f.arguments, t.Owns id .argument x
  locals : ∀ x ∈ f.locals, t.Owns id .temporary x
  inlined : ∀ x ∈ f.inlined, t.Aliases id x
  idle : f.heapvars = [] ∧ f.usingHeapvarsFrom = [] ∧ f.copyingVars = []
  bare : k = .inlinedBlock → f.arguments = [] ∧ f.locals = []
  plain : k ≠ .inlinedBlock → f.inlined = []

structure Wf (t : ScopeTree) : Prop where
  nested : t.Nested
  root : ∀ id o members, t.scope? id = some ⟨o, .root members⟩ → ∀ x ∈ members, t.Owns id .member x
  side : ∀ id o c b receiver slots, t.scope? id = some ⟨o, .side c b receiver slots⟩ →
    t.Owns id .receiver receiver ∧ ∀ x ∈ slots, t.Owns id .slot x
  code : ∀ id o k f, t.scope? id = some ⟨o, .code k f⟩ → t.FrameWf id k f
  hosted : ∀ id o k f, t.scope? id = some ⟨o, .code k f⟩ → ∃ host f', t.HostedBy id host ∧ t.frame? host = some f'
  madeUp : ∀ x v slot, t.var? x = some v → v.aliasOf = some slot → t.MadeUp slot

/-- The second tree has everything of the first: only levels and frames change, and locals stay listed. -/
structure Keeps (t t' : ScopeTree) : Prop where
  vars : ∀ x v, t.var? x = some v → ∃ level, t'.var? x = some { v with remote := level }
  scopes : ∀ id s, t.scope? id = some s → ∃ f, t'.scope? id = some (s.mapFrame f) ∧
    ∀ frame, s.frame? = some frame → ∀ x ∈ frame.locals, x ∈ (f frame).locals

variable {t t' : ScopeTree} {id o host : ScopeId} {k : CodeKind} {f f' : Frame} {x : VarId} {kind : VarKind}
  {v : Variable} {s : Scope}

theorem Grows.keeps (h : t.Grows t') : t.Keeps t' := by
  refine ⟨h.vars, fun id s hs => ?_⟩
  obtain ⟨slots, -, hs'⟩ := h.scopes id s hs
  exact ⟨_, hs', fun frame _ x hx => List.mem_append_left _ hx⟩

/-- Listing a new variable keeps everything. -/
theorem keeps_addListed (t : ScopeTree) (v : Variable) (list : VarId → Frame → Frame)
    (hlist : ∀ x f y, y ∈ f.locals → y ∈ (list x f).locals) : t.Keeps (t.addListed v list).2 := by
  constructor
  · intro x w hw
    exact ⟨w.remote, var?_addListed_of_var? v list hw⟩
  · intro id s hs
    rw [scope?_addListed, hs]
    by_cases h : id = v.scope
    · exact ⟨_, by rw [if_pos h]; rfl, fun frame _ y hy => hlist _ _ y hy⟩
    · refine ⟨fun f => f, ?_, fun _ _ _ hy => hy⟩
      rw [if_neg h, Scope.mapFrame_eq_self _ _ fun _ => rfl]

namespace Keeps

theorem outer? (h : t.Keeps t') (hs : t.scope? id = some s) : t'.outer? id = t.outer? id := by
  obtain ⟨g, hg, -⟩ := h.scopes id s hs
  simp [ScopeTree.outer?, hs, hg]

theorem isInlined (h : t.Keeps t') (hs : t.scope? id = some s) :
    t'.scopeIs (·.isInlined) id = t.scopeIs (·.isInlined) id := by
  obtain ⟨g, hg, -⟩ := h.scopes id s hs
  simp [scopeIs, hs, hg]

theorem owns (h : t.Keeps t') (ho : t.Owns id kind x) : t'.Owns id kind x := by
  obtain ⟨v, hv, hscope, hkind, halias⟩ := ho
  obtain ⟨level, hv'⟩ := h.vars x v hv
  exact ⟨_, hv', hscope, hkind, halias⟩

theorem hostedBy (h : t.Keeps t') (hn : t.Nested) (hs : t.scope? id = some s) (hh : t.HostedBy id host) :
    t'.HostedBy id host := by
  induction hh generalizing s with
  | here hi => exact .here (by rw [h.isInlined hs, hi])
  | outer hi ho _ ih =>
    obtain ⟨s', hs'⟩ := hn.scope_outer ho
    exact .outer (by rw [h.isInlined hs, hi]) (by rw [h.outer? hs, ho]) (ih hs')

theorem frame (h : t.Keeps t') (hf : t.frame? id = some f) :
    ∃ f', t'.frame? id = some f' ∧ ∀ x ∈ f.locals, x ∈ f'.locals := by
  obtain ⟨o, k, hs⟩ := scope_of_frame hf
  obtain ⟨g, hg, hlocals⟩ := h.scopes id _ hs
  exact ⟨g f, by rw [frame?_of_scope hg]; rfl, hlocals f rfl⟩

theorem aliases (h : t.Keeps t') (hn : t.Nested) (hs : t.scope? id = some s) (ha : t.Aliases id x) :
    t'.Aliases id x := by
  obtain ⟨v, slot, host, f, hv, hscope, hkind, halias, hhost, hf, hslot⟩ := ha
  obtain ⟨level, hv'⟩ := h.vars x v hv
  obtain ⟨f', hf', hlocals⟩ := h.frame hf
  exact ⟨_, slot, host, f', hv', hscope, hkind, halias, h.hostedBy hn hs hhost, hf', hlocals slot hslot⟩

theorem frameWf (h : t.Keeps t') (hn : t.Nested) (hs : t.scope? id = some s) (hf : t.FrameWf id k f) :
    t'.FrameWf id k f where
  arguments x hx := h.owns (hf.arguments x hx)
  locals x hx := h.owns (hf.locals x hx)
  inlined x hx := h.aliases hn hs (hf.inlined x hx)
  idle := hf.idle
  bare := hf.bare
  plain := hf.plain

theorem madeUp (h : t.Keeps t') (hx : t.MadeUp x) : t'.MadeUp x := by
  obtain ⟨w, hw, hname⟩ := hx
  obtain ⟨level, hw'⟩ := h.vars x w hw
  exact ⟨_, hw', hname⟩

end Keeps

theorem mapFrame_inv {g : Frame → Frame} {b : ScopeBody} {o' : Option ScopeId} (h : s.mapFrame g = ⟨o', b⟩) :
    s.outer = o' ∧ ((∃ k f, s.body = .code k f ∧ b = .code k (g f)) ∨ ((∀ k f, s.body ≠ .code k f) ∧ s.body = b)) := by
  unfold Scope.mapFrame at h
  cases hb : s.body with
  | code k f =>
    rw [hb] at h
    cases h
    exact ⟨rfl, .inl ⟨k, f, rfl, rfl⟩⟩
  | root members =>
    rw [hb] at h
    cases h
    exact ⟨rfl, .inr ⟨nofun, hb.symm⟩⟩
  | side c d receiver slots =>
    rw [hb] at h
    cases h
    exact ⟨rfl, .inr ⟨nofun, hb.symm⟩⟩

/-- A method or block was one of the same kind before its frame changed. -/
theorem SameShape.code_of_code {o : Option ScopeId} (h : t.SameShape t') (hs : t'.scope? id = some ⟨o, .code k f'⟩) :
    ∃ f, t.scope? id = some ⟨o, .code k f⟩ := by
  cases hs₀ : t.scope? id with
  | none =>
    rw [h.none id hs₀] at hs
    cases hs
  | some s =>
    obtain ⟨g, hg⟩ := h.scope id s hs₀
    rw [hs] at hg
    obtain ⟨ho, ⟨k', f, hb, hb'⟩ | ⟨hne, hb⟩⟩ := mapFrame_inv (Option.some.inj hg).symm
    · cases hb'
      cases s
      cases ho
      cases hb
      exact ⟨f, rfl⟩
    · exact absurd hb (hne _ _)

/-- A tree without new scopes is well formed again if its changed frames are. -/
theorem Wf.update (hw : t.Wf) (hk : t.Keeps t') (hsize : t'.scopes.size = t.scopes.size)
    (hcode : ∀ id o k f f', t.scope? id = some ⟨o, .code k f⟩ → t'.scope? id = some ⟨o, .code k f'⟩ → t'.FrameWf id k f')
    (hmade : ∀ x v slot, t'.var? x = some v → v.aliasOf = some slot → t'.MadeUp slot) : t'.Wf := by
  -- Every scope of the new tree is one of the old tree with another frame.
  have hold : ∀ id o b, t'.scope? id = some ⟨o, b⟩ →
      (∃ k f f', t.scope? id = some ⟨o, .code k f⟩ ∧ b = .code k f') ∨
        ((∀ k f, b ≠ .code k f) ∧ t.scope? id = some ⟨o, b⟩) := by
    intro id o b h
    obtain ⟨⟨o', b'⟩, hs⟩ : ∃ s, t.scope? id = some s := scope?_of_lt (by have := scope?_lt h; omega)
    obtain ⟨g, hg, -⟩ := hk.scopes id _ hs
    rw [h] at hg
    obtain ⟨ho, ⟨k, f, hb, hb'⟩ | ⟨hne, hb⟩⟩ := mapFrame_inv (Option.some.inj hg).symm
    · cases ho
      cases hb
      exact .inl ⟨k, f, g f, hs, hb'⟩
    · cases ho
      cases hb
      exact .inr ⟨hne, hs⟩
  constructor
  case nested =>
    intro id o ho
    obtain ⟨s', hs', ho'⟩ := scope_of_outer ho
    obtain ⟨s, hs⟩ : ∃ s, t.scope? id = some s := scope?_of_lt (by have := scope?_lt hs'; omega)
    rw [hk.outer? hs] at ho
    exact hw.nested id o ho
  case root =>
    intro id o members h x hx
    rcases hold id o _ h with ⟨_, _, _, -, hb⟩ | ⟨-, hs⟩
    · cases hb
    · exact hk.owns (hw.root id o members hs x hx)
  case side =>
    intro id o c b receiver slots h
    rcases hold id o _ h with ⟨_, _, _, -, hb⟩ | ⟨-, hs⟩
    · cases hb
    · obtain ⟨hr, hslots⟩ := hw.side id o c b receiver slots hs
      exact ⟨hk.owns hr, fun x hx => hk.owns (hslots x hx)⟩
  case code =>
    intro id o k f' h
    rcases hold id o _ h with ⟨k', f, _, hs, hb⟩ | ⟨hne, -⟩
    · cases hb
      exact hcode id o k f f' hs h
    · exact absurd rfl (hne k f')
  case hosted =>
    intro id o k f' h
    rcases hold id o _ h with ⟨k', f, _, hs, hb⟩ | ⟨hne, -⟩
    · cases hb
      obtain ⟨host, fh, hh, hfh⟩ := hw.hosted id o k f hs
      obtain ⟨fh', hfh', -⟩ := hk.frame hfh
      exact ⟨host, fh', hk.hostedBy hw.nested hs hh, hfh'⟩
    · exact absurd rfl (hne k f')
  case madeUp => exact hmade

theorem Wf.listed (hw : t.Wf) : t.Listed := by
  have owned : ∀ {id kind x}, t.Owns id kind x → (t.var? x).isSome := by
    rintro id kind x ⟨v, hv, -⟩
    simp [hv]
  intro id s hs
  obtain ⟨o, body⟩ := s
  cases body with
  | root members => exact fun x hx => owned (hw.root id o members hs x hx)
  | side c b receiver slots => exact fun x hx => owned ((hw.side id o c b receiver slots hs).2 x hx)
  | code k f =>
    have hf := hw.code id o k f hs
    intro x hx
    simp only [hf.idle.1, List.nil_append, List.mem_append] at hx
    rcases hx with (hx | hx) | hx
    · exact owned (hf.arguments x hx)
    · exact owned (hf.locals x hx)
    · obtain ⟨v, -, -, -, hv, -⟩ := hf.inlined x hx
      simp [hv]

/-- What is found stands for itself, or is a name of an inlined block. -/
theorem Wf.owns_or_aliases {U : ScopeId} {name : String} {r : Bool} {found : Found} (hw : t.Wf)
    (h : t.find U name r = some found) : (∃ id kind, t.Owns id kind found.var) ∨ ∃ id, t.Aliases id found.var := by
  obtain ⟨D, ⟨o, body⟩, remote, -, hs, hfind, -⟩ := hw.nested.find_cases h
  cases foundIn_of_findIn hfind with
  | member hx => exact .inl ⟨D, _, hw.root D o _ hs _ hx⟩
  | receiver => exact .inl ⟨D, _, (hw.side D o _ _ _ _ hs).1⟩
  | slot hx => exact .inl ⟨D, _, (hw.side D o _ _ _ _ hs).2 _ hx⟩
  | code hx =>
    have hf := hw.code D o _ _ hs
    simp only [hf.idle.1, List.nil_append, List.mem_append] at hx
    rcases hx with (hx | hx) | hx
    · exact .inl ⟨D, _, hf.arguments _ hx⟩
    · exact .inl ⟨D, _, hf.locals _ hx⟩
    · exact .inr ⟨D, hf.inlined _ hx⟩

/-- What is found is there. -/
theorem Wf.var_of_find {U : ScopeId} {name : String} {r : Bool} {found : Found} (hw : t.Wf)
    (h : t.find U name r = some found) : ∃ v, t.var? found.var = some v := by
  rcases hw.owns_or_aliases h with ⟨-, -, v, hv, -⟩ | ⟨-, v, -, -, -, hv, -⟩
  · exact ⟨v, hv⟩
  · exact ⟨v, hv⟩

/-- The slot of a name of an inlined block is a local of the host, which stands for itself. -/
theorem Wf.direct_of_aliases (hw : t.Wf) (h : t.Aliases id x) : t.Direct x := by
  obtain ⟨v, slot, host, f, hv, -, -, ha, -, hf, hslot⟩ := h
  obtain ⟨o, k, hs⟩ := scope_of_frame hf
  obtain ⟨w, hw', -, -, hself⟩ := (hw.code host o k f hs).locals slot hslot
  intro v₁ slot₁ w₁ hv₁ ha₁ hw₁
  rw [hv] at hv₁
  cases hv₁
  rw [ha] at ha₁
  cases ha₁
  rw [hw'] at hw₁
  cases hw₁
  exact hself

theorem Wf.direct_of_find {U : ScopeId} {name : String} {r : Bool} {found : Found} (hw : t.Wf)
    (h : t.find U name r = some found) : t.Direct found.var := by
  rcases hw.owns_or_aliases h with ⟨_, _, h⟩ | ⟨_, h⟩
  · exact h.direct
  · exact hw.direct_of_aliases h

end ScopeTree
end BlockScope
