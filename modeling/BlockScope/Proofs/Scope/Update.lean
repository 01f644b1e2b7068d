import BlockScope.Proofs.Scope.Chain
import BlockScope.Scope.Storage
/-!
# Looking at an updated tree

What `scope?`, `var?` and `outer?` say after each operation on a tree. Later proofs look at trees through
these three only.
-/
namespace BlockScope

namespace Scope
variable (s : Scope) (f g : Frame → Frame)

@[simp] theorem outer_mapFrame : (s.mapFrame f).outer = s.outer := by
  unfold mapFrame
  cases s.body <;> rfl

@[simp] theorem codeKind?_mapFrame : (s.mapFrame f).codeKind? = s.codeKind? := by
  unfold mapFrame codeKind?
  cases h : s.body <;> simp [h]

@[simp] theorem isTrueBlock_mapFrame : (s.mapFrame f).isTrueBlock = s.isTrueBlock := by simp [isTrueBlock]

@[simp] theorem isInlined_mapFrame : (s.mapFrame f).isInlined = s.isInlined := by simp [isInlined]

@[simp] theorem isMethod_mapFrame : (s.mapFrame f).isMethod = s.isMethod := by simp [isMethod]

@[simp] theorem frame?_mapFrame : (s.mapFrame f).frame? = s.frame?.map f := by
  unfold mapFrame frame?
  cases h : s.body <;> simp [h]

theorem mapFrame_mapFrame : (s.mapFrame f).mapFrame g = s.mapFrame fun x => g (f x) := by
  unfold mapFrame
  cases h : s.body <;> simp [h]

theorem mapFrame_eq_self (h : ∀ x, f x = x) : s.mapFrame f = s := by
  unfold mapFrame
  cases hb : s.body <;> simp [h, ← hb]

theorem mapFrame_of_code {k : CodeKind} {frame : Frame} {o : Option ScopeId} :
    (⟨o, .code k frame⟩ : Scope).mapFrame f = ⟨o, .code k (f frame)⟩ := rfl

end Scope

namespace ScopeTree
variable {t : ScopeTree} {id id' o : ScopeId} {x y : VarId} {v : Variable} {s : Scope} {f : Frame → Frame}

theorem var?_lt (h : t.var? x = some v) : x.index < t.vars.size := (Array.getElem?_eq_some_iff.1 h).1

theorem frame?_of_scope (h : t.scope? id = some s) : t.frame? id = s.frame? := by simp [frame?, h]

theorem scope_of_frame {frame : Frame} (h : t.frame? id = some frame) :
    ∃ o k, t.scope? id = some ⟨o, .code k frame⟩ := by
  obtain ⟨⟨o, body⟩, hs, hf⟩ := Option.bind_eq_some_iff.1 h
  cases body with
  | code k frame' =>
    cases hf
    exact ⟨o, k, hs⟩
  | root members => cases hf
  | side c b receiver slots => cases hf

/-! ## Adding -/

theorem scope?_addScope (t : ScopeTree) (outer : Option ScopeId) (body : ScopeBody) (id : ScopeId) :
    (t.addScope outer body).2.scope? id = if id.index = t.scopes.size then some ⟨outer, body⟩ else t.scope? id := by
  simp only [addScope, scope?, Array.getElem?_push]

@[simp] theorem var?_addScope (t : ScopeTree) (outer : Option ScopeId) (body : ScopeBody) (x : VarId) :
    (t.addScope outer body).2.var? x = t.var? x := rfl

@[simp] theorem scope?_addVar (t : ScopeTree) (v : Variable) (id : ScopeId) : (t.addVar v).2.scope? id = t.scope? id := rfl

theorem var?_addVar (t : ScopeTree) (v : Variable) (x : VarId) :
    (t.addVar v).2.var? x = if x.index = t.vars.size then some v else t.var? x := by
  simp only [addVar, var?, Array.getElem?_push]

/-! ## Changing -/

theorem scope?_modifyScope (t : ScopeTree) (id : ScopeId) (g : Scope → Scope) (id' : ScopeId) :
    (t.modifyScope id g).scope? id' = if id' = id then (t.scope? id').map g else t.scope? id' := by
  simp only [modifyScope, scope?, Array.getElem?_modify]
  by_cases h : id' = id
  · subst h
    simp
  · have : id.index ≠ id'.index := fun h' => h (by cases id; cases id'; simp_all)
    simp [h, this]

@[simp] theorem var?_modifyScope (t : ScopeTree) (id : ScopeId) (g : Scope → Scope) (x : VarId) :
    (t.modifyScope id g).var? x = t.var? x := rfl

theorem scope?_modifyFrame (t : ScopeTree) (id : ScopeId) (f : Frame → Frame) (id' : ScopeId) :
    (t.modifyFrame id f).scope? id' = if id' = id then (t.scope? id').map (·.mapFrame f) else t.scope? id' :=
  scope?_modifyScope t id _ id'

@[simp] theorem var?_modifyFrame (t : ScopeTree) (id : ScopeId) (f : Frame → Frame) (x : VarId) :
    (t.modifyFrame id f).var? x = t.var? x := rfl

@[simp] theorem size_modifyFrame (t : ScopeTree) (id : ScopeId) (f : Frame → Frame) :
    (t.modifyFrame id f).scopes.size = t.scopes.size := by simp [modifyFrame, modifyScope]

theorem var?_modifyVar (t : ScopeTree) (x : VarId) (g : Variable → Variable) (y : VarId) :
    (t.modifyVar x g).var? y = if y = x then (t.var? y).map g else t.var? y := by
  simp only [modifyVar, var?, Array.getElem?_modify]
  by_cases h : y = x
  · subst h
    simp
  · have : x.index ≠ y.index := fun h' => h (by cases x; cases y; simp_all)
    simp [h, this]

@[simp] theorem scope?_modifyVar (t : ScopeTree) (x : VarId) (g : Variable → Variable) (id : ScopeId) :
    (t.modifyVar x g).scope? id = t.scope? id := rfl

theorem var?_addListed (t : ScopeTree) (v : Variable) (list : VarId → Frame → Frame) (x : VarId) :
    (t.addListed v list).2.var? x = if x.index = t.vars.size then some v else t.var? x := var?_addVar t v x

/-- The variables from before are still there. -/
theorem var?_addListed_of_var? {x : VarId} {w : Variable} (v : Variable) (list : VarId → Frame → Frame) (h : t.var? x = some w) :
    (t.addListed v list).2.var? x = some w := by
  have := var?_lt h
  rw [var?_addListed, if_neg (by omega), h]

theorem scope?_addListed (t : ScopeTree) (v : Variable) (list : VarId → Frame → Frame) (id : ScopeId) :
    (t.addListed v list).2.scope? id =
      if id = v.scope then (t.scope? id).map (·.mapFrame (list ⟨t.vars.size⟩)) else t.scope? id := by
  unfold addListed
  simp only
  rw [scope?_modifyFrame]
  rfl

/-! ## Changes that change nothing -/

theorem modify_congr {α : Type} {xs : Array α} {i : Nat} {g g' : α → α} (h : ∀ x, xs[i]? = some x → g x = g' x) :
    xs.modify i g = xs.modify i g' := by
  apply Array.ext_getElem?
  intro j
  rw [Array.getElem?_modify, Array.getElem?_modify]
  split
  · next hj =>
    subst hj
    exact Option.map_congr fun x hx => h x hx
  · rfl

theorem modify_eq_self {α : Type} {xs : Array α} {i : Nat} {g : α → α} (h : ∀ x, xs[i]? = some x → g x = x) :
    xs.modify i g = xs := by
  have hid : xs.modify i g = xs.modify i id := modify_congr h
  rw [hid]
  apply Array.ext_getElem?
  simp [Array.getElem?_modify]

theorem modifyVar_eq_self {g : Variable → Variable} (h : ∀ v, t.var? x = some v → g v = v) : t.modifyVar x g = t := by
  rw [modifyVar, modify_eq_self h]

theorem modifyFrame_eq_self (h : ∀ frame, t.frame? id = some frame → f frame = frame) : t.modifyFrame id f = t := by
  rw [modifyFrame, modifyScope, modify_eq_self]
  intro s hs
  have hframe : t.frame? id = s.frame? := frame?_of_scope hs
  obtain ⟨o, body⟩ := s
  cases body with
  | root | side => rfl
  | code k frame => rw [Scope.mapFrame_of_code, h frame hframe]

/-! ## What a name stands for -/

theorem realVar_of_no_alias (hv : t.var? x = some v) (ha : v.aliasOf = none) : t.realVar x = x := by
  rw [realVar, hv, Option.bind_some, ha]

/-- The variable stands for itself, or for a slot that does. -/
def Direct (t : ScopeTree) (x : VarId) : Prop :=
  ∀ v slot w, t.var? x = some v → v.aliasOf = some slot → t.var? slot = some w → w.aliasOf = none

theorem Direct.realVar_eq (h : t.Direct x) (hv : t.var? x = some v) (ha : v.aliasOf = some y) : t.realVar x = y := by
  have hself : t.realVar y = y := by
    cases hw : t.var? y with
    | none => rw [realVar, hw, Option.bind_none]
    | some w => exact realVar_of_no_alias hw (h v y w hv ha hw)
  rw [realVar, hv, Option.bind_some, ha]
  simp only [hself, ite_self]

/-- What a variable stands for is decided by the aliases of those made before it. -/
theorem realVar_congr {t' : ScopeTree}
    (h : ∀ y : VarId, y.index ≤ x.index → (t'.var? y).bind (·.aliasOf) = (t.var? y).bind (·.aliasOf)) : t'.realVar x = t.realVar x := by
  fun_induction t.realVar x with
  | case1 x slot ha hlt ih =>
    rw [realVar, h x (Nat.le_refl _), ha]
    simp only [if_pos hlt]
    exact ih fun y hy => h y (Nat.le_trans hy (Nat.le_of_lt hlt))
  | case2 x slot ha hlt =>
    rw [realVar, h x (Nat.le_refl _), ha]
    simp only [if_neg hlt]
  | case3 x ha => rw [realVar, h x (Nat.le_refl _), ha]

/-! ## Kinds and links -/

/-- Trees with the same scopes but for the contents of frames. -/
structure SameShape (t t' : ScopeTree) : Prop where
  scope : ∀ id s, t.scope? id = some s → ∃ f, t'.scope? id = some (s.mapFrame f)
  none : ∀ id, t.scope? id = none → t'.scope? id = none

namespace SameShape
variable {t' t'' : ScopeTree}

theorem refl (t : ScopeTree) : t.SameShape t := by
  refine ⟨fun id s h => ⟨fun x => x, ?_⟩, fun _ h => h⟩
  rw [h, Scope.mapFrame_eq_self _ _ fun _ => rfl]

theorem trans (h : t.SameShape t') (h' : t'.SameShape t'') : t.SameShape t'' := by
  constructor
  · intro id s hs
    obtain ⟨f, hf⟩ := h.scope id s hs
    obtain ⟨g, hg⟩ := h'.scope id _ hf
    exact ⟨_, by rw [hg, Scope.mapFrame_mapFrame]⟩
  · intro id hs
    exact h'.none id (h.none id hs)

theorem modifyFrame (t : ScopeTree) (id : ScopeId) (f : Frame → Frame) : t.SameShape (t.modifyFrame id f) := by
  constructor
  · intro id' s hs
    rw [scope?_modifyFrame, hs]
    by_cases h : id' = id
    · exact ⟨f, by simp [h]⟩
    · obtain ⟨g, hg⟩ := (refl t).scope id' s hs
      exact ⟨g, by rw [if_neg h, ← hg, hs]⟩
  · intro id' hs
    rw [scope?_modifyFrame, hs]
    simp

theorem outer? (h : t.SameShape t') (id : ScopeId) : t'.outer? id = t.outer? id := by
  cases hs : t.scope? id with
  | none => simp [ScopeTree.outer?, hs, h.none id hs]
  | some s =>
    obtain ⟨f, hf⟩ := h.scope id s hs
    simp [ScopeTree.outer?, hs, hf]

/-- Whatever the contents of frames do not matter for. -/
theorem scopeIs (h : t.SameShape t') {p : Scope → Bool} (hp : ∀ s f, p (Scope.mapFrame f s) = p s) (id : ScopeId) :
    t'.scopeIs p id = t.scopeIs p id := by
  cases hs : t.scope? id with
  | none => simp [ScopeTree.scopeIs, hs, h.none id hs]
  | some s =>
    obtain ⟨f, hf⟩ := h.scope id s hs
    simp [ScopeTree.scopeIs, hs, hf, hp]

theorem isTrueBlock (h : t.SameShape t') (id : ScopeId) :
    t'.scopeIs (·.isTrueBlock) id = t.scopeIs (·.isTrueBlock) id := h.scopeIs (fun s f => s.isTrueBlock_mapFrame f) id

theorem isInlined (h : t.SameShape t') (id : ScopeId) : t'.scopeIs (·.isInlined) id = t.scopeIs (·.isInlined) id :=
  h.scopeIs (fun s f => s.isInlined_mapFrame f) id

theorem isMethod (h : t.SameShape t') (id : ScopeId) : t'.scopeIs (·.isMethod) id = t.scopeIs (·.isMethod) id :=
  h.scopeIs (fun s f => s.isMethod_mapFrame f) id

theorem within (h : t.SameShape t') {U D : ScopeId} : t'.Within U D ↔ t.Within U D := by
  constructor
  · intro hw
    induction hw with
    | refl _ => exact .refl _
    | outer ho _ ih => exact .outer (by rw [← h.outer?, ho]) ih
  · intro hw
    induction hw with
    | refl _ => exact .refl _
    | outer ho _ ih => exact .outer (by rw [h.outer?, ho]) ih

theorem between (h : t.SameShape t') {U s D : ScopeId} : t'.Between U s D ↔ t.Between U s D :=
  ⟨fun hb => ⟨h.within.1 hb.start, h.within.1 hb.stop, hb.ne⟩, fun hb => ⟨h.within.2 hb.start, h.within.2 hb.stop, hb.ne⟩⟩

theorem nested (h : t.SameShape t') (hn : t.Nested) : t'.Nested := by
  intro id o ho
  rw [h.outer?] at ho
  exact hn id o ho

theorem chain (h : t.SameShape t') (hn : t.Nested) (id : ScopeId) : t'.chain id = t.chain id := by
  induction id using hn.induction with
  | step id ih =>
    cases ho : t.outer? id with
    | none => rw [chain_of_no_outer ho, chain_of_no_outer (by rw [h.outer?, ho])]
    | some o => rw [hn.chain_of_outer ho, (h.nested hn).chain_of_outer (by rw [h.outer?, ho]), ih o ho]

theorem frame?_eq_none (h : t.SameShape t') {id : ScopeId} (hf : t.frame? id = Option.none) : t'.frame? id = Option.none := by
  cases hs : t.scope? id with
  | none => simp [ScopeTree.frame?, h.none id hs]
  | some s =>
    obtain ⟨f, hf'⟩ := h.scope id s hs
    rw [frame?_of_scope hs] at hf
    simp [ScopeTree.frame?, hf', hf]

end SameShape
end ScopeTree
end BlockScope
