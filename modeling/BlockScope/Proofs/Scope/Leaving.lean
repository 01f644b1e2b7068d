import BlockScope.Proofs.Scope.Handing
/-!
# Returning from a scope

A return ends the method around it. From inside a closure that method has to be left from elsewhere, so its context
is kept on the heap. `leaves` is the method that a return in a scope leaves so, if it does. No other work on closures
changes which contexts are kept.
-/
namespace BlockScope
namespace ScopeTree

/-- The method that a return in this scope leaves from inside a closure. -/
def leaves (t : ScopeTree) (s : ScopeId) : Option ScopeId :=
  (t.methodOf s).filter fun m => !(t.trueBlocksUntil s m).isEmpty

/-- The kind of a return in this scope. -/
def returnKind (t : ScopeTree) (s : ScopeId) : ReturnKind := if (t.leaves s).isSome then .nonLocal else .near

/-- The scope keeps its context on the heap. -/
def keepsContext (t : ScopeTree) (s : ScopeId) : Bool := (t.frame? s).any (·.needsHeapContext)

variable {t t' : ScopeTree} {s m x U M : ScopeId} {v : VarId} {g : Frame → Frame}

/-! ## The method around a scope -/

/-- The nearest method outwards. -/
theorem Nested.methodOf_eq (hn : t.Nested) (hw : t.Within U M) (hM : t.scopeIs (·.isMethod) M)
    (hno : ∀ x, t.Between U x M → t.scopeIs (·.isMethod) x = false) : t.methodOf U = some M := by
  unfold methodOf
  induction hw with
  | refl M =>
    cases ho : t.outer? M with
    | none => rw [chain_of_no_outer ho, List.find?_cons_of_pos hM]
    | some o => rw [hn.chain_of_outer ho, List.find?_cons_of_pos hM]
  | @outer U o M ho rest ih =>
    have hne : U ≠ M := by
      rintro rfl
      have := rest.le hn
      have := hn U o ho
      omega
    have hU := hno U ⟨.refl _, .outer ho rest, hne⟩
    rw [hn.chain_of_outer ho, List.find?_cons_of_neg (by simp [hU])]
    apply ih hM
    intro x hx
    exact hno x ((Between.iff_outer ho hne rest).2 (.inr hx))

theorem frame_of_method (h : t.scopeIs (·.isMethod) m) : ∃ f, t.frame? m = some f := by
  obtain ⟨⟨o, body⟩, hs, hb⟩ := (Option.any_eq_true _ _).1 h
  cases body with
  | root | side => cases hb
  | code k f => exact ⟨f, by simp [frame?, hs, Scope.frame?]⟩

theorem frame_of_trueBlock (h : t.scopeIs (·.isTrueBlock) s) : ∃ f, t.frame? s = some f := by
  obtain ⟨⟨o, body⟩, hs, hb⟩ := (Option.any_eq_true _ _).1 h
  cases body with
  | root | side => cases hb
  | code k f => exact ⟨f, frame?_of_scope hs⟩

theorem isMethod_of_leaves (h : t.leaves s = some m) : t.scopeIs (·.isMethod) m := by
  obtain ⟨hm, -⟩ := Option.filter_eq_some_iff.1 h
  exact List.find?_some hm

/-- A return leaves the method around it if a closure lies on the way. -/
theorem Nested.leaves_iff (hn : t.Nested) (hm : t.methodOf U = some M) (hw : t.Within U M) :
    t.leaves U = some m ↔ m = M ∧ ∃ x, t.Between U x M ∧ t.scopeIs (·.isTrueBlock) x := by
  have hclosure : (!(t.trueBlocksUntil U M).isEmpty) = true ↔ ∃ x, t.Between U x M ∧ t.scopeIs (·.isTrueBlock) x := by
    simp only [← hn.mem_trueBlocksUntil hw, Bool.not_eq_true', List.isEmpty_eq_false_iff_exists_mem]
  rw [leaves, hm, Option.filter_eq_some_iff, Option.some.injEq]
  constructor
  · rintro ⟨rfl, h⟩
    exact ⟨rfl, hclosure.1 h⟩
  · rintro ⟨rfl, h⟩
    exact ⟨rfl, hclosure.2 h⟩

theorem SameShape.leaves_eq (h : t.SameShape t') (hn : t.Nested) (s : ScopeId) : t'.leaves s = t.leaves s := by
  have hmethod : t'.scopeIs (·.isMethod) = t.scopeIs (·.isMethod) := by
    funext id
    exact h.isMethod id
  have hblock : t'.scopeIs (·.isTrueBlock) = t.scopeIs (·.isTrueBlock) := by
    funext id
    exact h.isTrueBlock id
  unfold leaves methodOf trueBlocksUntil chainUntil
  rw [h.chain hn, hmethod, hblock]

/-! ## Contexts -/

theorem keepsContext_modifyFrame (hg : ∀ f, (g f).needsHeapContext = f.needsHeapContext) (t : ScopeTree) (id s : ScopeId) :
    (t.modifyFrame id g).keepsContext s = t.keepsContext s := by
  unfold keepsContext
  rw [frame?_modifyFrame]
  split
  · simp [Option.any_map, hg]
  · rfl

theorem keepsContext_foldl (hg : ∀ f, (g f).needsHeapContext = f.needsHeapContext) (t : ScopeTree) (ids : List ScopeId)
    (s : ScopeId) : (ids.foldl (fun t s => t.modifyFrame s g) t).keepsContext s = t.keepsContext s := by
  induction ids generalizing t with
  | nil => rfl
  | cons id ids ih => rw [List.foldl_cons, ih, keepsContext_modifyFrame hg]

theorem keepsContext_promote (t : ScopeTree) (id s : ScopeId) : (t.promote id).2.keepsContext s = t.keepsContext s := by
  cases hf : t.frame? id with
  | none => rw [promote_of_no_frame hf]
  | some f =>
    unfold keepsContext
    rw [frame?_promote hf]
    by_cases hid : s = id
    · rw [if_pos hid, hid, hf]
      rfl
    · rw [if_neg hid]

theorem keepsContext_capture (t : ScopeTree) (U : ScopeId) (v : VarId) (s : ScopeId) :
    (t.capture U v).keepsContext s = t.keepsContext s := by
  have husing : ∀ (ids : List ScopeId) (D : ScopeId), (ids.foldl (·.addUsing · D) t).keepsContext s = t.keepsContext s := by
    intro ids D
    exact keepsContext_foldl (g := fun f => { f with usingHeapvarsFrom := appendNew f.usingHeapvarsFrom [D] }) (fun _ => rfl) t ids s
  have hcopying : ∀ (ids : List ScopeId) (y : VarId), (ids.foldl (·.addCopying · y) t).keepsContext s = t.keepsContext s := by
    intro ids y
    exact keepsContext_foldl (g := fun f => { f with copyingVars := appendNew f.copyingVars [y] }) (fun _ => rfl) t ids s
  unfold capture
  simp only
  split
  · rfl
  · split
    · exact husing _ _
    · exact hcopying _ _
    · exact hcopying _ _
    · rfl

/-- Keeping the context of a method keeps no other. -/
theorem keepsContext_keep {f : Frame} (hf : t.frame? m = some f) (s : ScopeId) :
    (t.modifyFrame m ({ · with needsHeapContext := true })).keepsContext s ↔ t.keepsContext s ∨ s = m := by
  unfold keepsContext
  rw [frame?_modifyFrame]
  by_cases hs : s = m
  · rw [if_pos hs, hs, hf]
    simp
  · rw [if_neg hs]
    simp [hs]

end ScopeTree
end BlockScope
