import BlockScope.Proofs.Scope.Update
import BlockScope.Analysis.Capture
import Mathlib.Data.List.Nodup
/-!
# Moving variables to the heap and handing them over

What `promote` and `capture` leave of a tree: its shape, and in frames and variables only what the operation is
about. `promote` moves the remotely written variables of one frame; `capture` hands a record or a value to each
closure on the way, once.
-/
namespace BlockScope

section
variable {α : Type} [DecidableEq α] {xs : List α} {x y : α}

theorem mem_appendNew (xs new : List α) : y ∈ appendNew xs new ↔ y ∈ xs ∨ y ∈ new := by
  unfold appendNew
  induction new generalizing xs with
  | nil => simp
  | cons x new ih =>
    rw [List.foldl_cons, ih]
    by_cases h : x ∈ xs
    · rw [if_pos h, List.mem_cons]
      constructor
      · rintro (h' | h')
        · exact .inl h'
        · exact .inr (.inr h')
      · rintro (h' | rfl | h')
        · exact .inl h'
        · exact .inl h
        · exact .inr h'
    · rw [if_neg h, List.mem_append, List.mem_singleton, List.mem_cons, or_assoc]

theorem nodup_appendNew (xs new : List α) (h : xs.Nodup) : (appendNew xs new).Nodup := by
  unfold appendNew
  induction new generalizing xs with
  | nil => exact h
  | cons x new ih =>
    rw [List.foldl_cons]
    apply ih
    by_cases hx : x ∈ xs
    · rw [if_pos hx]
      exact h
    · rw [if_neg hx, ← List.concat_eq_append]
      exact List.Nodup.concat hx h

theorem appendNew_singleton_of_mem (h : x ∈ xs) : appendNew xs [x] = xs := by simp [appendNew, h]

theorem appendNew_twice (xs : List α) (x : α) : appendNew (appendNew xs [x]) [x] = appendNew xs [x] := by
  apply appendNew_singleton_of_mem
  rw [mem_appendNew]
  simp

end

namespace ScopeTree
variable {t : ScopeTree} {id id' : ScopeId} {x y : VarId} {v : Variable} {g : Frame → Frame} {ids : List ScopeId}

theorem frame?_modifyFrame (t : ScopeTree) (id : ScopeId) (g : Frame → Frame) (id' : ScopeId) :
    (t.modifyFrame id g).frame? id' = if id' = id then (t.frame? id').map g else t.frame? id' := by
  unfold frame?
  rw [scope?_modifyFrame]
  by_cases h : id' = id
  · rw [if_pos h, if_pos h]
    cases t.scope? id' <;> simp
  · rw [if_neg h, if_neg h]

/-! ## The same change to several frames -/

theorem frame?_foldl (hg : ∀ f, g (g f) = g f) (t : ScopeTree) (ids : List ScopeId) (id : ScopeId) :
    (ids.foldl (fun t s => t.modifyFrame s g) t).frame? id = if id ∈ ids then (t.frame? id).map g else t.frame? id := by
  induction ids generalizing t with
  | nil => simp
  | cons s ids ih =>
    rw [List.foldl_cons, ih, frame?_modifyFrame]
    by_cases hs : id = s
    · subst hs
      by_cases hmem : id ∈ ids <;> simp [hmem, hg, Function.comp_def]
    · simp [hs]

theorem var?_foldl (t : ScopeTree) (ids : List ScopeId) (x : VarId) :
    (ids.foldl (fun t s => t.modifyFrame s g) t).var? x = t.var? x := by
  induction ids generalizing t with
  | nil => rfl
  | cons s ids ih => rw [List.foldl_cons, ih, var?_modifyFrame]

theorem SameShape.foldl (t : ScopeTree) (ids : List ScopeId) : t.SameShape (ids.foldl (fun t s => t.modifyFrame s g) t) := by
  induction ids generalizing t with
  | nil => exact .refl t
  | cons s ids ih => exact (SameShape.modifyFrame t s g).trans (ih _)

/-! ## Moving to the heap -/

/-- The variables that entering a frame moves. -/
def toMove (t : ScopeTree) (f : Frame) : List VarId := (f.arguments ++ f.locals).filter t.isWrittenRemotely

theorem var?_moveAll (t : ScopeTree) (ids : List VarId) (x : VarId) :
    (ids.foldl (fun t id => t.modifyVar id fun v => { v with kind := .heap }) t).var? x =
      if x ∈ ids then (t.var? x).map ({ · with kind := .heap }) else t.var? x := by
  induction ids generalizing t with
  | nil => simp
  | cons y ids ih =>
    rw [List.foldl_cons, ih, var?_modifyVar]
    by_cases hy : x = y
    · subst hy
      by_cases hmem : x ∈ ids <;> simp [hmem, Function.comp_def]
    · simp [hy]

theorem scope?_moveAll (t : ScopeTree) (ids : List VarId) (id : ScopeId) :
    (ids.foldl (fun t id => t.modifyVar id fun v => { v with kind := .heap }) t).scope? id = t.scope? id := by
  induction ids generalizing t with
  | nil => rfl
  | cons y ids ih => rw [List.foldl_cons, ih, scope?_modifyVar]

theorem moveToHeap_nil (f : Frame) : f.moveToHeap [] = f := by
  simp [Frame.moveToHeap, appendNew]

section
variable {f : Frame}

theorem promote_of_no_frame (h : t.frame? id = none) : (t.promote id).2 = t := by
  unfold promote
  rw [h]

theorem var?_promote (h : t.frame? id = some f) (x : VarId) :
    (t.promote id).2.var? x = if x ∈ t.toMove f then (t.var? x).map ({ · with kind := .heap }) else t.var? x := by
  unfold promote
  rw [h]
  simp only
  split
  · exact var?_moveAll t _ x
  · exact (var?_modifyFrame _ _ _ x).trans (var?_moveAll t _ x)

theorem scope?_promote (h : t.frame? id = some f) (id' : ScopeId) :
    (t.promote id).2.scope? id' = if id' = id then (t.scope? id').map (·.mapFrame (·.moveToHeap (t.toMove f))) else t.scope? id' := by
  unfold promote
  rw [h]
  simp only
  split
  · next hempty =>
    have hnil : t.toMove f = [] := List.isEmpty_iff.1 hempty
    rw [scope?_moveAll, hnil]
    split
    · cases t.scope? id' with
      | none => rfl
      | some s => rw [Option.map_some, Scope.mapFrame_eq_self _ _ moveToHeap_nil]
    · rfl
  · rw [scope?_modifyFrame, scope?_moveAll]
    rfl

theorem frame?_promote (h : t.frame? id = some f) (id' : ScopeId) :
    (t.promote id).2.frame? id' = if id' = id then some (f.moveToHeap (t.toMove f)) else t.frame? id' := by
  unfold frame?
  rw [scope?_promote h]
  by_cases hid : id' = id
  · subst hid
    obtain ⟨o, k, hs⟩ := scope_of_frame h
    simp [hs, Scope.mapFrame, Scope.frame?]
  · rw [if_neg hid, if_neg hid]

theorem SameShape.promote (t : ScopeTree) (id : ScopeId) : t.SameShape (t.promote id).2 := by
  cases h : t.frame? id with
  | none =>
    rw [promote_of_no_frame h]
    exact .refl t
  | some f =>
    refine ⟨fun id' s hs => ?_, fun id' hs => ?_⟩
    · rw [scope?_promote h, hs]
      by_cases hid : id' = id
      · exact ⟨_, by rw [if_pos hid]; rfl⟩
      · exact ⟨fun f => f, by rw [if_neg hid, Scope.mapFrame_eq_self _ _ fun _ => rfl]⟩
    · rw [scope?_promote h, hs]
      simp

end

end ScopeTree
end BlockScope
