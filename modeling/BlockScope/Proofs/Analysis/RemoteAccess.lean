import BlockScope.Proofs.Analysis.Converted
/-!
# Levels of remote access

The level of a variable is exactly what its uses from the far side of a closure make it: written if one of them
assigns to it, or else read if there is one. Variables that no method or block stores have no level.
-/
namespace BlockScope

/-- The scope stores the variable: as a parameter, a temporary or on the heap. -/
def ScopeTree.Stores (t : ScopeTree) (s : ScopeId) (x : VarId) : Prop :=
  ∃ f, t.frame? s = some f ∧ x ∈ f.arguments ++ f.locals ++ f.heapvars

/-- The name refers to the variable, and a closure lies on the way from the use to the owner. -/
def Program.UsedAcross (p : Program) (a : Analysis) (e : NodeId) (x : VarId) : Prop :=
  ∃ s, p.Passes a e x s ∧ a.scopes.scopeIs (·.isTrueBlock) s

namespace ScopeTree
variable {t : ScopeTree} {s : ScopeId} {f : Frame} {x : VarId} {v : Variable}

/-- Whatever a frame lists as storage is its own, as a parameter or a temporary. -/
theorem Wf.owner_of_storage (hw : t.Wf) (hf : t.frame? s = some f) (hx : x ∈ f.arguments ++ f.locals) (hv : t.var? x = some v) :
    v.scope = s ∧ (v.kind = .argument ∨ v.kind = .temporary) := by
  obtain ⟨o, k, hs⟩ := scope_of_frame hf
  have hcode := hw.code s o k f hs
  have howned : ∀ kind, t.Owns s kind x → v.scope = s ∧ v.kind = kind := by
    rintro kind ⟨v', hv', hscope, hkind, -⟩
    rw [hv] at hv'
    cases hv'
    exact ⟨hscope, hkind⟩
  rcases List.mem_append.1 hx with hx | hx
  · exact (howned _ (hcode.arguments x hx)).imp_right .inl
  · exact (howned _ (hcode.locals x hx)).imp_right .inr

end ScopeTree

namespace Analyzed
variable {p : Program} {a b : Analysis} {e : NodeId} {x : VarId} {v : Variable} {s : ScopeId} {f f₀ : Frame}

/-- Moving to the heap keeps all storage, and adds none. -/
theorem mem_storage (h : Analyzed p a b) (hf₀ : a.scopes.frame? s = some f₀)
    (hst : f.storage = (f₀.moveToHeap (a.scopes.toMove f₀)).storage) :
    x ∈ f.arguments ++ f.locals ++ f.heapvars ↔ x ∈ f₀.arguments ++ f₀.locals := by
  obtain ⟨o, k, hs⟩ := ScopeTree.scope_of_frame hf₀
  have hheap : f₀.heapvars = [] := (h.resolved.wf.code s o k f₀ hs).idle.1
  have hmove : x ∈ a.scopes.toMove f₀ → x ∈ f₀.arguments ++ f₀.locals := fun hx => (List.mem_filter.1 hx).1
  have hlists : f.arguments ++ f.locals ++ f.heapvars = f.storage.arguments ++ f.storage.locals ++ f.storage.heapvars := rfl
  rw [hlists, hst]
  simp only [Frame.storage, Frame.moveToHeap, List.mem_append, List.mem_filter, mem_appendNew, hheap, decide_eq_true_eq]
    at hmove ⊢
  constructor
  · rintro ((⟨hx, -⟩ | ⟨hx, -⟩) | hx | hx)
    · exact .inl hx
    · exact .inr hx
    · cases hx
    · exact hmove hx
  · intro hx
    by_cases hm : x ∈ a.scopes.toMove f₀
    · exact .inr (.inr hm)
    · exact .inl (hx.imp (⟨·, hm⟩) (⟨·, hm⟩))

/-- What a scope stores in the end is what it owns when names are resolved. -/
theorem stores_iff (h : Analyzed p a b) (hv : a.scopes.var? x = some v) :
    b.scopes.Stores s x ↔ v.scope = s ∧ a.scopes.Holds x v := by
  constructor
  · rintro ⟨f, hf, hx⟩
    obtain ⟨f₀, hf₀, hst, -⟩ := h.frame_of_frame hf
    rw [h.mem_storage hf₀ hst] at hx
    have hs := (h.resolved.wf.owner_of_storage hf₀ hx hv).1
    subst hs
    exact ⟨rfl, f₀, hf₀, hx⟩
  · rintro ⟨rfl, f₀, hf₀, hx⟩
    obtain ⟨f, hf, -⟩ := h.converts.frames _ f₀ hf₀
    obtain ⟨f₁, hf₁, hst, -⟩ := h.frame_of_frame hf
    rw [hf₀] at hf₁
    cases hf₁
    exact ⟨f, hf, (h.mem_storage hf₀ hst).2 hx⟩

theorem moved_iff (h : Analyzed p a b) (hv : a.scopes.var? x = some v) :
    a.scopes.Moved (p.events.flatMap (Event.sites p.arena a.scopeOf?)) x ↔ a.scopes.Holds x v ∧ v.remote = .written := by
  have hwritten : a.scopes.isWrittenRemotely x = true ↔ v.remote = .written := by
    simp [ScopeTree.isWrittenRemotely, hv]
  constructor
  · rintro ⟨s, f, -, hf, hx⟩
    obtain ⟨hmem, hw⟩ := List.mem_filter.1 hx
    have hs := (h.resolved.wf.owner_of_storage hf hmem hv).1
    subst hs
    exact ⟨⟨f, hf, hmem⟩, hwritten.1 hw⟩
  · rintro ⟨⟨f, hf, hmem⟩, hw⟩
    obtain ⟨o, k, hs⟩ := ScopeTree.scope_of_frame hf
    exact ⟨v.scope, f, h.enters ⟨o, k, f, hs⟩, hf, List.mem_filter.2 ⟨hmem, hwritten.2 hw⟩⟩

/-- What is stored and written remotely ends up on the heap, and all else is as it was. -/
theorem var_eq (h : Analyzed p a b) (hv : a.scopes.var? x = some v) (w : Variable) : b.scopes.var? x = some w ↔
    w = { v with kind := .heap } ∧ a.scopes.Holds x v ∧ v.remote = .written ∨
      w = v ∧ ¬ (a.scopes.Holds x v ∧ v.remote = .written) := by
  rw [← h.moved_iff hv]
  by_cases hm : a.scopes.Moved (p.events.flatMap (Event.sites p.arena a.scopeOf?)) x
  · simp [h.converts.moved x v hv hm, hm, eq_comm]
  · simp [h.converts.kept x v hv hm, hm, eq_comm]

theorem kind_of_holds {w : Variable} (h : Analyzed p a b) (hv : a.scopes.var? x = some v) (hholds : a.scopes.Holds x v)
    (hw : b.scopes.var? x = some w) : w.kind.IsStored := by
  rcases (h.var_eq hv w).1 hw with ⟨rfl, -⟩ | ⟨rfl, -⟩
  · exact .inr (.inr rfl)
  · obtain ⟨f, hf, hx⟩ := hholds
    exact (h.resolved.wf.owner_of_storage hf hx hv).2.imp_right .inl

theorem usedAcross_iff (h : Analyzed p a b) : p.UsedAcross b e x ↔ p.UsedAcross a e x := by
  unfold Program.UsedAcross
  simp only [h.passes_iff, h.isTrueBlock_eq]

end Analyzed

namespace Resolved
variable {p : Program} {a : Analysis} {x : VarId} {v : Variable}

theorem written_iff (h : Resolved p a) (hv : a.scopes.var? x = some v) (hholds : a.scopes.Holds x v) :
    v.remote = .written ↔ ∃ e, p.arena.IsTarget e ∧ p.UsedAcross a e x := by
  have hlevel : RemoteAccess.written ≠ .none := by simp
  rw [← reaches_written, h.reaches_iff hlevel hv hholds]
  constructor
  · rintro ⟨e, forWrite, hw, hr, hacross⟩
    rw [reaches_written] at hr
    cases forWrite with
    | false => cases hr
    | true => exact ⟨e, hw.1 rfl, hacross⟩
  · rintro ⟨e, ht, hacross⟩
    exact ⟨e, true, by simp [ht], reaches_written.2 rfl, hacross⟩

theorem remote_iff (h : Resolved p a) (hv : a.scopes.var? x = some v) (hholds : a.scopes.Holds x v) :
    v.remote ≠ .none ↔ ∃ e, p.UsedAcross a e x := by
  have hlevel : RemoteAccess.read ≠ .none := by simp
  rw [← reaches_read, h.reaches_iff hlevel hv hholds]
  constructor
  · rintro ⟨e, forWrite, -, -, hacross⟩
    exact ⟨e, hacross⟩
  · rintro ⟨e, hacross⟩
    by_cases ht : p.arena.IsTarget e
    · exact ⟨e, true, by simp [ht], reaches_read.2 nofun, hacross⟩
    · exact ⟨e, false, by simp [ht], reaches_read.2 nofun, hacross⟩

theorem read_iff (h : Resolved p a) (hv : a.scopes.var? x = some v) (hholds : a.scopes.Holds x v) :
    v.remote = .read ↔ (¬ ∃ e, p.arena.IsTarget e ∧ p.UsedAcross a e x) ∧ ∃ e, ¬ p.arena.IsTarget e ∧ p.UsedAcross a e x := by
  rw [← h.written_iff hv hholds]
  constructor
  · intro hr
    obtain ⟨e, hacross⟩ := (h.remote_iff hv hholds).1 (by simp [hr])
    have hw : v.remote ≠ .written := by simp [hr]
    exact ⟨hw, e, fun ht => hw ((h.written_iff hv hholds).2 ⟨e, ht, hacross⟩), hacross⟩
  · rintro ⟨hw, e, -, hacross⟩
    have hne := (h.remote_iff hv hholds).2 ⟨e, hacross⟩
    cases hv : v.remote with
    | none => exact absurd hv hne
    | read => rfl
    | written => exact absurd hv hw

end Resolved

/-- A variable that a method or block stores is written remotely if and only if a closure lies between an assignment
to it and its owner, and otherwise read remotely if and only if one lies between another use and its owner. All
other variables have no level: those are receivers, instance variables, classes and names of inlined blocks. -/
theorem remote_access_exact {bytes : List UInt8} {p : Program} {a : Analysis} (hp : Program.ofBytes bytes = .ok p)
    (ha : p.analyze = .ok a) {x : VarId} {v : Variable} (hv : a.scopes.var? x = some v) :
    (∀ s, a.scopes.Stores s x → v.scope = s ∧
      (v.remote = .written ↔ ∃ e, p.arena.IsTarget e ∧ p.UsedAcross a e x) ∧
      (v.remote = .read ↔
        (¬ ∃ e, p.arena.IsTarget e ∧ p.UsedAcross a e x) ∧ ∃ e, ¬ p.arena.IsTarget e ∧ p.UsedAcross a e x) ∧
      (v.remote = .none ↔ ¬ ∃ e, p.UsedAcross a e x)) ∧
    ((∀ s, ¬ a.scopes.Stores s x) → v.remote = .none) ∧
    (v.kind.IsFixed ∨ v.kind = .inlined → v.remote = .none) := by
  obtain ⟨a₀, h⟩ := analyzed_of_ok hp ha
  obtain ⟨v₀, hv₀, kind, rfl⟩ := h.var_of_var hv
  simp only [h.usedAcross_iff, h.stores_iff hv₀]
  refine ⟨?_, fun hno => ?_, fun hkind => ?_⟩
  · rintro s ⟨rfl, hholds⟩
    refine ⟨rfl, h.resolved.written_iff hv₀ hholds, h.resolved.read_iff hv₀ hholds, ?_⟩
    rw [← h.resolved.remote_iff hv₀ hholds, not_not]
  · exact h.resolved.remote_of_not_holds hv₀ fun hholds => hno _ ⟨rfl, hholds⟩
  · apply h.resolved.remote_of_not_holds hv₀
    intro hholds
    have hstored := h.kind_of_holds hv₀ hholds hv
    simp only [VarKind.IsFixed, VarKind.IsStored] at hkind hstored
    rcases hstored with rfl | rfl | rfl <;> simp at hkind

/-- An assignment in a closure to a temporary of the method around it. -/
theorem remote_access_exact_assigned : ∃ p a x v,
    Program.ofBytes "A : nil [ m: x [ |a| [ a := x ] value. ^ a ] ]".toUTF8.toList = .ok p ∧ p.analyze = .ok a ∧
    a.scopes.var? x = some v ∧ a.scopes.Stores v.scope x ∧ ∃ e, p.arena.IsTarget e ∧ p.UsedAcross a e x := by
  obtain ⟨p, a, hp, ha, hcheck⟩ := exists_of_accepted "A : nil [ m: x [ |a| [ a := x ] value. ^ a ] ]".toUTF8
    (fun _ a => (a.scopes.var? ⟨4⟩).any fun v => v.remote = .written ∧
      (a.scopes.frame? v.scope).any fun f => ⟨4⟩ ∈ f.heapvars) (by decide +kernel)
  obtain ⟨v, hv, hcheck⟩ := (Option.any_eq_true _ _).1 hcheck
  obtain ⟨hwritten, hcheck⟩ := of_decide_eq_true hcheck
  obtain ⟨f, hf, hx⟩ := (Option.any_eq_true _ _).1 hcheck
  have hstores : a.scopes.Stores v.scope ⟨4⟩ := ⟨f, hf, List.mem_append_right _ (of_decide_eq_true hx)⟩
  obtain ⟨-, hiff, -⟩ := (remote_access_exact hp ha hv).1 v.scope hstores
  exact ⟨p, a, ⟨4⟩, v, hp, ha, hv, hstores, hiff.1 hwritten⟩

end BlockScope
