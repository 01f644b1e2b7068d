import BlockScope.Proofs.Analysis.RemoteAccess
/-!
# What closures are handed

A closure is handed the heap record of a scope exactly if a use passes it on the way to a variable on the heap of
that scope, and the value of a variable exactly if a use passes it on the way to one that is only read remotely.
No other scope is handed anything.
-/
namespace BlockScope

/-- The scopes whose heap records a scope is handed. -/
def ScopeTree.recordsOf (t : ScopeTree) (s : ScopeId) : List ScopeId := ((t.frame? s).map (·.usingHeapvarsFrom)).getD []

/-- The variables a scope is handed by value. -/
def ScopeTree.valuesOf (t : ScopeTree) (s : ScopeId) : List VarId := ((t.frame? s).map (·.copyingVars)).getD []

namespace Resolved
variable {p : Program} {a : Analysis} {e : NodeId} {x : VarId} {v : Variable} {s : ScopeId}

/-- A use on whose way a scope is refers to storage, or to what has none. -/
theorem var_of_passes (h : Resolved p a) (hpass : p.Passes a e x s) : ∃ v, a.scopes.var? x = some v ∧
    (a.scopes.Holds x v ∧ (v.kind = .argument ∨ v.kind = .temporary) ∨ v.kind.IsFixed) := by
  obtain ⟨-, ⟨y, hy, rfl⟩, -⟩ := hpass
  obtain ⟨o, role, name, U, found, hb, rfl⟩ := h.bound hy
  obtain ⟨v, hv, -, hl⟩ := h.wf.find_spec hb.find
  cases hl with
  | stored _ hholds hkind _ => exact ⟨v, hv, .inl ⟨hholds, hkind⟩⟩
  | fixed _ hkind _ => exact ⟨v, hv, .inr hkind⟩

/-- What the second pass sees is what the names say. -/
theorem seen_iff (h : Resolved p a) :
    a.scopes.Seen a.bindings (p.events.flatMap (Event.sites p.arena a.scopeOf?)) s x v ↔
      (∃ e, p.Passes a e x s) ∧ a.scopes.var? x = some v ∧ a.scopes.Holds x v := by
  constructor
  · rintro ⟨U, e, y, hmem, hy, rfl, hv, hholds, hbetween⟩
    obtain ⟨ev, hev, hsite⟩ := List.mem_flatMap.1 hmem
    obtain ⟨o, role, name, rfl, he, hU⟩ := Event.use_mem_sites.1 hsite
    obtain ⟨U', found, hb⟩ := h.bound_of_event hev he
    rw [hb.scope] at hU
    cases hU
    rw [hb.binding] at hy
    cases hy
    exact ⟨⟨e, (h.passes_iff hb hv).2 ⟨rfl, hbetween⟩⟩, hv, hholds⟩
  · rintro ⟨⟨e, hpass⟩, hv, hholds⟩
    obtain ⟨y, hy, rfl⟩ := hpass.refers
    obtain ⟨o, role, name, U, found, hb, rfl⟩ := h.bound hy
    obtain ⟨-, hbetween⟩ := (h.passes_iff hb hv).1 hpass
    exact ⟨U, e, found.var, List.mem_flatMap.2 ⟨_, hb.event, Event.use_mem_sites.2 ⟨o, role, name, rfl, hb.ident, hb.scope⟩⟩,
      hb.binding, rfl, hv, hholds, hbetween⟩

end Resolved

namespace Analyzed
variable {p : Program} {a b : Analysis} {s D : ScopeId} {x : VarId}

/-- The variables on the heap that a scope is passed for. -/
theorem heap_iff (h : Analyzed p a b) : (∃ e x w, p.Passes b e x s ∧ b.scopes.var? x = some w ∧ w.kind = .heap ∧ w.scope = D) ↔
    ∃ x v, a.scopes.Seen a.bindings (p.events.flatMap (Event.sites p.arena a.scopeOf?)) s x v ∧
      v.remote = .written ∧ v.scope = D := by
  simp only [h.passes_iff, h.resolved.seen_iff]
  constructor
  · rintro ⟨e, x, w, hpass, hw, hkind, rfl⟩
    obtain ⟨v, hv, hstored⟩ := h.resolved.var_of_passes hpass
    rcases (h.var_eq hv w).1 hw with ⟨rfl, hholds, hwritten⟩ | ⟨rfl, -⟩
    · exact ⟨x, v, ⟨⟨e, hpass⟩, hv, hholds⟩, hwritten, rfl⟩
    · simp [hkind, VarKind.IsFixed] at hstored
  · rintro ⟨x, v, ⟨⟨e, hpass⟩, hv, hholds⟩, hwritten, rfl⟩
    exact ⟨e, x, { v with kind := .heap }, hpass, (h.var_eq hv _).2 (.inl ⟨rfl, hholds, hwritten⟩), rfl, rfl⟩

/-- The variables on the stack that a scope is passed for and that are only read. -/
theorem read_iff (h : Analyzed p a b) : (∃ e w, p.Passes b e x s ∧ b.scopes.var? x = some w ∧
      (w.kind = .argument ∨ w.kind = .temporary) ∧ w.remote = .read) ↔
    ∃ y v, a.scopes.Seen a.bindings (p.events.flatMap (Event.sites p.arena a.scopeOf?)) s y v ∧ v.remote = .read ∧ y = x := by
  simp only [h.passes_iff, h.resolved.seen_iff]
  constructor
  · rintro ⟨e, w, hpass, hw, hkind, hread⟩
    obtain ⟨v, hv, hstored⟩ := h.resolved.var_of_passes hpass
    rcases (h.var_eq hv w).1 hw with ⟨rfl, -⟩ | ⟨rfl, -⟩
    · simp at hkind
    · rcases hstored with ⟨hholds, -⟩ | hfixed
      · exact ⟨x, w, ⟨⟨e, hpass⟩, hv, hholds⟩, hread, rfl⟩
      · rcases hfixed with hk | hk | hk <;> simp [hk] at hkind
  · rintro ⟨y, v, ⟨⟨e, hpass⟩, hv, hholds⟩, hread, rfl⟩
    obtain ⟨f, hf, hx⟩ := hholds
    have hkind := (h.resolved.wf.owner_of_storage hf hx hv).2
    exact ⟨e, v, hpass, (h.var_eq hv v).2 (.inr ⟨rfl, by simp [hread]⟩), hkind, hread⟩

/-- A frame in the end has been handed what the second pass has seen. -/
theorem records_values (h : Analyzed p a b) (s : ScopeId) : (b.scopes.recordsOf s).Nodup ∧ (b.scopes.valuesOf s).Nodup ∧
    (∀ D, D ∈ b.scopes.recordsOf s ↔ b.scopes.scopeIs (·.isTrueBlock) s ∧
      ∃ e x v, p.Passes b e x s ∧ b.scopes.var? x = some v ∧ v.kind = .heap ∧ v.scope = D) ∧
    ∀ x, x ∈ b.scopes.valuesOf s ↔ b.scopes.scopeIs (·.isTrueBlock) s ∧
      ∃ e v, p.Passes b e x s ∧ b.scopes.var? x = some v ∧ (v.kind = .argument ∨ v.kind = .temporary) ∧ v.remote = .read := by
  simp only [h.heap_iff, h.read_iff]
  unfold ScopeTree.recordsOf ScopeTree.valuesOf
  cases hf : b.scopes.frame? s with
  | none =>
    have hno : ¬ b.scopes.scopeIs (·.isTrueBlock) s := by
      intro ht
      obtain ⟨f, hf'⟩ := ScopeTree.frame_of_trueBlock ht
      rw [hf] at hf'
      cases hf'
    simp [hno]
  | some f =>
    obtain ⟨f₀, -, -, hh⟩ := h.frame_of_frame hf
    rw [h.isTrueBlock_eq]
    exact ⟨hh.records_nodup, hh.values_nodup, hh.records, hh.values⟩

end Analyzed

/-- The heap records and values handed to a scope, each once, are those that the uses passing it ask for. Only
closures are handed any, and no variable that is written remotely is handed by value. -/
theorem captures_exact {bytes : List UInt8} {p : Program} {a : Analysis} (hp : Program.ofBytes bytes = .ok p)
    (ha : p.analyze = .ok a) (s : ScopeId) :
    (a.scopes.recordsOf s).Nodup ∧ (a.scopes.valuesOf s).Nodup ∧
    (∀ D, D ∈ a.scopes.recordsOf s ↔ a.scopes.scopeIs (·.isTrueBlock) s ∧
      ∃ e x v, p.Passes a e x s ∧ a.scopes.var? x = some v ∧ v.kind = .heap ∧ v.scope = D) ∧
    (∀ x, x ∈ a.scopes.valuesOf s ↔ a.scopes.scopeIs (·.isTrueBlock) s ∧
      ∃ e v, p.Passes a e x s ∧ a.scopes.var? x = some v ∧ (v.kind = .argument ∨ v.kind = .temporary) ∧ v.remote = .read) ∧
    (¬ a.scopes.scopeIs (·.isTrueBlock) s → a.scopes.recordsOf s = [] ∧ a.scopes.valuesOf s = []) ∧
    (∀ x v, x ∈ a.scopes.valuesOf s → a.scopes.var? x = some v → v.remote ≠ .written) := by
  obtain ⟨a₀, h⟩ := analyzed_of_ok hp ha
  obtain ⟨hrecords, hvalues, hrecord, hvalue⟩ := h.records_values s
  refine ⟨hrecords, hvalues, hrecord, hvalue, fun hno => ⟨?_, ?_⟩, fun x v hx hv => ?_⟩
  · apply List.eq_nil_iff_forall_not_mem.2
    intro D hD
    exact hno ((hrecord D).1 hD).1
  · apply List.eq_nil_iff_forall_not_mem.2
    intro x hx
    exact hno ((hvalue x).1 hx).1
  · obtain ⟨-, e, v', -, hv', -, hread⟩ := (hvalue x).1 hx
    rw [hv] at hv'
    cases hv'
    simp [hread]

/-- A closure in a closure: the outer one is handed what the inner one uses. -/
theorem captures_exact_nested : ∃ p a,
    Program.ofBytes "A : nil [ m: x [ |a| [ |b| [ a := x. b ] ] ] ]".toUTF8.toList = .ok p ∧ p.analyze = .ok a ∧
    (∃ e x v, p.Passes a e x ⟨4⟩ ∧ a.scopes.var? x = some v ∧ v.kind = .heap ∧ v.scope = ⟨3⟩) ∧
    ∃ e v, p.Passes a e ⟨3⟩ ⟨4⟩ ∧ a.scopes.var? ⟨3⟩ = some v ∧ (v.kind = .argument ∨ v.kind = .temporary) ∧ v.remote = .read := by
  obtain ⟨p, a, hp, ha, hcheck⟩ := exists_of_accepted "A : nil [ m: x [ |a| [ |b| [ a := x. b ] ] ] ]".toUTF8
    (fun _ a => a.scopes.recordsOf ⟨4⟩ = [⟨3⟩] ∧ a.scopes.valuesOf ⟨4⟩ = [⟨3⟩]) (by decide +kernel)
  obtain ⟨hrecords, hvalues⟩ := of_decide_eq_true hcheck
  obtain ⟨-, -, hrecord, hvalue, -⟩ := captures_exact hp ha ⟨4⟩
  exact ⟨p, a, hp, ha, ((hrecord ⟨3⟩).1 (by simp [hrecords])).2, ((hvalue ⟨3⟩).1 (by simp [hvalues])).2⟩

end BlockScope
