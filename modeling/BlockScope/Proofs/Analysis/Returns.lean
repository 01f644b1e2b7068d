import BlockScope.Proofs.Analysis.Converted
/-!
# Returns

A return is non-local exactly if a closure lies between it and the method that it ends, and a method keeps its
context on the heap exactly if one of its returns is. Everything between a return and its method is a block, so
a return that is not non-local passes inlined blocks only.
-/
namespace BlockScope

/-- The scope is that of the method around the node, the outermost of the openers around it. -/
def Program.InMethod (p : Program) (a : Analysis) (r : NodeId) (M : ScopeId) : Prop :=
  ∃ openers cls place, p.Around r openers ∧ openers.getLast? = some (.method cls place) ∧ a.scopeOf? (.method cls place) = some M

namespace ScopeTree
variable {t : ScopeTree} {s outer : ScopeId} {k : CodeKind} {params temps : List Declaration}

theorem Entered.outer?_eq (h : t.Entered s outer k params temps) : t.outer? s = some outer := by
  obtain ⟨xs, ys, slots, hs, -⟩ := h
  exact outer?_of_scope hs

theorem Entered.scopeIs (h : t.Entered s outer k params temps) (p : Option CodeKind → Bool) :
    t.scopeIs (fun s => p s.codeKind?) s = p (some k) := by
  obtain ⟨xs, ys, slots, hs, -⟩ := h
  rw [scopeIs_of_scope hs]
  rfl

/-- No context is kept when names are resolved. -/
theorem Entered.not_keepsContext (h : t.Entered s outer k params temps) : t.keepsContext s = false := by
  obtain ⟨xs, ys, slots, hs, -⟩ := h
  simp only [keepsContext, frame?_of_scope hs, Scope.frame?, Option.any_some, Frame.withSlots, frameOf]
  split <;> rfl

end ScopeTree

namespace Resolved
variable {p : Program} {a : Analysis} {U : ScopeId} {openers : List Opener}

theorem not_keepsContext (h : Resolved p a) (s : ScopeId) : a.scopes.keepsContext s = false := by
  cases hf : a.scopes.frame? s with
  | none => simp [ScopeTree.keepsContext, hf]
  | some f =>
    obtain ⟨o, k, hs⟩ := ScopeTree.scope_of_frame hf
    obtain ⟨o', code, outer, k', -, -, hentered⟩ := h.opener_of_code ⟨o, k, f, hs⟩
    exact hentered.not_keepsContext

/-- From a node outwards there are blocks only, up to the method around it. -/
theorem method_around (h : Resolved p a) (hplaced : Placed p a openers U) : ∃ cls place M,
    openers.getLast? = some (.method cls place) ∧ a.scopeOf? (.method cls place) = some M ∧ a.scopes.scopeIs (·.isMethod) M ∧
      a.scopes.Within U M ∧
      ∀ x, a.scopes.Between U x M → a.scopes.scopeIs (·.isTrueBlock) x ∨ a.scopes.scopeIs (·.isInlined) x := by
  induction hplaced with
  | @method cls place m info U hm hi hU hentered =>
    refine ⟨cls, place, U, rfl, hU, ?_, .refl _, fun x hx => absurd hx (ScopeTree.Between.not_refl h.wf.nested)⟩
    exact hentered.scopeIs (· = some .method)
  | @block b code role U S outer hb hU hentered _ ih =>
    obtain ⟨cls, place, M, hlast, hM, hmethod, hwithin, hblocks⟩ := ih
    have hlt := h.wf.nested U S hentered.outer?_eq
    have hle := hwithin.le h.wf.nested
    have hne : U ≠ M := by
      rintro rfl
      omega
    refine ⟨cls, place, M, by rw [List.getLast?_cons, hlast]; rfl, hM, hmethod, .outer hentered.outer?_eq hwithin, fun x hx => ?_⟩
    rcases (ScopeTree.Between.iff_outer hentered.outer?_eq hne hwithin).1 hx with rfl | hx
    · cases role with
      | plain | target => exact .inl (hentered.scopeIs (· = some .block))
      | inlined => exact .inr (hentered.scopeIs (· = some .inlinedBlock))
    · exact hblocks x hx

end Resolved

/-! ## One return -/

/-- A return with the scope it is in and the scope of its method, as the tables have them. -/
structure Program.ReturnIn (p : Program) (a : Analysis) (r : NodeId) (U M : ScopeId) : Prop where
  useSite : ∀ U', p.UseSite a r U' ↔ U' = U
  inMethod : ∀ M', p.InMethod a r M' ↔ M' = M
  isMethod : a.scopes.scopeIs (·.isMethod) M
  leaves : ∀ m, a.scopes.leaves U = some m ↔ m = M ∧ ∃ x, a.scopes.Between U x M ∧ a.scopes.scopeIs (·.isTrueBlock) x
  blocks : ∀ x, a.scopes.Between U x M → (a.scopes.scopeIs (·.isInlined) x ↔ ¬ a.scopes.scopeIs (·.isTrueBlock) x)

namespace ScopeTree
variable {t : ScopeTree} {s : ScopeId}

theorem not_method_of_block (h : t.scopeIs (·.isTrueBlock) s ∨ t.scopeIs (·.isInlined) s) : t.scopeIs (·.isMethod) s = false := by
  unfold ScopeTree.scopeIs at *
  cases hs : t.scope? s with
  | none => rfl
  | some sc =>
    simp only [hs, Option.any_some, Scope.isTrueBlock, Scope.isInlined, Scope.isMethod, decide_eq_true_eq] at h ⊢
    rcases h with h | h <;> simp [h]

end ScopeTree

namespace Resolved
variable {p : Program} {a : Analysis} {r : NodeId} {U : ScopeId}

theorem returnIn (h : Resolved p a) (hsite : .ret U r ∈ p.events.flatMap (Event.sites p.arena a.scopeOf?)) :
    ∃ M, p.ReturnIn a r U M := by
  obtain ⟨ev, hev, hsite⟩ := List.mem_flatMap.1 hsite
  obtain ⟨o, role, value, rfl, -, hU⟩ := Event.ret_mem_sites.1 hsite
  obtain ⟨outer, haround⟩ := Program.around_of_event hev
  obtain ⟨cls, place, M, hlast, hM, hmethod, hwithin, hblocks⟩ := h.method_around (h.placed haround hev rfl hU)
  have hforest := h.parsed.forest
  refine ⟨M, fun U' => ⟨?_, ?_⟩, fun M' => ⟨?_, ?_⟩, hmethod, fun m => ?_, fun x hx => ?_⟩
  · rintro ⟨o', ho', hU'⟩
    rw [hforest.encloses_unique ho' haround.head, hU] at hU'
    exact (Option.some.inj hU').symm
  · rintro rfl
    exact ⟨o, haround.head, hU⟩
  · rintro ⟨openers, cls', place', haround', hlast', hM'⟩
    obtain rfl := hforest.around_unique haround' haround
    rw [hlast] at hlast'
    cases hlast'
    rw [hM] at hM'
    exact (Option.some.inj hM').symm
  · rintro rfl
    exact ⟨_, cls, place, haround, hlast, hM⟩
  · refine h.wf.nested.leaves_iff ?_ hwithin
    exact h.wf.nested.methodOf_eq hwithin hmethod fun x hx => ScopeTree.not_method_of_block (hblocks x hx)
  · constructor
    · intro hinlined htrue
      exact ScopeTree.not_inlined_of_trueBlock htrue hinlined
    · intro hno
      exact (hblocks x hx).resolve_left hno

end Resolved

namespace Program.ReturnIn
variable {p : Program} {a : Analysis} {r : NodeId} {U M : ScopeId}

theorem nonLocal_iff (h : p.ReturnIn a r U M) :
    a.scopes.returnKind U = .nonLocal ↔ ∃ s, a.scopes.Between U s M ∧ a.scopes.scopeIs (·.isTrueBlock) s := by
  have hsome : (a.scopes.leaves U).isSome ↔ ∃ s, a.scopes.Between U s M ∧ a.scopes.scopeIs (·.isTrueBlock) s := by
    rw [Option.isSome_iff_exists]
    simp only [h.leaves, exists_eq_left]
  rw [← hsome, ScopeTree.returnKind]
  split <;> simp_all

theorem near_iff (h : p.ReturnIn a r U M) :
    a.scopes.returnKind U = .near ↔ ∀ s, a.scopes.Between U s M → a.scopes.scopeIs (·.isInlined) s := by
  have hother : a.scopes.returnKind U = .near ↔ ¬ a.scopes.returnKind U = .nonLocal := by
    cases a.scopes.returnKind U <;> simp
  rw [hother, h.nonLocal_iff]
  push Not
  constructor
  · intro hno s hs
    exact (h.blocks s hs).2 (hno s hs)
  · intro hall s hs
    exact (h.blocks s hs).1 (hall s hs)

end Program.ReturnIn

/-! ## In the end -/

namespace Analyzed
variable {p : Program} {a b : Analysis} {r : NodeId} {kind : ReturnKind} {M s : ScopeId}

theorem inMethod_iff (h : Analyzed p a b) : p.InMethod b r M ↔ p.InMethod a r M := by
  unfold Program.InMethod
  simp only [h.scopeOf?_eq]

/-- The table of returns has for each return the kind that its scope gives. -/
theorem return_of_kind (h : Analyzed p a b) (hkind : b.returns.get? r = some kind) :
    ∃ U M, .ret U r ∈ p.events.flatMap (Event.sites p.arena a.scopeOf?) ∧ p.ReturnIn a r U M ∧ kind = a.scopes.returnKind U := by
  obtain ⟨U, hsite, hk⟩ := h.kinds r kind hkind
  obtain ⟨M, hr⟩ := h.resolved.returnIn hsite
  exact ⟨U, M, hsite, hr, hk⟩

theorem keepsContext_iff (h : Analyzed p a b) : b.scopes.keepsContext s ↔
    a.scopes.scopeIs (·.isMethod) s ∧ ∃ r, b.returns.get? r = some .nonLocal ∧ p.InMethod a r s := by
  rw [h.contexts, h.resolved.not_keepsContext]
  constructor
  · rintro (hfalse | ⟨U, r, hsite, hleaves⟩)
    · cases hfalse
    · obtain ⟨M, hr⟩ := h.resolved.returnIn hsite
      obtain ⟨rfl, hclosure⟩ := (hr.leaves s).1 hleaves
      obtain ⟨kind, hkind⟩ := Option.isSome_iff_exists.1 ((h.returns r).2 ⟨U, hsite⟩)
      -- The node has no other site, so the kind in the table is the one of this scope.
      obtain ⟨U', M', -, hr', hk⟩ := h.return_of_kind hkind
      obtain rfl : U' = U := (hr.useSite U').1 ((hr'.useSite U').2 rfl)
      refine ⟨hr.isMethod, r, ?_, (hr.inMethod s).2 rfl⟩
      rw [hkind, hk, hr.nonLocal_iff.2 hclosure]
  · rintro ⟨-, r, hkind, hs⟩
    obtain ⟨U, M, hsite, hr, hk⟩ := h.return_of_kind hkind
    obtain rfl := (hr.inMethod s).1 hs
    exact .inr ⟨U, r, hsite, (hr.leaves s).2 ⟨rfl, hr.nonLocal_iff.1 hk.symm⟩⟩

end Analyzed

/-- A return is non-local if and only if a closure lies on the way to its method, and otherwise only inlined blocks
do. A scope keeps its context on the heap if and only if it is a method with a non-local return, so no block does. -/
theorem returns_exact {bytes : List UInt8} {p : Program} {a : Analysis} (hp : Program.ofBytes bytes = .ok p)
    (ha : p.analyze = .ok a) :
    (∀ r kind, a.returns.get? r = some kind → (∃ U M, p.UseSite a r U ∧ p.InMethod a r M) ∧
      ∀ U M, p.UseSite a r U → p.InMethod a r M →
        (kind = .nonLocal ↔ ∃ s, a.scopes.Between U s M ∧ a.scopes.scopeIs (·.isTrueBlock) s) ∧
        (kind = .near ↔ ∀ s, a.scopes.Between U s M → a.scopes.scopeIs (·.isInlined) s)) ∧
    (∀ s, a.scopes.keepsContext s ↔
      a.scopes.scopeIs (·.isMethod) s ∧ ∃ r, a.returns.get? r = some .nonLocal ∧ p.InMethod a r s) ∧
    ∀ s, a.scopes.scopeIs (·.isTrueBlock) s ∨ a.scopes.scopeIs (·.isInlined) s → a.scopes.keepsContext s = false := by
  obtain ⟨a₀, h⟩ := analyzed_of_ok hp ha
  have hshape := h.converts.shape
  simp only [h.useSite_iff, h.inMethod_iff, hshape.between, hshape.isTrueBlock, hshape.isInlined, hshape.isMethod]
  refine ⟨fun r kind hkind => ?_, fun s => h.keepsContext_iff, fun s hs => ?_⟩
  · obtain ⟨U, M, -, hr, rfl⟩ := h.return_of_kind hkind
    refine ⟨⟨U, M, (hr.useSite U).2 rfl, (hr.inMethod M).2 rfl⟩, fun U' M' hU hM => ?_⟩
    obtain rfl := (hr.useSite U').1 hU
    obtain rfl := (hr.inMethod M').1 hM
    exact ⟨hr.nonLocal_iff, hr.near_iff⟩
  · rw [← Bool.not_eq_true, h.keepsContext_iff, ScopeTree.not_method_of_block hs]
    simp

/-- A return in a closure, and one in an inlined block of another method. -/
theorem returns_exact_mixed : ∃ p a, Program.ofBytes
      "A : nil [ m: x [ [ ^ x ] value ] n: x [ x ifTrue: [ ^ x ] ifFalse: [ self ] ] ]".toUTF8.toList = .ok p ∧
    p.analyze = .ok a ∧ a.returns.get? ⟨1⟩ = some .nonLocal ∧ a.returns.get? ⟨6⟩ = some .near ∧
    (∃ r, a.returns.get? r = some .nonLocal ∧ p.InMethod a r ⟨3⟩) ∧ ¬ ∃ r, a.returns.get? r = some .nonLocal ∧ p.InMethod a r ⟨5⟩ := by
  obtain ⟨p, a, hp, ha, hcheck⟩ := exists_of_accepted
    "A : nil [ m: x [ [ ^ x ] value ] n: x [ x ifTrue: [ ^ x ] ifFalse: [ self ] ] ]".toUTF8
    (fun _ a => a.returns.get? ⟨1⟩ = some .nonLocal ∧ a.returns.get? ⟨6⟩ = some .near ∧ a.scopes.keepsContext ⟨3⟩ ∧
      a.scopes.scopeIs (·.isMethod) ⟨5⟩ ∧ a.scopes.keepsContext ⟨5⟩ = false) (by decide +kernel)
  obtain ⟨hnonLocal, hnear, hkept, hmethod, hnot⟩ := of_decide_eq_true hcheck
  obtain ⟨-, hcontext, -⟩ := returns_exact hp ha
  refine ⟨p, a, hp, ha, hnonLocal, hnear, ((hcontext ⟨3⟩).1 hkept).2, fun hr => ?_⟩
  rw [(hcontext ⟨5⟩).2 ⟨hmethod, hr⟩] at hnot
  cases hnot

end BlockScope
