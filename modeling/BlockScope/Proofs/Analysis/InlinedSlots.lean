import BlockScope.Proofs.Analysis.Captures
import BlockScope.Proofs.Analysis.Ownership
/-!
# Inlined blocks own no storage

An inlined block keeps nothing of its own and is handed nothing. It has one name for every parameter and temporary that
it declares, and each name stands for a slot of the nearest method or closure around the block, where the slot stays
while it may move to the heap. No two names share a slot, however deep the blocks are nested.
-/
namespace BlockScope

/-- The name that an inlined block has for a declaration: it stands for a slot of the scope that hosts the block, where
the slot is listed once among the locals and heap variables. -/
structure ScopeTree.Names (t : ScopeTree) (o : ScopeId) (declaredAs : VarKind) (d : Declaration) (v : Variable) (r : VarId)
    (slot : Variable) : Prop where
  name : v.name = d.name
  span : v.span = some d.span
  scope : v.scope = o
  kind : v.kind = .inlined
  standsAs : v.declaredAs = declaredAs
  remote : v.remote = .none
  aliasOf : v.aliasOf = some r
  real : slot.aliasOf = none
  hosted : slot.scope = t.realScope o
  once : ∃ f, t.frame? (t.realScope o) = some f ∧ (f.locals ++ f.heapvars).count r = 1

/-- The variable is such a name. -/
def ScopeTree.IsName (t : ScopeTree) (o : ScopeId) (declaredAs : VarKind) (d : Declaration) (x : VarId) : Prop :=
  ∃ v r slot, t.var? x = some v ∧ t.var? r = some slot ∧ t.Names o declaredAs d v r slot

/-- The frame of an inlined block: names for what the block declares, and nothing else. -/
structure Program.NamesOnly (p : Program) (a : Analysis) (o : ScopeId) (f : Frame) : Prop where
  storage : f.arguments = [] ∧ f.locals = [] ∧ f.heapvars = []
  handed : f.usingHeapvarsFrom = [] ∧ f.copyingVars = [] ∧ f.needsHeapContext = false
  host : a.scopes.scopeIs (·.isMethod) (a.scopes.realScope o) ∨ a.scopes.scopeIs (·.isTrueBlock) (a.scopes.realScope o)
  names : ∃ b code xs ys, a.blockScopes.get? b = some o ∧ p.arena.blockCode? b = some code ∧ f.inlined = xs ++ ys ∧
    List.Forall₂ (a.scopes.IsName o .argument) code.params xs ∧ List.Forall₂ (a.scopes.IsName o .temporary) code.temps ys

namespace ScopeTree
variable {t : ScopeTree} {s : ScopeId}

theorem scope_of_inlined (h : t.scopeIs (·.isInlined) s) : ∃ o f, t.scope? s = some ⟨o, .code .inlinedBlock f⟩ := by
  obtain ⟨⟨o, body⟩, hs, hb⟩ := (Option.any_eq_true _ _).1 h
  cases body with
  | root | side => cases hb
  | code k f =>
    have hk : k = .inlinedBlock := Option.some.inj (of_decide_eq_true hb)
    exact ⟨o, f, by rw [hs, hk]⟩

/-- What is code and no inlined block is a method or a closure. -/
theorem method_or_trueBlock {f : Frame} (hf : t.frame? s = some f) (hno : t.scopeIs (·.isInlined) s = false) :
    t.scopeIs (·.isMethod) s ∨ t.scopeIs (·.isTrueBlock) s := by
  obtain ⟨o, k, hs⟩ := scope_of_frame hf
  rw [scopeIs_of_scope hs] at hno ⊢
  rw [scopeIs_of_scope hs]
  cases k with
  | method => exact .inl rfl
  | block => exact .inr rfl
  | inlinedBlock => cases hno

end ScopeTree

namespace Resolved
variable {p : Program} {a : Analysis} {o : ScopeId}

/-- An inlined block as resolving names leaves it. -/
theorem inlined_block (h : Resolved p a) (ho : a.scopes.scopeIs (·.isInlined) o) : ∃ b code outer xs ys,
    a.blockScopes.get? b = some o ∧ p.arena.blockCode? b = some code ∧
    a.scopes.scope? o = some ⟨some outer, .code .inlinedBlock (ScopeTree.frameOf .inlinedBlock xs ys)⟩ ∧
    List.Forall₂ (a.scopes.Declared o .inlinedBlock .argument) code.params xs ∧
    List.Forall₂ (a.scopes.Declared o .inlinedBlock .temporary) code.temps ys := by
  obtain ⟨o', f, hs⟩ := ScopeTree.scope_of_inlined ho
  obtain ⟨openers, hplaced⟩ := h.placed_of_code ⟨o', _, f, hs⟩
  cases hplaced with
  | method _ _ _ hentered =>
    obtain ⟨xs, ys, slots, hs', -⟩ := hentered
    rw [hs] at hs'
    cases hs'
  | @block b code role _ S outer hb hscope hentered _ =>
    have hk : role.blockKind = .inlinedBlock := by
      obtain ⟨xs, ys, slots, hs', -⟩ := hentered
      rw [hs] at hs'
      simp only [Option.some.injEq, Scope.mk.injEq, ScopeBody.code.injEq] at hs'
      exact hs'.2.1.symm
    rw [hk] at hentered
    obtain ⟨xs, ys, slots, hs, hxs, hys, -⟩ := hentered
    -- No inlined block hosts another, so there are no slots beside the names.
    have hslots : slots = [] := by
      have hlocals := ((h.wf.code o _ _ _ hs).bare rfl).2
      simpa [ScopeTree.frameOf, Frame.withSlots, Frame.empty] using hlocals
    subst hslots
    have hnone : (ScopeTree.frameOf .inlinedBlock xs ys).withSlots [] = ScopeTree.frameOf .inlinedBlock xs ys := by
      simp [Frame.withSlots]
    rw [hnone] at hs
    exact ⟨b, code, S, xs, ys, hscope, hb, hs, hxs, hys⟩

end Resolved

namespace Analyzed
variable {p : Program} {a b : Analysis} {o s : ScopeId} {f f₀ : Frame} {slot x : VarId} {d : Declaration} {declaredAs : VarKind}

theorem realScope_eq (h : Analyzed p a b) (s : ScopeId) : b.scopes.realScope s = a.scopes.realScope s := by
  unfold ScopeTree.realScope
  rw [h.converts.shape.chain h.resolved.wf.nested]
  simp only [h.converts.shape.isInlined]

/-- A local stays in its frame, on the stack or on the heap. -/
theorem count_local (h : Analyzed p a b) (hf₀ : a.scopes.frame? s = some f₀) (hslot : slot ∈ f₀.locals) :
    ∃ f, b.scopes.frame? s = some f ∧ (f.locals ++ f.heapvars).count slot = 1 := by
  obtain ⟨f, hf, -⟩ := h.converts.frames s f₀ hf₀
  obtain ⟨-, hlocals, hheap, -⟩ := h.lists_eq hf₀ hf
  have hperm : (f.locals ++ f.heapvars).Perm f₀.locals := by
    rw [hlocals, hheap]
    exact List.perm_append_comm.trans (List.filter_append_perm _ _)
  refine ⟨f, hf, ?_⟩
  rw [hperm.count_eq]
  exact List.count_eq_one_of_mem (h.resolved.listing.arranged s f₀ hf₀).locals.nodup hslot

theorem isName (h : Analyzed p a b) (hf₀ : a.scopes.frame? o = some f₀) (hbare : f₀.arguments = [] ∧ f₀.locals = [])
    (hd : a.scopes.Declared o .inlinedBlock declaredAs d x) (hx : a.scopes.Aliases o x) : b.scopes.IsName o declaredAs d x := by
  obtain ⟨v, hv, hname, hspan, hscope, has, -⟩ := hd
  obtain ⟨v', slot, host, fh, hv', -, hk, halias, hhost, hfh, hslot⟩ := hx
  rw [hv] at hv'
  cases hv'
  obtain ⟨oh, kh, hsh⟩ := ScopeTree.scope_of_frame hfh
  obtain ⟨r, hr, hrs, -, hra⟩ := (h.resolved.wf.code host oh kh fh hsh).locals slot hslot
  obtain ⟨kind, hr'⟩ := h.converts.var_of_var hr
  -- What is no storage is never used remotely.
  have hremote : v.remote = .none := by
    refine h.resolved.remote_of_not_holds hv ?_
    rintro ⟨f, hf, hmem⟩
    rw [hscope, hf₀] at hf
    cases hf
    simp [hbare] at hmem
  have hreal : b.scopes.realScope o = host := by rw [h.realScope_eq, hhost.realScope_eq h.resolved.wf.nested]
  refine ⟨v, slot, _, h.var_kept hv (by simp [VarKind.IsStored, hk]), hr', hname, hspan, hscope, hk, has, hremote, halias, hra, ?_, ?_⟩
  · rw [hreal]
    exact hrs
  · rw [hreal]
    exact h.count_local hfh hslot

theorem namesOnly (h : Analyzed p a b) (ho : b.scopes.scopeIs (·.isInlined) o) :
    ∃ f, b.scopes.frame? o = some f ∧ p.NamesOnly b o f := by
  have ho₀ : a.scopes.scopeIs (·.isInlined) o := by rw [← h.converts.shape.isInlined, ho]
  obtain ⟨node, code, outer, xs, ys, hblock, hcode, hs, hxs, hys⟩ := h.resolved.inlined_block ho₀
  have hf₀ := ScopeTree.frame?_of_scope hs
  have hwf := h.resolved.wf.code o _ _ _ hs
  obtain ⟨f, hf, -⟩ := h.converts.frames o _ hf₀
  obtain ⟨hargs, hlocals, hheap, hinlined⟩ : _ ∧ _ ∧ _ ∧ f.inlined = xs ++ ys := h.lists_eq hf₀ hf
  have halias : ∀ x ∈ xs ++ ys, a.scopes.Aliases o x := by
    intro x hx
    exact hwf.inlined x (by simpa [ScopeTree.frameOf] using hx)
  refine ⟨f, hf, ?storage, ?handed, ?host, ?names⟩
  case storage => simp [hargs, hlocals, hheap, hwf.bare rfl]
  case handed =>
    have hno : ¬ b.scopes.scopeIs (·.isTrueBlock) o := fun ht => ScopeTree.not_inlined_of_trueBlock ht ho
    obtain ⟨-, -, hrecord, hvalue⟩ := h.records_values o
    simp only [ScopeTree.recordsOf, ScopeTree.valuesOf, hf, Option.map_some, Option.getD_some] at hrecord hvalue
    have hrecords : f.usingHeapvarsFrom = [] := List.eq_nil_iff_forall_not_mem.2 fun D hD => hno ((hrecord D).1 hD).1
    have hvalues : f.copyingVars = [] := List.eq_nil_iff_forall_not_mem.2 fun x hx => hno ((hvalue x).1 hx).1
    have hcontext := h.keepsContext_iff (s := o)
    simp only [ScopeTree.keepsContext, hf, Option.any_some, ScopeTree.not_method_of_block (.inr ho₀), Bool.false_eq_true,
      false_and, iff_false, Bool.not_eq_true] at hcontext
    exact ⟨hrecords, hvalues, hcontext⟩
  case host =>
    obtain ⟨host, fh, hhost, hfh⟩ := h.resolved.wf.hosted o _ _ _ hs
    rw [h.realScope_eq, hhost.realScope_eq h.resolved.wf.nested, h.converts.shape.isMethod, h.converts.shape.isTrueBlock]
    exact ScopeTree.method_or_trueBlock hfh hhost.not_inlined
  case names =>
    have hnames : ∀ {declaredAs ds zs}, (∀ x ∈ zs, x ∈ xs ++ ys) →
        List.Forall₂ (a.scopes.Declared o .inlinedBlock declaredAs) ds zs → List.Forall₂ (b.scopes.IsName o declaredAs) ds zs := by
      intro declaredAs ds zs hmem hds
      have hboth := (List.forall₂_and_left zs ds).2 ⟨hmem, hds.flip⟩
      exact (hboth.imp fun x d hd => h.isName hf₀ (hwf.bare rfl) hd.2 (halias x hd.1)).flip
    rw [← show b.blockScopes = a.blockScopes by rw [h.rest]] at hblock
    exact ⟨node, code, xs, ys, hblock, hcode, hinlined, hnames (fun x => List.mem_append_left _) hxs,
      hnames (fun x => List.mem_append_right _) hys⟩

end Analyzed

/-- An inlined block has nothing but one name for each parameter and temporary, in order. Each name stands for a slot
of its own that the nearest method or closure around the block has, as a local or on its heap. -/
theorem inlined_blocks_own_no_storage {bytes : List UInt8} {p : Program} {a : Analysis} (hp : Program.ofBytes bytes = .ok p)
    (ha : p.analyze = .ok a) :
    (∀ o, a.scopes.scopeIs (·.isInlined) o → ∃ f, a.scopes.frame? o = some f ∧ p.NamesOnly a o f) ∧
    ∀ x y v w slot, a.scopes.var? x = some v → a.scopes.var? y = some w → v.aliasOf = some slot → w.aliasOf = some slot →
      x = y := by
  obtain ⟨a₀, h⟩ := analyzed_of_ok hp ha
  refine ⟨fun o ho => h.namesOnly ho, ?_⟩
  intro x y v w slot hv hw hx hy
  obtain ⟨v₀, hv₀, kind, rfl⟩ := h.var_of_var hv
  obtain ⟨w₀, hw₀, kind', rfl⟩ := h.var_of_var hw
  exact h.resolved.ownSlots x y v₀ w₀ slot hv₀ hw₀ hx hy

/-- A loop in a branch in a closure: its names stand for slots of the closure, one of which is moved to the heap. -/
theorem inlined_blocks_own_no_storage_nested : ∃ p a f g, Program.ofBytes
      "A : nil [ m: x [ [ x ifTrue: [ 1 to: 2 do: [ :i | | c | [ c := i ] ] ] ifFalse: [ ] ] ] ]".toUTF8.toList = .ok p ∧
    p.analyze = .ok a ∧ a.scopes.realScope ⟨6⟩ = ⟨4⟩ ∧ a.scopes.frame? ⟨6⟩ = some f ∧ p.NamesOnly a ⟨6⟩ f ∧
    f.inlined.map a.scopes.nameOf = ["i", "c"] ∧ a.scopes.frame? ⟨4⟩ = some g ∧
    f.inlined.map a.scopes.realVar = g.locals ++ g.heapvars ∧ g.locals.length = 1 ∧ g.heapvars.length = 1 := by
  obtain ⟨p, a, hp, ha, hcheck⟩ := exists_of_accepted
    "A : nil [ m: x [ [ x ifTrue: [ 1 to: 2 do: [ :i | | c | [ c := i ] ] ] ifFalse: [ ] ] ] ]".toUTF8
    (fun _ a => a.scopes.scopeIs (·.isInlined) ⟨6⟩ ∧ a.scopes.realScope ⟨6⟩ = ⟨4⟩ ∧
      (a.scopes.frame? ⟨6⟩).any fun f => f.inlined.map a.scopes.nameOf = ["i", "c"] ∧
        (a.scopes.frame? ⟨4⟩).any fun g =>
          f.inlined.map a.scopes.realVar = g.locals ++ g.heapvars ∧ g.locals.length = 1 ∧ g.heapvars.length = 1)
    (by decide +kernel)
  obtain ⟨ho, hreal, hcheck⟩ := of_decide_eq_true hcheck
  obtain ⟨f, hf, hcheck⟩ := (Option.any_eq_true _ _).1 hcheck
  obtain ⟨hnames, hcheck⟩ := of_decide_eq_true hcheck
  obtain ⟨g, hg, hcheck⟩ := (Option.any_eq_true _ _).1 hcheck
  obtain ⟨hslots, hlocals, hheap⟩ := of_decide_eq_true hcheck
  obtain ⟨f', hf', honly⟩ := (inlined_blocks_own_no_storage hp ha).1 ⟨6⟩ ho
  rw [hf] at hf'
  cases hf'
  exact ⟨p, a, f, g, hp, ha, hreal, hf, honly, hnames, hg, hslots, hlocals, hheap⟩

end BlockScope
