import BlockScope.Proofs.Analysis.Promotion
/-!
# What resolving names keeps

While names are resolved three things happen to a tree: a scope is added for a method or block, a name is declared
in it, and a use is recorded. `Kept` is a property that all three keep, so a whole run keeps it (`Kept.steps`).
That all variables are listed is such a property, and so is that no two names of inlined blocks share a slot. A
property may also be kept only as long as what is declared is of some form.
-/
namespace BlockScope

/-- Everything that a method or a block declares has the property. -/
def Program.DeclaresOnly (p : Program) (Q : Declaration → Prop) : Prop :=
  ∀ o code, p.code? o = some code → ∀ d ∈ code.declared, Q d

namespace ScopeTree

/-- A property of well-formed trees that resolving names keeps, where only declarations of some form are made. -/
structure Kept (Q : Declaration → Prop) (P : ScopeTree → Prop) : Prop where
  opened : ∀ {t : ScopeTree} (outer : ScopeId) (k : CodeKind), P t → P (t.addScope (some outer) (.code k .empty)).2
  declared : ∀ {t t' : ScopeTree} {s : ScopeId} {d : Declaration} {isParameter : Bool} {x : VarId}, t.Wf → t.IsCode s →
    Q d → Runs (Scoping.declare s d isParameter) t x t' → P t → P t'
  marked : ∀ {t : ScopeTree} (found : Found) (forWrite : Bool), P t → P (t.markFound found forWrite)

variable {Q : Declaration → Prop} {P : ScopeTree → Prop} {t t' t₀ : ScopeTree} {s outer : ScopeId} {k : CodeKind} {params temps : List Declaration}
  {isParameter : Bool} {x : VarId} {v : Variable} {d : Declaration}

namespace Kept

theorem declares {ds : List Declaration} (hk : Kept Q P) (hd : Declares s isParameter t ds t') (hds : ∀ d ∈ ds, Q d) (h : P t)
    (hh : Halfway t₀ s outer k params temps t) (hphase : isParameter = true → temps = []) : P t' := by
  induction hd generalizing params temps with
  | nil => exact h
  | cons hd _ ih =>
    obtain ⟨xs, ys, hs, -⟩ := hh.frame
    obtain ⟨hq, hqs⟩ := List.forall_mem_cons.1 hds
    refine ih hqs (hk.declared hh.wf ⟨_, _, _, hs⟩ hq hd h) (hh.declare hd hphase) fun hp => ?_
    rw [if_pos hp]
    exact hphase hp

theorem opens {c : Code} {so : Scope} (hk : Kept Q P) (h : P t) (hopens : t.Opens outer k c s t') (hc : ∀ d ∈ c.declared, Q d)
    (hw : t.Wf) (hout : t.scope? outer = some so) (hcode : k = .inlinedBlock → ∃ k' f, so.body = .code k' f) : P t' := by
  obtain ⟨rfl, mid, hparams, htemps⟩ := hopens
  obtain ⟨hcparams, hctemps⟩ := List.forall_mem_append.1 hc
  have hstart := hw.halfway hout hcode
  have hmid : P mid := hk.declares hparams hcparams (hk.opened outer k h) hstart fun _ => rfl
  exact hk.declares htemps hctemps hmid (hstart.allParams hparams) nofun

variable {p : Program} {scopeOf : Opener → Option ScopeId} {a b : Analysis} {ev : Event} {evs : List Event}

theorem step (hk : Kept Q P) (hp : p.DeclaresOnly Q) (h : Step p scopeOf a ev b) (hw : a.scopes.Wf) (ha : P a.scopes) :
    P b.scopes := by
  cases h with
  | method hm hinfo hscope hside hopens =>
    exact hk.opens ha hopens (hp (.method _ _) _ (congrArg (Option.map Method.code) hm)) hw hside nofun
  | block hb hscope ho hcode hopens =>
    obtain ⟨o', k', f', hs⟩ := hcode
    exact hk.opens ha hopens (hp (.block _) _ hb) hw hs fun _ => ⟨k', f', rfl⟩
  | use => exact hk.marked _ _ ha
  | other => exact ha

theorem steps (hk : Kept Q P) (hp : p.DeclaresOnly Q) (h : Steps p scopeOf a evs b) (hw : a.scopes.Wf) (ha : P a.scopes) :
    P b.scopes := by
  induction h with
  | nil => exact ha
  | cons h _ ih => exact ih (h.wf_grows hw).1 (hk.step hp h hw ha)

end Kept

/-- Recording a use changes a level and nothing else. -/
theorem var_of_markFound {found : Found} {forWrite : Bool} (hv : (t.markFound found forWrite).var? x = some v) :
    ∃ v₀ level, t.var? x = some v₀ ∧ v = { v₀ with remote := level } := by
  by_cases hh : t.Hits found x
  · rw [var?_markFound_of_hits hh] at hv
    obtain ⟨v₀, hv₀, rfl⟩ := Option.map_eq_some_iff.1 hv
    exact ⟨v₀, _, hv₀, rfl⟩
  · rw [var?_markFound_of_not_hits hh] at hv
    exact ⟨v, v.remote, hv, rfl⟩

/-! ## All variables are listed -/

theorem kept_allListed : Kept Q AllListed where
  opened outer k h := h.addScope _ _
  declared hw hcode _ hd h := by
    obtain ⟨o, k, f, hs⟩ := hcode
    exact h.declare hw hs hd
  marked found forWrite h := by
    refine h.update (fun id s hs => ⟨s, by rw [scope?_markFound, hs], fun _ hx => hx⟩) fun x v hv => ?_
    obtain ⟨v₀, level, hv₀, rfl⟩ := var_of_markFound hv
    exact .inl ⟨v₀, hv₀, rfl⟩

/-! ## No slot is shared -/

/-- No two names stand for one slot. -/
def OwnSlots (t : ScopeTree) : Prop :=
  ∀ x y v w slot, t.var? x = some v → t.var? y = some w → v.aliasOf = some slot → w.aliasOf = some slot → x = y

namespace OwnSlots

/-- A new variable that stands for itself, or for a slot that no name stands for. -/
theorem addListed (h : t.OwnSlots) (hv : ∀ slot, v.aliasOf = some slot → ∀ x w, t.var? x = some w → w.aliasOf ≠ some slot)
    (list : VarId → Frame → Frame) : (t.addListed v list).2.OwnSlots := by
  have hcases : ∀ x w, (t.addListed v list).2.var? x = some w → (x = ⟨t.vars.size⟩ ∧ w = v) ∨ t.var? x = some w := by
    intro x w hw
    rw [var?_addListed] at hw
    split at hw
    · next hx =>
      cases x
      cases hx
      cases hw
      exact .inl ⟨rfl, rfl⟩
    · exact .inr hw
  intro x y w w' slot hw hw' hx hy
  rcases hcases x w hw with ⟨rfl, rfl⟩ | hold <;> rcases hcases y w' hw' with ⟨rfl, rfl⟩ | hold'
  · rfl
  · exact absurd hy (hv slot hx y w' hold')
  · exact absurd hx (hv slot hy x w hold)
  · exact h x y w w' slot hold hold' hx hy

theorem declare (h : t.OwnSlots) (hw : t.Wf) (hd : Runs (Scoping.declare s d isParameter) t x t') : t'.OwnSlots := by
  rcases declare_cases hd with ⟨-, rfl⟩ | ⟨-, -, rfl⟩ | ⟨-, -, rfl⟩
  · refine OwnSlots.addListed (h.addListed (v := slotFor d (t.realScope s) (t.slotNumber s)) nofun listLocal) ?_ listInlined
    rintro _ ⟨⟩ y w hy hslot
    -- The slot is made just before its name, so no name that is there already stands for it.
    rw [var?_addListed] at hy
    split at hy
    · cases hy
      cases hslot
    · obtain ⟨v, hv, -⟩ := hw.madeUp y w _ hy hslot
      exact Nat.lt_irrefl _ (var?_lt hv)
  · exact h.addListed (by rintro _ ⟨⟩) listArgument
  · exact h.addListed (by rintro _ ⟨⟩) listLocal

end OwnSlots

theorem kept_ownSlots : Kept Q OwnSlots where
  opened outer k h := h
  declared hw hcode _ hd h := h.declare hw hd
  marked found forWrite h := by
    intro x y v w slot hv hw hx hy
    obtain ⟨v₀, level, hv₀, rfl⟩ := var_of_markFound hv
    obtain ⟨w₀, level', hw₀, rfl⟩ := var_of_markFound hw
    exact h x y v₀ w₀ slot hv₀ hw₀ hx hy

end ScopeTree

namespace Resolved
variable {p : Program} {a : Analysis}

/-- Whatever resolving names keeps holds in the end if it holds when the classes are known. -/
theorem kept {Q : Declaration → Prop} {P : ScopeTree → Prop} (h : Resolved p a) (hk : ScopeTree.Kept Q P)
    (hp : p.DeclaresOnly Q) (hstart : ∀ a₀, Ready p a₀ → P a₀.scopes) : P a.scopes := by
  obtain ⟨a₀, hready, hsteps⟩ := h.run
  exact hk.steps hp hsteps hready.outline.wf (hstart a₀ hready)

theorem allListed (h : Resolved p a) : a.scopes.AllListed :=
  h.kept (ScopeTree.kept_allListed (Q := fun _ => True)) (fun _ _ _ _ _ => trivial) fun _ hready => hready.listed

theorem ownSlots (h : Resolved p a) : a.scopes.OwnSlots := by
  refine h.kept (ScopeTree.kept_ownSlots (Q := fun _ => True)) (fun _ _ _ _ _ => trivial)
    fun a₀ hready x y v w slot hv _ hslot _ => ?_
  -- Before the bodies no variable stands for another.
  rw [(hready.outline.vars x v hv).2.1] at hslot
  cases hslot

end Resolved
end BlockScope
