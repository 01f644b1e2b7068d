import BlockScope.Proofs.Scope.Operations
import BlockScope.Proofs.Scope.Wellformed
import Mathlib.Data.List.Forall2
import Mathlib.Data.List.Nodup
import BlockScope.Proofs.Program.Literals
/-!
# Opening a scope

A scope is made and all it declares is declared in it before anything in its body is looked at. `Opens` is
that as one step. `Opens.spec` says all of what the step does: the tree grows, stays well formed, and the new
scope is `Entered`, its frame laid out after what it declares, which later growth does not change.
-/
namespace BlockScope
namespace ScopeTree

/-- Declares some names one after the other. -/
inductive Declares (s : ScopeId) (isParameter : Bool) : ScopeTree → List Declaration → ScopeTree → Prop where
  | nil {t : ScopeTree} : Declares s isParameter t [] t
  | cons {t t' t'' : ScopeTree} {d : Declaration} {ds : List Declaration} {x : VarId}
    (h : Runs (Scoping.declare s d isParameter) t x t') (rest : Declares s isParameter t' ds t'') :
    Declares s isParameter t (d :: ds) t''

/-- Makes a scope and declares what its code declares. -/
structure Opens (t : ScopeTree) (outer : ScopeId) (k : CodeKind) (c : Code) (s : ScopeId) (t' : ScopeTree) : Prop where
  scope : s = ⟨t.scopes.size⟩
  declares : ∃ mid, Declares s true (t.addScope (some outer) (.code k .empty)).2 c.params mid ∧
    Declares s false mid c.temps t'

/-- The variable made for a declaration: `declaredAs` a parameter or a temporary, and in an inlined block a
name that stands for some slot. -/
def Declared (t : ScopeTree) (s : ScopeId) (k : CodeKind) (declaredAs : VarKind) (d : Declaration) (x : VarId) : Prop :=
  ∃ v, t.var? x = some v ∧ v.name = d.name ∧ v.span = some d.span ∧ v.scope = s ∧ v.declaredAs = declaredAs ∧
    if k = .inlinedBlock then v.kind = .inlined ∧ v.aliasOf.isSome else v.kind = declaredAs ∧ v.aliasOf = none

/-- The frame with these parameters and temporaries. -/
def frameOf (k : CodeKind) (params temps : List VarId) : Frame :=
  if k = .inlinedBlock then { Frame.empty with inlined := params ++ temps }
  else { Frame.empty with arguments := params, locals := temps }

/-- The scope stands in its outer one, with variables for all it declares and maybe further slots. -/
def Entered (t : ScopeTree) (s outer : ScopeId) (k : CodeKind) (params temps : List Declaration) : Prop :=
  ∃ xs ys slots, t.scope? s = some ⟨some outer, .code k ((frameOf k xs ys).withSlots slots)⟩ ∧
    List.Forall₂ (t.Declared s k .argument) params xs ∧ List.Forall₂ (t.Declared s k .temporary) temps ys ∧
    (∀ x ∈ slots, t.MadeUp x) ∧ ((params ++ temps).map (·.name)).Nodup

/-- Every variable of the second tree is one of the first, or new and used nowhere. -/
def Fresh (t t' : ScopeTree) : Prop :=
  ∀ x, t'.var? x = t.var? x ∨ (t.var? x = none ∧ ∃ v, t'.var? x = some v ∧ v.remote = .none)

variable {t t' t'' t₀ : ScopeTree} {s outer id : ScopeId} {k : CodeKind} {c : Code} {x : VarId} {d : Declaration}
  {params temps : List Declaration} {declaredAs : VarKind} {isParameter : Bool}

theorem Fresh.refl (t : ScopeTree) : t.Fresh t := fun _ => .inl rfl

theorem Fresh.trans (h : t.Fresh t') (h' : t'.Fresh t'') : t.Fresh t'' := by
  intro x
  rcases h' x with h'' | ⟨hnone, v, hv, hr⟩
  · rw [h'']
    exact h x
  · rcases h x with h | ⟨-, w, hw, -⟩
    · exact .inr ⟨by rw [← h, hnone], v, hv, hr⟩
    · rw [hw] at hnone
      cases hnone

theorem fresh_addListed (t : ScopeTree) {v : Variable} (list : VarId → Frame → Frame) (hv : v.remote = .none) :
    t.Fresh (t.addListed v list).2 := by
  intro x
  rw [var?_addListed]
  by_cases h : x.index = t.vars.size
  · refine .inr ⟨Array.getElem?_eq_none (by omega), v, by rw [if_pos h], hv⟩
  · exact .inl (if_neg h)

theorem Keeps.declared (h : t.Keeps t') (hd : t.Declared s k declaredAs d x) : t'.Declared s k declaredAs d x := by
  obtain ⟨v, hv, hname, hspan, hscope, has, hkind⟩ := hd
  obtain ⟨level, hv'⟩ := h.vars x v hv
  exact ⟨_, hv', hname, hspan, hscope, has, hkind⟩

theorem withSlots_withSlots (f : Frame) (xs ys : List VarId) :
    (f.withSlots xs).withSlots ys = f.withSlots (xs ++ ys) := by
  simp [Frame.withSlots]

/-- What was declared in a scope stays so. -/
theorem Entered.grow (h : t.Entered s outer k params temps) (hg : t.Grows t') : t'.Entered s outer k params temps := by
  obtain ⟨xs, ys, slots, hs, hxs, hys, hslots, hnames⟩ := h
  obtain ⟨slots', hslots', hs'⟩ := hg.scopes s _ hs
  refine ⟨xs, ys, slots ++ slots', ?_, ?_, ?_, ?_, hnames⟩
  · rw [hs', Scope.mapFrame_of_code, withSlots_withSlots]
  · exact hxs.imp fun _ _ => hg.keeps.declared
  · exact hys.imp fun _ _ => hg.keeps.declared
  · intro x hx
    rcases List.mem_append.1 hx with hx | hx
    · exact hg.madeUp (hslots x hx)
    · exact hslots' x hx

/-! ## Declaring one name -/

/-- A tree in which a new scope, not in `t₀`, has had some of its names declared. -/
structure Halfway (t₀ : ScopeTree) (s outer : ScopeId) (k : CodeKind) (params temps : List Declaration) (t : ScopeTree) :
    Prop where
  new : t₀.scope? s = none
  size : t.scopes.size = t₀.scopes.size + 1
  grows : t₀.Grows t
  fresh : t₀.Fresh t
  wf : t.Wf
  frame : ∃ xs ys, t.scope? s = some ⟨some outer, .code k (frameOf k xs ys)⟩ ∧
    List.Forall₂ (t.Declared s k .argument) params xs ∧ List.Forall₂ (t.Declared s k .temporary) temps ys
  names : ((params ++ temps).map (·.name)).Nodup

/-- A new variable in a scope that was not there before. -/
theorem Grows.addListed_new {v : Variable} (h : t₀.Grows t) (hnew : t₀.scope? v.scope = none)
    (list : VarId → Frame → Frame) : t₀.Grows (t.addListed v list).2 := by
  constructor
  · intro x w hw
    obtain ⟨level, hw'⟩ := h.vars x w hw
    exact ⟨level, var?_addListed_of_var? v list hw'⟩
  · intro id s hs
    obtain ⟨slots, hslots, hs'⟩ := h.scopes id s hs
    refine ⟨slots, ?_, ?_⟩
    · rintro x hx
      obtain ⟨w, hw, hname⟩ := hslots x hx
      exact ⟨w, var?_addListed_of_var? v list hw, hname⟩
    · have hne : id ≠ v.scope := by
        rintro rfl
        rw [hnew] at hs
        cases hs
      rw [scope?_addListed, if_neg hne, hs']

/-- A new slot anywhere. -/
theorem Grows.addListed_slot (t : ScopeTree) {v : Variable} (hname : ¬ Spelled v.name) :
    t.Grows (t.addListed v listLocal).2 := by
  constructor
  · intro x w hw
    exact ⟨w.remote, var?_addListed_of_var? v listLocal hw⟩
  · intro id s hs
    rw [scope?_addListed, hs]
    by_cases h : id = v.scope
    · refine ⟨[⟨t.vars.size⟩], ?_, by rw [if_pos h]; rfl⟩
      intro x hx
      rw [List.mem_singleton] at hx
      subst hx
      exact ⟨v, by rw [var?_addListed, if_pos rfl], hname⟩
    · refine ⟨[], by simp, ?_⟩
      rw [if_neg h, Scope.mapFrame_eq_self _ _ fun f => by simp [Frame.withSlots]]

theorem not_spelled_slotName (name : String) (n : Nat) : ¬ Spelled (slotName name n) := by
  intro h
  apply h
  simp only [slotName, String.toList_append, List.mem_append]
  exact .inl (.inr (by decide))

theorem mem_locals_listArgument (x : VarId) (f : Frame) (y : VarId) (h : y ∈ f.locals) : y ∈ (listArgument x f).locals := h

theorem mem_locals_listLocal (x : VarId) (f : Frame) (y : VarId) (h : y ∈ f.locals) : y ∈ (listLocal x f).locals :=
  List.mem_append_left _ h

theorem mem_locals_listInlined (x : VarId) (f : Frame) (y : VarId) (h : y ∈ f.locals) : y ∈ (listInlined x f).locals := h

@[simp] theorem size_addListed (t : ScopeTree) (v : Variable) (list : VarId → Frame → Frame) :
    (t.addListed v list).2.scopes.size = t.scopes.size := by
  simp [addListed, addVar]

theorem scope?_addListed_self {v : Variable} {list : VarId → Frame → Frame} {o : Option ScopeId} {f : Frame}
    (hv : v.scope = id) (hs : t.scope? id = some ⟨o, .code k f⟩) :
    (t.addListed v list).2.scope? id = some ⟨o, .code k (list ⟨t.vars.size⟩ f)⟩ := by
  rw [scope?_addListed, if_pos hv.symm, hs]
  rfl

theorem scope?_addListed_ne {v : Variable} {list : VarId → Frame → Frame} (h : id ≠ v.scope) :
    (t.addListed v list).2.scope? id = t.scope? id := by
  rw [scope?_addListed, if_neg h]

theorem var?_new (t : ScopeTree) (v : Variable) (list : VarId → Frame → Frame) :
    (t.addListed v list).2.var? ⟨t.vars.size⟩ = some v := by
  rw [var?_addListed, if_pos rfl]

namespace FrameWf
variable {f : Frame}

theorem argument (hf : t.FrameWf id k f) (hk : k ≠ .inlinedBlock) (hx : t.Owns id .argument x) :
    t.FrameWf id k (listArgument x f) := by
  refine { hf with arguments := ?_, bare := fun h => absurd h hk }
  intro y hy
  rcases List.mem_append.1 hy with hy | hy
  · exact hf.arguments y hy
  · rw [List.mem_singleton.1 hy]
    exact hx

theorem temporary (hf : t.FrameWf id k f) (hk : k ≠ .inlinedBlock) (hx : t.Owns id .temporary x) :
    t.FrameWf id k (listLocal x f) := by
  refine { hf with locals := ?_, bare := fun h => absurd h hk }
  intro y hy
  rcases List.mem_append.1 hy with hy | hy
  · exact hf.locals y hy
  · rw [List.mem_singleton.1 hy]
    exact hx

theorem name (hf : t.FrameWf id k f) (hk : k = .inlinedBlock) (hx : t.Aliases id x) :
    t.FrameWf id k (listInlined x f) := by
  refine { hf with inlined := ?_, plain := fun h => absurd hk h }
  intro y hy
  rcases List.mem_append.1 hy with hy | hy
  · exact hf.inlined y hy
  · rw [List.mem_singleton.1 hy]
    exact hx

end FrameWf

/-- Listing a variable in a frame leaves every other frame as it was. -/
theorem Wf.addListed {v : Variable} {list : VarId → Frame → Frame} {o : Option ScopeId} {f : Frame} (hw : t.Wf)
    (hlist : ∀ x f y, y ∈ f.locals → y ∈ (list x f).locals) (hv : v.scope = id) (hs : t.scope? id = some ⟨o, .code k f⟩)
    (hnew : (t.addListed v list).2.FrameWf id k f → (t.addListed v list).2.FrameWf id k (list ⟨t.vars.size⟩ f))
    (halias : ∀ slot, v.aliasOf = some slot → t.MadeUp slot) : (t.addListed v list).2.Wf := by
  have hk : t.Keeps (t.addListed v list).2 := keeps_addListed t v list hlist
  refine hw.update hk (by simp) ?_ ?_
  · intro id' o' k' f₁ f₂ h₁ h₂
    have hf := hk.frameWf hw.nested h₁ (hw.code id' o' k' f₁ h₁)
    by_cases h : id' = id
    · subst h
      rw [hs] at h₁
      cases h₁
      rw [scope?_addListed_self hv hs] at h₂
      cases h₂
      exact hnew hf
    · rw [scope?_addListed_ne (by rw [hv]; exact h), h₁] at h₂
      cases h₂
      exact hf
  · intro x w slot hx hslot
    rw [var?_addListed] at hx
    split at hx
    · cases hx
      exact hk.madeUp (halias slot hslot)
    · exact hk.madeUp (hw.madeUp x w slot hx hslot)

theorem exists_of_mem_left {α β : Type} {R : α → β → Prop} {as : List α} {bs : List β} {a : α} (h : List.Forall₂ R as bs)
    (ha : a ∈ as) : ∃ b ∈ bs, R a b := by
  induction h with
  | nil => cases ha
  | cons hr _ ih =>
    rcases List.mem_cons.1 ha with rfl | ha
    · exact ⟨_, by simp, hr⟩
    · obtain ⟨b, hb, hr⟩ := ih ha
      exact ⟨b, List.mem_cons_of_mem _ hb, hr⟩

theorem exists_of_mem_right {α β : Type} {R : α → β → Prop} {as : List α} {bs : List β} {b : β} (h : List.Forall₂ R as bs)
    (hb : b ∈ bs) : ∃ a ∈ as, R a b := exists_of_mem_left h.flip hb

theorem forall₂_concat {α β : Type} {R : α → β → Prop} {as : List α} {bs : List β} {a : α} {b : β}
    (h : List.Forall₂ R as bs) (hr : R a b) : List.Forall₂ R (as ++ [a]) (bs ++ [b]) :=
  List.rel_append h (.cons hr .nil)

namespace Halfway
variable {xs ys : List VarId}

/-- A name that no variable has so far was not declared so far. -/
theorem not_mem_names (hxs : List.Forall₂ (t.Declared s k .argument) params xs)
    (hys : List.Forall₂ (t.Declared s k .temporary) temps ys) (hnone : t.findNamed (xs ++ ys) d.name = none) :
    d.name ∉ (params ++ temps).map (·.name) := by
  rw [findNamed_eq_none] at hnone
  intro h
  obtain ⟨e, he, hname⟩ := List.mem_map.1 h
  rcases List.mem_append.1 he with he | he
  · obtain ⟨x, hx, v, hv, hv', -⟩ := exists_of_mem_left hxs he
    exact hnone x (List.mem_append_left _ hx) v hv (by rw [hv', hname])
  · obtain ⟨x, hx, v, hv, hv', -⟩ := exists_of_mem_left hys he
    exact hnone x (List.mem_append_right _ hx) v hv (by rw [hv', hname])

/-- One more variable of the scope. What is left to show is that the tree stays as it should be, what the frame is now, and that
no name is there twice. -/
theorem addListed {v : Variable} {list : VarId → Frame → Frame} {params' temps' : List Declaration}
    (h : Halfway t₀ s outer k params temps t) (hscope : v.scope = s) (hremote : v.remote = .none)
    (hwf : (t.addListed v list).2.Wf)
    (hframe : ∃ xs ys, (t.addListed v list).2.scope? s = some ⟨some outer, .code k (frameOf k xs ys)⟩ ∧
      List.Forall₂ ((t.addListed v list).2.Declared s k .argument) params' xs ∧
      List.Forall₂ ((t.addListed v list).2.Declared s k .temporary) temps' ys)
    (hnames : ((params' ++ temps').map (·.name)).Nodup) : Halfway t₀ s outer k params' temps' (t.addListed v list).2 where
  new := h.new
  size := by rw [size_addListed, h.size]
  grows := h.grows.addListed_new (hscope ▸ h.new) list
  fresh := h.fresh.trans (fresh_addListed t list hremote)
  wf := hwf
  frame := hframe
  names := hnames

/-- Declares a parameter in a scope that is no inlined block. -/
theorem argument (hk : k ≠ .inlinedBlock) (h : Halfway t₀ s outer k params [] t)
    (hs : t.scope? s = some ⟨some outer, .code k (frameOf k xs [])⟩)
    (hxs : List.Forall₂ (t.Declared s k .argument) params xs) (hd : d.name ∉ params.map (·.name)) :
    Halfway t₀ s outer k (params ++ [d]) [] (t.addListed (.new d.name s .argument (some d.span) none) listArgument).2 := by
  have hkeeps := keeps_addListed t (.new d.name s .argument (some d.span) none) listArgument mem_locals_listArgument
  have hvar := var?_new t (.new d.name s .argument (some d.span) none) listArgument
  refine h.addListed rfl rfl ?wf ?frame ?names
  case wf =>
    apply h.wf.addListed mem_locals_listArgument rfl hs
    · intro hf
      exact hf.argument hk ⟨_, hvar, rfl, rfl, rfl⟩
    · nofun
  case frame =>
    refine ⟨xs ++ [⟨t.vars.size⟩], [], ?_, ?_, .nil⟩
    · refine (scope?_addListed_self rfl hs).trans ?_
      simp [frameOf, hk, listArgument]
    · refine forall₂_concat (hxs.imp fun _ _ => hkeeps.declared) ⟨_, hvar, rfl, rfl, rfl, rfl, ?_⟩
      simp [hk, Variable.new]
  case names =>
    have hnames := h.names
    rw [List.append_nil] at hnames ⊢
    rw [List.map_append, List.map_singleton, ← List.concat_eq_append]
    exact List.Nodup.concat hd hnames

/-- Declares a temporary in a scope that is no inlined block. -/
theorem temporary (hk : k ≠ .inlinedBlock) (h : Halfway t₀ s outer k params temps t)
    (hs : t.scope? s = some ⟨some outer, .code k (frameOf k xs ys)⟩)
    (hxs : List.Forall₂ (t.Declared s k .argument) params xs) (hys : List.Forall₂ (t.Declared s k .temporary) temps ys)
    (hd : d.name ∉ (params ++ temps).map (·.name)) :
    Halfway t₀ s outer k params (temps ++ [d]) (t.addListed (.new d.name s .temporary (some d.span) none) listLocal).2 := by
  have hkeeps := keeps_addListed t (.new d.name s .temporary (some d.span) none) listLocal mem_locals_listLocal
  have hvar := var?_new t (.new d.name s .temporary (some d.span) none) listLocal
  refine h.addListed rfl rfl ?wf ?frame ?names
  case wf =>
    apply h.wf.addListed mem_locals_listLocal rfl hs
    · intro hf
      exact hf.temporary hk ⟨_, hvar, rfl, rfl, rfl⟩
    · nofun
  case frame =>
    refine ⟨xs, ys ++ [⟨t.vars.size⟩], ?_, hxs.imp fun _ _ => hkeeps.declared, ?_⟩
    · refine (scope?_addListed_self rfl hs).trans ?_
      simp [frameOf, hk, listLocal]
    · refine forall₂_concat (hys.imp fun _ _ => hkeeps.declared) ⟨_, hvar, rfl, rfl, rfl, rfl, ?_⟩
      simp [hk, Variable.new]
  case names =>
    rw [← List.append_assoc, List.map_append, List.map_singleton, ← List.concat_eq_append]
    exact List.Nodup.concat hd h.names

/-- Makes a slot in the host of an inlined block. -/
theorem slot {host : ScopeId} {fh : Frame} {v : Variable} (hk : k = .inlinedBlock)
    (h : Halfway t₀ s outer k params temps t) (hhost : t.HostedBy s host) (hfh : t.frame? host = some fh)
    (hv : v.scope = host ∧ v.kind = .temporary ∧ v.aliasOf = none ∧ v.remote = .none ∧ ¬ Spelled v.name) :
    Halfway t₀ s outer k params temps (t.addListed v listLocal).2 ∧ (t.addListed v listLocal).2.HostedBy s host ∧
      (t.addListed v listLocal).2.MadeUp ⟨t.vars.size⟩ ∧
      ∃ f, (t.addListed v listLocal).2.frame? host = some f ∧ ⟨t.vars.size⟩ ∈ f.locals := by
  obtain ⟨hscope, hkind, halias, hremote, hname⟩ := hv
  obtain ⟨xs, ys, hs, hxs, hys⟩ := h.frame
  have hkeeps := keeps_addListed t v listLocal mem_locals_listLocal
  have hvar := var?_new t v listLocal
  obtain ⟨oh, kh, hsh⟩ := scope_of_frame hfh
  have hkh : kh ≠ .inlinedBlock := by
    rintro rfl
    have := hhost.not_inlined
    rw [scopeIs_of_scope hsh] at this
    cases this
  have hne : s ≠ v.scope := by
    rintro rfl
    rw [hscope, hsh] at hs
    cases hs
    exact hkh hk
  refine ⟨?_, hkeeps.hostedBy h.wf.nested hs hhost, ⟨v, hvar, hname⟩, listLocal ⟨t.vars.size⟩ fh, ?_, by simp [listLocal]⟩
  · constructor
    case new => exact h.new
    case size => rw [size_addListed, h.size]
    case grows => exact h.grows.trans (.addListed_slot t hname)
    case fresh => exact h.fresh.trans (fresh_addListed t _ hremote)
    case wf =>
      apply h.wf.addListed mem_locals_listLocal hscope hsh
      · intro hf
        exact hf.temporary hkh ⟨v, hvar, hscope, hkind, halias⟩
      · rw [halias]
        nofun
    case frame =>
      refine ⟨xs, ys, ?_, hxs.imp fun _ _ => hkeeps.declared, hys.imp fun _ _ => hkeeps.declared⟩
      rw [scope?_addListed_ne hne, hs]
    case names => exact h.names
  · rw [frame?_of_scope (scope?_addListed_self hscope hsh)]
    rfl

/-- Lists a name of an inlined block after those it has. -/
theorem name {host : ScopeId} {fh : Frame} {slot : VarId} {params' temps' : List Declaration} (xs' ys' : List VarId)
    (hk : k = .inlinedBlock) (h : Halfway t₀ s outer k params temps t)
    (hs : t.scope? s = some ⟨some outer, .code k (frameOf k xs ys)⟩) (hhost : t.HostedBy s host)
    (hfh : t.frame? host = some fh) (hslot : slot ∈ fh.locals) (hmade : t.MadeUp slot)
    (hdeclared : ∀ t' : ScopeTree, t.Keeps t' → t'.Declared s k declaredAs d ⟨t.vars.size⟩ →
      List.Forall₂ (t'.Declared s k .argument) params' xs' ∧ List.Forall₂ (t'.Declared s k .temporary) temps' ys')
    (hlists : xs' ++ ys' = xs ++ ys ++ [⟨t.vars.size⟩]) (hnames : ((params' ++ temps').map (·.name)).Nodup) :
    Halfway t₀ s outer k params' temps' (t.addListed (inlinedName d s declaredAs slot) listInlined).2 := by
  have hkeeps := keeps_addListed t (inlinedName d s declaredAs slot) listInlined mem_locals_listInlined
  have hvar := var?_new t (inlinedName d s declaredAs slot) listInlined
  refine h.addListed rfl rfl ?wf ?frame ?names
  case wf =>
    apply h.wf.addListed mem_locals_listInlined rfl hs
    · intro hf
      obtain ⟨fh', hfh', hlocals⟩ := hkeeps.frame hfh
      exact hf.name hk ⟨_, slot, host, fh', hvar, rfl, rfl, rfl, hkeeps.hostedBy h.wf.nested hs hhost, hfh', hlocals slot hslot⟩
    · rintro _ ⟨⟩
      exact hmade
  case frame =>
    refine ⟨xs', ys', ?_, hdeclared _ hkeeps ⟨_, hvar, rfl, rfl, rfl, rfl, by simp [hk, inlinedName, Variable.new]⟩⟩
    refine (scope?_addListed_self rfl hs).trans ?_
    simp [frameOf, hk, listInlined, hlists]
  case names => exact hnames

/-- Declaring a name in an inlined block makes a slot in the host, then a name for it. -/
theorem declare_inlined (hk : k = .inlinedBlock) (h : Halfway t₀ s outer k params temps t)
    (hd : Runs (Scoping.declare s d isParameter) t x t') (hphase : isParameter = true → temps = []) :
    Halfway t₀ s outer k (if isParameter then params ++ [d] else params) (if isParameter then temps else temps ++ [d]) t' := by
  obtain ⟨xs, ys, hs, hxs, hys⟩ := h.frame
  obtain ⟨host, fh, hhost, hfh⟩ := h.wf.hosted s _ k _ hs
  have hinl : t.scopeIs (·.isInlined) s = true := by rw [scopeIs_of_scope hs, hk]; rfl
  have hframe : t.frame? s = some (frameOf k xs ys) := frame?_of_scope hs
  rw [Scoping.runs_declare_iff, if_pos hinl, Scoping.runs_addInlined_iff, hframe] at hd
  obtain ⟨_, hf, hnone, hmade⟩ := hd
  cases hf
  have hnew : d.name ∉ (params ++ temps).map (·.name) := by
    apply not_mem_names hxs hys
    simpa [frameOf, hk] using hnone
  rw [hhost.realScope_eq h.wf.nested] at hmade
  -- The number of the slot does not matter: no name with a number can be spelled.
  generalize t.slotNumber s = used at hmade
  have hslotFor : ¬ Spelled (slotFor d host used).name := not_spelled_slotName d.name used
  obtain ⟨h₁, hhost₁, hmade₁, fh₁, hfh₁, hslot₁⟩ := h.slot hk hhost hfh ⟨rfl, rfl, rfl, rfl, hslotFor⟩
  obtain ⟨xs₁, ys₁, hs₁, hxs₁, hys₁⟩ := h₁.frame
  let next : VarId := ⟨(t.addListed (slotFor d host used) listLocal).2.vars.size⟩
  cases isParameter with
  | true =>
    obtain rfl := hphase rfl
    cases hys₁
    cases hmade
    refine h₁.name (xs₁ ++ [next]) [] hk hs₁ hhost₁ hfh₁ hslot₁ hmade₁ (fun t'' hkeeps hx => ?_) ?_ ?_
    · exact ⟨forall₂_concat (hxs₁.imp fun _ _ => hkeeps.declared) hx, .nil⟩
    · simp [next, slotFor]
    · rw [List.append_nil] at hnew
      simpa using List.Nodup.concat hnew (by simpa using h.names)
  | false =>
    cases hmade
    refine h₁.name xs₁ (ys₁ ++ [next]) hk hs₁ hhost₁ hfh₁ hslot₁ hmade₁ (fun t'' hkeeps hx => ?_) ?_ ?_
    · exact ⟨hxs₁.imp fun _ _ => hkeeps.declared, forall₂_concat (hys₁.imp fun _ _ => hkeeps.declared) hx⟩
    · simp [next, slotFor]
    · simpa using List.Nodup.concat hnew h.names

theorem declare_plain (hk : k ≠ .inlinedBlock) (h : Halfway t₀ s outer k params temps t)
    (hd : Runs (Scoping.declare s d isParameter) t x t') (hphase : isParameter = true → temps = []) :
    Halfway t₀ s outer k (if isParameter then params ++ [d] else params) (if isParameter then temps else temps ++ [d]) t' := by
  obtain ⟨xs, ys, hs, hxs, hys⟩ := h.frame
  have hinl : ¬ t.scopeIs (·.isInlined) s = true := by
    rw [scopeIs_of_scope hs]
    simpa [Scope.isInlined, Scope.codeKind?] using hk
  have hframe : t.frame? s = some (frameOf k xs ys) := frame?_of_scope hs
  rw [Scoping.runs_declare_iff, if_neg hinl, hframe] at hd
  obtain ⟨_, hf, hnone, hmade⟩ := hd
  cases hf
  have hnew : d.name ∉ (params ++ temps).map (·.name) := by
    apply not_mem_names hxs hys
    simpa [frameOf, hk] using hnone
  cases isParameter with
  | true =>
    obtain rfl := hphase rfl
    cases hys
    cases hmade
    exact h.argument hk hs hxs (by simpa using hnew)
  | false =>
    cases hmade
    exact h.temporary hk hs hxs hys hnew

theorem declare (h : Halfway t₀ s outer k params temps t) (hd : Runs (Scoping.declare s d isParameter) t x t')
    (hphase : isParameter = true → temps = []) :
    Halfway t₀ s outer k (if isParameter then params ++ [d] else params) (if isParameter then temps else temps ++ [d]) t' := by
  by_cases hk : k = .inlinedBlock
  · exact h.declare_inlined hk hd hphase
  · exact h.declare_plain hk hd hphase

/-- A name that was not declared so far can be. -/
theorem exists_declare (h : Halfway t₀ s outer k params temps t) (hd : d.name ∉ (params ++ temps).map (·.name))
    (isParameter : Bool) : ∃ x t', Runs (Scoping.declare s d isParameter) t x t' := by
  obtain ⟨xs, ys, hs, hxs, hys⟩ := h.frame
  have hframe : t.frame? s = some (frameOf k xs ys) := frame?_of_scope hs
  have hnone : t.findNamed (xs ++ ys) d.name = none := by
    rw [findNamed_eq_none]
    intro x hx v hv hname
    have hother : ∀ declaredAs e, t.Declared s k declaredAs e x → e.name = d.name := by
      rintro declaredAs e ⟨v', hv', he, -⟩
      rw [hv] at hv'
      cases hv'
      rw [← he, hname]
    rcases List.mem_append.1 hx with hx | hx
    · obtain ⟨e, he, hdecl⟩ := exists_of_mem_right hxs hx
      exact hd (List.mem_map.2 ⟨e, List.mem_append_left _ he, hother _ e hdecl⟩)
    · obtain ⟨e, he, hdecl⟩ := exists_of_mem_right hys hx
      exact hd (List.mem_map.2 ⟨e, List.mem_append_right _ he, hother _ e hdecl⟩)
  simp only [Scoping.runs_declare_iff]
  by_cases hk : k = .inlinedBlock
  · have hinl : t.scopeIs (·.isInlined) s = true := by rw [scopeIs_of_scope hs, hk]; rfl
    have hinlined : (frameOf k xs ys).inlined = xs ++ ys := by simp [frameOf, hk]
    simp only [if_pos hinl, Scoping.runs_addInlined_iff]
    exact ⟨_, _, _, hframe, by rw [hinlined, hnone], rfl⟩
  · have hinl : ¬ t.scopeIs (·.isInlined) s = true := by
      rw [scopeIs_of_scope hs]
      simpa [Scope.isInlined, Scope.codeKind?] using hk
    have hlists : (frameOf k xs ys).arguments ++ (frameOf k xs ys).locals = xs ++ ys := by simp [frameOf, hk]
    simp only [if_neg hinl]
    exact ⟨_, _, _, hframe, by rw [hlists, hnone], rfl⟩

theorem exists_declares {ds : List Declaration} (h : Halfway t₀ s outer k params temps t) (isParameter : Bool)
    (hphase : isParameter = true → temps = []) (hd : ((params ++ temps ++ ds).map (·.name)).Nodup) :
    ∃ t', Declares s isParameter t ds t' := by
  induction ds generalizing params temps t with
  | nil => exact ⟨t, .nil⟩
  | cons d ds ih =>
    have hnew : d.name ∉ (params ++ temps).map (·.name) := by
      rw [List.map_append, List.map_cons, List.nodup_middle] at hd
      exact fun hmem => hd.notMem (List.mem_append_left _ hmem)
    obtain ⟨x, t₁, h₁⟩ := h.exists_declare hnew isParameter
    have h' := h.declare h₁ hphase
    have hrest : ∃ t', Declares s isParameter t₁ ds t' := by
      cases isParameter with
      | true =>
        obtain rfl := hphase rfl
        exact ih h' (fun _ => rfl) (by simpa using hd)
      | false => exact ih h' nofun (by simpa using hd)
    obtain ⟨t', hrest⟩ := hrest
    exact ⟨t', .cons h₁ hrest⟩

theorem allParams {ds : List Declaration} (h : Halfway t₀ s outer k params [] t) (hd : Declares s true t ds t') :
    Halfway t₀ s outer k (params ++ ds) [] t' := by
  induction hd generalizing params with
  | nil => simpa using h
  | cons hd _ ih => simpa using ih (h.declare hd fun _ => rfl)

theorem allTemps {ds : List Declaration} (h : Halfway t₀ s outer k params temps t) (hd : Declares s false t ds t') :
    Halfway t₀ s outer k params (temps ++ ds) t' := by
  induction hd generalizing temps with
  | nil => simpa using h
  | cons hd _ ih => simpa using ih (h.declare hd nofun)

end Halfway

/-! ## A whole opening -/

/-- A scope of a tree with a new one is the new one or was there before. -/
theorem scope_of_addScope {body : ScopeBody} {id : ScopeId} {s : Scope}
    (h : (t.addScope (some outer) body).2.scope? id = some s) :
    id = ⟨t.scopes.size⟩ ∧ s = ⟨some outer, body⟩ ∨ t.scope? id = some s := by
  rw [scope?_addScope] at h
  split at h
  · next hid =>
    cases id
    cases hid
    cases h
    exact .inl ⟨rfl, rfl⟩
  · exact .inr h

theorem Grows.addScope (t : ScopeTree) (outer : ScopeId) (body : ScopeBody) : t.Grows (t.addScope (some outer) body).2 := by
  refine ⟨fun x v hv => ⟨v.remote, hv⟩, fun id s hs => ⟨[], by simp, ?_⟩⟩
  have := scope?_lt hs
  rw [scope?_addScope, if_neg (by omega), hs, Scope.mapFrame_eq_self _ _ fun f => by simp [Frame.withSlots]]

theorem Wf.addScope {so : Scope} (hw : t.Wf) (hout : t.scope? outer = some so)
    (hcode : k = .inlinedBlock → ∃ k' f, so.body = .code k' f) : (t.addScope (some outer) (.code k .empty)).2.Wf := by
  have hkeeps := (Grows.addScope t outer (.code k .empty)).keeps
  have hself : (t.addScope (some outer) (.code k .empty)).2.scope? ⟨t.scopes.size⟩ = some ⟨some outer, .code k .empty⟩ := by
    rw [scope?_addScope, if_pos rfl]
  constructor
  case nested =>
    intro id o ho
    obtain ⟨s, hs, ho⟩ := scope_of_outer ho
    rcases scope_of_addScope hs with ⟨rfl, rfl⟩ | hs
    · cases ho
      exact scope?_lt hout
    · exact hw.nested id o (by rw [outer?_of_scope hs, ho])
  case root =>
    intro id o members hs x hx
    rcases scope_of_addScope hs with ⟨-, h⟩ | hs
    · cases h
    · exact hkeeps.owns (hw.root id o members hs x hx)
  case side =>
    intro id o c b receiver slots hs
    rcases scope_of_addScope hs with ⟨-, h⟩ | hs
    · cases h
    · obtain ⟨hr, hslots⟩ := hw.side id o c b receiver slots hs
      exact ⟨hkeeps.owns hr, fun x hx => hkeeps.owns (hslots x hx)⟩
  case code =>
    intro id o k' f hs
    rcases scope_of_addScope hs with ⟨-, h⟩ | hs
    · cases h
      constructor <;> simp [Frame.empty]
    · exact hkeeps.frameWf hw.nested hs (hw.code id o k' f hs)
  case hosted =>
    intro id o k' f hs
    rcases scope_of_addScope hs with ⟨rfl, h⟩ | hs
    · cases h
      by_cases hk : k = .inlinedBlock
      · -- The host of an inlined block is that of the code around it.
        obtain ⟨k', f', hbody⟩ := hcode hk
        obtain ⟨oo, body⟩ := so
        cases hbody
        obtain ⟨host, fh, hhost, hfh⟩ := hw.hosted outer oo k' f' hout
        obtain ⟨fh', hfh', -⟩ := hkeeps.frame hfh
        refine ⟨host, fh', .outer ?_ ?_ (hkeeps.hostedBy hw.nested hout hhost), hfh'⟩
        · rw [scopeIs_of_scope hself, hk]
          rfl
        · rw [outer?_of_scope hself]
      · refine ⟨_, .empty, .here ?_, by rw [frame?_of_scope hself]; rfl⟩
        rw [scopeIs_of_scope hself]
        simpa [Scope.isInlined, Scope.codeKind?] using hk
    · obtain ⟨host, fh, hhost, hfh⟩ := hw.hosted id o k' f hs
      obtain ⟨fh', hfh', -⟩ := hkeeps.frame hfh
      exact ⟨host, fh', hkeeps.hostedBy hw.nested hs hhost, hfh'⟩
  case madeUp => exact hw.madeUp

/-- The new scope before anything is declared in it. -/
theorem Wf.halfway {so : Scope} (hw : t.Wf) (hout : t.scope? outer = some so)
    (hcode : k = .inlinedBlock → ∃ k' f, so.body = .code k' f) :
    Halfway t ⟨t.scopes.size⟩ outer k [] [] (t.addScope (some outer) (.code k .empty)).2 where
  new := Array.getElem?_eq_none (Nat.le_refl _)
  size := by simp [ScopeTree.addScope]
  grows := .addScope t outer _
  fresh := .refl _
  wf := hw.addScope hout hcode
  frame := by
    refine ⟨[], [], ?_, .nil, .nil⟩
    rw [scope?_addScope, if_pos rfl]
    simp [frameOf, Frame.empty]
  names := by simp

/-- A scope can be opened for code that declares no name twice. -/
theorem Wf.exists_opens {so : Scope} (hw : t.Wf) (hout : t.scope? outer = some so)
    (hcode : k = .inlinedBlock → ∃ k' f, so.body = .code k' f) (hd : (c.declared.map (·.name)).Nodup) :
    ∃ t', t.Opens outer k c ⟨t.scopes.size⟩ t' := by
  rw [Code.declared] at hd
  have hnew := hw.halfway hout hcode
  have hparams : (c.params.map (·.name)).Nodup := by
    rw [List.map_append] at hd
    exact (List.nodup_append.1 hd).1
  obtain ⟨mid, hmid⟩ := hnew.exists_declares true (fun _ => rfl) hparams
  obtain ⟨t', ht'⟩ := (hnew.allParams hmid).exists_declares false nofun (by simpa using hd)
  exact ⟨t', rfl, mid, hmid, ht'⟩

/-- What opening a scope does. -/
theorem Opens.spec {so : Scope} (h : t.Opens outer k c s t') (hw : t.Wf) (hout : t.scope? outer = some so)
    (hcode : k = .inlinedBlock → ∃ k' f, so.body = .code k' f) :
    t'.Wf ∧ t.Grows t' ∧ t.Fresh t' ∧ t'.Entered s outer k c.params c.temps ∧ t.scope? s = none ∧
      t'.scopes.size = t.scopes.size + 1 := by
  obtain ⟨rfl, mid, hparams, htemps⟩ := h
  have h := ((hw.halfway hout hcode).allParams hparams).allTemps htemps
  obtain ⟨xs, ys, hs, hxs, hys⟩ := h.frame
  refine ⟨h.wf, h.grows, h.fresh, ⟨xs, ys, [], ?_, ?_, ?_, by simp, ?_⟩, h.new, h.size⟩
  · rw [hs]
    simp [Frame.withSlots]
  · simpa using hxs
  · simpa using hys
  · simpa using h.names

end ScopeTree
end BlockScope
