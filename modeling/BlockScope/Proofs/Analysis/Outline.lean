import BlockScope.Proofs.Analysis.Simulation
import BlockScope.Analysis.Inheritance
import Mathlib.Logic.Relation
/-!
# What is known before the bodies

`register` and `link` make the root and two sides for every class and nothing else. `Outline` says so at each
point between them, where `laid` are the variables laid out so far. After both, each side has a variable for
everything that its class and the classes it inherits from declare there (`Program.Inherits`).
-/
namespace BlockScope
open Stage

/-- The declared variables of one side of a class. -/
def ClassDefinition.vars (c : ClassDefinition) (classSide : Bool) : List Declaration :=
  if classSide then c.classVars else c.instanceVars

def ClassInfo.slots (c : ClassInfo) (classSide : Bool) : List VarId := if classSide then c.classVars else c.instanceVars

/-- The superclass that an analysis knows of a class. -/
def Analysis.superOf (a : Analysis) (i : Nat) : Option Nat := a.classes[i]?.bind (·.superClass)

/-- The superclass of the first class is the second. -/
def Program.Super (p : Program) (i j : Nat) : Prop :=
  ∃ c c', p.classes[i]? = some c ∧ p.classes[j]? = some c' ∧ c.superName = some c'.name

/-- The second class is the first or one it inherits from. -/
def Program.Inherits (p : Program) : Nat → Nat → Prop := Relation.ReflTransGen p.Super

/-- The slots of a side are made for these declarations, in order and with different names. -/
structure ScopeTree.Laid (t : ScopeTree) (scope : ScopeId) (ds : List Declaration) (slots : List VarId) : Prop where
  length : slots.length = ds.length
  var : ∀ (j : Nat) d x, ds[j]? = some d → slots[j]? = some x →
    t.var? x = some (.new d.name scope .slot (some d.span) (some j))
  names : (ds.map (·.name)).Nodup

/-- An analysis that knows the classes of a program but none of its bodies. -/
structure Outline (p : Program) (laid : Nat → Bool → List Declaration) (a : Analysis) : Prop where
  tables : a.bindings = .empty ∧ a.blockScopes = .empty ∧ a.sends = .empty ∧ a.returns = .empty
  root : a.root = ⟨0⟩
  members : a.scopes.scope? a.root = some ⟨none, .root (a.classes.toList.map (·.member))⟩
  classes : ∀ (i : Nat) (info : ClassInfo), a.classes[i]? = some info → ∃ c, p.classes[i]? = some c ∧ info.name = c.name ∧
    info.instanceMethods = [] ∧ info.classMethods = [] ∧
    a.scopes.var? info.member = some (.new c.name a.root .member (some c.span) (some i))
  sides : ∀ (i : Nat) (info : ClassInfo), a.classes[i]? = some info → ∀ side, ∃ receiver,
    a.scopes.scope? (info.side side) = some ⟨some a.root, .side i side receiver (info.slots side)⟩ ∧
    a.scopes.var? receiver = some (.new "self" (info.side side) .receiver none none) ∧
    a.scopes.Laid (info.side side) (laid i side) (info.slots side)
  only : ∀ id s, a.scopes.scope? id = some s →
    id = a.root ∨ ∃ (i : Nat) (info : ClassInfo) (side : Bool), a.classes[i]? = some info ∧ id = info.side side
  vars : ∀ x v, a.scopes.var? x = some v → v.remote = .none ∧ v.aliasOf = none ∧ (a.scopes.scope? v.scope).isSome
  distinct : (a.classes.toList.map (·.name)).Nodup

/-! ## Registering -/

section
variable {p : Program} {laid : Nat → Bool → List Declaration} {a : Analysis} {w w' : Work} {u : Unit} {c : ClassDefinition}
  {index : Nat}

theorem outline_fresh (p : Program) : Outline p (fun _ _ => []) .fresh := by
  refine ⟨⟨rfl, rfl, rfl, rfl⟩, rfl, rfl, ?_, ?_, ?_, ?_, .nil⟩
  · intro i info h
    cases h
  · intro i info h
    cases h
  · intro id s h
    left
    have := ScopeTree.scope?_lt h
    cases id
    simp only [Analysis.fresh, ScopeTree.addScope, ScopeTree.empty, Array.size_push] at this ⊢
    simp at this
    simp [this]
  · intro x v h
    cases h

namespace ScopeTree
variable {t : ScopeTree}

theorem scope?_addSide (t : ScopeTree) (outer : ScopeId) (i : Nat) (side : Bool) (id : ScopeId) :
    (t.addSide outer i side).2.scope? id =
      if id.index = t.scopes.size then some ⟨some outer, .side i side ⟨t.vars.size⟩ []⟩ else t.scope? id := by
  unfold addSide
  exact scope?_addScope _ _ _ id

theorem var?_addSide (t : ScopeTree) (outer : ScopeId) (i : Nat) (side : Bool) (x : VarId) :
    (t.addSide outer i side).2.var? x =
      if x.index = t.vars.size then some (.new "self" ⟨t.scopes.size⟩ .receiver none none) else t.var? x := by
  unfold addSide
  exact var?_addVar _ _ x

theorem scope?_addMember (t : ScopeTree) (v : Variable) (id : ScopeId) :
    (t.addMember v).2.scope? id =
      if id = v.scope then (t.scope? id).map (·.listMember ⟨t.vars.size⟩) else t.scope? id := by
  unfold addMember
  simp only [addVar]
  rw [scope?_modifyScope]
  rfl

theorem var?_addMember (t : ScopeTree) (v : Variable) (x : VarId) :
    (t.addMember v).2.var? x = if x.index = t.vars.size then some v else t.var? x := by
  unfold addMember
  exact var?_addVar t v x

theorem size_addMember (t : ScopeTree) (v : Variable) :
    (t.addMember v).2.scopes.size = t.scopes.size ∧ (t.addMember v).2.vars.size = t.vars.size + 1 := by
  simp [addMember, addVar, modifyScope]

theorem size_addSide (t : ScopeTree) (outer : ScopeId) (i : Nat) (side : Bool) :
    (t.addSide outer i side).2.scopes.size = t.scopes.size + 1 ∧ (t.addSide outer i side).2.vars.size = t.vars.size + 1 := by
  simp [addSide, addVar, addScope]

/-- A tree with a new class: its member in the root, and both its sides. -/
structure Admits (t : ScopeTree) (root : ScopeId) (c : ClassDefinition) (i : Nat) (t' : ScopeTree) : Prop where
  member : t'.var? ⟨t.vars.size⟩ = some (.new c.name root .member (some c.span) (some i))
  members : t'.scope? root = (t.scope? root).map (·.listMember ⟨t.vars.size⟩)
  side : ∀ side : Bool, ∃ receiver, t'.var? receiver = some (.new "self" ⟨t.scopes.size + side.toNat⟩ .receiver none none) ∧
    t'.scope? ⟨t.scopes.size + side.toNat⟩ = some ⟨some root, .side i side receiver []⟩
  vars : ∀ x v, t.var? x = some v → t'.var? x = some v
  scopes : ∀ id s, t.scope? id = some s → id ≠ root → t'.scope? id = some s
  newVars : ∀ x v, t'.var? x = some v → t.var? x = some v ∨
    v.remote = .none ∧ v.aliasOf = none ∧ (t'.scope? v.scope).isSome
  newScopes : ∀ id s, t'.scope? id = some s →
    id = root ∨ t.scope? id = some s ∨ ∃ side : Bool, id = ⟨t.scopes.size + side.toNat⟩

theorem Admits.scope_isSome {root id : ScopeId} {c : ClassDefinition} {i : Nat} {t' : ScopeTree} (h : t.Admits root c i t')
    (hs : (t.scope? id).isSome) : (t'.scope? id).isSome := by
  obtain ⟨s, hs⟩ := Option.isSome_iff_exists.1 hs
  by_cases hid : id = root
  · subst hid
    rw [h.members, hs]
    rfl
  · rw [h.scopes id s hs hid]
    rfl

theorem admits_new (t : ScopeTree) {root : ScopeId} (c : ClassDefinition) (i : Nat) (hroot : root.index < t.scopes.size) :
    t.Admits root c i
      ((((t.addMember (.new c.name root .member (some c.span) (some i))).2.addSide root i false).2.addSide root i true).2) := by
  generalize hv : Variable.new c.name root .member (some c.span) (some i) = v
  have hvs : v.scope = root := by rw [← hv]; rfl
  obtain ⟨m₁, m₂⟩ := t.size_addMember v
  obtain ⟨s₁, s₂⟩ := (t.addMember v).2.size_addSide root i false
  constructor
  case member =>
    rw [var?_addSide, if_neg (by simp only; omega), var?_addSide, if_neg (by simp only; omega), var?_addMember, if_pos rfl, hv]
  case members =>
    rw [scope?_addSide, if_neg (by omega), scope?_addSide, if_neg (by omega), scope?_addMember, if_pos hvs.symm]
  case side =>
    intro side
    cases side with
    | false =>
      refine ⟨⟨t.vars.size + 1⟩, ?_, ?_⟩
      · rw [var?_addSide, if_neg (by simp only; omega), var?_addSide, if_pos (by simp only; omega), m₁]
        rfl
      · rw [scope?_addSide, if_neg (by simp; omega), scope?_addSide, if_pos (by simp; omega), m₂]
    | true =>
      refine ⟨⟨t.vars.size + 2⟩, ?_, ?_⟩
      · rw [var?_addSide, if_pos (by simp only; omega), s₁, m₁]
        rfl
      · rw [scope?_addSide, if_pos (by simp; omega), s₂, m₂]
  case vars =>
    intro x w hx
    have := var?_lt hx
    rw [var?_addSide, if_neg (by omega), var?_addSide, if_neg (by omega), var?_addMember, if_neg (by omega), hx]
  case scopes =>
    intro id s hs hne
    have := scope?_lt hs
    rw [scope?_addSide, if_neg (by omega), scope?_addSide, if_neg (by omega), scope?_addMember, if_neg (by rw [hvs]; exact hne), hs]
  case newVars =>
    intro x w hx
    rw [var?_addSide, var?_addSide, var?_addMember] at hx
    split at hx
    · cases hx
      refine .inr ⟨rfl, rfl, ?_⟩
      rw [scope?_addSide, if_pos (by rfl)]
      rfl
    · split at hx
      · cases hx
        refine .inr ⟨rfl, rfl, ?_⟩
        rw [scope?_addSide, if_neg (by simp only [Variable.new]; omega), scope?_addSide, if_pos (by rfl)]
        rfl
      · split at hx
        · cases hx
          obtain ⟨s, hs⟩ := scope?_of_lt hroot
          refine .inr ⟨by rw [← hv]; rfl, by rw [← hv]; rfl, ?_⟩
          rw [hvs, scope?_addSide, if_neg (by omega), scope?_addSide, if_neg (by omega), scope?_addMember, if_pos hvs.symm, hs]
          rfl
        · exact .inl hx
  case newScopes =>
    intro id s hs
    obtain ⟨n⟩ := id
    rw [scope?_addSide, scope?_addSide, scope?_addMember, hvs] at hs
    simp only [s₁, m₁] at hs
    split at hs
    · next h => exact .inr (.inr ⟨true, by simp [h]⟩)
    · split at hs
      · next h => exact .inr (.inr ⟨false, by simp [h]⟩)
      · split at hs
        · next h => exact .inl h
        · exact .inr (.inl hs)

end ScopeTree

theorem Outline.root_lt (h : Outline p laid a) : a.root.index < a.scopes.scopes.size := ScopeTree.scope?_lt h.members

theorem Outline.side_ne_root {i : Nat} {info : ClassInfo} (h : Outline p laid a) (hi : a.classes[i]? = some info) (side : Bool) :
    info.side side ≠ a.root := by
  obtain ⟨receiver, hs, -⟩ := h.sides i info hi side
  intro he
  rw [he, h.members] at hs
  cases hs

/-- What is known of a class when it is entered. -/
def ClassInfo.entered (c : ClassDefinition) (t : ScopeTree) : ClassInfo :=
  { name := c.name, superClass := none, member := ⟨t.vars.size⟩, instanceScope := ⟨t.scopes.size⟩,
    classScope := ⟨t.scopes.size + 1⟩, instanceMethods := [], classMethods := [], instanceVars := [], classVars := [] }

theorem ClassInfo.side_entered (c : ClassDefinition) (t : ScopeTree) (side : Bool) :
    (ClassInfo.entered c t).side side = ⟨t.scopes.size + side.toNat⟩ := by
  cases side <;> rfl

theorem runs_registerClass (h : Runs (registerClass (c, index)) w u w') :
    w.analysis.classNamed? c.name = none ∧ w'.analysis = { w.analysis with
      scopes := (((w.analysis.scopes.addMember (.new c.name w.analysis.root .member (some c.span) (some index))).2.addSide
        w.analysis.root index false).2.addSide w.analysis.root index true).2
      classes := w.analysis.classes.push (.entered c w.analysis.scopes) } := by
  unfold registerClass at h
  rw [runs_analysis_bind] at h
  simp only at h
  split at h
  · rw [Runs.bind_iff] at h
    simp at h
  · next hnone =>
    simp only [Runs.bind_iff, runs_onScopes, runs_tell, runs_update] at h
    obtain ⟨_, _, ⟨rfl, rfl⟩, _, _, ⟨rfl, rfl⟩, _, _, ⟨rfl, rfl⟩, _, _, rfl, rfl⟩ := h
    refine ⟨by simpa using hnone, ?_⟩
    simp [Work.mapAnalysis, Work.withScopes, Work.tell, ClassInfo.entered, ScopeTree.addMember, ScopeTree.addSide,
      ScopeTree.addScope, ScopeTree.addVar, ScopeTree.modifyScope]

/-- A class that has no superclass yet leaves those of the others. -/
theorem superOf_of_push {b : Analysis} {info : ClassInfo} (hb : b.classes = a.classes.push info) (hinfo : info.superClass = none)
    (i : Nat) : b.superOf i = a.superOf i := by
  rw [Analysis.superOf, Analysis.superOf, hb, Array.getElem?_push]
  split
  · next h => simp [h, hinfo]
  · rfl

/-- A new class with both its sides and nothing in them. -/
theorem Outline.enter {t : ScopeTree} (h : Outline p (fun _ _ => []) a) (hc : p.classes[a.classes.size]? = some c)
    (hnone : a.classNamed? c.name = none) (ht : a.scopes.Admits a.root c a.classes.size t) :
    Outline p (fun _ _ => []) { a with scopes := t, classes := a.classes.push (.entered c a.scopes) } := by
  have hclasses : ∀ (i : Nat) (info : ClassInfo), (a.classes.push (.entered c a.scopes))[i]? = some info →
      (i = a.classes.size ∧ info = .entered c a.scopes) ∨ a.classes[i]? = some info := by
    intro i info hi
    rw [Array.getElem?_push] at hi
    split at hi
    · next h =>
      cases hi
      exact .inl ⟨h, rfl⟩
    · exact .inr hi
  constructor
  case tables => exact h.tables
  case root => exact h.root
  case members =>
    rw [ht.members, h.members]
    simp [Scope.listMember, ClassInfo.entered]
  case classes =>
    intro i info hi
    rcases hclasses i info hi with ⟨rfl, rfl⟩ | hi
    · exact ⟨c, hc, rfl, rfl, rfl, ht.member⟩
    · obtain ⟨c', hc', hname, him, hcm, hv⟩ := h.classes i info hi
      exact ⟨c', hc', hname, him, hcm, ht.vars _ _ hv⟩
  case sides =>
    intro i info hi side
    rcases hclasses i info hi with ⟨rfl, rfl⟩ | hi
    · obtain ⟨receiver, hv, hs⟩ := ht.side side
      rw [ClassInfo.side_entered]
      exact ⟨receiver, by rw [hs]; cases side <;> rfl, hv, by cases side <;> exact ⟨rfl, nofun, .nil⟩⟩
    · obtain ⟨receiver, hs, hv, hl⟩ := h.sides i info hi side
      exact ⟨receiver, ht.scopes _ _ hs (h.side_ne_root hi side), ht.vars _ _ hv, hl.length, nofun, .nil⟩
  case only =>
    intro id s hs
    rcases ht.newScopes id s hs with rfl | hs | ⟨side, rfl⟩
    · exact .inl rfl
    · rcases h.only id s hs with h | ⟨i, info, side, hi, rfl⟩
      · exact .inl h
      · refine .inr ⟨i, info, side, ?_, rfl⟩
        have := (Array.getElem?_eq_some_iff.1 hi).1
        rw [Array.getElem?_push, if_neg (by omega), hi]
    · exact .inr ⟨a.classes.size, .entered c a.scopes, side, Array.getElem?_push_size, (ClassInfo.side_entered _ _ _).symm⟩
  case vars =>
    intro x v hv
    rcases ht.newVars x v hv with hv | hv
    · obtain ⟨hremote, halias, hscope⟩ := h.vars x v hv
      exact ⟨hremote, halias, ht.scope_isSome hscope⟩
    · exact hv
  case distinct =>
    rw [Array.toList_push, List.map_append, List.map_singleton, ← List.concat_eq_append]
    refine List.Nodup.concat ?_ h.distinct
    intro hmem
    obtain ⟨info, hinfo, hname⟩ := List.mem_map.1 hmem
    rw [Analysis.classNamed?, List.find?_eq_none] at hnone
    exact hnone info hinfo (by simpa [ClassInfo.entered] using hname)

theorem outline_registerClass (h : Outline p (fun _ _ => []) w.analysis) (hsize : w.analysis.classes.size = index)
    (hsuper : ∀ i, w.analysis.superOf i = none) (hc : p.classes[index]? = some c)
    (hr : Runs (registerClass (c, index)) w u w') : Outline p (fun _ _ => []) w'.analysis ∧
      w'.analysis.classes.size = index + 1 ∧ ∀ i, w'.analysis.superOf i = none := by
  obtain ⟨hnone, e⟩ := runs_registerClass hr
  subst hsize
  rw [e]
  refine ⟨h.enter hc hnone (w.analysis.scopes.admits_new c _ h.root_lt), by rw [Array.size_push], fun i => ?_⟩
  exact (superOf_of_push rfl rfl i).trans (hsuper i)

theorem outline_register (hfresh : w.analysis = .fresh) (h : Runs (register p) w u w') :
    Outline p (fun _ _ => []) w'.analysis ∧ w'.analysis.classes.size = p.classes.length ∧
      ∀ i, w'.analysis.superOf i = none := by
  have hstart : Outline p (fun _ _ => []) w.analysis ∧ w.analysis.classes.size = 0 ∧ ∀ i, w.analysis.superOf i = none := by
    rw [hfresh]
    exact ⟨outline_fresh p, rfl, fun _ => rfl⟩
  unfold register at h
  rw [List.forM_eq_forM] at h
  have := Runs.forM_zipIdx (fun k w => Outline p (fun _ _ => []) w.analysis ∧ w.analysis.classes.size = k ∧
    ∀ i, w.analysis.superOf i = none) p.classes 0
    (fun i c w w' hc hw hr => outline_registerClass hw.1 hw.2.1 hw.2.2 (by simpa using hc) hr) h hstart
  simpa using this

/-! ## What an outline gives -/

namespace Outline

theorem body_of_side {i : Nat} {info : ClassInfo} {side : Bool} {o : Option ScopeId} {b : ScopeBody} (h : Outline p laid a)
    (hi : a.classes[i]? = some info) (hs : a.scopes.scope? (info.side side) = some ⟨o, b⟩) :
    o = some a.root ∧ ∃ receiver, b = .side i side receiver (info.slots side) := by
  obtain ⟨receiver, hs', -⟩ := h.sides i info hi side
  rw [hs'] at hs
  cases hs
  exact ⟨rfl, receiver, rfl⟩

/-- There is no scope of a method or block yet. -/
theorem no_code {id : ScopeId} {o : Option ScopeId} {k : CodeKind} {f : Frame} (h : Outline p laid a) :
    a.scopes.scope? id ≠ some ⟨o, .code k f⟩ := by
  intro hs
  rcases h.only id _ hs with rfl | ⟨i, info, side, hi, rfl⟩
  · rw [h.members] at hs
    cases hs
  · obtain ⟨-, receiver, hb⟩ := h.body_of_side hi hs
    cases hb

theorem wf (h : Outline p laid a) : a.scopes.Wf where
  nested := by
    intro id o ho
    obtain ⟨⟨o', b⟩, hs, rfl⟩ := ScopeTree.scope_of_outer ho
    rcases h.only id _ hs with rfl | ⟨i, info, side, hi, rfl⟩
    · rw [h.members] at hs
      cases hs
    · obtain ⟨ho', -⟩ := h.body_of_side hi hs
      cases ho'
      have hne := h.side_ne_root hi side
      rw [h.root] at hne ⊢
      generalize info.side side = id at hne
      obtain ⟨n⟩ := id
      simp only [ne_eq, ScopeId.mk.injEq] at hne
      simp only
      omega
  root := by
    intro id o members hs x hx
    rcases h.only id _ hs with rfl | ⟨i, info, side, hi, rfl⟩
    · rw [h.members] at hs
      cases hs
      obtain ⟨info, hinfo, rfl⟩ := List.mem_map.1 hx
      obtain ⟨i, hi⟩ := List.getElem?_of_mem hinfo
      obtain ⟨c, -, -, -, -, hv⟩ := h.classes i info (by simpa using hi)
      exact ⟨_, hv, rfl, rfl, rfl⟩
    · obtain ⟨-, receiver, hb⟩ := h.body_of_side hi hs
      cases hb
  side := by
    intro id o c b receiver slots hs
    rcases h.only id _ hs with rfl | ⟨i, info, side, hi, rfl⟩
    · rw [h.members] at hs
      cases hs
    · obtain ⟨receiver', hs', hv, hl⟩ := h.sides i info hi side
      rw [hs'] at hs
      cases hs
      refine ⟨⟨_, hv, rfl, rfl, rfl⟩, fun x hx => ?_⟩
      obtain ⟨j, hj⟩ := List.getElem?_of_mem hx
      have hlt : j < (laid c b).length := by
        rw [← hl.length]
        exact (List.getElem?_eq_some_iff.1 hj).1
      exact ⟨_, hl.var j _ x (List.getElem?_eq_getElem hlt) hj, rfl, rfl, rfl⟩
  code := fun id o k f hs => absurd hs h.no_code
  hosted := fun id o k f hs => absurd hs h.no_code
  madeUp := by
    intro x v slot hv halias
    rw [(h.vars x v hv).2.1] at halias
    cases halias

/-- In the root a name is that of a class. -/
theorem find_root {name : String} {found : Found} {r : Bool} (h : Outline p laid a) (hf : a.scopes.find a.root name r = some found) :
    found.place = .member ∧ ∃ (i : Nat) (info : ClassInfo) (c : ClassDefinition), a.classes[i]? = some info ∧
      p.classes[i]? = some c ∧ c.name = name ∧ found.var = info.member := by
  rw [h.wf.nested.find_eq h.members] at hf
  simp only [ScopeTree.findIn, Option.bind_none, Option.or_none, Option.map_eq_some_iff] at hf
  obtain ⟨x, hx, rfl⟩ := hf
  obtain ⟨hmem, v, hv, hname⟩ := ScopeTree.findNamed_eq_some hx
  obtain ⟨info, hinfo, rfl⟩ := List.mem_map.1 hmem
  obtain ⟨i, hi⟩ := List.getElem?_of_mem hinfo
  obtain ⟨c, hc, -, -, -, hv'⟩ := h.classes i info (by simpa using hi)
  rw [hv'] at hv
  cases hv
  exact ⟨rfl, i, info, c, by simpa using hi, hc, hname, rfl⟩

end Outline

end
end BlockScope
