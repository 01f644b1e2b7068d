import BlockScope.Proofs.Program.Events
import BlockScope.Proofs.Scope.Opening
import BlockScope.Analysis.Resolution
/-!
# Resolution step by step

`Step` says what one event does to an analysis while names are resolved: a method or a block opens its scope,
a name is found and bound, and anything else at most records sends. `Steps` is a run of events. A step lets
the scopes grow and keeps them well formed (`Step.wf_grows`), and whatever else a run preserves is
derived from these.
-/
namespace BlockScope

/-- The scope of an opener. -/
def Analysis.scopeOf? (a : Analysis) : Opener → Option ScopeId
  | .method cls place => a.classes[cls]?.bind (·.methods[place]?)
  | .block id => a.blockScopes.get? id

/-- The scope of one side of a class. -/
def ClassInfo.side (c : ClassInfo) (classSide : Bool) : ScopeId := if classSide then c.classScope else c.instanceScope

/-- Lists the scope of a method. -/
def ClassInfo.addMethod (classSide : Bool) (scope : ScopeId) (c : ClassInfo) : ClassInfo :=
  if classSide then { c with classMethods := c.classMethods ++ [scope] }
  else { c with instanceMethods := c.instanceMethods ++ [scope] }

/-- Every class keeps its place. -/
theorem Analysis.getElem?_modifyClass (a : Analysis) (i j : Nat) (f : ClassInfo → ClassInfo) :
    (a.modifyClass i f).classes[j]? = (a.classes[j]?).map fun c => if i = j then f c else c := by
  rw [modifyClass, Array.getElem?_modify]
  split <;> simp

/-- The kind of scope that a block in this role gets. -/
def Role.blockKind : Role → CodeKind
  | .inlined => .inlinedBlock
  | _ => .block

/-- The shapes of sends with those that a node brings. -/
def Arena.recordSends (arena : Arena) (id : NodeId) (sends : Table SendShape) : Table SendShape :=
  match arena.expr? id with
  | some (.send _ _ _) => sends.insert id ((arena.sendShape? id).getD .plain)
  | some (.cascade _ messages) => messages.foldl (·.insert · .plain) sends
  | _ => sends

/-- The scope of a method or block. -/
def ScopeTree.IsCode (t : ScopeTree) (id : ScopeId) : Prop := ∃ o k f, t.scope? id = some ⟨o, .code k f⟩

/-- What one event does, where openers have the scopes that `scopeOf` gives. -/
inductive Step (p : Program) (scopeOf : Opener → Option ScopeId) : Analysis → Event → Analysis → Prop where
  | method {a : Analysis} {cls place : Nat} {m : Method} {info : ClassInfo} {scope : ScopeId} {so : Scope} {t : ScopeTree}
    (hm : p.method? cls place = some m) (hinfo : a.classes[cls]? = some info)
    (hscope : scopeOf (.method cls place) = some scope) (hside : a.scopes.scope? (info.side m.classSide) = some so)
    (h : a.scopes.Opens (info.side m.classSide) .method m.code scope t) :
    Step p scopeOf a (.method cls place) ({ a with scopes := t }.modifyClass cls (ClassInfo.addMethod m.classSide scope))
  | block {a : Analysis} {o : Opener} {role : Role} {id : NodeId} {code : Code} {scope outer : ScopeId} {t : ScopeTree}
    (hb : p.arena.blockCode? id = some code) (hscope : scopeOf (.block id) = some scope) (ho : scopeOf o = some outer)
    (hcode : a.scopes.IsCode outer) (h : a.scopes.Opens outer role.blockKind code scope t) :
    Step p scopeOf a (.node o role id) { a with scopes := t, blockScopes := a.blockScopes.insert id scope }
  | use {a : Analysis} {o : Opener} {role : Role} {id : NodeId} {name : String} {scope : ScopeId} {found : Found}
    (he : p.arena.expr? id = some (.ident name)) (ho : scopeOf o = some scope) (hcode : a.scopes.IsCode scope)
    (hf : a.scopes.find scope name false = some found)
    (hw : role = .target → ∃ v, a.scopes.var? found.var = some v ∧ v.writable) :
    Step p scopeOf a (.node o role id)
      { a with scopes := a.scopes.markFound found (role = .target), bindings := a.bindings.insert id found.var }
  | other {a : Analysis} {o : Opener} {role : Role} {id : NodeId} (hi : ∀ name, p.arena.expr? id ≠ some (.ident name))
    (hb : p.arena.blockCode? id = none) :
    Step p scopeOf a (.node o role id) { a with sends := p.arena.recordSends id a.sends }

/-- Several events, one after the other. -/
inductive Steps (p : Program) (scopeOf : Opener → Option ScopeId) : Analysis → List Event → Analysis → Prop where
  | nil {a : Analysis} : Steps p scopeOf a [] a
  | cons {a b c : Analysis} {ev : Event} {evs : List Event} (h : Step p scopeOf a ev b) (rest : Steps p scopeOf b evs c) :
    Steps p scopeOf a (ev :: evs) c

namespace ScopeTree
variable {t : ScopeTree} {found : Found} {forWrite : Bool} {id : ScopeId} {x : VarId} {v : Variable}

/-! ## Recording a use -/

/-- The use is of this variable, from the far side of a closure. -/
def Hits (t : ScopeTree) (found : Found) (x : VarId) : Prop :=
  (∃ D, found.place = .frame D true) ∧ t.realVar found.var = x

@[simp] theorem scope?_markFound (t : ScopeTree) (found : Found) (forWrite : Bool) (id : ScopeId) :
    (t.markFound found forWrite).scope? id = t.scope? id := by
  unfold markFound
  split <;> rfl

theorem var?_markFound_of_hits (h : t.Hits found x) :
    (t.markFound found forWrite).var? x = (t.var? x).map (·.mark forWrite) := by
  obtain ⟨⟨D, hD⟩, rfl⟩ := h
  unfold markFound
  rw [hD]
  simp only
  rw [var?_modifyVar, if_pos rfl]

theorem var?_markFound_of_not_hits (h : ¬ t.Hits found x) : (t.markFound found forWrite).var? x = t.var? x := by
  unfold markFound
  split
  · next D hD =>
    rw [var?_modifyVar, if_neg]
    rintro rfl
    exact h ⟨⟨D, hD⟩, rfl⟩
  · rfl

theorem grows_markFound (t : ScopeTree) (found : Found) (forWrite : Bool) : t.Grows (t.markFound found forWrite) := by
  constructor
  · intro x v hv
    by_cases h : t.Hits found x
    · exact ⟨_, by rw [var?_markFound_of_hits h, hv]; rfl⟩
    · exact ⟨v.remote, by rw [var?_markFound_of_not_hits h, hv]⟩
  · intro id s hs
    refine ⟨[], by simp, ?_⟩
    rw [scope?_markFound, hs, Scope.mapFrame_eq_self _ _ fun f => by simp [Frame.withSlots]]

theorem Wf.markFound (hw : t.Wf) (found : Found) (forWrite : Bool) : (t.markFound found forWrite).Wf := by
  have hk := (grows_markFound t found forWrite).keeps
  refine hw.update hk ?_ ?_ ?_
  · unfold ScopeTree.markFound
    split <;> rfl
  · intro id o k f f' hs hs'
    rw [scope?_markFound, hs] at hs'
    cases hs'
    exact hk.frameWf hw.nested hs (hw.code id o k f hs)
  · intro x v slot hx hslot
    by_cases h : t.Hits found x
    · rw [var?_markFound_of_hits h] at hx
      obtain ⟨w, hw', rfl⟩ := Option.map_eq_some_iff.1 hx
      exact hk.madeUp (hw.madeUp x w slot hw' hslot)
    · rw [var?_markFound_of_not_hits h] at hx
      exact hk.madeUp (hw.madeUp x v slot hx hslot)

theorem IsCode.grow {t' : ScopeTree} (h : t.IsCode id) (hg : t.Grows t') : t'.IsCode id := by
  obtain ⟨o, k, f, hs⟩ := h
  obtain ⟨slots, -, hs'⟩ := hg.scopes id _ hs
  exact ⟨o, k, _, hs'⟩

theorem IsCode.of_grows {t' : ScopeTree} {s : Scope} (h : t'.IsCode id) (hg : t.Grows t') (hs : t.scope? id = some s) :
    t.IsCode id := by
  obtain ⟨o', k', f', hs'⟩ := h
  obtain ⟨slots, -, hs''⟩ := hg.scopes id s hs
  rw [hs'] at hs''
  obtain ⟨-, ⟨k, f, hb, -⟩ | ⟨hne, hb⟩⟩ := mapFrame_inv (Option.some.inj hs'').symm
  · obtain ⟨o, b⟩ := s
    cases hb
    exact ⟨o, k, f, hs⟩
  · exact absurd hb (hne _ _)

theorem Entered.isCode {s outer : ScopeId} {k : CodeKind} {params temps : List Declaration}
    (h : t.Entered s outer k params temps) : t.IsCode s := by
  obtain ⟨xs, ys, slots, hs, -⟩ := h
  exact ⟨_, _, _, hs⟩

end ScopeTree

namespace Step
variable {p : Program} {scopeOf : Opener → Option ScopeId} {a b : Analysis} {ev : Event}

/-- A step keeps the scopes well formed while they grow. -/
theorem wf_grows (h : Step p scopeOf a ev b) (hw : a.scopes.Wf) : b.scopes.Wf ∧ a.scopes.Grows b.scopes := by
  cases h with
  | method hm hinfo hscope hside h =>
    obtain ⟨hw', hg, -⟩ := h.spec hw hside nofun
    exact ⟨hw', hg⟩
  | block hb hscope ho hcode h =>
    obtain ⟨o', k', f', hs⟩ := hcode
    obtain ⟨hw', hg, -⟩ := h.spec hw hs fun _ => ⟨k', f', rfl⟩
    exact ⟨hw', hg⟩
  | use he ho hcode hf hwrite => exact ⟨hw.markFound _ _, ScopeTree.grows_markFound _ _ _⟩
  | other hi hb => exact ⟨hw, .refl _⟩

theorem root (h : Step p scopeOf a ev b) : b.root = a.root := by cases h <;> rfl

theorem returns (h : Step p scopeOf a ev b) : b.returns = a.returns := by cases h <;> rfl

end Step

namespace Steps
variable {p : Program} {scopeOf : Opener → Option ScopeId} {a b c : Analysis} {ev : Event} {evs evs' : List Event}

theorem append (h : Steps p scopeOf a evs b) (h' : Steps p scopeOf b evs' c) : Steps p scopeOf a (evs ++ evs') c := by
  induction h with
  | nil => exact h'
  | cons h _ ih => exact .cons h (ih h')

theorem split (h : Steps p scopeOf a (evs ++ evs') c) : ∃ b, Steps p scopeOf a evs b ∧ Steps p scopeOf b evs' c := by
  induction evs generalizing a with
  | nil => exact ⟨a, .nil, h⟩
  | cons ev evs ih =>
    cases h with
    | cons h rest =>
      obtain ⟨b, hb, hc⟩ := ih rest
      exact ⟨b, .cons h hb, hc⟩

theorem wf_grows (h : Steps p scopeOf a evs b) (hw : a.scopes.Wf) : b.scopes.Wf ∧ a.scopes.Grows b.scopes := by
  induction h with
  | nil => exact ⟨hw, .refl _⟩
  | cons h _ ih =>
    obtain ⟨hw', hg⟩ := h.wf_grows hw
    obtain ⟨hw'', hg'⟩ := ih hw'
    exact ⟨hw'', hg.trans hg'⟩

end Steps
end BlockScope
