import BlockScope.Proofs.Scope.Update
import BlockScope.Proofs.Token.Words
/-!
# Growing trees

While names are resolved a tree only grows: new scopes and variables, higher levels, and in the frames that
are there already further slots, whose names no source text can spell. So a name that can be spelled is found
again wherever it was found once (`Grows.find_eq`).
-/
namespace BlockScope

/-- The frame with further locals. -/
def Frame.withSlots (f : Frame) (slots : List VarId) : Frame := { f with locals := f.locals ++ slots }

namespace ScopeTree

/-- The variable has a name that no source text can spell. -/
def MadeUp (t : ScopeTree) (x : VarId) : Prop := ∃ v, t.var? x = some v ∧ ¬ Spelled v.name

/-- The second tree is the first with new scopes, new variables, higher levels and slots in its frames. -/
structure Grows (t t' : ScopeTree) : Prop where
  vars : ∀ x v, t.var? x = some v → ∃ level, t'.var? x = some { v with remote := level }
  scopes : ∀ id s, t.scope? id = some s → ∃ slots, (∀ x ∈ slots, t'.MadeUp x) ∧
    t'.scope? id = some (s.mapFrame (·.withSlots slots))

/-- Every variable that a scope lists is there. -/
def Listed (t : ScopeTree) : Prop := ∀ id s, t.scope? id = some s →
  match s.body with
  | .root members => ∀ x ∈ members, (t.var? x).isSome
  | .side _ _ _ slots => ∀ x ∈ slots, (t.var? x).isSome
  | .code _ f => ∀ x ∈ f.heapvars ++ f.arguments ++ f.locals ++ f.inlined, (t.var? x).isSome

variable {t t' t'' : ScopeTree} {id o x y host : ScopeId} {s : Scope} {name : String} {ids : List VarId} {r : Bool}

theorem scope?_of_lt (h : id.index < t.scopes.size) : ∃ s, t.scope? id = some s :=
  ⟨_, Array.getElem?_eq_getElem h⟩

theorem Nested.scope_outer (hn : t.Nested) (h : t.outer? id = some o) : ∃ s, t.scope? o = some s := by
  obtain ⟨s, hs, -⟩ := scope_of_outer h
  have := scope?_lt hs
  have := hn id o h
  exact scope?_of_lt (by omega)

theorem Within.scope (hn : t.Nested) (hw : t.Within id x) (hs : t.scope? id = some s) :
    ∃ s', t.scope? x = some s' := by
  have := hw.le hn
  have := scope?_lt hs
  exact scope?_of_lt (by omega)

namespace Grows

theorem madeUp {v : VarId} (h : t.Grows t') (hv : t.MadeUp v) : t'.MadeUp v := by
  obtain ⟨w, hw, hname⟩ := hv
  obtain ⟨level, hw'⟩ := h.vars v w hw
  exact ⟨_, hw', hname⟩

theorem refl (t : ScopeTree) : t.Grows t := by
  constructor
  · intro x v hv
    exact ⟨v.remote, hv⟩
  · intro id s hs
    refine ⟨[], by simp, ?_⟩
    rw [hs, Scope.mapFrame_eq_self _ _ fun f => by simp [Frame.withSlots]]

theorem trans (h : t.Grows t') (h' : t'.Grows t'') : t.Grows t'' := by
  constructor
  · intro x v hv
    obtain ⟨level, hv'⟩ := h.vars x v hv
    obtain ⟨level', hv''⟩ := h'.vars x _ hv'
    exact ⟨level', hv''⟩
  · intro id s hs
    obtain ⟨slots, hslots, hs'⟩ := h.scopes id s hs
    obtain ⟨slots', hslots', hs''⟩ := h'.scopes id _ hs'
    refine ⟨slots ++ slots', ?_, ?_⟩
    · intro x hx
      rcases List.mem_append.1 hx with hx | hx
      · exact h'.madeUp (hslots x hx)
      · exact hslots' x hx
    · rw [hs'', Scope.mapFrame_mapFrame]
      simp only [Frame.withSlots, List.append_assoc]

theorem scope (h : t.Grows t') (hs : t.scope? id = some s) : ∃ s', t'.scope? id = some s' := by
  obtain ⟨slots, -, hs'⟩ := h.scopes id s hs
  exact ⟨_, hs'⟩

/-! ## Names -/

theorem findNamed_eq (h : t.Grows t') (hids : ∀ x ∈ ids, (t.var? x).isSome) :
    t'.findNamed ids name = t.findNamed ids name := by
  unfold findNamed
  induction ids with
  | nil => rfl
  | cons x ids ih =>
    obtain ⟨v, hv⟩ := Option.isSome_iff_exists.1 (hids x (by simp))
    obtain ⟨level, hv'⟩ := h.vars x v hv
    have hsame : ((t'.var? x).any fun w => w.name == name) = (t.var? x).any fun w => w.name == name := by
      rw [hv, hv']
      rfl
    rw [List.find?_cons, List.find?_cons, hsame, ih fun y hy => hids y (List.mem_cons_of_mem _ hy)]

theorem findNamed_append (t : ScopeTree) (ids ids' : List VarId) (name : String) :
    t.findNamed (ids ++ ids') name = (t.findNamed ids name).or (t.findNamed ids' name) := by
  unfold findNamed
  rw [List.find?_append]

theorem findNamed_madeUp (hname : Spelled name) (hids : ∀ x ∈ ids, t.MadeUp x) : t.findNamed ids name = none := by
  rw [findNamed_eq_none]
  intro x hx w hw
  obtain ⟨w', hw', hmade⟩ := hids x hx
  rw [hw] at hw'
  cases hw'
  rintro rfl
  exact hmade hname

theorem findIn_eq (h : t.Grows t') (hl : t.Listed) (hname : Spelled name) (hs : t.scope? id = some s) :
    ∃ s', t'.scope? id = some s' ∧ t'.findIn id s' name r = t.findIn id s name r ∧ s'.outer = s.outer ∧
      s'.isTrueBlock = s.isTrueBlock := by
  obtain ⟨slots, hslots, hs'⟩ := h.scopes id s hs
  refine ⟨_, hs', ?_, by simp, by simp⟩
  have hl' := hl id s hs
  obtain ⟨o, body⟩ := s
  cases body with
  | root members =>
    simp only [Scope.mapFrame, findIn]
    rw [h.findNamed_eq hl']
  | side c b receiver vars =>
    simp only [Scope.mapFrame, findIn]
    rw [h.findNamed_eq hl']
  | code k f =>
    simp only [Scope.mapFrame, findIn, findInFrame, Frame.withSlots]
    have hmem : ∀ x, x ∈ f.heapvars ++ f.arguments ++ f.locals ∨ x ∈ f.inlined → (t.var? x).isSome := by
      intro x hx
      exact hl' x (List.mem_append.2 hx)
    rw [← List.append_assoc, findNamed_append, findNamed_append _ _ slots, findNamed_madeUp hname hslots, Option.or_none,
      h.findNamed_eq fun x hx => hmem x (.inl hx), h.findNamed_eq fun x hx => hmem x (.inr hx), ← findNamed_append]

/-- A name that can be spelled is found where it was found before. -/
theorem find_eq (h : t.Grows t') (hn : t.Nested) (hn' : t'.Nested) (hl : t.Listed) (hname : Spelled name)
    (hs : t.scope? id = some s) : t'.find id name r = t.find id name r := by
  induction id using hn.induction generalizing s r with
  | step id ih =>
    obtain ⟨s', hs', hfind, ho, hb⟩ := h.findIn_eq (r := r) hl hname hs
    rw [hn.find_eq hs, hn'.find_eq hs', hfind, ho, hb]
    congr 1
    cases ho' : s.outer with
    | none => rfl
    | some o =>
      have ho'' : t.outer? id = some o := by rw [outer?_of_scope hs, ho']
      obtain ⟨so, hso⟩ := hn.scope_outer ho''
      exact ih o ho'' hso

theorem realVar_eq {v : VarId} {w : Variable} (h : t.Grows t') (hw : t.var? v = some w) : t'.realVar v = t.realVar v := by
  refine realVar_congr fun y hy => ?_
  have hlt : y.index < t.vars.size := Nat.lt_of_le_of_lt hy (var?_lt hw)
  have hv : t.var? y = some t.vars[y.index] := Array.getElem?_eq_getElem hlt
  obtain ⟨level, hv'⟩ := h.vars y _ hv
  rw [hv, hv']
  rfl

end Grows
end ScopeTree
end BlockScope
