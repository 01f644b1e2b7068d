import BlockScope.Scope.Lookup
import Mathlib.Tactic.Common
/-!
# Scopes around a scope

In a tree where every outer scope was made before, a chain is what following the outer links gives, and
`find` can be read off one link at a time (`find_eq`). `Within` and `Between` say the same without lists: one
scope lies within another, or on the way from one to another.
-/
namespace BlockScope
namespace ScopeTree

def outer? (t : ScopeTree) (id : ScopeId) : Option ScopeId := (t.scope? id).bind (·.outer)

/-- Every outer scope was made before. -/
def Nested (t : ScopeTree) : Prop := ∀ id o, t.outer? id = some o → o.index < id.index

/-- The second scope is the first or one around it. -/
inductive Within (t : ScopeTree) : ScopeId → ScopeId → Prop where
  | refl (id : ScopeId) : t.Within id id
  | outer {id o x : ScopeId} (h : t.outer? id = some o) (rest : t.Within o x) : t.Within id x

/-- The scope is on the way from an inner scope, included, to an outer one, excluded. -/
structure Between (t : ScopeTree) (inner x outer : ScopeId) : Prop where
  start : t.Within inner x
  stop : t.Within x outer
  ne : x ≠ outer

/-- The second scope is the nearest one, from the first outwards, that is no inlined block. -/
inductive HostedBy (t : ScopeTree) : ScopeId → ScopeId → Prop where
  | here {id : ScopeId} (h : t.scopeIs (·.isInlined) id = false) : t.HostedBy id id
  | outer {id o host : ScopeId} (h : t.scopeIs (·.isInlined) id) (ho : t.outer? id = some o)
    (rest : t.HostedBy o host) : t.HostedBy id host

variable {t : ScopeTree} {id o x y U D : ScopeId} {s : Scope} {name : String} {r : Bool} {n m : Nat}

theorem scope?_lt (h : t.scope? id = some s) : id.index < t.scopes.size := (Array.getElem?_eq_some_iff.1 h).1

theorem outer?_of_scope (h : t.scope? id = some s) : t.outer? id = s.outer := by simp [outer?, h]

theorem scope_of_outer (h : t.outer? id = some o) : ∃ s, t.scope? id = some s ∧ s.outer = some o :=
  Option.bind_eq_some_iff.1 h

theorem scopeIs_of_scope {p : Scope → Bool} (h : t.scope? id = some s) : t.scopeIs p id = p s := by simp [scopeIs, h]

/-- Induction from the outermost scope inwards. -/
theorem Nested.induction (hn : t.Nested) {motive : ScopeId → Prop}
    (step : ∀ id, (∀ o, t.outer? id = some o → motive o) → motive id) (id : ScopeId) : motive id := by
  obtain ⟨k, hk⟩ : ∃ k, id.index = k := ⟨_, rfl⟩
  induction k using Nat.strongRecOn generalizing id with
  | _ k ih =>
    apply step
    intro o ho
    have := hn id o ho
    exact ih o.index (by omega) o rfl

/-! ## Chains -/

theorem Nested.chainWithin_eq (hn : t.Nested) (h : id.index < n) (h' : id.index < m) :
    t.chainWithin n id = t.chainWithin m id := by
  induction n generalizing m id with
  | zero => omega
  | succ n ih =>
    obtain ⟨m, rfl⟩ : ∃ k, m = k + 1 := ⟨m - 1, by omega⟩
    unfold chainWithin
    cases ho : (t.scope? id).bind (·.outer) with
    | none => rfl
    | some o =>
      have := hn id o ho
      simp only [ih (by omega : o.index < n) (by omega : o.index < m)]

theorem Nested.chain_of_outer (hn : t.Nested) (ho : t.outer? id = some o) : t.chain id = id :: t.chain o := by
  obtain ⟨s, hs, -⟩ := scope_of_outer ho
  have hlt := hn id o ho
  have hsize := scope?_lt hs
  have ho' : (t.scope? id).bind (·.outer) = some o := ho
  unfold chain
  conv_lhs => rw [chainWithin, ho']
  simp only
  rw [hn.chainWithin_eq (by omega : o.index < t.scopes.size) (by omega : o.index < t.scopes.size + 1)]

theorem chain_of_no_outer (ho : t.outer? id = none) : t.chain id = [id] := by
  have ho' : (t.scope? id).bind (·.outer) = none := ho
  simp [chain, chainWithin, ho']

namespace Within

theorem trans (h : t.Within id x) (h' : t.Within x y) : t.Within id y := by
  induction h with
  | refl _ => exact h'
  | outer ho _ ih => exact .outer ho (ih h')

theorem le (hn : t.Nested) (h : t.Within id x) : x.index ≤ id.index := by
  induction h with
  | refl _ => exact Nat.le_refl _
  | outer ho _ ih =>
    have := hn _ _ ho
    omega

theorem antisymm (hn : t.Nested) (h : t.Within id x) (h' : t.Within x id) : id = x := by
  have := h.le hn
  have := h'.le hn
  cases id
  cases x
  simp only [ScopeId.mk.injEq]
  simp only at *
  omega

/-- Scopes around one scope lie within one another. -/
theorem total (h : t.Within id x) (h' : t.Within id y) : t.Within x y ∨ t.Within y x := by
  induction h with
  | refl _ => exact .inl h'
  | outer ho rest ih =>
    cases h' with
    | refl _ => exact .inr (.outer ho rest)
    | outer ho' rest' =>
      rw [ho] at ho'
      cases ho'
      exact ih rest'

theorem cases_outer (h : t.Within id x) : x = id ∨ ∃ o, t.outer? id = some o ∧ t.Within o x := by
  cases h with
  | refl _ => exact .inl rfl
  | outer ho rest => exact .inr ⟨_, ho, rest⟩

end Within

theorem Nested.mem_chain (hn : t.Nested) (id : ScopeId) : x ∈ t.chain id ↔ t.Within id x := by
  induction id using hn.induction with
  | step id ih =>
    cases ho : t.outer? id with
    | none =>
      rw [chain_of_no_outer ho, List.mem_singleton]
      constructor
      · rintro rfl
        exact .refl _
      · intro h
        rcases h.cases_outer with h | ⟨o, h, -⟩
        · exact h
        · rw [ho] at h
          cases h
    | some o =>
      rw [hn.chain_of_outer ho, List.mem_cons, ih o ho]
      constructor
      · rintro (rfl | h)
        · exact .refl _
        · exact .outer ho h
      · intro h
        rcases h.cases_outer with h | ⟨o', ho', h⟩
        · exact .inl h
        · rw [ho] at ho'
          cases ho'
          exact .inr h

namespace Between

theorem not_refl (hn : t.Nested) : ¬ t.Between id x id := by
  intro h
  exact h.ne (h.stop.antisymm hn h.start)

/-- The scopes on the way start with the innermost one. -/
theorem iff_outer (ho : t.outer? U = some o) (hne : U ≠ D) (hD : t.Within o D) :
    t.Between U x D ↔ x = U ∨ t.Between o x D := by
  constructor
  · intro h
    rcases h.start.cases_outer with rfl | ⟨o', ho', hx⟩
    · exact .inl rfl
    · rw [ho] at ho'
      cases ho'
      exact .inr ⟨hx, h.stop, h.ne⟩
  · rintro (rfl | h)
    · exact ⟨.refl _, .outer ho hD, hne⟩
    · exact ⟨.outer ho h.start, h.stop, h.ne⟩

end Between

theorem Nested.mem_chainUntil (hn : t.Nested) (hD : t.Within U D) : x ∈ t.chainUntil U D ↔ t.Between U x D := by
  unfold chainUntil
  induction hD with
  | refl U =>
    have : (t.chain U).takeWhile (· ≠ U) = [] := by
      cases ho : t.outer? U with
      | none => simp [chain_of_no_outer ho]
      | some o => simp [hn.chain_of_outer ho]
    rw [this]
    constructor
    · nofun
    · intro h
      exact absurd h (Between.not_refl hn)
  | @outer U o D ho rest ih =>
    have hne : U ≠ D := by
      rintro rfl
      have := rest.le hn
      have := hn _ _ ho
      omega
    rw [hn.chain_of_outer ho, List.takeWhile_cons_of_pos (by simpa using hne), List.mem_cons, ih,
      Between.iff_outer ho hne rest]

theorem Nested.mem_trueBlocksUntil (hn : t.Nested) (hD : t.Within U D) :
    x ∈ t.trueBlocksUntil U D ↔ t.Between U x D ∧ t.scopeIs (·.isTrueBlock) x := by
  unfold trueBlocksUntil
  rw [List.mem_filter, hn.mem_chainUntil hD]

namespace HostedBy

theorem not_inlined (h : t.HostedBy id x) : t.scopeIs (·.isInlined) x = false := by
  induction h with
  | here h => exact h
  | outer _ _ _ ih => exact ih

theorem within (h : t.HostedBy id x) : t.Within id x := by
  induction h with
  | here _ => exact .refl _
  | outer _ ho _ ih => exact .outer ho ih

theorem realScope_eq (hn : t.Nested) (h : t.HostedBy id x) : t.realScope id = x := by
  have hfind : (t.chain id).find? (fun s => !t.scopeIs (·.isInlined) s) = some x := by
    induction h with
    | @here id h =>
      cases ho : t.outer? id with
      | none => rw [chain_of_no_outer ho, List.find?_cons_of_pos (by simp [h])]
      | some o => rw [hn.chain_of_outer ho, List.find?_cons_of_pos (by simp [h])]
    | outer h ho _ ih => rw [hn.chain_of_outer ho, List.find?_cons_of_neg (by simp [h]), ih]
  simp [realScope, hfind]

/-- On the way to the host there are inlined blocks only. -/
theorem inlined_of_between (hn : t.Nested) (h : t.HostedBy id x) (hb : t.Between id y x) : t.scopeIs (·.isInlined) y := by
  induction h with
  | here _ => exact absurd hb (Between.not_refl hn)
  | outer hi ho rest ih =>
    rcases hb.start.cases_outer with rfl | ⟨o', ho', hy⟩
    · exact hi
    · rw [ho] at ho'
      cases ho'
      exact ih ⟨hy, hb.stop, hb.ne⟩

end HostedBy

/-! ## Names along a chain -/

theorem Nested.find_eq (hn : t.Nested) (hs : t.scope? id = some s) :
    t.find id name r = (t.findIn id s name r).or (s.outer.bind fun o => t.find o name (r || s.isTrueBlock)) := by
  unfold find
  cases ho : s.outer with
  | none => rw [chain_of_no_outer (by rw [outer?_of_scope hs, ho])]; simp [findAlong, hs]
  | some o => rw [hn.chain_of_outer (by rw [outer?_of_scope hs, ho])]; simp [findAlong, hs]

theorem find_of_no_scope (hs : t.scope? id = none) : t.find id name r = none := by
  unfold find
  rw [chain_of_no_outer (by simp [outer?, hs])]
  simp [findAlong, hs]

theorem findNamed_eq_some {ids : List VarId} {v : VarId} (h : t.findNamed ids name = some v) :
    v ∈ ids ∧ ∃ w, t.var? v = some w ∧ w.name = name := by
  unfold findNamed at h
  have hv := List.find?_some h
  simp only [Option.any_eq_true, beq_iff_eq] at hv
  exact ⟨List.mem_of_find?_eq_some h, hv⟩

theorem findNamed_eq_none {ids : List VarId} :
    t.findNamed ids name = none ↔ ∀ v ∈ ids, ∀ w, t.var? v = some w → w.name ≠ name := by
  simp only [findNamed, List.find?_eq_none, Option.any_eq_true, not_exists, not_and, beq_iff_eq]

/-- What is found in one scope does not depend on how far away it is. -/
theorem findIn_isNone (id : ScopeId) (s : Scope) (name : String) (r r' : Bool) :
    t.findIn id s name r = none ↔ t.findIn id s name r' = none := by
  unfold findIn
  cases s.body <;> simp

/-- What one scope has to be found: a variable of its code, the receiver or a slot of its class side, or a member. -/
inductive FoundIn (id : ScopeId) (remote : Bool) : ScopeBody → Found → Prop where
  | code {k : CodeKind} {f : Frame} {x : VarId} (hx : x ∈ f.heapvars ++ f.arguments ++ f.locals ++ f.inlined) :
    FoundIn id remote (.code k f) ⟨x, .frame id remote⟩
  | receiver {c : Nat} {b : Bool} {receiver : VarId} {slots : List VarId} :
    FoundIn id remote (.side c b receiver slots) ⟨receiver, .receiver⟩
  | slot {c : Nat} {b : Bool} {receiver x : VarId} {slots : List VarId} (hx : x ∈ slots) :
    FoundIn id remote (.side c b receiver slots) ⟨x, .slot⟩
  | member {members : List VarId} {x : VarId} (hx : x ∈ members) : FoundIn id remote (.root members) ⟨x, .member⟩

theorem foundIn_of_findIn {id : ScopeId} {outer : Option ScopeId} {body : ScopeBody} {found : Found}
    (h : t.findIn id ⟨outer, body⟩ name r = some found) : FoundIn id r body found := by
  unfold findIn at h
  cases body with
  | root members =>
    obtain ⟨x, hx, rfl⟩ := Option.map_eq_some_iff.1 h
    exact .member (findNamed_eq_some hx).1
  | side c b receiver slots =>
    simp only at h
    split at h
    · cases h
      exact .receiver
    · obtain ⟨x, hx, rfl⟩ := Option.map_eq_some_iff.1 h
      exact .slot (findNamed_eq_some hx).1
  | code k f =>
    obtain ⟨x, hx, rfl⟩ := Option.map_eq_some_iff.1 h
    exact .code (findNamed_eq_some hx).1

/-- Where a name is found: in the first scope around that has it, remotely if a closure lies before that. -/
theorem Nested.find_cases {f : Found} (hn : t.Nested) (h : t.find U name r = some f) :
    ∃ D s remote, t.Within U D ∧ t.scope? D = some s ∧ t.findIn D s name remote = some f ∧
      (∀ x sx, t.Between U x D → t.scope? x = some sx → t.findIn x sx name false = none) ∧
      (remote = true ↔ r = true ∨ ∃ x, t.Between U x D ∧ t.scopeIs (·.isTrueBlock) x) := by
  induction U using hn.induction generalizing r with
  | step U ih =>
    cases hs : t.scope? U with
    | none =>
      rw [find_of_no_scope hs] at h
      cases h
    | some s =>
      rw [hn.find_eq hs] at h
      cases hf : t.findIn U s name r with
      | some f' =>
        rw [hf, Option.some_or] at h
        cases h
        have hnone : ∀ x, ¬ t.Between U x U := fun x => Between.not_refl hn
        exact ⟨U, s, r, .refl _, hs, hf, fun x sx hx => absurd hx (hnone x), by simp [hnone]⟩
      | none =>
        rw [hf, Option.none_or] at h
        obtain ⟨o, ho, h⟩ := Option.bind_eq_some_iff.1 h
        have ho' : t.outer? U = some o := by rw [outer?_of_scope hs, ho]
        obtain ⟨D, sD, remote, hD, hsD, hfD, hbefore, hremote⟩ := ih o ho' h
        have hne : U ≠ D := by
          rintro rfl
          have := hD.le hn
          have := hn _ _ ho'
          omega
        refine ⟨D, sD, remote, .outer ho' hD, hsD, hfD, ?_, ?_⟩
        · intro x sx hx hsx
          rcases (Between.iff_outer ho' hne hD).1 hx with rfl | hx
          · rw [hs] at hsx
            cases hsx
            exact (findIn_isNone x s name r false).1 hf
          · exact hbefore x sx hx hsx
        · rw [hremote]
          simp only [Between.iff_outer ho' hne hD, Bool.or_eq_true, or_and_right, exists_or, exists_eq_left,
            scopeIs_of_scope hs, or_assoc]

end ScopeTree
end BlockScope
