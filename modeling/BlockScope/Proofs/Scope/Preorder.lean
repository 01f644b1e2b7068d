import BlockScope.Analysis.Dump
import BlockScope.Proofs.Scope.Growth
import Mathlib.Data.List.Basic
/-!
# A tree in pre-order

`subtree` lists a scope and those inside it the way a dump visits them. In a tree where every outer scope was made before, the
depth that the tree has room for is enough: nothing inside is left out (`Nested.mem_subtree`). `Precedes` is the order of the
list, said by the tree alone: a scope comes before those inside it, and before those inside a later neighbour. A dump is one line
for each scope of the list, indented by the scopes around it (`Nested.dumpWithin_eq`).
-/
namespace BlockScope
namespace ScopeTree

/-- The scopes around one, without itself. -/
def ancestors (t : ScopeTree) (id : ScopeId) : List ScopeId := (t.chain id).tail

/-- A scope and those inside it down to some depth. -/
def subtree (t : ScopeTree) : Nat → ScopeId → List ScopeId
  | 0, _ => []
  | n + 1, id => if (t.scope? id).isSome then id :: (t.inner id).flatMap (subtree t n) else []

/-- The first scope lies around the second, or branches off before it. -/
inductive Precedes (t : ScopeTree) (x y : ScopeId) : Prop where
  | around (h : t.Within y x) (hne : y ≠ x)
  | branches {o c d : ScopeId} (hc : t.outer? c = some o) (hd : t.outer? d = some o) (hlt : c.index < d.index)
    (hx : t.Within x c) (hy : t.Within y d)

/-- What a dump says of a scope. -/
def entry (t : ScopeTree) (className : Nat → String) (id : ScopeId) : String :=
  match t.scope? id with
  | some s => id.text ++ " " ++ s.describe ++ t.bodyText className s.body
  | none => ""

/-- The same behind two blanks for every scope around. -/
def line (t : ScopeTree) (className : Nat → String) (id : ScopeId) : String :=
  String.ofList (List.replicate (2 * (t.ancestors id).length) ' ') ++ t.entry className id

variable {t : ScopeTree} {id o x y : ScopeId} {s : Scope} {className : Nat → String} {n : Nat}

/-! ## Around and inside -/

theorem ancestors_of_no_outer (ho : t.outer? id = none) : t.ancestors id = [] := by
  rw [ancestors, chain_of_no_outer ho, List.tail_cons]

theorem Nested.ancestors_of_outer (hn : t.Nested) (ho : t.outer? id = some o) : t.ancestors id = t.chain o := by
  rw [ancestors, hn.chain_of_outer ho, List.tail_cons]

theorem Nested.chain_eq (hn : t.Nested) (id : ScopeId) : t.chain id = id :: t.ancestors id := by
  cases ho : t.outer? id with
  | none => rw [chain_of_no_outer ho, ancestors_of_no_outer ho]
  | some o => rw [hn.chain_of_outer ho, hn.ancestors_of_outer ho]

theorem Nested.mem_ancestors (hn : t.Nested) : x ∈ t.ancestors id ↔ t.Within id x ∧ x ≠ id := by
  cases ho : t.outer? id with
  | none =>
    rw [ancestors_of_no_outer ho]
    refine ⟨nofun, fun ⟨h, hne⟩ => ?_⟩
    rcases h.cases_outer with h | ⟨o, ho', -⟩
    · exact absurd h hne
    · rw [ho] at ho'
      cases ho'
  | some o =>
    have := hn id o ho
    rw [hn.ancestors_of_outer ho, hn.mem_chain]
    constructor
    · intro h
      refine ⟨.outer ho h, ?_⟩
      rintro rfl
      have := h.le hn
      omega
    · rintro ⟨h, hne⟩
      rcases h.cases_outer with h | ⟨o', ho', h⟩
      · exact absurd h hne
      · rw [ho] at ho'
        cases ho'
        exact h

theorem Nested.nodup_ancestors (hn : t.Nested) (id : ScopeId) : (t.ancestors id).Nodup := by
  induction id using hn.induction with
  | step id ih =>
    cases ho : t.outer? id with
    | none =>
      rw [ancestors_of_no_outer ho]
      exact .nil
    | some o =>
      rw [hn.ancestors_of_outer ho, hn.chain_eq o]
      exact List.nodup_cons.2 ⟨fun h => (hn.mem_ancestors.1 h).2 rfl, ih o ho⟩

theorem Within.eq_or_inner (h : t.Within x id) : x = id ∨ ∃ c, t.outer? c = some id ∧ t.Within x c := by
  induction h with
  | refl _ => exact .inl rfl
  | @outer x o id ho _ ih =>
    rcases ih with rfl | ⟨c, hc, hwithin⟩
    · exact .inr ⟨x, ho, .refl x⟩
    · exact .inr ⟨c, hc, .outer ho hwithin⟩

theorem mem_inner : x ∈ t.inner id ↔ t.outer? x = some id := by
  simp only [inner, List.mem_filter, List.mem_map, List.mem_range, scopeIs, Option.any_eq_true, decide_eq_true_eq]
  constructor
  · rintro ⟨-, s, hs, ho⟩
    rw [outer?_of_scope hs, ho]
  · intro ho
    obtain ⟨s, hs, hso⟩ := scope_of_outer ho
    exact ⟨⟨x.index, scope?_lt hs, rfl⟩, s, hs, hso⟩

theorem pairwise_inner (t : ScopeTree) (id : ScopeId) : (t.inner id).Pairwise (·.index < ·.index) := by
  have hids : ((List.range t.scopes.size).map ScopeId.mk).Pairwise (·.index < ·.index) :=
    List.pairwise_map.2 List.pairwise_lt_range
  exact hids.filter _

/-! ## Everything inside, once and in order -/

theorem within_of_mem_subtree (h : x ∈ t.subtree n id) : t.Within x id := by
  induction n generalizing id with
  | zero => cases h
  | succ n ih =>
    rw [subtree] at h
    split at h
    · rcases List.mem_cons.1 h with rfl | h
      · exact .refl _
      · obtain ⟨c, hc, hx⟩ := List.mem_flatMap.1 h
        exact (ih hx).trans (.outer (mem_inner.1 hc) (.refl id))
    · cases h

/-- Nothing inside is missed if the depth allows for all scopes made later. -/
theorem Nested.mem_subtree (hn : t.Nested) (hsize : t.scopes.size < n + id.index) :
    x ∈ t.subtree n id ↔ (t.scope? x).isSome ∧ t.Within x id := by
  induction n generalizing id with
  | zero =>
    constructor
    · nofun
    · rintro ⟨hx, hwithin⟩
      obtain ⟨s, hs⟩ := Option.isSome_iff_exists.1 hx
      have := scope?_lt hs
      have := hwithin.le hn
      omega
  | succ n ih =>
    have hinner : ∀ c, t.outer? c = some id → (x ∈ t.subtree n c ↔ (t.scope? x).isSome ∧ t.Within x c) := by
      intro c hc
      have := hn c id hc
      exact ih (by omega)
    rw [subtree]
    constructor
    · intro h
      split at h
      · next hid =>
        rcases List.mem_cons.1 h with rfl | h
        · exact ⟨hid, .refl x⟩
        · obtain ⟨c, hc, hx⟩ := List.mem_flatMap.1 h
          obtain ⟨hthere, hwithin⟩ := (hinner c (mem_inner.1 hc)).1 hx
          exact ⟨hthere, hwithin.trans (.outer (mem_inner.1 hc) (.refl id))⟩
      · cases h
    · rintro ⟨hx, hwithin⟩
      obtain ⟨s, hs⟩ := Option.isSome_iff_exists.1 hx
      obtain ⟨s', hs'⟩ := hwithin.scope hn hs
      rw [if_pos (by simp [hs'])]
      rcases hwithin.eq_or_inner with rfl | ⟨c, hc, hwithin⟩
      · exact List.mem_cons_self
      · exact List.mem_cons_of_mem _ (List.mem_flatMap.2 ⟨c, mem_inner.2 hc, (hinner c hc).2 ⟨hx, hwithin⟩⟩)

theorem Nested.pairwise_subtree (hn : t.Nested) (n : Nat) (id : ScopeId) : (t.subtree n id).Pairwise t.Precedes := by
  induction n generalizing id with
  | zero => exact .nil
  | succ n ih =>
    rw [subtree]
    split
    · refine List.pairwise_cons.2 ⟨fun y hy => ?_, List.pairwise_flatMap.2 ⟨fun c _ => ih c, ?_⟩⟩
      · obtain ⟨c, hc, hy⟩ := List.mem_flatMap.1 hy
        have hwithin := within_of_mem_subtree hy
        have := hwithin.le hn
        have := hn c id (mem_inner.1 hc)
        refine .around (hwithin.trans (.outer (mem_inner.1 hc) (.refl id))) ?_
        rintro rfl
        omega
      · refine (pairwise_inner t id).imp_of_mem fun hc hd hlt x hx y hy => ?_
        exact .branches (mem_inner.1 hc) (mem_inner.1 hd) hlt (within_of_mem_subtree hx) (within_of_mem_subtree hy)
    · exact .nil

/-- Two branches of one scope have nothing in common. -/
theorem Precedes.ne (hn : t.Nested) (h : t.Precedes x y) : x ≠ y := by
  rintro rfl
  cases h with
  | around h hne => exact hne rfl
  | @branches o c d hc hd hlt hx hy =>
    -- One branch would lie within the other, hence within the scope that both branch off.
    have hapart : ∀ {c d}, t.outer? c = some o → t.outer? d = some o → c ≠ d → ¬ t.Within c d := by
      intro c d hc hd hne hwithin
      rcases hwithin.cases_outer with rfl | ⟨o', ho', hwithin⟩
      · exact hne rfl
      · rw [hc] at ho'
        cases ho'
        have := hwithin.le hn
        have := hn d o hd
        omega
    have hne : c ≠ d := by
      rintro rfl
      omega
    rcases hx.total hy with hwithin | hwithin
    · exact hapart hc hd hne hwithin
    · exact hapart hd hc hne.symm hwithin

theorem Nested.nodup_subtree (hn : t.Nested) (n : Nat) (id : ScopeId) : (t.subtree n id).Nodup :=
  (hn.pairwise_subtree n id).imp (·.ne hn)

/-! ## Lines -/

theorem Nested.dumpWithin_eq (hn : t.Nested) (className : Nat → String) (n : Nat) (id : ScopeId) :
    t.dumpWithin className n (2 * (t.ancestors id).length) id = (t.subtree n id).map (t.line className · ++ "\n") := by
  induction n generalizing id with
  | zero => rfl
  | succ n ih =>
    rw [dumpWithin, subtree]
    cases hs : t.scope? id with
    | none => rfl
    | some s =>
      have hinner : (t.inner id).flatMap (t.dumpWithin className n (2 * (t.ancestors id).length + 2)) =
          (t.inner id).flatMap fun c => (t.subtree n c).map (t.line className · ++ "\n") := by
        refine List.flatMap_congr fun c hc => ?_
        rw [← ih, hn.ancestors_of_outer (mem_inner.1 hc), hn.chain_eq, List.length_cons, Nat.mul_succ]
      rw [hinner, Option.isSome_some, if_pos rfl, List.map_cons, List.map_flatMap, line, entry, hs]
      simp only [String.append_assoc]

theorem Nested.dump_eq (hn : t.Nested) (className : Nat → String) (ho : t.outer? id = none) :
    t.dump className id = String.join (((t.subtree (t.scopes.size + 1) id).map (t.line className)).map (· ++ "\n")) := by
  have hlines := hn.dumpWithin_eq className (t.scopes.size + 1) id
  rw [ancestors_of_no_outer ho] at hlines
  rw [dump, List.map_map]
  exact congrArg String.join hlines

theorem line_of_scope (hs : t.scope? id = some s) : t.line className id =
    String.ofList (List.replicate (2 * (t.ancestors id).length) ' ') ++
      (id.text ++ " " ++ s.describe ++ t.bodyText className s.body) := by
  rw [line, entry, hs]

end ScopeTree
end BlockScope
