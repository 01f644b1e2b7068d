import BlockScope.Proofs.Outcomes
import BlockScope.Scope.Storage
/-!
# Operations that may fail

Declaring a name and looking one up may fail. For each of these steps one lemma says where it succeeds and what it leaves
(`runs_declare_iff`, `runs_addInlined_iff`, `runs_lookup_iff`), and one where it fails. All of them check before they write, so
each is atomic: where it fails, the tree is as it was. What is left whenever a variable is listed is left by a whole declaration
(`leaves_of_declare`).
-/
namespace BlockScope

/-- Why a name cannot be declared in a scope, where these names of its frame are in the way. -/
inductive ScopeTree.Refused (t : ScopeTree) (scope : ScopeId) (names : Frame → List VarId) (d : Declaration) :
    AnalysisError → Prop where
  | noFrame (h : t.frame? scope = none) : Refused t scope names d ⟨.undeclaredName d.name, none⟩
  | taken {f : Frame} (hf : t.frame? scope = some f) (h : (t.findNamed (names f) d.name).isSome) :
    Refused t scope names d ⟨.duplicateDeclaration d.name, some d.span⟩

namespace ScopeTree
variable {t : ScopeTree} {scope : ScopeId} {names : Frame → List VarId} {d : Declaration} {f : Frame} {e : AnalysisError}

theorem refused_iff_of_none (hf : t.frame? scope = none) : t.Refused scope names d e ↔ e = ⟨.undeclaredName d.name, none⟩ := by
  constructor
  · rintro (_ | ⟨hf', -⟩)
    · rfl
    · rw [hf] at hf'
      cases hf'
  · rintro rfl
    exact .noFrame hf

theorem refused_iff_of_some (hf : t.frame? scope = some f) : t.Refused scope names d e ↔
    (t.findNamed (names f) d.name).isSome ∧ e = ⟨.duplicateDeclaration d.name, some d.span⟩ := by
  constructor
  · rintro (hf' | ⟨hf', h⟩)
    · rw [hf] at hf'
      cases hf'
    · rw [hf] at hf'
      cases hf'
      exact ⟨h, rfl⟩
  · rintro ⟨h, rfl⟩
    exact .taken hf h

end ScopeTree

namespace Scoping
open ScopeTree

variable {t t' : ScopeTree} {scope : ScopeId} {d : Declaration} {isParameter : Bool} {x : VarId} {e : AnalysisError} {name : String}
  {forWrite remote : Bool} {found : Found}

/-! ## Names of inlined blocks -/

/-- A new name of an inlined block gets a slot in the host first, and is the name of that slot. -/
theorem runs_addInlined_iff : Runs (addInlined scope d isParameter) t x t' ↔
    ∃ f, t.frame? scope = some f ∧ t.findNamed f.inlined d.name = none ∧
      (t.addListed (slotFor d (t.realScope scope) (t.slotNumber scope)) listLocal).2.addListed
        (inlinedName d scope (if isParameter then .argument else .temporary) ⟨t.vars.size⟩) listInlined = (x, t') := by
  unfold addInlined
  rw [Runs.get_bind_iff]
  cases hf : t.frame? scope with
  | none => simp
  | some f =>
    cases hfind : t.findNamed f.inlined d.name with
    | some y => simp [hfind]
    | none =>
      simp only [hfind, Option.isSome_none, Bool.false_eq_true, if_false, Runs.bind_iff, Runs.modifyGet_iff]
      constructor
      · rintro ⟨slot, mid, hslot, hname⟩
        cases hslot
        exact ⟨f, rfl, hfind, hname⟩
      · rintro ⟨_, hf', -, hname⟩
        cases hf'
        exact ⟨_, _, rfl, hname⟩

theorem fails_addInlined_iff : Fails (addInlined scope d isParameter) t e t' ↔ t.Refused scope (·.inlined) d e ∧ t' = t := by
  unfold addInlined
  rw [Fails.get_bind_iff]
  cases hf : t.frame? scope with
  | none => simp [refused_iff_of_none hf]
  | some f =>
    cases hfind : t.findNamed f.inlined d.name with
    | some y => simp [refused_iff_of_some hf, hfind]
    | none => simp [refused_iff_of_some hf, hfind]

theorem atomic_addInlined : Atomic (addInlined scope d isParameter) :=
  fun _ _ _ h => (fails_addInlined_iff.1 h).2

/-! ## Parameters and temporaries -/

theorem runs_declare_iff : Runs (declare scope d isParameter) t x t' ↔
    if t.scopeIs (·.isInlined) scope then Runs (addInlined scope d isParameter) t x t'
    else ∃ f, t.frame? scope = some f ∧ t.findNamed (f.arguments ++ f.locals) d.name = none ∧
      (if isParameter then t.addListed (.new d.name scope .argument (some d.span) none) listArgument
        else t.addListed (.new d.name scope .temporary (some d.span) none) listLocal) = (x, t') := by
  unfold declare
  rw [Runs.get_bind_iff]
  split
  · rfl
  · cases hf : t.frame? scope with
    | none => simp
    | some f =>
      cases hfind : t.findNamed (f.arguments ++ f.locals) d.name with
      | some y => simp [hfind]
      | none => cases isParameter <;> simp [hfind]

theorem fails_declare_iff : Fails (declare scope d isParameter) t e t' ↔
    t.Refused scope (if t.scopeIs (·.isInlined) scope then (·.inlined) else fun f => f.arguments ++ f.locals) d e ∧ t' = t := by
  unfold declare
  rw [Fails.get_bind_iff]
  split
  · exact fails_addInlined_iff
  · cases hf : t.frame? scope with
    | none => simp [refused_iff_of_none hf]
    | some f =>
      cases hfind : t.findNamed (f.arguments ++ f.locals) d.name with
      | some y => simp [refused_iff_of_some hf, hfind]
      | none => cases isParameter <;> simp [refused_iff_of_some hf, hfind]

theorem atomic_declare : Atomic (declare scope d isParameter) :=
  fun _ _ _ h => (fails_declare_iff.1 h).2

/-! ## What declaring leaves -/

section
variable {R : ScopeTree → ScopeTree → Prop} (htrans : ∀ {t u v : ScopeTree}, R t u → R u v → R t v)
  (hlisted : ∀ (t : ScopeTree) v list, R t (t.addListed v list).2)
include htrans hlisted

/-- The slot is listed first, then its name. -/
theorem leaves_of_addInlined (h : Runs (addInlined scope d isParameter) t x t') : R t t' := by
  obtain ⟨f, -, -, hmade⟩ := runs_addInlined_iff.1 h
  cases hmade
  exact htrans (hlisted _ _ _) (hlisted _ _ _)

theorem leaves_of_declare (h : Runs (declare scope d isParameter) t x t') : R t t' := by
  rw [runs_declare_iff] at h
  split at h
  · exact leaves_of_addInlined htrans hlisted h
  · obtain ⟨f, -, -, hmade⟩ := h
    cases isParameter with
    | true | false =>
      cases hmade
      exact hlisted _ _ _

end

/-! ## Looking up -/

theorem runs_lookup_iff : Runs (lookup scope name forWrite remote) t found t' ↔
    t.find scope name remote = some found ∧ t' = t.markFound found forWrite := by
  unfold lookup
  rw [Runs.get_bind_iff]
  cases t.find scope name remote with
  | none => simp
  | some found' =>
    simp only [Runs.bind_iff, Runs.modify_iff, Runs.pure_iff, Option.some.injEq]
    constructor
    · rintro ⟨_, _, rfl, rfl, rfl⟩
      exact ⟨rfl, rfl⟩
    · rintro ⟨rfl, rfl⟩
      exact ⟨⟨⟩, _, rfl, rfl, rfl⟩

theorem fails_lookup_iff : Fails (lookup scope name forWrite remote) t e t' ↔
    t.find scope name remote = none ∧ e = ⟨.undeclaredName name, none⟩ ∧ t' = t := by
  unfold lookup
  rw [Fails.get_bind_iff]
  cases t.find scope name remote with
  | none => simp
  | some found => simp [-bind_pure_comp]

theorem atomic_lookup : Atomic (lookup scope name forWrite remote) :=
  fun _ _ _ h => (fails_lookup_iff.1 h).2.2

end Scoping
end BlockScope
