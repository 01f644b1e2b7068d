import BlockScope.Proofs.Runs
import Mathlib.Order.Defs.Unbundled
/-!
# Runs that may fail

`Runs` follows a step where it succeeds. `Fails m s e s'` says that a step fails from `s` with the error `e` and leaves
`s'`; a failing composition fails in one of its parts, after runs of those before it. A step is `Atomic` if it fails only where
it has changed nothing. `Stage.Leaves` follows a stage of the analysis whatever comes of it.
-/
namespace BlockScope

/-- The step fails from one state with this error, and leaves the other state. -/
def Fails {ε σ α : Type} (m : ExceptT ε (StateM σ) α) (s : σ) (e : ε) (s' : σ) : Prop :=
  (ExceptT.run m).run s = (.error e, s')

theorem Runs.unique {ε σ α : Type} {m : ExceptT ε (StateM σ) α} {s s' t : σ} {x y : α} (h : Runs m s x s') (h' : Runs m s y t) :
    y = x ∧ t = s' := by
  rw [Runs, show (ExceptT.run m).run s = (.ok y, t) from h'] at h
  cases h
  exact ⟨rfl, rfl⟩

namespace Fails
variable {ε σ α β : Type} {m : ExceptT ε (StateM σ) α} {f : α → ExceptT ε (StateM σ) β} {s s' : σ} {e : ε}

@[simp] theorem pure_iff {z : α} : Fails (pure z : ExceptT ε (StateM σ) α) s e s' ↔ False := by
  constructor
  · intro h
    cases h
  · exact False.elim

@[simp] theorem throw_iff {e' : ε} : Fails (throw e' : ExceptT ε (StateM σ) α) s e s' ↔ e = e' ∧ s' = s := by
  constructor
  · intro h
    cases h
    exact ⟨rfl, rfl⟩
  · rintro ⟨rfl, rfl⟩
    rfl

/-- A step either runs or fails. -/
theorem or_runs (m : ExceptT ε (StateM σ) α) (s : σ) : (∃ x s', Runs m s x s') ∨ ∃ e s', Fails m s e s' := by
  unfold Runs Fails
  rcases (ExceptT.run m).run s with ⟨r, t⟩
  cases r with
  | ok x => exact .inl ⟨x, t, rfl⟩
  | error e => exact .inr ⟨e, t, rfl⟩

theorem not_runs {x : α} {t : σ} (h : Fails m s e s') : ¬ Runs m s x t := by
  intro hr
  rw [Fails, show (ExceptT.run m).run s = (.ok x, t) from hr] at h
  cases h

@[simp] theorem bind_iff : Fails (m >>= f) s e s' ↔ Fails m s e s' ∨ ∃ x t, Runs m s x t ∧ Fails (f x) t e s' := by
  unfold Fails Runs
  rw [Runs.run_bind]
  rcases (ExceptT.run m).run s with ⟨r, t⟩
  cases r with
  | ok x =>
    constructor
    · intro h
      exact .inr ⟨x, t, rfl, h⟩
    · rintro (h | ⟨x', t', h, h'⟩)
      · cases h
      · cases h
        exact h'
  | error e' =>
    constructor
    · intro h
      cases h
      exact .inl rfl
    · rintro (h | ⟨x', t', h, -⟩)
      · cases h
        rfl
      · cases h

@[simp] theorem modify_iff {g : σ → σ} : Fails (modify g : ExceptT ε (StateM σ) PUnit) s e s' ↔ False := by
  constructor
  · intro h
    cases h
  · exact False.elim

@[simp] theorem get_iff : Fails (get : ExceptT ε (StateM σ) σ) s e s' ↔ False := by
  constructor
  · intro h
    cases h
  · exact False.elim

theorem get_bind_iff {g : σ → ExceptT ε (StateM σ) β} : Fails (get >>= g) s e s' ↔ Fails (g s) s e s' := by
  rw [bind_iff]
  simp only [get_iff, false_or, Runs.get_iff]
  constructor
  · rintro ⟨_, _, ⟨rfl, rfl⟩, h⟩
    exact h
  · intro h
    exact ⟨s, s, ⟨rfl, rfl⟩, h⟩

@[simp] theorem modifyGet_iff {g : σ → α × σ} : Fails (modifyGet g : ExceptT ε (StateM σ) α) s e s' ↔ False := by
  constructor
  · intro h
    cases h
  · exact False.elim

@[simp] theorem discard_iff : Fails (discard m) s e s' ↔ Fails m s e s' := by
  rw [show discard m = m >>= fun _ => pure ⟨⟩ from map_eq_pure_bind _ m, bind_iff]
  simp

/-- A renamed error comes from an error. -/
theorem tryCatch_throw_iff {g : ε → ε} : Fails (tryCatch m fun e => throw (g e)) s e s' ↔ ∃ e', Fails m s e' s' ∧ e = g e' := by
  unfold Fails
  rw [Runs.run_tryCatch_throw]
  rcases (ExceptT.run m).run s with ⟨r, t⟩
  cases r with
  | ok x =>
    constructor
    · intro h
      cases h
    · rintro ⟨e', h, -⟩
      cases h
  | error e₀ =>
    constructor
    · intro h
      cases h
      exact ⟨e₀, rfl, rfl⟩
    · rintro ⟨e', h, rfl⟩
      cases h
      rfl

/-! ## Loops -/

/-- A loop that fails fails at one of its elements. -/
theorem of_forM {g : α → ExceptT ε (StateM σ) PUnit} {l : List α} (h : Fails (forM l g) s e s') :
    ∃ x ∈ l, ∃ t, Fails (g x) t e s' := by
  induction l generalizing s with
  | nil => cases h
  | cons x l ih =>
    rw [List.forM_cons, bind_iff] at h
    rcases h with h | ⟨_, t, -, h⟩
    · exact ⟨x, by simp, s, h⟩
    · obtain ⟨y, hy, t', h'⟩ := ih h
      exact ⟨y, List.mem_cons_of_mem _ hy, t', h'⟩

theorem of_foldlM {g : β → α → ExceptT ε (StateM σ) β} {l : List α} {z : β} (h : Fails (l.foldlM g z) s e s') :
    ∃ x ∈ l, ∃ y t, Fails (g y x) t e s' := by
  induction l generalizing s z with
  | nil => cases h
  | cons x l ih =>
    rw [List.foldlM_cons, bind_iff] at h
    rcases h with h | ⟨y, t, -, h⟩
    · exact ⟨x, by simp, z, s, h⟩
    · obtain ⟨y', hy, hrest⟩ := ih h
      exact ⟨y', List.mem_cons_of_mem _ hy, hrest⟩

/-- A loop over checks fails at the first element whose check does. -/
theorem forM_zipIdx {g : α × Nat → ExceptT ε (StateM σ) PUnit} {l : List α} {start i : Nat} {x : α} (hx : l[i]? = some x)
    (before : ∀ j y, j < i → l[j]? = some y → Runs (g (y, start + j)) s ⟨⟩ s) (h : Fails (g (x, start + i)) s e s') :
    Fails (forM (l.zipIdx start) g) s e s' := by
  induction l generalizing start i with
  | nil => cases hx
  | cons y l ih =>
    rw [List.zipIdx_cons, List.forM_cons, bind_iff]
    cases i with
    | zero =>
      cases hx
      exact .inl h
    | succ i =>
      refine .inr ⟨⟨⟩, s, before 0 y (by omega) rfl, ih hx (fun j z hj hz => ?_) ?_⟩
      · rw [show start + 1 + j = start + (j + 1) by omega]
        exact before (j + 1) z (by omega) hz
      · rw [show start + 1 + i = start + (i + 1) by omega]
        exact h

end Fails

/-- Wherever the step fails, it leaves all as it was. -/
def Atomic {ε σ α : Type} (m : ExceptT ε (StateM σ) α) : Prop := ∀ s e s', Fails m s e s' → s' = s

/-! ## Stages of the analysis -/

namespace Stage
variable {α β : Type} {w w' : Work} {e : AnalysisError}

theorem fails_analysis_bind {g : Analysis → Stage β} : Fails (Stage.analysis >>= g) w e w' ↔ Fails (g w.analysis) w e w' := by
  unfold Stage.analysis
  rw [bind_assoc, Fails.get_bind_iff, pure_bind]

@[simp] theorem fails_tell {entries : List Entry} : Fails (Stage.tell entries) w e w' ↔ False := Fails.modify_iff

@[simp] theorem fails_update {g : Analysis → Analysis} : Fails (Stage.update g) w e w' ↔ False := Fails.modify_iff

@[simp] theorem fails_onScopes {g : ScopeTree → α × ScopeTree} : Fails (Stage.onScopes g) w e w' ↔ False := by
  constructor
  · intro h
    cases h
  · exact False.elim

/-- A step on the scopes gives its outcome and leaves its scopes, and the rest of the work as it was. -/
theorem run_tryScopes_iff {step : Scoping α} {r : Except AnalysisError α} :
    (ExceptT.run (Stage.tryScopes step)).run w = (r, w') ↔ ∃ t, step.runOn w.analysis.scopes = (r, t) ∧ w' = w.withScopes t := by
  have hrun : (ExceptT.run (Stage.tryScopes step)).run w =
      ((step.runOn w.analysis.scopes).1, w.withScopes (step.runOn w.analysis.scopes).2) := by
    unfold Stage.tryScopes
    rw [Runs.run_bind, show (ExceptT.run (get : Stage Work)).run w = (.ok w, w) from rfl]
    dsimp only
    rcases step.runOn w.analysis.scopes with ⟨r, t⟩
    cases r <;> rfl
  rw [hrun]
  constructor
  · intro h
    cases h
    exact ⟨_, rfl, rfl⟩
  · rintro ⟨t, h, rfl⟩
    rw [h]

theorem runs_tryScopes {step : Scoping α} {x : α} :
    Runs (Stage.tryScopes step) w x w' ↔ ∃ t, Runs step w.analysis.scopes x t ∧ w' = w.withScopes t := run_tryScopes_iff

theorem fails_tryScopes {step : Scoping α} :
    Fails (Stage.tryScopes step) w e w' ↔ ∃ t, Fails step w.analysis.scopes e t ∧ w' = w.withScopes t := run_tryScopes_iff

/-- The work after a stage, also when it failed. -/
def workAfter (m : Stage α) (w : Work) : Work := ((ExceptT.run m).run w).2

theorem workAfter_of_runs {m : Stage α} {x : α} (h : Runs m w x w') : m.workAfter w = w' := by
  rw [workAfter, show (ExceptT.run m).run w = (.ok x, w') from h]

theorem workAfter_of_fails {m : Stage α} (h : Fails m w e w') : m.workAfter w = w' := by
  rw [workAfter, show (ExceptT.run m).run w = (.error e, w') from h]

theorem workAfter_bind {m : Stage α} {f : α → Stage β} {x : α} (h : Runs m w x w') :
    (m >>= f).workAfter w = (f x).workAfter w' := by
  rw [workAfter, Runs.run_bind, show (ExceptT.run m).run w = (.ok x, w') from h]
  rfl

/-- Whatever comes of the stage, the analysis before it and the one after it are so related. -/
def Leaves (R : Analysis → Analysis → Prop) (m : Stage α) : Prop := ∀ w, R w.analysis (m.workAfter w).analysis

namespace Leaves
variable {R : Analysis → Analysis → Prop} {m : Stage α} {f : α → Stage β}

theorem of_runs {x : α} (h : Leaves R m) (hr : Runs m w x w') : R w.analysis w'.analysis := by
  have hafter := h w
  rw [workAfter_of_runs hr] at hafter
  exact hafter

theorem of_fails (h : Leaves R m) (hf : Fails m w e w') : R w.analysis w'.analysis := by
  have hafter := h w
  rw [workAfter_of_fails hf] at hafter
  exact hafter

theorem of_outcomes (hruns : ∀ w x w', Runs m w x w' → R w.analysis w'.analysis)
    (hfails : ∀ w e w', Fails m w e w' → R w.analysis w'.analysis) : Leaves R m := by
  intro w
  rcases Fails.or_runs m w with ⟨x, w', h⟩ | ⟨e, w', h⟩
  · rw [workAfter_of_runs h]
    exact hruns w x w' h
  · rw [workAfter_of_fails h]
    exact hfails w e w' h

theorem update {g : Analysis → Analysis} (h : ∀ a, R a (g a)) : Leaves R (Stage.update g) := fun w => h w.analysis

theorem onScopes {g : ScopeTree → α × ScopeTree} (h : ∀ a : Analysis, R a { a with scopes := (g a.scopes).2 }) :
    Leaves R (Stage.onScopes g) := fun w => h w.analysis

section
variable [Std.Refl R]

theorem pure (x : α) : Leaves R (pure x : Stage α) := fun _ => Std.Refl.refl _

theorem throw (e : AnalysisError) : Leaves R (throw e : Stage α) := fun _ => Std.Refl.refl _

theorem tell (entries : List Entry) : Leaves R (Stage.tell entries) := fun _ => Std.Refl.refl _

theorem analysis : Leaves R Stage.analysis := fun _ => Std.Refl.refl _

theorem tryScopes {step : Scoping α} (hatomic : Atomic step)
    (h : ∀ (a : Analysis) x t, Runs step a.scopes x t → R a { a with scopes := t }) : Leaves R (Stage.tryScopes step) := by
  refine of_outcomes (fun w x w' hr => ?_) fun w e w' hf => ?_
  · obtain ⟨t, ht, rfl⟩ := runs_tryScopes.1 hr
    exact h w.analysis x t ht
  · obtain ⟨t, ht, rfl⟩ := fails_tryScopes.1 hf
    rw [hatomic _ _ _ ht]
    exact Std.Refl.refl _

end

theorem rename {g : AnalysisError → AnalysisError} (h : Leaves R m) : Leaves R (tryCatch m fun e => MonadExcept.throw (g e)) := by
  intro w
  have hsame : workAfter (tryCatch m fun e => MonadExcept.throw (g e)) w = m.workAfter w := by
    rw [workAfter, workAfter, Runs.run_tryCatch_throw]
    rcases (ExceptT.run m).run w with ⟨r, t⟩
    cases r <;> rfl
  rw [hsame]
  exact h w

variable [IsTrans Analysis R]

theorem bind (h : Leaves R m) (h' : ∀ x, Leaves R (f x)) : Leaves R (m >>= f) := by
  refine of_outcomes (fun w y w' hr => ?_) fun w e w' hf => ?_
  · obtain ⟨x, t, h₁, h₂⟩ := Runs.bind_iff.1 hr
    exact IsTrans.trans _ _ _ (h.of_runs h₁) ((h' x).of_runs h₂)
  · rcases Fails.bind_iff.1 hf with h₁ | ⟨x, t, h₁, h₂⟩
    · exact h.of_fails h₁
    · exact IsTrans.trans _ _ _ (h.of_runs h₁) ((h' x).of_fails h₂)

variable [Std.Refl R]

theorem forM {g : α → Stage PUnit} {l : List α} (h : ∀ x ∈ l, Leaves R (g x)) : Leaves R (forM l g) := by
  induction l with
  | nil => exact .pure PUnit.unit
  | cons x l ih =>
    rw [List.forM_cons]
    exact .bind (h x (by simp)) fun _ => ih fun y hy => h y (List.mem_cons_of_mem _ hy)

theorem foldlM {g : β → α → Stage β} {l : List α} (h : ∀ y, ∀ x ∈ l, Leaves R (g y x)) (z : β) : Leaves R (l.foldlM g z) := by
  induction l generalizing z with
  | nil => exact .pure z
  | cons x l ih =>
    rw [List.foldlM_cons]
    exact .bind (h z x (by simp)) fun y => ih (fun y x hx => h y x (List.mem_cons_of_mem _ hx)) y

end Leaves
end Stage
end BlockScope
