import BlockScope.Analysis.Basic
/-!
# Successful runs

Parsing, analysis and the operations on a tree are written as steps on a state that may fail. `Runs m s x s'` says that such a
step succeeds from `s`, with result `x` and leaving `s'`. The lemmas take a run of a composed step apart
into runs of its parts, so that no proof about a stage opens the monad.
-/
namespace BlockScope

/-- The step succeeds from one state with this result, and leaves the other state. -/
def Runs {ε σ α : Type} (m : ExceptT ε (StateM σ) α) (s : σ) (x : α) (s' : σ) : Prop :=
  (ExceptT.run m).run s = (.ok x, s')

namespace Runs
variable {ε σ α β : Type} {m : ExceptT ε (StateM σ) α} {f : α → ExceptT ε (StateM σ) β} {s s' : σ}
  {x : α} {y : β}

@[simp] theorem pure_iff {z : α} : Runs (pure z : ExceptT ε (StateM σ) α) s x s' ↔ x = z ∧ s' = s := by
  constructor
  · intro h
    cases h
    exact ⟨rfl, rfl⟩
  · rintro ⟨rfl, rfl⟩
    rfl

theorem run_bind : (ExceptT.run (m >>= f)).run s = match (ExceptT.run m).run s with
    | (.ok x, t) => (ExceptT.run (f x)).run t
    | (.error e, t) => (.error e, t) := by
  simp only [ExceptT.run_bind, StateT.run_bind]
  rcases (ExceptT.run m).run s with ⟨r, t⟩
  cases r <;> rfl

@[simp] theorem bind_iff : Runs (m >>= f) s y s' ↔ ∃ x t, Runs m s x t ∧ Runs (f x) t y s' := by
  unfold Runs
  rw [run_bind]
  rcases (ExceptT.run m).run s with ⟨r, t⟩
  cases r with
  | ok x =>
    constructor
    · intro h
      exact ⟨x, t, rfl, h⟩
    · rintro ⟨x', t', h, h'⟩
      cases h
      exact h'
  | error e =>
    constructor
    · intro h
      cases h
    · rintro ⟨x', t', h, -⟩
      cases h

@[simp] theorem map_iff {g : α → β} : Runs (g <$> m) s y s' ↔ ∃ x, Runs m s x s' ∧ y = g x := by
  rw [map_eq_pure_bind, bind_iff]
  simp only [pure_iff]
  constructor
  · rintro ⟨x, t, h, rfl, rfl⟩
    exact ⟨x, h, rfl⟩
  · rintro ⟨x, h, rfl⟩
    exact ⟨x, s', h, rfl, rfl⟩

@[simp] theorem throw_iff {e : ε} : Runs (throw e : ExceptT ε (StateM σ) α) s x s' ↔ False := by
  constructor
  · intro h
    cases h
  · exact False.elim

@[simp] theorem get_iff {t : σ} : Runs (get : ExceptT ε (StateM σ) σ) s t s' ↔ t = s ∧ s' = s := by
  constructor
  · intro h
    cases h
    exact ⟨rfl, rfl⟩
  · rintro ⟨rfl, rfl⟩
    rfl

theorem get_bind_iff {g : σ → ExceptT ε (StateM σ) β} : Runs (get >>= g) s y s' ↔ Runs (g s) s y s' := by
  rw [bind_iff]
  simp only [get_iff]
  constructor
  · rintro ⟨_, _, ⟨rfl, rfl⟩, h⟩
    exact h
  · intro h
    exact ⟨s, s, ⟨rfl, rfl⟩, h⟩

@[simp] theorem set_iff {t : σ} {u : PUnit} : Runs (set t : ExceptT ε (StateM σ) PUnit) s u s' ↔ s' = t := by
  constructor
  · intro h
    cases h
    rfl
  · rintro rfl
    rfl

@[simp] theorem modify_iff {g : σ → σ} {u : PUnit} :
    Runs (modify g : ExceptT ε (StateM σ) PUnit) s u s' ↔ s' = g s := by
  constructor
  · intro h
    cases h
    rfl
  · rintro rfl
    rfl

@[simp] theorem modifyGet_iff {g : σ → α × σ} :
    Runs (modifyGet g : ExceptT ε (StateM σ) α) s x s' ↔ g s = (x, s') := by
  have e : (ExceptT.run (modifyGet g : ExceptT ε (StateM σ) α)).run s = (.ok (g s).1, (g s).2) := rfl
  unfold Runs
  rw [e]
  rcases g s with ⟨z, t⟩
  constructor <;> (intro h; cases h; rfl)

@[simp] theorem discard_iff {u : PUnit} : Runs (discard m) s u s' ↔ ∃ x, Runs m s x s' := by
  rw [show discard m = (fun _ => ⟨⟩) <$> m from rfl, map_iff]
  simp

theorem run_tryCatch_throw {g : ε → ε} :
    (ExceptT.run (tryCatch m fun e => throw (g e))).run s = match (ExceptT.run m).run s with
      | (.ok x, t) => (.ok x, t)
      | (.error e, t) => (.error (g e), t) := by
  have e : ExceptT.run (tryCatch m fun e => throw (g e)) = (ExceptT.run m >>= fun r => match r with
      | .ok x => pure (.ok x)
      | .error e => pure (.error (g e))) := rfl
  rw [e, StateT.run_bind]
  rcases (ExceptT.run m).run s with ⟨r, t⟩
  cases r <;> rfl

/-- Renaming errors changes no success. -/
@[simp] theorem tryCatch_throw_iff {g : ε → ε} :
    Runs (tryCatch m fun e => throw (g e)) s x s' ↔ Runs m s x s' := by
  unfold Runs
  rw [run_tryCatch_throw]
  rcases (ExceptT.run m).run s with ⟨r, t⟩
  cases r with
  | ok z => rfl
  | error e => constructor <;> (intro h; cases h)

@[simp] theorem forM_nil_iff {g : α → ExceptT ε (StateM σ) PUnit} {u : PUnit} :
    Runs (forM ([] : List α) g) s u s' ↔ s' = s := by
  simp

@[simp] theorem forM_cons_iff {g : α → ExceptT ε (StateM σ) PUnit} {u : PUnit} {a : α} {as : List α} :
    Runs (forM (a :: as) g) s u s' ↔ ∃ t, Runs (g a) s ⟨⟩ t ∧ Runs (forM as g) t ⟨⟩ s' := by
  rw [List.forM_cons, bind_iff]
  constructor
  · rintro ⟨_, t, h, h'⟩
    exact ⟨t, h, h'⟩
  · rintro ⟨t, h, h'⟩
    exact ⟨⟨⟩, t, h, h'⟩

/-- What each element keeps, counted by its place, a run over a list keeps. -/
theorem forM_zipIdx {g : α × Nat → ExceptT ε (StateM σ) PUnit} {u : PUnit} (inv : Nat → σ → Prop) (l : List α) (start : Nat)
    (step : ∀ i x s s', l[i]? = some x → inv (start + i) s → Runs (g (x, start + i)) s ⟨⟩ s' → inv (start + i + 1) s')
    (h : Runs (forM (l.zipIdx start) g) s u s') (hs : inv start s) : inv (start + l.length) s' := by
  induction l generalizing s start with
  | nil =>
    obtain rfl := forM_nil_iff.1 h
    exact hs
  | cons x l ih =>
    rw [List.zipIdx_cons] at h
    obtain ⟨t, h₁, h₂⟩ := forM_cons_iff.1 h
    have ht : inv (start + 1) t := step 0 x s t rfl hs h₁
    have hrest : inv (start + 1 + l.length) s' := by
      apply ih (start + 1) _ h₂ ht
      intro i y s s' hy hi hr
      rw [show start + 1 + i = start + (i + 1) by omega] at hi hr ⊢
      exact step (i + 1) y s s' hy hi hr
    rw [List.length_cons, show start + (l.length + 1) = start + 1 + l.length by omega]
    exact hrest

/-! ## Runs that are there -/

/-- A run over a list is there if each element runs from what the elements before it keep. -/
theorem exists_forM {g : α → ExceptT ε (StateM σ) PUnit} (inv : σ → Prop) (l : List α)
    (step : ∀ x ∈ l, ∀ s, inv s → ∃ s', Runs (g x) s ⟨⟩ s' ∧ inv s') (hs : inv s) :
    ∃ s', Runs (forM l g) s ⟨⟩ s' ∧ inv s' := by
  induction l generalizing s with
  | nil => exact ⟨s, forM_nil_iff.2 rfl, hs⟩
  | cons x l ih =>
    obtain ⟨t, hx, ht⟩ := step x (by simp) s hs
    obtain ⟨s', hl, hs'⟩ := ih (fun y hy => step y (List.mem_cons_of_mem _ hy)) ht
    exact ⟨s', forM_cons_iff.2 ⟨t, hx, hl⟩, hs'⟩

/-- The same counted by places, where `keeps` is as for `forM_zipIdx`. -/
theorem exists_forM_zipIdx {g : α × Nat → ExceptT ε (StateM σ) PUnit} (inv : Nat → σ → Prop) (l : List α) (start : Nat)
    (keeps : ∀ i x s s', l[i]? = some x → inv (start + i) s → Runs (g (x, start + i)) s ⟨⟩ s' → inv (start + i + 1) s')
    (goes : ∀ i x s, l[i]? = some x → inv (start + i) s → ∃ s', Runs (g (x, start + i)) s ⟨⟩ s') (hs : inv start s) :
    ∃ s', Runs (forM (l.zipIdx start) g) s ⟨⟩ s' := by
  induction l generalizing s start with
  | nil => exact ⟨s, forM_nil_iff.2 rfl⟩
  | cons x l ih =>
    obtain ⟨t, hx⟩ := goes 0 x s rfl hs
    have hshift : ∀ i, start + 1 + i = start + (i + 1) := by omega
    obtain ⟨s', hl⟩ := ih (start + 1)
      (fun i y s s' hy hi hr => by
        rw [hshift] at hi hr ⊢
        exact keeps (i + 1) y s s' hy hi hr)
      (fun i y s hy hi => by
        rw [hshift] at hi ⊢
        exact goes (i + 1) y s hy hi)
      (keeps 0 x s t rfl hs hx)
    exact ⟨s', by rw [List.zipIdx_cons]; exact forM_cons_iff.2 ⟨t, hx, hl⟩⟩

end Runs

end BlockScope
