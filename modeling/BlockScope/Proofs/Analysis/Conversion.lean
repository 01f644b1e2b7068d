import BlockScope.Proofs.Analysis.Resolved
import BlockScope.Proofs.Scope.Handing
/-!
# Closure conversion site by site

`Converts` says what the second pass has made of a resolved tree after some sites: the scopes entered have moved
their remotely written variables to the heap, and the uses seen have handed records and values to the closures
they pass. One site keeps it (`Converts.enter`, `Converts.use`, `Converts.ret`) as long as the owner of what is
used has been entered before, so it holds of the whole pass.
-/
namespace BlockScope

/-- The frame without what it is handed and what it keeps its context for. -/
def Frame.storage (f : Frame) : Frame := { f with needsHeapContext := false, usingHeapvarsFrom := [], copyingVars := [] }

namespace ScopeTree

/-- The variable is written remotely and its scope was entered. -/
def Moved (t : ScopeTree) (done : List Site) (x : VarId) : Prop :=
  ∃ s f, .enter s ∈ done ∧ t.frame? s = some f ∧ x ∈ t.toMove f

/-- A use at one of the sites is of this variable, and the scope is on the way to its owner. -/
def Seen (t : ScopeTree) (bindings : Table VarId) (done : List Site) (s : ScopeId) (x : VarId) (v : Variable) : Prop :=
  ∃ U e y, .use U e ∈ done ∧ bindings.get? e = some y ∧ t.realVar y = x ∧ t.var? x = some v ∧ t.Holds x v ∧
    t.Between U s v.scope

/-- What a frame has been handed: records of variables on the heap, and values of variables that are only read. -/
structure Handed (t : ScopeTree) (bindings : Table VarId) (done : List Site) (s : ScopeId) (f : Frame) : Prop where
  records_nodup : f.usingHeapvarsFrom.Nodup
  records : ∀ D, D ∈ f.usingHeapvarsFrom ↔
    t.scopeIs (·.isTrueBlock) s ∧ ∃ x v, t.Seen bindings done s x v ∧ v.remote = .written ∧ v.scope = D
  values_nodup : f.copyingVars.Nodup
  values : ∀ x, x ∈ f.copyingVars ↔
    t.scopeIs (·.isTrueBlock) s ∧ ∃ y v, t.Seen bindings done s y v ∧ v.remote = .read ∧ y = x

/-- The second tree is what conversion has made of the first after these sites. -/
structure Converts (t : ScopeTree) (bindings : Table VarId) (done : List Site) (u : ScopeTree) : Prop where
  shape : t.SameShape u
  noVar : ∀ x, t.var? x = none → u.var? x = none
  moved : ∀ x v, t.var? x = some v → t.Moved done x → u.var? x = some { v with kind := .heap }
  kept : ∀ x v, t.var? x = some v → ¬ t.Moved done x → u.var? x = some v
  frames : ∀ s f, t.frame? s = some f → ∃ f', u.frame? s = some f' ∧
    f'.storage = (if .enter s ∈ done then f.moveToHeap (t.toMove f) else f).storage ∧ t.Handed bindings done s f'

variable {t u : ScopeTree} {bindings : Table VarId} {done : List Site} {s U D : ScopeId} {x y : VarId} {v : Variable}
  {f f' : Frame} {e : NodeId} {site : Site}

theorem converts_nil (hw : t.Wf) (bindings : Table VarId) : t.Converts bindings [] t where
  shape := .refl t
  noVar _ h := h
  moved := by
    rintro x v - ⟨s, f, hs, -⟩
    cases hs
  kept x v hv _ := hv
  frames s f hf := by
    obtain ⟨o, k, hs⟩ := scope_of_frame hf
    obtain ⟨-, husing, hcopying⟩ := (hw.code s o k f hs).idle
    refine ⟨f, hf, rfl, ?_⟩
    constructor <;> simp [husing, hcopying, Seen]

/-! ## Growing the list of sites -/

theorem moved_append_enter (hf : t.frame? s = some f) : t.Moved (done ++ [.enter s]) x ↔ t.Moved done x ∨ x ∈ t.toMove f := by
  constructor
  · rintro ⟨s', f', hs', hf', hx⟩
    rw [List.mem_append, List.mem_singleton] at hs'
    rcases hs' with hs' | hs'
    · exact .inl ⟨s', f', hs', hf', hx⟩
    · cases hs'
      rw [hf] at hf'
      cases hf'
      exact .inr hx
  · rintro (⟨s', f', hs', hf', hx⟩ | hx)
    · exact ⟨s', f', List.mem_append_left _ hs', hf', hx⟩
    · exact ⟨s, f, by simp, hf, hx⟩

theorem moved_append_other (h : ∀ s f, site = .enter s → t.frame? s ≠ some f) : t.Moved (done ++ [site]) x ↔ t.Moved done x := by
  constructor
  · rintro ⟨s', f', hs', hf', hx⟩
    rw [List.mem_append, List.mem_singleton] at hs'
    rcases hs' with hs' | hs'
    · exact ⟨s', f', hs', hf', hx⟩
    · exact absurd hf' (h s' f' hs'.symm)
  · rintro ⟨s', f', hs', hf', hx⟩
    exact ⟨s', f', List.mem_append_left _ hs', hf', hx⟩

theorem seen_append_other (h : ∀ U e, site ≠ .use U e) : t.Seen bindings (done ++ [site]) s x v ↔ t.Seen bindings done s x v := by
  unfold Seen
  simp only [List.mem_append, List.mem_singleton, (h _ _).symm, or_false]

theorem seen_append_use (hy : bindings.get? e = some y) : t.Seen bindings (done ++ [.use U e]) s x v ↔
    t.Seen bindings done s x v ∨ t.realVar y = x ∧ t.var? x = some v ∧ t.Holds x v ∧ t.Between U s v.scope := by
  constructor
  · rintro ⟨U', e', y', hmem, hy', hrest⟩
    rw [List.mem_append, List.mem_singleton] at hmem
    rcases hmem with hmem | hmem
    · exact .inl ⟨U', e', y', hmem, hy', hrest⟩
    · cases hmem
      rw [hy] at hy'
      cases hy'
      exact .inr hrest
  · rintro (⟨U', e', y', hmem, hy', hrest⟩ | hrest)
    · exact ⟨U', e', y', List.mem_append_left _ hmem, hy', hrest⟩
    · exact ⟨U, e, y, by simp, hy, hrest⟩

theorem Handed.other (h : t.Handed bindings done s f) (hsite : ∀ U e, site ≠ .use U e) :
    t.Handed bindings (done ++ [site]) s f where
  records_nodup := h.records_nodup
  records D := by simp only [h.records, seen_append_other hsite]
  values_nodup := h.values_nodup
  values x := by simp only [h.values, seen_append_other hsite]

/-! ## One site -/

namespace Converts

theorem var_of_var (h : t.Converts bindings done u) (hx : t.var? x = some v) : ∃ kind, u.var? x = some { v with kind } := by
  by_cases hm : t.Moved done x
  · exact ⟨_, h.moved x v hx hm⟩
  · exact ⟨v.kind, h.kept x v hx hm⟩

theorem isWrittenRemotely (h : t.Converts bindings done u) (x : VarId) : u.isWrittenRemotely x = t.isWrittenRemotely x := by
  unfold ScopeTree.isWrittenRemotely
  cases hx : t.var? x with
  | none => rw [h.noVar x hx]
  | some v =>
    obtain ⟨kind, hk⟩ := h.var_of_var hx
    rw [hk]
    rfl

theorem aliasOf (h : t.Converts bindings done u) (x : VarId) :
    (u.var? x).bind (·.aliasOf) = (t.var? x).bind (·.aliasOf) := by
  cases hx : t.var? x with
  | none => rw [h.noVar x hx]
  | some v =>
    obtain ⟨kind, hk⟩ := h.var_of_var hx
    rw [hk]
    rfl

theorem realVar (h : t.Converts bindings done u) (x : VarId) : u.realVar x = t.realVar x := realVar_congr fun y _ => h.aliasOf y

theorem direct (h : t.Converts bindings done u) (hd : t.Direct x) : u.Direct x := by
  intro v' slot w' hv' ha hw'
  have hx := h.aliasOf x
  have hslot := h.aliasOf slot
  rw [hv', Option.bind_some, ha] at hx
  rw [hw', Option.bind_some] at hslot
  obtain ⟨v, hv, ha₀⟩ := Option.bind_eq_some_iff.1 hx.symm
  cases hw : t.var? slot with
  | none => rw [hslot, hw, Option.bind_none]
  | some w => rw [hslot, hw, Option.bind_some, hd v slot w hv ha₀ hw]

/-- What entering moves is read off the storage, and nothing is moved a second time. -/
theorem toMove (h : t.Converts bindings done u)
    (hf' : f'.storage = (if .enter s ∈ done then f.moveToHeap (t.toMove f) else f).storage) :
    u.toMove f' = if .enter s ∈ done then [] else t.toMove f := by
  have hwritten : u.isWrittenRemotely = t.isWrittenRemotely := by
    funext x
    exact h.isWrittenRemotely x
  have hargs : f'.arguments = f'.storage.arguments := rfl
  have hlocals : f'.locals = f'.storage.locals := rfl
  unfold ScopeTree.toMove
  rw [hwritten, hargs, hlocals, hf']
  by_cases hd : .enter s ∈ done
  · rw [if_pos hd, if_pos hd, List.filter_eq_nil_iff]
    intro x hx hw
    simp only [Frame.storage, Frame.moveToHeap, List.mem_append, List.mem_filter, decide_eq_true_eq] at hx
    have hmem : x ∈ t.toMove f := List.mem_filter.2 ⟨by rw [List.mem_append]; exact hx.imp And.left And.left, hw⟩
    rcases hx with hx | hx <;> exact hx.2 hmem
  · rw [if_neg hd, if_neg hd]
    rfl

/-- A scope without a frame has nothing to move. -/
theorem enter_of_no_frame (h : t.Converts bindings done u) (hf : t.frame? s = none) :
    t.Converts bindings (done ++ [.enter s]) u := by
  have hm : ∀ x, t.Moved (done ++ [.enter s]) x ↔ t.Moved done x := by
    intro x
    apply moved_append_other
    intro s' f he
    cases he
    simp [hf]
  constructor
  case shape => exact h.shape
  case noVar => exact h.noVar
  case moved => exact fun x v hv hx => h.moved x v hv ((hm x).1 hx)
  case kept => exact fun x v hv hx => h.kept x v hv fun h' => hx ((hm x).2 h')
  case frames =>
    intro s' f hf'
    obtain ⟨f', hu, hst, hh⟩ := h.frames s' f hf'
    refine ⟨f', hu, ?_, hh.other (by simp)⟩
    have hne : s' ≠ s := by
      rintro rfl
      rw [hf] at hf'
      cases hf'
    simp only [List.mem_append, List.mem_singleton, Site.enter.injEq, hne, or_false]
    exact hst

theorem enter_of_frame (h : t.Converts bindings done u) (hf : t.frame? s = some f) :
    t.Converts bindings (done ++ [.enter s]) (u.promote s).2 := by
  have hno : ∀ U e, Site.enter s ≠ .use U e := by simp
  obtain ⟨f', hu, hst, hh⟩ := h.frames s f hf
  -- A scope that has been entered before finds nothing left to move.
  have hids := h.toMove hst
  constructor
  case shape => exact h.shape.trans (.promote u s)
  case noVar =>
    intro x hx
    rw [var?_promote hu, h.noVar x hx]
    simp
  case moved =>
    intro x v hv hx
    rw [var?_promote hu, hids]
    rcases (moved_append_enter hf).1 hx with hm | hm
    · simp only [h.moved x v hv hm, Option.map_some, ite_self]
    · by_cases hd : .enter s ∈ done
      · simp only [h.moved x v hv ⟨s, f, hd, hf, hm⟩, Option.map_some, ite_self]
      · rw [if_neg hd, if_pos hm]
        obtain ⟨kind, hk⟩ := h.var_of_var hv
        rw [hk]
        rfl
  case kept =>
    intro x v hv hx
    rw [moved_append_enter hf, not_or] at hx
    rw [var?_promote hu, hids, if_neg, h.kept x v hv hx.1]
    split
    · simp
    · exact hx.2
  case frames =>
    intro s' g hg
    by_cases hs : s' = s
    · subst hs
      rw [hf] at hg
      cases hg
      refine ⟨_, by rw [frame?_promote hu, if_pos rfl], ?_, ?_⟩
      · rw [if_pos (by simp), hids]
        by_cases hd : .enter s' ∈ done
        · rw [if_pos hd] at hst ⊢
          rw [moveToHeap_nil, hst]
        · rw [if_neg hd] at hst ⊢
          have hcomm : ∀ (g : Frame) ids, (g.moveToHeap ids).storage = g.storage.moveToHeap ids := fun _ _ => rfl
          rw [hcomm, hst, ← hcomm]
      · have hh' := hh.other hno
        exact ⟨hh'.records_nodup, hh'.records, hh'.values_nodup, hh'.values⟩
    · obtain ⟨g', hg', hst', hh'⟩ := h.frames s' g hg
      refine ⟨g', by rw [frame?_promote hu, if_neg hs, hg'], ?_, hh'.other hno⟩
      simp only [List.mem_append, List.mem_singleton, Site.enter.injEq, hs, or_false]
      exact hst'

/-- Entering a scope. -/
theorem enter (h : t.Converts bindings done u) (s : ScopeId) : t.Converts bindings (done ++ [.enter s]) (u.promote s).2 := by
  cases hf : t.frame? s with
  | none =>
    rw [promote_of_no_frame (h.shape.frame?_eq_none hf)]
    exact h.enter_of_no_frame hf
  | some f => exact h.enter_of_frame hf

/-- A return. -/
theorem ret (h : t.Converts bindings done u) (s : ScopeId) (e : NodeId) : t.Converts bindings (done ++ [.ret s e]) u := by
  have hno : ∀ U e', Site.ret s e ≠ .use U e' := by simp
  have hm : ∀ x, t.Moved (done ++ [.ret s e]) x ↔ t.Moved done x := fun x => moved_append_other (by simp)
  refine ⟨h.shape, h.noVar, fun x v hv hx => h.moved x v hv ((hm x).1 hx), fun x v hv hx => h.kept x v hv fun h' => hx ((hm x).2 h'),
    fun s' f hf => ?_⟩
  obtain ⟨f', hu, hst, hh⟩ := h.frames s' f hf
  refine ⟨f', hu, ?_, hh.other hno⟩
  simp only [List.mem_append, List.mem_singleton, reduceCtorEq, or_false]
  exact hst

theorem keepContext (h : t.Converts bindings done u) (s : ScopeId) :
    t.Converts bindings done (u.modifyFrame s ({ · with needsHeapContext := true })) := by
  refine ⟨h.shape.trans (.modifyFrame u s _), h.noVar, h.moved, h.kept, fun s' f hf => ?_⟩
  obtain ⟨f', hu, hst, hh⟩ := h.frames s' f hf
  rw [frame?_modifyFrame, hu]
  by_cases hs : s' = s
  · rw [if_pos hs]
    exact ⟨_, rfl, hst, hh.records_nodup, hh.records, hh.values_nodup, hh.values⟩
  · rw [if_neg hs]
    exact ⟨f', rfl, hst, hh⟩

/-- A use hands something to some frames. -/
theorem handing (h : t.Converts bindings done u) (ids : List ScopeId) {g : Frame → Frame} (hg : ∀ f, g (g f) = g f)
    (hstorage : ∀ f, (g f).storage = f.storage)
    (hh : ∀ s f, t.Handed bindings done s f → t.Handed bindings (done ++ [.use U e]) s (if s ∈ ids then g f else f)) :
    t.Converts bindings (done ++ [.use U e]) (ids.foldl (fun u s => u.modifyFrame s g) u) := by
  have hm : ∀ x, t.Moved (done ++ [.use U e]) x ↔ t.Moved done x := fun x => moved_append_other (by simp)
  refine ⟨h.shape.trans (.foldl u ids), ?_, ?_, ?_, ?_⟩
  · intro x hx
    rw [var?_foldl, h.noVar x hx]
  · intro x v hv hx
    rw [var?_foldl, h.moved x v hv ((hm x).1 hx)]
  · intro x v hv hx
    rw [var?_foldl, h.kept x v hv fun h' => hx ((hm x).2 h')]
  · intro s f hf
    obtain ⟨f', hu, hst, hh'⟩ := h.frames s f hf
    rw [frame?_foldl hg, hu]
    refine ⟨if s ∈ ids then g f' else f', by split <;> rfl, ?_, hh s f' hh'⟩
    simp only [List.mem_append, List.mem_singleton, reduceCtorEq, or_false]
    rw [← hst]
    split
    · exact hstorage f'
    · rfl

end Converts

/-! ### Uses -/

/-- With a use of storage one more variable is seen. -/
theorem exists_seen_stored (hy : bindings.get? e = some y) (hv : t.var? (t.realVar y) = some v)
    (hholds : t.Holds (t.realVar y) v) {P : VarId → Variable → Prop} :
    (∃ x w, t.Seen bindings (done ++ [.use U e]) s x w ∧ P x w) ↔
      (∃ x w, t.Seen bindings done s x w ∧ P x w) ∨ t.Between U s v.scope ∧ P (t.realVar y) v := by
  constructor
  · rintro ⟨x, w, hseen, hP⟩
    rcases (seen_append_use hy).1 hseen with h | ⟨rfl, hw, -, hb⟩
    · exact .inl ⟨x, w, h, hP⟩
    · rw [hv] at hw
      cases hw
      exact .inr ⟨hb, hP⟩
  · rintro (⟨x, w, h, hP⟩ | ⟨hb, hP⟩)
    · exact ⟨x, w, (seen_append_use hy).2 (.inl h), hP⟩
    · exact ⟨_, v, (seen_append_use hy).2 (.inr ⟨rfl, hv, hholds, hb⟩), hP⟩

/-- With a use of anything else nothing more is. -/
theorem seen_append_fixed (hy : bindings.get? e = some y) (hv : t.var? (t.realVar y) = some v) (hf : t.frame? v.scope = none)
    {w : Variable} : t.Seen bindings (done ++ [.use U e]) s x w ↔ t.Seen bindings done s x w := by
  rw [seen_append_use hy]
  constructor
  · rintro (h | ⟨rfl, hw, ⟨f, hf', -⟩, -⟩)
    · exact h
    · rw [hv] at hw
      cases hw
      rw [hf] at hf'
      cases hf'
  · exact .inl

/-- The closures between two scopes, whatever conversion has done. -/
theorem Converts.mem_trueBlocksUntil (h : t.Converts bindings done u) (hn : t.Nested) (hU : t.Within U D) :
    s ∈ u.trueBlocksUntil U D ↔ t.Between U s D ∧ t.scopeIs (·.isTrueBlock) s := by
  rw [(h.shape.nested hn).mem_trueBlocksUntil (h.shape.within.2 hU), h.shape.between, h.shape.isTrueBlock]

section
variable (hh : t.Handed bindings done s f) (hy : bindings.get? e = some y) (hv : t.var? (t.realVar y) = some v)
  (hholds : t.Holds (t.realVar y) v) {ids : List ScopeId}
include hh hy hv hholds

theorem Handed.record (hw : v.remote = .written) (hids : s ∈ ids ↔ t.Between U s v.scope ∧ t.scopeIs (·.isTrueBlock) s) :
    t.Handed bindings (done ++ [.use U e]) s
      (if s ∈ ids then { f with usingHeapvarsFrom := appendNew f.usingHeapvarsFrom [v.scope] } else f) := by
  have hvalues : ∀ x, x ∈ f.copyingVars ↔ t.scopeIs (·.isTrueBlock) s ∧
      ∃ y v, t.Seen bindings (done ++ [.use U e]) s y v ∧ v.remote = .read ∧ y = x := by
    intro x
    rw [hh.values, exists_seen_stored hy hv hholds]
    simp [hw]
  by_cases hs : s ∈ ids
  · obtain ⟨hb, ht⟩ := hids.1 hs
    rw [if_pos hs]
    refine ⟨nodup_appendNew _ _ hh.records_nodup, fun D => ?_, hh.values_nodup, hvalues⟩
    rw [mem_appendNew, hh.records, exists_seen_stored hy hv hholds, List.mem_singleton]
    simp [ht, hb, hw, eq_comm]
  · rw [if_neg hs]
    refine ⟨hh.records_nodup, fun D => ?_, hh.values_nodup, hvalues⟩
    rw [hh.records, exists_seen_stored hy hv hholds]
    constructor
    · rintro ⟨ht, h⟩
      exact ⟨ht, .inl h⟩
    · rintro ⟨ht, h | ⟨hb, -⟩⟩
      · exact ⟨ht, h⟩
      · exact absurd (hids.2 ⟨hb, ht⟩) hs

theorem Handed.value (hr : v.remote = .read) (hids : s ∈ ids ↔ t.Between U s v.scope ∧ t.scopeIs (·.isTrueBlock) s) :
    t.Handed bindings (done ++ [.use U e]) s
      (if s ∈ ids then { f with copyingVars := appendNew f.copyingVars [t.realVar y] } else f) := by
  have hrecords : ∀ D, D ∈ f.usingHeapvarsFrom ↔ t.scopeIs (·.isTrueBlock) s ∧
      ∃ x v, t.Seen bindings (done ++ [.use U e]) s x v ∧ v.remote = .written ∧ v.scope = D := by
    intro D
    rw [hh.records, exists_seen_stored hy hv hholds]
    simp [hr]
  by_cases hs : s ∈ ids
  · obtain ⟨hb, ht⟩ := hids.1 hs
    rw [if_pos hs]
    refine ⟨hh.records_nodup, hrecords, nodup_appendNew _ _ hh.values_nodup, fun x => ?_⟩
    rw [mem_appendNew, hh.values, exists_seen_stored hy hv hholds, List.mem_singleton]
    simp [ht, hb, hr, eq_comm]
  · rw [if_neg hs]
    refine ⟨hh.records_nodup, hrecords, hh.values_nodup, fun x => ?_⟩
    rw [hh.values, exists_seen_stored hy hv hholds]
    constructor
    · rintro ⟨ht, h⟩
      exact ⟨ht, .inl h⟩
    · rintro ⟨ht, h | ⟨hb, -⟩⟩
      · exact ⟨ht, h⟩
      · exact absurd (hids.2 ⟨hb, ht⟩) hs

theorem Handed.nothing (hr : v.remote = .none) : t.Handed bindings (done ++ [.use U e]) s f := by
  refine ⟨hh.records_nodup, fun D => ?_, hh.values_nodup, fun x => ?_⟩
  · rw [hh.records, exists_seen_stored hy hv hholds]
    simp [hr]
  · rw [hh.values, exists_seen_stored hy hv hholds]
    simp [hr]

end

theorem Handed.fixed (hh : t.Handed bindings done s f) (hy : bindings.get? e = some y)
    (hv : t.var? (t.realVar y) = some v) (hf : t.frame? v.scope = none) : t.Handed bindings (done ++ [.use U e]) s f where
  records_nodup := hh.records_nodup
  records D := by simp only [hh.records, seen_append_fixed hy hv hf]
  values_nodup := hh.values_nodup
  values x := by simp only [hh.values, seen_append_fixed hy hv hf]

theorem not_moved_of_remote (hv : t.var? x = some v) (hr : v.remote ≠ .written) : ¬ t.Moved done x := by
  rintro ⟨s, f, -, -, hx⟩
  have := (List.mem_filter.1 hx).2
  simp only [isWrittenRemotely, hv, Option.any_some, decide_eq_true_eq] at this
  exact hr this

theorem not_moved_of_fixed (hw : t.Wf) (hv : t.var? x = some v) (hkind : v.kind.IsFixed) : ¬ t.Moved done x := by
  rintro ⟨s, f, -, hf, hx⟩
  obtain ⟨o, k, hs⟩ := scope_of_frame hf
  have hcode := hw.code s o k f hs
  have hstored : v.kind = .argument ∨ v.kind = .temporary := by
    rcases List.mem_append.1 (List.mem_filter.1 hx).1 with hx | hx
    · obtain ⟨v', hv', -, hk, -⟩ := hcode.arguments x hx
      rw [hv] at hv'
      cases hv'
      exact .inl hk
    · obtain ⟨v', hv', -, hk, -⟩ := hcode.locals x hx
      rw [hv] at hv'
      cases hv'
      exact .inr hk
  rcases hkind with h | h | h <;> simp [h] at hstored

/-- A use of something found, whose owner has been entered. -/
theorem Converts.use {name : String} {found : Found} (h : t.Converts bindings done u) (hw : t.Wf)
    (hfind : t.find U name false = some found) (hy : bindings.get? e = some found.var)
    (hentered : ∀ v, t.var? (t.realVar found.var) = some v → t.IsCode v.scope → .enter v.scope ∈ done) :
    t.Converts bindings (done ++ [.use U e]) (u.capture U found.var) := by
  obtain ⟨v, hv, hU, hl⟩ := hw.find_spec hfind
  have hids : ∀ s, s ∈ u.trueBlocksUntil U v.scope ↔ t.Between U s v.scope ∧ t.scopeIs (·.isTrueBlock) s :=
    fun s => h.mem_trueBlocksUntil hw.nested hU
  have hnothing : (∀ s f, t.Handed bindings done s f → t.Handed bindings (done ++ [.use U e]) s f) →
      t.Converts bindings (done ++ [.use U e]) u := fun hh => h.handing [] (g := fun f => f) (fun _ => rfl) (fun _ => rfl) hh
  unfold ScopeTree.capture
  simp only [h.realVar]
  cases hl with
  | fixed _ hkind hframe =>
    rw [h.kept _ v hv (not_moved_of_fixed hw hv hkind)]
    have hsame := hnothing fun s f hh => hh.fixed hy hv hframe
    rcases hkind with hk | hk | hk <;> simpa only [hk] using hsame
  | stored _ hholds hkind _ =>
    by_cases hwritten : v.remote = .written
    · have ⟨f, hf, hmem⟩ := hholds
      have ⟨o, k, hs⟩ := scope_of_frame hf
      -- The owner was entered, so what is written remotely is on the heap by now.
      have hmove : t.realVar found.var ∈ t.toMove f :=
        List.mem_filter.2 ⟨hmem, by simp [ScopeTree.isWrittenRemotely, hv, hwritten]⟩
      have hm : t.Moved done (t.realVar found.var) := ⟨v.scope, f, hentered v hv ⟨o, k, f, hs⟩, hf, hmove⟩
      rw [h.moved _ v hv hm]
      exact h.handing _ (fun f => by simp only [appendNew_twice]) (fun _ => rfl)
        fun s f hh => hh.record hy hv hholds hwritten (hids s)
    · rw [h.kept _ v hv (not_moved_of_remote hv hwritten)]
      cases hr : v.remote with
      | written => exact absurd hr hwritten
      | none =>
        have hsame := hnothing fun s f hh => hh.nothing hy hv hholds hr
        rcases hkind with hk | hk <;> simpa only [hk, hr] using hsame
      | read =>
        have hcopied := h.handing (u.trueBlocksUntil U v.scope)
          (g := fun f => { f with copyingVars := appendNew f.copyingVars [t.realVar found.var] })
          (fun f => by simp only [appendNew_twice]) (fun _ => rfl) fun s f hh => hh.value hy hv hholds hr (hids s)
        rcases hkind with hk | hk
        · simp only [hk, hr]
          exact hcopied
        · simp only [hk, hr]
          exact hcopied

end ScopeTree
end BlockScope
