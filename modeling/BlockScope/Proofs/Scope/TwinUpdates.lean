import BlockScope.Proofs.Scope.Listing
import BlockScope.Proofs.Scope.Twins
/-!
# Changing twin trees

Whatever is done to paired scopes and variables of twins leaves twins (`Twins.modifyFrame`, `Twins.modifyVar`), and what
is made in both of them is paired from then on (`Twins.opens`). Only what is paired changes: while names are resolved the
trees from before stay as they were (`Pairing.New`), and while closures are converted everything that is not paired
does (`Pairing.Spares`).
-/
namespace BlockScope

/-! ## What is not paired -/

/-- The second tree has all of the first as it was. -/
structure ScopeTree.Intact (t u : ScopeTree) : Prop where
  scope : ∀ s sc, t.scope? s = some sc → u.scope? s = some sc
  var : ∀ x v, t.var? x = some v → u.var? x = some v

theorem ScopeTree.Intact.refl (t : ScopeTree) : t.Intact t := ⟨fun _ _ h => h, fun _ _ h => h⟩

theorem ScopeTree.Intact.scope_none {t u : ScopeTree} {s : ScopeId} (h : t.Intact u) (hs : u.scope? s = none) : t.scope? s = none :=
  Option.eq_none_iff_forall_ne_some.2 fun sc hsc => by
    rw [h.scope s sc hsc] at hs
    cases hs

theorem ScopeTree.Intact.var_none {t u : ScopeTree} {x : VarId} (h : t.Intact u) (hx : u.var? x = none) : t.var? x = none :=
  Option.eq_none_iff_forall_ne_some.2 fun v hv => by
    rw [h.var x v hv] at hx
    cases hx

theorem ScopeTree.Intact.trans {t u w : ScopeTree} (h : t.Intact u) (h' : u.Intact w) : t.Intact w :=
  ⟨fun s sc hs => h'.scope s sc (h.scope s sc hs), fun x v hv => h'.var x v (h.var x v hv)⟩

namespace Pairing

/-- The second tree has whatever is not paired as the first has it. -/
structure Spares (r : Pairing) (t u : ScopeTree) : Prop where
  scope : ∀ s, (∀ s', ¬ r.scope s s') → u.scope? s = t.scope? s
  var : ∀ x, (∀ x', ¬ r.var x x') → u.var? x = t.var? x

/-- All that is in the first tree is in the second as it was, and what is paired is not in the first. -/
structure Beside (r : Pairing) (t u : ScopeTree) : Prop where
  intact : t.Intact u
  scope : ∀ s s', r.scope s s' → t.scope? s = none
  var : ∀ x x', r.var x x' → t.var? x = none

/-- The pairing from the side of the other tree. -/
def swap (r : Pairing) : Pairing := ⟨fun s' s => r.scope s s', fun x' x => r.var x x'⟩

/-- What is paired is new in both trees, which have the ones from before as they were. -/
structure New (r : Pairing) (t t' u u' : ScopeTree) : Prop where
  left : r.Beside t u
  right : r.swap.Beside t' u'

variable {r : Pairing} {t t' u u' w : ScopeTree} {s s' : ScopeId} {x x' : VarId}

theorem Spares.refl (r : Pairing) (t : ScopeTree) : r.Spares t t := ⟨fun _ _ => rfl, fun _ _ => rfl⟩

theorem Spares.trans (h : r.Spares t u) (h' : r.Spares u w) : r.Spares t w :=
  ⟨fun s hs => (h'.scope s hs).trans (h.scope s hs), fun x hx => (h'.var x hx).trans (h.var x hx)⟩

theorem spares_modifyFrame (hs : r.scope s s') (t : ScopeTree) (g : Frame → Frame) : r.Spares t (t.modifyFrame s g) := by
  refine ⟨fun u hu => ?_, fun x _ => rfl⟩
  rw [ScopeTree.scope?_modifyFrame, if_neg]
  rintro rfl
  exact hu s' hs

theorem spares_modifyVar (hx : r.var x x') (t : ScopeTree) (g : Variable → Variable) : r.Spares t (t.modifyVar x g) := by
  refine ⟨fun s _ => rfl, fun y hy => ?_⟩
  rw [ScopeTree.var?_modifyVar, if_neg]
  rintro rfl
  exact hy x' hx

theorem spares_foldl {ids : List ScopeId} (hids : ∀ s ∈ ids, ∃ s', r.scope s s') (t : ScopeTree) (g : Frame → Frame) :
    r.Spares t (ids.foldl (fun t s => t.modifyFrame s g) t) := by
  induction ids generalizing t with
  | nil => exact .refl r t
  | cons s ids ih =>
    obtain ⟨s', hs⟩ := hids s (by simp)
    exact (spares_modifyFrame hs t g).trans (ih (fun u hu => hids u (List.mem_cons_of_mem _ hu)) _)

theorem beside_empty (t : ScopeTree) : empty.Beside t t := ⟨.refl t, fun _ _ h => h.elim, fun _ _ h => h.elim⟩

theorem Beside.spares (h : r.Beside t u) (hs : r.Spares u w) : r.Beside t w := by
  refine ⟨⟨fun s sc hsc => ?_, fun x v hv => ?_⟩, h.scope, h.var⟩
  · rw [hs.scope s, h.intact.scope s sc hsc]
    intro s' hs'
    rw [h.scope s s' hs'] at hsc
    cases hsc
  · rw [hs.var x, h.intact.var x v hv]
    intro x' hx'
    rw [h.var x x' hx'] at hv
    cases hv

theorem Beside.addScope (h : r.Beside t u) (s' outer : ScopeId) (body : ScopeBody) :
    (r.addScope ⟨u.scopes.size⟩ s').Beside t (u.addScope (some outer) body).2 := by
  have hlt : ∀ {s sc}, t.scope? s = some sc → s.index < u.scopes.size :=
    fun hs => ScopeTree.scope?_lt (h.intact.scope _ _ hs)
  refine ⟨⟨fun s sc hsc => ?_, h.intact.var⟩, ?_, h.var⟩
  · have := hlt hsc
    rw [ScopeTree.scope?_addScope, if_neg (by omega), h.intact.scope s sc hsc]
  · rintro s v (hs | ⟨rfl, -⟩)
    · exact h.scope s v hs
    · rw [Option.eq_none_iff_forall_ne_some]
      exact fun sc hsc => Nat.lt_irrefl _ (hlt hsc)

theorem Beside.addListed {v : Variable} (h : r.Beside t u) (hv : r.scope v.scope s') (x' : VarId)
    (list : VarId → Frame → Frame) : (r.addVar ⟨u.vars.size⟩ x').Beside t (u.addListed v list).2 := by
  have hlt : ∀ {x w}, t.var? x = some w → x.index < u.vars.size := fun hw => ScopeTree.var?_lt (h.intact.var _ _ hw)
  refine ⟨⟨fun s sc hsc => ?_, fun x w hw => ?_⟩, h.scope, ?_⟩
  · rw [ScopeTree.scope?_addListed_ne, h.intact.scope s sc hsc]
    rintro rfl
    rw [h.scope _ _ hv] at hsc
    cases hsc
  · exact ScopeTree.var?_addListed_of_var? v list (h.intact.var x w hw)
  · rintro x y (hx | ⟨rfl, -⟩)
    · exact h.var x y hx
    · rw [Option.eq_none_iff_forall_ne_some]
      exact fun w hw => Nat.lt_irrefl _ (hlt hw)

theorem swap_addScope (r : Pairing) (s s' : ScopeId) : (r.addScope s s').swap = r.swap.addScope s' s := by
  unfold swap addScope
  simp only [and_comm]

theorem swap_addVar (r : Pairing) (x x' : VarId) : (r.addVar x x').swap = r.swap.addVar x' x := by
  unfold swap addVar
  simp only [and_comm]

theorem new_empty (t t' : ScopeTree) : empty.New t t' t t' := ⟨beside_empty t, beside_empty t'⟩

theorem New.spares {w' : ScopeTree} (h : r.New t t' u u') (hs : r.Spares u w) (hs' : r.swap.Spares u' w') : r.New t t' w w' :=
  ⟨h.left.spares hs, h.right.spares hs'⟩

theorem New.addScope (h : r.New t t' u u') (outer outer' : ScopeId) (body body' : ScopeBody) :
    (r.addScope ⟨u.scopes.size⟩ ⟨u'.scopes.size⟩).New t t' (u.addScope (some outer) body).2 (u'.addScope (some outer') body').2 := by
  refine ⟨h.left.addScope _ outer body, ?_⟩
  rw [swap_addScope]
  exact h.right.addScope _ outer' body'

theorem New.addListed {v v' : Variable} (h : r.New t t' u u') (hv : r.scope v.scope v'.scope) (list : VarId → Frame → Frame) :
    (r.addVar ⟨u.vars.size⟩ ⟨u'.vars.size⟩).New t t' (u.addListed v list).2 (u'.addListed v' list).2 := by
  have hv' : r.swap.scope v'.scope v.scope := hv
  refine ⟨h.left.addListed hv _ list, ?_⟩
  rw [swap_addVar]
  exact h.right.addListed hv' _ list

end Pairing

/-! ## Changes to what is paired -/

namespace Twins
variable {r : Pairing} {t t' : ScopeTree} {s s' U U' : ScopeId} {x x' : VarId} {g g' : Frame → Frame}

/-- Twins are still twins where nothing has changed that is paired. -/
theorem congr {u u' : ScopeTree} (h : Twins r t t') (hscope : ∀ s s', r.scope s s' → u.scope? s = t.scope? s ∧ u'.scope? s' = t'.scope? s')
    (hvar : ∀ x x', r.var x x' → u.var? x = t.var? x ∧ u'.var? x' = t'.var? x') : Twins r u u' := by
  refine ⟨h.uniqueScope, h.uniqueVar, fun s s' hs => ?_, fun x x' hx => ?_⟩
  · rw [(hscope s s' hs).1, (hscope s s' hs).2]
    exact h.scope s s' hs
  · rw [(hvar x x' hx).1, (hvar x x' hx).2]
    exact h.var x x' hx

theorem modifyFrame (h : Twins r t t') (hs : r.scope s s') (hg : ∀ f f', r.Frames f f' → r.Frames (g f) (g' f')) :
    Twins r (t.modifyFrame s g) (t'.modifyFrame s' g') := by
  refine ⟨h.uniqueScope, h.uniqueVar, fun u u' hu => ?_, h.var⟩
  obtain ⟨o, o', k, f, f', ht, ht', hout, hf⟩ := h.scope u u' hu
  rw [ScopeTree.scope?_modifyFrame, ScopeTree.scope?_modifyFrame, ht, ht']
  by_cases hus : u = s
  · rw [if_pos hus, if_pos ((h.scope_eq_iff hu hs).1 hus)]
    exact ⟨o, o', k, g f, g' f', rfl, rfl, hout, hg f f' hf⟩
  · rw [if_neg hus, if_neg (fun hus' => hus ((h.scope_eq_iff hu hs).2 hus'))]
    exact ⟨o, o', k, f, f', rfl, rfl, hout, hf⟩

theorem foldl_modifyFrame {ids ids' : List ScopeId} (h : Twins r t t') (hids : List.Forall₂ r.scope ids ids')
    (hg : ∀ f f', r.Frames f f' → r.Frames (g f) (g' f')) :
    Twins r (ids.foldl (fun t s => t.modifyFrame s g) t) (ids'.foldl (fun t s => t.modifyFrame s g') t') := by
  induction hids generalizing t t' with
  | nil => exact h
  | cons hs _ ih => exact ih (h.modifyFrame hs hg)

theorem modifyVar {g g' : Variable → Variable} (h : Twins r t t') (hx : r.var x x')
    (hg : ∀ v v', r.Variables v v' → r.Variables (g v) (g' v')) : Twins r (t.modifyVar x g) (t'.modifyVar x' g') := by
  refine ⟨h.uniqueScope, h.uniqueVar, h.scope, fun y y' hy => ?_⟩
  obtain ⟨v, v', hv, hv', hvs⟩ := h.var y y' hy
  have hiff : y = x ↔ y' = x' := by
    constructor
    · rintro rfl
      exact h.uniqueVar.2 hy hx
    · rintro rfl
      exact h.uniqueVar.1 hy hx
  rw [ScopeTree.var?_modifyVar, ScopeTree.var?_modifyVar, hv, hv']
  by_cases hyx : y = x
  · rw [if_pos hyx, if_pos (hiff.1 hyx)]
    exact ⟨g v, g' v', rfl, rfl, hg v v' hvs⟩
  · rw [if_neg hyx, if_neg (fun hyx' => hyx (hiff.2 hyx'))]
    exact ⟨v, v', rfl, rfl, hvs⟩

end Twins

/-- One more pair of things that were not paired with anything. -/
theorem biUnique_or {α β : Type} {R : α → β → Prop} {a : α} {b : β} (hR : Relator.BiUnique R) (ha : ∀ y, ¬ R a y)
    (hb : ∀ x, ¬ R x b) : Relator.BiUnique fun x y => R x y ∨ x = a ∧ y = b := by
  constructor
  · rintro x x' y (h | ⟨rfl, rfl⟩) (h' | ⟨rfl, hy⟩)
    · exact hR.1 h h'
    · subst hy
      exact absurd h (hb x)
    · exact absurd h' (hb x')
    · rfl
  · rintro x y y' (h | ⟨rfl, rfl⟩) (h' | ⟨hx, rfl⟩)
    · exact hR.2 h h'
    · subst hx
      exact absurd h (ha y)
    · exact absurd h' (ha y')
    · rfl

namespace Twins
variable {r : Pairing} {t t' t₀ t₀' : ScopeTree} {s s' U U' outer outer' : ScopeId} {x x' : VarId} {k : CodeKind}

theorem frames_empty (r : Pairing) : r.Frames .empty .empty := ⟨.nil, .nil, .nil, .nil, rfl, .nil, .nil⟩

/-! ## Opening a scope in both -/

/-- A scope added to both trees is paired, in paired scopes or on whatever sides if it is that of a method. -/
theorem addScope (h : Twins r t t') (hout : k ≠ .method → r.scope outer outer') :
    Twins (r.addScope ⟨t.scopes.size⟩ ⟨t'.scopes.size⟩) (t.addScope (some outer) (.code k .empty)).2
      (t'.addScope (some outer') (.code k .empty)).2 := by
  have hle := r.le_addScope ⟨t.scopes.size⟩ ⟨t'.scopes.size⟩
  have hnew : ∀ {s s'}, r.scope s s' → s.index < t.scopes.size ∧ s'.index < t'.scopes.size := by
    intro s s' hs
    obtain ⟨_, _, _, _, _, ht, ht', -⟩ := h.scope s s' hs
    exact ⟨ScopeTree.scope?_lt ht, ScopeTree.scope?_lt ht'⟩
  refine ⟨biUnique_or h.uniqueScope ?_ ?_, h.uniqueVar, ?_, ?_⟩
  · exact fun u hu => Nat.lt_irrefl _ (hnew hu).1
  · exact fun u hu => Nat.lt_irrefl _ (hnew hu).2
  · rintro u u' (hu | ⟨rfl, rfl⟩)
    · obtain ⟨o, o', k', f, f', ht, ht', hout', hf⟩ := h.scope u u' hu
      obtain ⟨hlt, hlt'⟩ := hnew hu
      refine ⟨o, o', k', f, f', ?_, ?_, fun hk => Pairing.rel_mono (hout' hk) hle.scope, hf.mono hle⟩
      · rw [ScopeTree.scope?_addScope, if_neg (by omega), ht]
      · rw [ScopeTree.scope?_addScope, if_neg (by omega), ht']
    · refine ⟨some outer, some outer', k, .empty, .empty, ?_, ?_, fun hk => .some (.inl (hout hk)), frames_empty _⟩
      · rw [ScopeTree.scope?_addScope, if_pos rfl]
      · rw [ScopeTree.scope?_addScope, if_pos rfl]
  · intro y y' hy
    obtain ⟨v, v', hv, hv', hvs⟩ := h.var y y' hy
    exact ⟨v, v', hv, hv', hvs.mono hle⟩

/-- A variable that both trees list in paired frames is paired. -/
theorem addListed {v v' : Variable} {list : VarId → Frame → Frame} (h : Twins r t t') (hv : r.Variables v v')
    (hlist : ∀ {r : Pairing} {x x' : VarId} {f f' : Frame}, r.Frames f f' → r.var x x' → r.Frames (list x f) (list x' f')) :
    Twins (r.addVar ⟨t.vars.size⟩ ⟨t'.vars.size⟩) (t.addListed v list).2 (t'.addListed v' list).2 := by
  have hle := r.le_addVar ⟨t.vars.size⟩ ⟨t'.vars.size⟩
  have hnew : ∀ {x x'}, r.var x x' → x.index < t.vars.size ∧ x'.index < t'.vars.size := by
    intro x x' hx
    obtain ⟨_, _, hw, hw', -⟩ := h.var x x' hx
    exact ⟨ScopeTree.var?_lt hw, ScopeTree.var?_lt hw'⟩
  refine ⟨h.uniqueScope, biUnique_or h.uniqueVar ?_ ?_, ?_, ?_⟩
  · exact fun y hy => Nat.lt_irrefl _ (hnew hy).1
  · exact fun y hy => Nat.lt_irrefl _ (hnew hy).2
  · intro u u' hu
    obtain ⟨o, o', k', f, f', ht, ht', hout, hf⟩ := h.scope u u' hu
    rw [ScopeTree.scope?_addListed, ScopeTree.scope?_addListed, ht, ht']
    by_cases hus : u = v.scope
    · rw [if_pos hus, if_pos ((h.scope_eq_iff hu hv.scope).1 hus)]
      exact ⟨o, o', k', _, _, rfl, rfl, hout, hlist (hf.mono hle) (.inr ⟨rfl, rfl⟩)⟩
    · rw [if_neg hus, if_neg (fun hus' => hus ((h.scope_eq_iff hu hv.scope).2 hus'))]
      exact ⟨o, o', k', f, f', rfl, rfl, hout, hf.mono hle⟩
  · rintro y y' (hy | ⟨rfl, rfl⟩)
    · obtain ⟨w, w', hw, hw', hws⟩ := h.var y y' hy
      exact ⟨w, w', ScopeTree.var?_addListed_of_var? v _ hw, ScopeTree.var?_addListed_of_var? v' _ hw', hws.mono hle⟩
    · exact ⟨v, v', ScopeTree.var?_new .., ScopeTree.var?_new .., hv.mono hle⟩

theorem frames_listArgument {f f' : Frame} (hf : r.Frames f f') (hx : r.var x x') :
    r.Frames (ScopeTree.listArgument x f) (ScopeTree.listArgument x' f') :=
  { hf with arguments := ScopeTree.forall₂_concat hf.arguments hx }

theorem frames_listLocal {f f' : Frame} (hf : r.Frames f f') (hx : r.var x x') :
    r.Frames (ScopeTree.listLocal x f) (ScopeTree.listLocal x' f') :=
  { hf with locals := ScopeTree.forall₂_concat hf.locals hx }

theorem frames_listInlined {f f' : Frame} (hf : r.Frames f f') (hx : r.var x x') :
    r.Frames (ScopeTree.listInlined x f) (ScopeTree.listInlined x' f') :=
  { hf with inlined := ScopeTree.forall₂_concat hf.inlined hx }

open ScopeTree in
/-- Declaring a name in paired scopes makes what is paired, in twins again. -/
theorem declare {d : Declaration} {isParameter : Bool} {u u' : ScopeTree} (h : Twins r t t') (hb : r.New t₀ t₀' t t') (hw : t.Wf)
    (hn' : t'.Nested) (hs : r.scope s s') (hd : Runs (Scoping.declare s d isParameter) t x u)
    (hd' : Runs (Scoping.declare s' d isParameter) t' x' u') : ∃ r', r.Le r' ∧ Twins r' u u' ∧ r'.New t₀ t₀' u u' := by
  have hinlined : t.scopeIs (·.isInlined) s = t'.scopeIs (·.isInlined) s' := h.scopeIs hs (· = some .inlinedBlock)
  rcases ScopeTree.declare_cases hd with ⟨hi, rfl⟩ | ⟨hi, hp, rfl⟩ | ⟨hi, hp, rfl⟩
  · have hi' : t'.scopeIs (·.isInlined) s' := by rw [← hinlined, hi]
    obtain ⟨-, rfl⟩ | ⟨hno, -⟩ | ⟨hno, -⟩ := ScopeTree.declare_cases hd'
    · -- First the slots in the hosts, then the names that stand for them.
      have hreal := h.realScope hw hn' hs
      have hnumber : t.slotNumber s = t'.slotNumber s' := by
        obtain ⟨f, f', hf, hf', hfs⟩ := h.frame hreal
        unfold ScopeTree.slotNumber
        rw [hf, hf', Option.map_some, Option.map_some, hfs.arguments.length_eq, hfs.locals.length_eq]
      have hslot : r.Variables (slotFor d (t.realScope s) (t.slotNumber s)) (slotFor d (t'.realScope s') (t'.slotNumber s')) := by
        rw [hnumber]
        exact ⟨rfl, hreal, .none⟩
      have hname : (r.addVar ⟨t.vars.size⟩ ⟨t'.vars.size⟩).Variables
          (inlinedName d s (if isParameter then .argument else .temporary) ⟨t.vars.size⟩)
          (inlinedName d s' (if isParameter then .argument else .temporary) ⟨t'.vars.size⟩) :=
        ⟨rfl, hs, .some (.inr ⟨rfl, rfl⟩)⟩
      exact ⟨_, (r.le_addVar _ _).trans (Pairing.le_addVar _ _ _), (h.addListed hslot frames_listLocal).addListed hname
        frames_listInlined, (hb.addListed hslot.scope _).addListed hname.scope _⟩
    · exact absurd hi' hno
    · exact absurd hi' hno
  · obtain ⟨hi', -⟩ | ⟨-, -, rfl⟩ | ⟨-, hp', -⟩ := ScopeTree.declare_cases hd'
    · exact absurd (hinlined.trans hi') hi
    · have hv : r.Variables (.new d.name s .argument (some d.span) none) (.new d.name s' .argument (some d.span) none) :=
        ⟨rfl, hs, .none⟩
      exact ⟨_, r.le_addVar _ _, h.addListed hv frames_listArgument, hb.addListed hv.scope _⟩
    · rw [hp] at hp'
      cases hp'
  · obtain ⟨hi', -⟩ | ⟨-, hp', -⟩ | ⟨-, -, rfl⟩ := ScopeTree.declare_cases hd'
    · exact absurd (hinlined.trans hi') hi
    · rw [hp] at hp'
      cases hp'
    · have hv : r.Variables (.new d.name s .temporary (some d.span) none) (.new d.name s' .temporary (some d.span) none) :=
        ⟨rfl, hs, .none⟩
      exact ⟨_, r.le_addVar _ _, h.addListed hv frames_listLocal, hb.addListed hv.scope _⟩

theorem declares {ds params temps params' temps' : List Declaration} {isParameter : Bool} {u u' a₀ a₀' : ScopeTree}
    (h : Twins r t t') (hb : r.New t₀ t₀' t t')
    (hh : ScopeTree.Halfway a₀ s outer k params temps t) (hh' : ScopeTree.Halfway a₀' s' outer' k params' temps' t')
    (hphase : isParameter = true → temps = []) (hphase' : isParameter = true → temps' = [])
    (hs : r.scope s s') (hd : ScopeTree.Declares s isParameter t ds u) (hd' : ScopeTree.Declares s' isParameter t' ds u') :
    ∃ r', r.Le r' ∧ Twins r' u u' ∧ r'.New t₀ t₀' u u' := by
  induction hd generalizing r t' params temps params' temps' with
  | nil =>
    cases hd'
    exact ⟨r, .refl r, h, hb⟩
  | cons hd _ ih =>
    cases hd' with
    | cons hd' hrest' =>
      obtain ⟨r₁, hle, h₁, hb₁⟩ := h.declare hb hh.wf hh'.wf.nested hs hd hd'
      have hkept : ∀ {temps : List Declaration} {d : Declaration}, (isParameter = true → temps = []) → isParameter = true →
          (if isParameter then temps else temps ++ [d]) = [] := fun hphase hp => by rw [if_pos hp, hphase hp]
      obtain ⟨r₂, hle', h₂⟩ := ih h₁ hb₁ (hh.declare hd hphase) (hh'.declare hd' hphase') (hkept hphase) (hkept hphase')
        (hle.scope _ _ hs) hrest'
      exact ⟨r₂, hle.trans hle', h₂⟩

/-- The same code opened in paired scopes, or as a method on whatever sides, gets paired scopes. -/
theorem opens {c : Code} {u u' : ScopeTree} {so so' : Scope} (h : Twins r t t') (hb : r.New t₀ t₀' t t') (hw : t.Wf) (hw' : t'.Wf)
    (hout : k ≠ .method → r.scope outer outer') (ho : t.scope? outer = some so) (ho' : t'.scope? outer' = some so')
    (hcode : k = .inlinedBlock → ∃ k' f, so.body = .code k' f) (hcode' : k = .inlinedBlock → ∃ k' f, so'.body = .code k' f)
    (hopens : t.Opens outer k c s u) (hopens' : t'.Opens outer' k c s' u') :
    ∃ r', r.Le r' ∧ r'.scope s s' ∧ Twins r' u u' ∧ r'.New t₀ t₀' u u' := by
  obtain ⟨rfl, mid, hparams, htemps⟩ := hopens
  obtain ⟨rfl, mid', hparams', htemps'⟩ := hopens'
  have hh := hw.halfway ho hcode
  have hh' := hw'.halfway ho' hcode'
  have hnew : (r.addScope ⟨t.scopes.size⟩ ⟨t'.scopes.size⟩).scope ⟨t.scopes.size⟩ ⟨t'.scopes.size⟩ := .inr ⟨rfl, rfl⟩
  obtain ⟨r₁, hle, h₁, hb₁⟩ := (h.addScope hout).declares (hb.addScope _ _ _ _) hh hh' (fun _ => rfl) (fun _ => rfl) hnew
    hparams hparams'
  have hnew₁ := hle.scope _ _ hnew
  obtain ⟨r₂, hle', h₂, hb₂⟩ := h₁.declares hb₁ (hh.allParams hparams) (hh'.allParams hparams') (by simp) (by simp) hnew₁ htemps htemps'
  exact ⟨r₂, ((r.le_addScope _ _).trans hle).trans hle', hle'.scope _ _ hnew₁, h₂, hb₂⟩

/-! ## Uses, moves and captures -/

theorem markFound {found found' : Found} (h : Twins r t t') (hf : r.Found (some found) (some found')) (hd : t.Direct found.var)
    (forWrite : Bool) :
    Twins r (t.markFound found forWrite) (t'.markFound found' forWrite) ∧ r.Spares t (t.markFound found forWrite) ∧
      r.swap.Spares t' (t'.markFound found' forWrite) := by
  have hsame : ∀ {t : ScopeTree} {found : Found}, found.Fixed → t.markFound found forWrite = t := by
    intro t found hfixed
    unfold ScopeTree.markFound
    split
    · next D hD => exact absurd hD (hfixed D true)
    · rfl
  cases hf with
  | stored remote hx hD =>
    cases remote with
    | false => exact ⟨h, .refl r t, .refl _ t'⟩
    | true =>
      have hreal := h.realVar hx hd
      refine ⟨h.modifyVar hreal fun v v' hv => ⟨?_, hv.scope, hv.aliasOf⟩, Pairing.spares_modifyVar hreal t _,
        Pairing.spares_modifyVar (r := r.swap) hreal t' _⟩
      rw [hv.same]
      rfl
  | fixed hfixed hfixed' =>
    rw [hsame (hfixed found rfl), hsame (hfixed' found' rfl)]
    exact ⟨h, .refl r t, .refl _ t'⟩

theorem frames_moveToHeap {f f' : Frame} {ids ids' : List VarId} (hr : Relator.BiUnique r.var) (hf : r.Frames f f')
    (hids : List.Forall₂ r.var ids ids') : r.Frames (f.moveToHeap ids) (f'.moveToHeap ids') := by
  have hkept : ∀ x x', r.var x x' → decide (x ∉ ids) = decide (x' ∉ ids') := by
    intro x x' hx
    have hmem : x ∈ ids ↔ x' ∈ ids' := List.rel_mem hr hx hids
    simp [hmem]
  exact { hf with
    arguments := rel_filter hf.arguments hkept
    locals := rel_filter hf.locals hkept
    heapvars := rel_appendNew hr hf.heapvars hids }

/-- Entering paired scopes moves paired variables. -/
theorem promote (h : Twins r t t') (hs : r.scope s s') :
    Twins r (t.promote s).2 (t'.promote s').2 ∧ r.Spares t (t.promote s).2 := by
  obtain ⟨f, f', hf, hf', hfs⟩ := h.frame hs
  have hmoved : List.Forall₂ r.var (t.toMove f) (t'.toMove f') := by
    refine rel_filter (List.rel_append hfs.arguments hfs.locals) fun x x' hx => ?_
    obtain ⟨v, v', hv, hv', hvs⟩ := h.var x x' hx
    rw [ScopeTree.isWrittenRemotely, ScopeTree.isWrittenRemotely, hv, hv', hvs.same]
    rfl
  constructor
  · refine ⟨h.uniqueScope, h.uniqueVar, fun u u' hu => ?_, fun x x' hx => ?_⟩
    · obtain ⟨o, o', k, g, g', ht, ht', hout, hg⟩ := h.scope u u' hu
      rw [ScopeTree.scope?_promote hf, ScopeTree.scope?_promote hf', ht, ht']
      by_cases hus : u = s
      · rw [if_pos hus, if_pos ((h.scope_eq_iff hu hs).1 hus)]
        exact ⟨o, o', k, _, _, rfl, rfl, hout, frames_moveToHeap h.uniqueVar hg hmoved⟩
      · rw [if_neg hus, if_neg (fun hus' => hus ((h.scope_eq_iff hu hs).2 hus'))]
        exact ⟨o, o', k, g, g', rfl, rfl, hout, hg⟩
    · obtain ⟨v, v', hv, hv', hvs⟩ := h.var x x' hx
      have hmem : x ∈ t.toMove f ↔ x' ∈ t'.toMove f' := List.rel_mem h.uniqueVar hx hmoved
      rw [ScopeTree.var?_promote hf, ScopeTree.var?_promote hf', hv, hv']
      by_cases hx : x ∈ t.toMove f
      · rw [if_pos hx, if_pos (hmem.1 hx)]
        refine ⟨_, _, rfl, rfl, ?_, hvs.scope, hvs.aliasOf⟩
        rw [hvs.same]
      · rw [if_neg hx, if_neg (fun hx' => hx (hmem.2 hx'))]
        exact ⟨v, v', rfl, rfl, hvs⟩
  · refine ⟨fun u hu => ?_, fun x hx => ?_⟩
    · rw [ScopeTree.scope?_promote hf, if_neg]
      rintro rfl
      exact hu s' hs
    · rw [ScopeTree.var?_promote hf, if_neg]
      intro hmem
      obtain ⟨x', -, hxx⟩ := ScopeTree.exists_of_mem_left hmoved hmem
      exact hx x' hxx

/-- A use of paired variables in paired scopes hands the same to paired closures. -/
theorem capture (h : Twins r t t') (hn : t.Nested) (hn' : t'.Nested) (ho : t.Outermost) (ho' : t'.Outermost)
    (hU : r.scope U U') (hx : r.var x x') (hd : t.Direct x) :
    Twins r (t.capture U x) (t'.capture U' x') ∧ r.Spares t (t.capture U x) := by
  have hreal := h.realVar hx hd
  obtain ⟨v, v', hv, hv', hvs⟩ := h.var _ _ hreal
  have hblocks := h.trueBlocksUntil hn hn' ho ho' hU hvs.scope
  have hpaired : ∀ s ∈ t.trueBlocksUntil U v.scope, ∃ s', r.scope s s' := fun s hs => by
    obtain ⟨s', -, hss⟩ := ScopeTree.exists_of_mem_left hblocks hs
    exact ⟨s', hss⟩
  have hkind : v'.kind = v.kind := by rw [hvs.same]
  have hremote : v'.remote = v.remote := by rw [hvs.same]
  have hrecord : ∀ f f', r.Frames f f' → r.Frames { f with usingHeapvarsFrom := appendNew f.usingHeapvarsFrom [v.scope] }
      { f' with usingHeapvarsFrom := appendNew f'.usingHeapvarsFrom [v'.scope] } := fun f f' hf =>
    { hf with records := rel_appendNew h.uniqueScope hf.records (.cons hvs.scope .nil) }
  have hvalue : ∀ f f', r.Frames f f' → r.Frames { f with copyingVars := appendNew f.copyingVars [t.realVar x] }
      { f' with copyingVars := appendNew f'.copyingVars [t'.realVar x'] } := fun f f' hf =>
    { hf with values := rel_appendNew h.uniqueVar hf.values (.cons hreal .nil) }
  unfold ScopeTree.capture
  simp only [hv, hv', hkind, hremote]
  split
  · exact ⟨h.foldl_modifyFrame hblocks hrecord, Pairing.spares_foldl hpaired t _⟩
  · exact ⟨h.foldl_modifyFrame hblocks hvalue, Pairing.spares_foldl hpaired t _⟩
  · exact ⟨h.foldl_modifyFrame hblocks hvalue, Pairing.spares_foldl hpaired t _⟩
  · exact ⟨h, .refl r t⟩

end Twins
end BlockScope
