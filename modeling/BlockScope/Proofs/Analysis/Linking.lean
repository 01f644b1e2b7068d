import BlockScope.Proofs.Analysis.Outline
import BlockScope.Proofs.Scope.Owners
/-!
# Linking classes

`link` finds superclasses, refuses cycles and lays out the variables of both sides. `Ready` is what holds when
it is done, and `ready_of_link` that it does. A class then has a slot for each variable that it or a class it
inherits from declares (`Ready.mem_laidOut`).
-/
namespace BlockScope
open Stage

def ClassInfo.withSuper (s : Option Nat) (c : ClassInfo) : ClassInfo := { c with superClass := s }

/-- The variables that a side of a class is laid out with. -/
def Program.laidOut (p : Program) (a : Analysis) (i : Nat) (classSide : Bool) : List Declaration :=
  inherited p (a.ancestors i) (·.vars classSide)

/-- Every class is entered, linked and laid out. -/
structure Ready (p : Program) (a : Analysis) : Prop where
  outline : Outline p (p.laidOut a) a
  size : a.classes.size = p.classes.length
  linked : ∀ i j, a.superOf i = some j ↔ p.Super i j
  supers : ∀ c ∈ p.classes, ∀ n, c.superName = some n → n ∈ p.classes.map (·.name)
  acyclic : ∀ i < p.classes.length, a.isCyclic i = false
  listed : a.scopes.AllListed

section
variable {p : Program} {laid : Nat → Bool → List Declaration} {a b : Analysis} {w w' : Work} {u : Unit} {c : ClassDefinition}
  {index i j n : Nat} {info : ClassInfo}

theorem map_modify {β : Type} {g : ClassInfo → β} {f : ClassInfo → ClassInfo} (hg : ∀ c, g (f c) = g c) (xs : Array ClassInfo)
    (i : Nat) : (xs.modify i f).toList.map g = xs.toList.map g := by
  apply List.ext_getElem?
  intro j
  simp only [List.getElem?_map, Array.getElem?_toList, Array.getElem?_modify]
  by_cases h : i = j
  · simp [h, hg, Function.comp_def]
  · simp [h]

/-! ## Changing a class -/

/-- The same entry in the program, with the same scopes and methods; its superclass and slots may be others. -/
structure ClassInfo.SameEntry (c c' : ClassInfo) : Prop where
  name : c'.name = c.name
  member : c'.member = c.member
  instanceMethods : c'.instanceMethods = c.instanceMethods
  classMethods : c'.classMethods = c.classMethods
  side : ∀ side, c'.side side = c.side side

theorem ClassInfo.SameEntry.refl (c : ClassInfo) : c.SameEntry c := ⟨rfl, rfl, rfl, rfl, fun _ => rfl⟩

/-- One class is changed, and scopes and variables along with it. What is left to show is how the sides are laid out now. -/
theorem Outline.modifyClass {t : ScopeTree} {laid' : Nat → Bool → List Declaration} {f : ClassInfo → ClassInfo}
    (h : Outline p laid a) (hf : ∀ c : ClassInfo, c.SameEntry (f c)) (hroot : t.scope? a.root = a.scopes.scope? a.root)
    (hkept : ∀ x v, a.scopes.var? x = some v → t.var? x = some v)
    (hscopes : ∀ id s, t.scope? id = some s → (a.scopes.scope? id).isSome)
    (hvars : ∀ x v, t.var? x = some v → v.remote = .none ∧ v.aliasOf = none ∧ (t.scope? v.scope).isSome)
    (hsides : ∀ (j : Nat) (info : ClassInfo), a.classes[j]? = some info → ∀ side, ∃ receiver,
      t.scope? (info.side side) = some ⟨some a.root, .side j side receiver ((if i = j then f info else info).slots side)⟩ ∧
      t.var? receiver = some (.new "self" (info.side side) .receiver none none) ∧
      t.Laid (info.side side) (laid' j side) ((if i = j then f info else info).slots side)) :
    Outline p laid' ({ a with scopes := t }.modifyClass i f) := by
  have hsame : ∀ (j : Nat) (info : ClassInfo), info.SameEntry (if i = j then f info else info) := by
    intro j info
    split
    · exact hf info
    · exact .refl info
  constructor
  case tables => exact h.tables
  case root => exact h.root
  case vars => exact hvars
  case members =>
    simp only [Analysis.modifyClass]
    rw [hroot, h.members, map_modify fun c => (hf c).member]
  case classes =>
    intro j info hj
    rw [Analysis.getElem?_modifyClass] at hj
    obtain ⟨info₀, h₀, rfl⟩ := Option.map_eq_some_iff.1 hj
    obtain ⟨c, hc, hname, him, hcm, hv⟩ := h.classes j info₀ h₀
    have hj := hsame j info₀
    exact ⟨c, hc, hj.name.trans hname, hj.instanceMethods.trans him, hj.classMethods.trans hcm, hj.member ▸ hkept _ _ hv⟩
  case sides =>
    intro j info hj side
    rw [Analysis.getElem?_modifyClass] at hj
    obtain ⟨info₀, h₀, rfl⟩ := Option.map_eq_some_iff.1 hj
    rw [(hsame j info₀).side]
    exact hsides j info₀ h₀ side
  case only =>
    intro id s hs
    obtain ⟨s₀, hs₀⟩ := Option.isSome_iff_exists.1 (hscopes id s hs)
    rcases h.only id s₀ hs₀ with h' | ⟨j, info, side, hj, rfl⟩
    · exact .inl h'
    · refine .inr ⟨j, _, side, by rw [Analysis.getElem?_modifyClass, hj, Option.map_some], ((hsame j info).side side).symm⟩
  case distinct =>
    simp only [Analysis.modifyClass]
    rw [map_modify fun c => (hf c).name]
    exact h.distinct

/-! ## Superclasses -/

theorem Outline.withSuper (h : Outline p laid a) (i : Nat) (s : Option Nat) :
    Outline p laid (a.modifyClass i (.withSuper s)) := by
  refine h.modifyClass (fun c => ⟨rfl, rfl, rfl, rfl, fun _ => rfl⟩) rfl (fun _ _ => id) (fun _ _ hs => by simp [hs]) h.vars ?_
  intro j info hj side
  have hslots : (if i = j then info.withSuper s else info).slots side = info.slots side := by
    split <;> rfl
  rw [hslots]
  exact h.sides j info hj side

/-- The first classes have found their superclasses. -/
def LinkedTo (p : Program) (k : Nat) (a : Analysis) : Prop := ∀ (i : Nat) c, p.classes[i]? = some c →
  (a.superOf i = none ∧ (i < k → c.superName = none)) ∨
    ∃ (j : Nat) (c' : ClassDefinition), p.classes[j]? = some c' ∧ c.superName = some c'.name ∧ a.superOf i = some j

theorem runs_linkClass (h : Outline p laid w.analysis) (hr : Runs (linkClass (c, index)) w u w') :
    (c.superName = none ∧ w' = w) ∨ ∃ (j : Nat) (c' : ClassDefinition), p.classes[j]? = some c' ∧ c.superName = some c'.name ∧
      w'.analysis = w.analysis.modifyClass index (.withSuper (some j)) := by
  unfold linkClass at hr
  simp only at hr
  split at hr
  · next hs => exact .inl ⟨hs, (Runs.pure_iff.1 hr).2⟩
  · next name hs =>
    rw [runs_analysis_bind] at hr
    obtain ⟨v, w₁, hr₁, hr⟩ := Runs.bind_iff.1 hr
    obtain ⟨found, hfound, rfl, e₁⟩ := runs_lookup (Runs.tryCatch_throw_iff.1 hr₁)
    obtain ⟨hplace, j, info, c', hj, hc', hname, hvar⟩ := h.find_root hfound
    -- A class is never used remotely, so nothing is recorded.
    have hmark : w.analysis.scopes.markFound found false = w.analysis.scopes := by
      unfold ScopeTree.markFound
      rw [hplace]
    rw [hmark] at e₁
    rw [runs_analysis_bind, e₁] at hr
    obtain ⟨c'', hc'', -, -, -, hv⟩ := h.classes j info hj
    simp only [Runs.bind_iff, runs_update, runs_tell] at hr
    obtain ⟨_, _, rfl, rfl⟩ := hr
    have hsuper : ((w.analysis.scopes.var? found.var).bind (·.index)) = some j := by simp [hvar, hv, Variable.new]
    refine .inr ⟨j, c', hc', by rw [hs, hname], ?_⟩
    simp only [Work.tell, Work.mapAnalysis, hsuper, e₁]
    rfl

theorem superOf_withSuper (a : Analysis) (i : Nat) (s : Option Nat) (j : Nat) :
    (a.modifyClass i (.withSuper s)).superOf j = if i = j ∧ j < a.classes.size then s else a.superOf j := by
  simp only [Analysis.superOf, Analysis.modifyClass, Array.getElem?_modify]
  by_cases hij : i = j
  · subst hij
    by_cases hi : i < a.classes.size
    · simp [hi, ClassInfo.withSuper]
    · simp [hi]
  · simp [hij]

theorem linked_linkClass (h : Outline p laid w.analysis) (hsize : w.analysis.classes.size = p.classes.length)
    (hl : LinkedTo p index w.analysis) (hc : p.classes[index]? = some c) (hr : Runs (linkClass (c, index)) w u w') :
    Outline p laid w'.analysis ∧ w'.analysis.classes.size = p.classes.length ∧ LinkedTo p (index + 1) w'.analysis := by
  have hlt : index < p.classes.length := (List.getElem?_eq_some_iff.1 hc).1
  rcases runs_linkClass h hr with ⟨hs, rfl⟩ | ⟨j, c', hc', hs, e⟩
  · refine ⟨h, hsize, fun i d hd => ?_⟩
    rcases hl i d hd with ⟨hnone, hbefore⟩ | hfound
    · refine .inl ⟨hnone, fun hi => ?_⟩
      by_cases hii : i = index
      · subst hii
        rw [hc] at hd
        cases hd
        exact hs
      · exact hbefore (by omega)
    · exact .inr hfound
  · rw [e]
    refine ⟨h.withSuper _ _, by simp [Analysis.modifyClass, hsize], fun i d hd => ?_⟩
    rw [superOf_withSuper]
    by_cases hii : index = i
    · subst hii
      rw [hc] at hd
      cases hd
      exact .inr ⟨j, c', hc', hs, if_pos ⟨rfl, by omega⟩⟩
    · rw [if_neg (by simp [hii])]
      rcases hl i d hd with ⟨hnone, hbefore⟩ | hfound
      · exact .inl ⟨hnone, fun hi => hbefore (by omega)⟩
      · exact .inr hfound

/-! ## Chains of superclasses -/

theorem Outline.name_unique (h : Outline p laid a) (hsize : a.classes.size = p.classes.length) {c c' : ClassDefinition}
    (hi : p.classes[i]? = some c) (hj : p.classes[j]? = some c') (hname : c.name = c'.name) : i = j := by
  have hat : ∀ (k : Nat) (d : ClassDefinition), p.classes[k]? = some d →
      (a.classes.toList.map (·.name))[k]? = some d.name := by
    intro k d hk
    have hlt : k < a.classes.size := by
      rw [hsize]
      exact (List.getElem?_eq_some_iff.1 hk).1
    obtain ⟨d', hd', hname, -⟩ := h.classes k _ (Array.getElem?_eq_getElem hlt)
    rw [hk] at hd'
    cases hd'
    simp [hlt, hname]
  have hi' := hat i c hi
  have hj' := hat j c' hj
  rw [hname] at hi'
  exact (List.getElem?_inj (List.getElem?_eq_some_iff.1 hi').1 h.distinct).1 (hi'.trans hj'.symm)

theorem LinkedTo.super_iff (hl : LinkedTo p p.classes.length a) (h : Outline p laid a)
    (hsize : a.classes.size = p.classes.length) : a.superOf i = some j ↔ p.Super i j := by
  constructor
  · intro hs
    obtain ⟨info, hinfo, -⟩ := Option.bind_eq_some_iff.1 hs
    obtain ⟨c, hc, -⟩ := h.classes i info hinfo
    rcases hl i c hc with ⟨hnone, -⟩ | ⟨j', c', hc', hname, hsuper⟩
    · rw [hnone] at hs
      cases hs
    · rw [hsuper] at hs
      cases hs
      exact ⟨c, c', hc, hc', hname⟩
  · rintro ⟨c, c', hc, hc', hname⟩
    rcases hl i c hc with ⟨-, hbefore⟩ | ⟨j', c'', hc'', hname', hsuper⟩
    · rw [hbefore (List.getElem?_eq_some_iff.1 hc).1] at hname
      cases hname
    · rw [hname'] at hname
      rw [hsuper, h.name_unique hsize hc'' hc' (Option.some.inj hname)]

/-- Every superclass is a class of the program. -/
theorem LinkedTo.supers {n : String} (hl : LinkedTo p p.classes.length a) (hc : c ∈ p.classes) (hn : c.superName = some n) :
    n ∈ p.classes.map (·.name) := by
  obtain ⟨i, hi⟩ := List.getElem?_of_mem hc
  rcases hl i c hi with ⟨-, hnone⟩ | ⟨j, c', hc', hs, -⟩
  · rw [hnone (List.getElem?_eq_some_iff.1 hi).1] at hn
    cases hn
  · rw [hs] at hn
    cases hn
    exact List.mem_map.2 ⟨c', List.mem_of_getElem? hc', rfl⟩

theorem ancestorsWithin_of_super (hs : a.superOf i = some j) (n : Nat) :
    a.ancestorsWithin (n + 1) i = i :: a.ancestorsWithin n j := by
  rw [Analysis.ancestorsWithin, ← Analysis.superOf, hs]

theorem ancestorsWithin_of_no_super (hs : a.superOf i = none) (n : Nat) : a.ancestorsWithin (n + 1) i = [i] := by
  rw [Analysis.ancestorsWithin, ← Analysis.superOf, hs]

theorem ancestorsWithin_congr (h : ∀ i, b.superOf i = a.superOf i) (n i : Nat) :
    b.ancestorsWithin n i = a.ancestorsWithin n i := by
  induction n generalizing i with
  | zero => rfl
  | succ n ih =>
    cases hs : a.superOf i with
    | none => rw [ancestorsWithin_of_no_super hs, ancestorsWithin_of_no_super (by rw [h, hs])]
    | some j => rw [ancestorsWithin_of_super hs, ancestorsWithin_of_super (by rw [h, hs] : b.superOf i = some j), ih]

theorem length_ancestorsWithin_pos (a : Analysis) (n i : Nat) : 0 < (a.ancestorsWithin (n + 1) i).length := by
  cases hs : a.superOf i with
  | none => simp [ancestorsWithin_of_no_super hs]
  | some parent => simp [ancestorsWithin_of_super hs]

/-- A chain that ends lists everything on the way up. -/
theorem mem_ancestorsWithin (hshort : (a.ancestorsWithin (n + 1) i).length ≤ n) :
    j ∈ a.ancestorsWithin n i ↔ Relation.ReflTransGen (fun i j => a.superOf i = some j) i j := by
  induction n generalizing i with
  | zero => exact absurd hshort (Nat.not_le.2 (length_ancestorsWithin_pos a 0 i))
  | succ n ih =>
    rw [Relation.ReflTransGen.cases_head_iff]
    cases hs : a.superOf i with
    | none => simp [ancestorsWithin_of_no_super hs, eq_comm]
    | some parent =>
      rw [ancestorsWithin_of_super hs, List.length_cons] at hshort
      rw [ancestorsWithin_of_super hs, List.mem_cons, ih (by omega)]
      simp [eq_comm]

/-! ## Layout -/

/-- The second tree is the first with new variables that no use has marked. -/
structure ScopeTree.Adds (t t' : ScopeTree) : Prop where
  scopes : ∀ id, t'.scope? id = t.scope? id
  vars : ∀ x v, t.var? x = some v → t'.var? x = some v
  new : ∀ x v, t'.var? x = some v → t.var? x = some v ∨ v.remote = .none ∧ v.aliasOf = none ∧ (t.scope? v.scope).isSome

theorem ScopeTree.Adds.trans {t t' t'' : ScopeTree} (h : t.Adds t') (h' : t'.Adds t'') : t.Adds t'' := by
  refine ⟨fun id => by rw [h'.scopes, h.scopes], fun x v hv => h'.vars x v (h.vars x v hv), fun x v hv => ?_⟩
  rcases h'.new x v hv with hv | ⟨hremote, halias, hscope⟩
  · exact h.new x v hv
  · rw [h.scopes] at hscope
    exact .inr ⟨hremote, halias, hscope⟩

theorem ScopeTree.adds_addVar (t : ScopeTree) {v : Variable} (hr : v.remote = .none) (ha : v.aliasOf = none)
    (hs : (t.scope? v.scope).isSome) : t.Adds (t.addVar v).2 := by
  refine ⟨fun _ => rfl, fun x w hw => ?_, fun x w hw => ?_⟩
  · have := var?_lt hw
    rw [var?_addVar, if_neg (by omega), hw]
  · rw [var?_addVar] at hw
    split at hw
    · cases hw
      exact .inr ⟨hr, ha, hs⟩
    · exact .inl hw

theorem ScopeTree.Laid.adds {t t' : ScopeTree} {scope : ScopeId} {ds : List Declaration} {slots : List VarId}
    (h : t.Laid scope ds slots) (ha : t.Adds t') : t'.Laid scope ds slots :=
  ⟨h.length, fun j d x hd hx => ha.vars _ _ (h.var j d x hd hx), h.names⟩

theorem runs_declareSlot_iff {scope : ScopeId} {made vars : List VarId} {d : Declaration} :
    Runs (declareSlot scope made d) w vars w' ↔ w.analysis.scopes.findNamed made d.name = none ∧
      vars = made ++ [⟨w.analysis.scopes.vars.size⟩] ∧
      w' = w.withScopes (w.analysis.scopes.addVar (.new d.name scope .slot (some d.span) (some made.length))).2 := by
  unfold declareSlot
  rw [runs_analysis_bind]
  cases w.analysis.scopes.findNamed made d.name with
  | none =>
    simp only [Option.isSome_none, Bool.false_eq_true, if_false, Runs.bind_iff, runs_onScopes, Runs.pure_iff, true_and]
    constructor
    · rintro ⟨_, _, ⟨rfl, rfl⟩, rfl, rfl⟩
      exact ⟨rfl, rfl⟩
    · rintro ⟨rfl, rfl⟩
      exact ⟨_, _, ⟨rfl, rfl⟩, rfl, rfl⟩
  | some x => simp

theorem runs_declareSlots_iff {scope : ScopeId} {vars : List VarId} {ds : List Declaration} :
    Runs (declareSlots scope ds) w vars w' ↔ ∃ w₁, Runs (ds.foldlM (declareSlot scope) []) w vars w₁ ∧
      w' = w₁.withScopes (w₁.analysis.scopes.modifyScope scope (·.withSlots vars)) := by
  unfold declareSlots
  simp only [Runs.bind_iff, runs_onScopes, Runs.pure_iff]
  constructor
  · rintro ⟨_, w₁, h, _, _, ⟨-, rfl⟩, rfl, rfl⟩
    exact ⟨w₁, h, rfl⟩
  · rintro ⟨w₁, h, rfl⟩
    exact ⟨vars, w₁, h, ⟨⟩, _, ⟨trivial, rfl⟩, rfl, rfl⟩

theorem runs_declareSlot {scope : ScopeId} {made vars : List VarId} {done : List Declaration} {d : Declaration}
    (hs : (w.analysis.scopes.scope? scope).isSome) (hl : w.analysis.scopes.Laid scope done made)
    (h : Runs (declareSlot scope made d) w vars w') :
    ∃ t, w'.analysis = { w.analysis with scopes := t } ∧ w.analysis.scopes.Adds t ∧ t.Laid scope (done ++ [d]) vars := by
  obtain ⟨hnone, rfl, rfl⟩ := runs_declareSlot_iff.1 h
  have hadds : w.analysis.scopes.Adds (w.analysis.scopes.addVar (.new d.name scope .slot (some d.span) (some made.length))).2 :=
    ScopeTree.adds_addVar _ rfl rfl hs
  refine ⟨_, rfl, hadds, ?_, ?_, ?_⟩
  · simp [hl.length]
  · intro j e x he hx
    rcases Nat.lt_or_ge j done.length with hj | hj
    · rw [List.getElem?_append_left hj] at he
      rw [List.getElem?_append_left (by rw [hl.length]; exact hj)] at hx
      exact hadds.vars _ _ (hl.var j e x he hx)
    · rw [List.getElem?_append_right hj] at he
      rw [List.getElem?_append_right (by rw [hl.length]; exact hj), hl.length] at hx
      obtain ⟨hlt, rfl⟩ := List.getElem?_eq_some_iff.1 he
      have hj' : j = done.length := by
        rw [List.length_singleton] at hlt
        omega
      subst hj'
      simp only [Nat.sub_self, List.getElem?_cons_zero, Option.some.injEq] at hx
      subst hx
      simp [ScopeTree.addVar, ScopeTree.var?, hl.length]
  · rw [List.map_append, List.map_singleton, ← List.concat_eq_append]
    refine List.Nodup.concat (fun hmem => ?_) hl.names
    obtain ⟨e, he, hname⟩ := List.mem_map.1 hmem
    obtain ⟨j, hj⟩ := List.getElem?_of_mem he
    have hlt : j < made.length := by
      rw [hl.length]
      exact (List.getElem?_eq_some_iff.1 hj).1
    rw [ScopeTree.findNamed_eq_none] at hnone
    exact hnone _ (List.getElem_mem hlt) _ (hl.var j e _ hj (List.getElem?_eq_getElem hlt)) hname

theorem runs_slots {scope : ScopeId} {made vars : List VarId} {done ds : List Declaration}
    (hs : (w.analysis.scopes.scope? scope).isSome) (hl : w.analysis.scopes.Laid scope done made)
    (h : Runs (ds.foldlM (declareSlot scope) made) w vars w') :
    ∃ t, w'.analysis = { w.analysis with scopes := t } ∧ w.analysis.scopes.Adds t ∧ t.Laid scope (done ++ ds) vars := by
  induction ds generalizing w made done with
  | nil =>
    rw [List.foldlM_nil] at h
    obtain ⟨rfl, rfl⟩ := Runs.pure_iff.1 h
    exact ⟨_, rfl, ⟨fun _ => rfl, fun _ _ hv => hv, fun _ _ hv => .inl hv⟩, by simpa using hl⟩
  | cons d ds ih =>
    rw [List.foldlM_cons] at h
    obtain ⟨made', w₁, h₁, h₂⟩ := Runs.bind_iff.1 h
    obtain ⟨t₁, e₁, a₁, l₁⟩ := runs_declareSlot hs hl h₁
    have hscopes : w₁.analysis.scopes = t₁ := by rw [e₁]
    have hs₁ : (w₁.analysis.scopes.scope? scope).isSome := by
      rw [hscopes, a₁.scopes]
      exact hs
    obtain ⟨t₂, e₂, a₂, l₂⟩ := ih hs₁ (hscopes ▸ l₁) h₂
    refine ⟨t₂, by rw [e₂, e₁], a₁.trans (hscopes ▸ a₂), ?_⟩
    simpa using l₂

/-- Laying out a side gives it a new list of slots. -/
theorem runs_declareSlots {scope : ScopeId} {vars : List VarId} {ds : List Declaration}
    (hs : (w.analysis.scopes.scope? scope).isSome) (h : Runs (declareSlots scope ds) w vars w') :
    ∃ t, w'.analysis = { w.analysis with scopes := t.modifyScope scope (·.withSlots vars) } ∧ w.analysis.scopes.Adds t ∧
      t.Laid scope ds vars := by
  obtain ⟨w₁, h₁, rfl⟩ := runs_declareSlots_iff.1 h
  have hnil : w.analysis.scopes.Laid scope [] [] := ⟨rfl, by simp, .nil⟩
  obtain ⟨t, e, hadds, hl⟩ := runs_slots hs hnil h₁
  refine ⟨t, ?_, hadds, by simpa using hl⟩
  simp only [Work.withScopes, Work.mapAnalysis, e]

def ClassInfo.withSlots (side : Bool) (vars : List VarId) (c : ClassInfo) : ClassInfo :=
  if side then { c with classVars := vars } else { c with instanceVars := vars }

theorem ClassInfo.slots_withSlots (side side' : Bool) (vars : List VarId) (c : ClassInfo) :
    (c.withSlots side vars).slots side' = if side' = side then vars else c.slots side' := by
  cases side <;> cases side' <;> rfl

theorem ClassInfo.sameEntry_withSlots (side : Bool) (vars : List VarId) (c : ClassInfo) : c.SameEntry (c.withSlots side vars) := by
  cases side <;> exact ⟨rfl, rfl, rfl, rfl, fun _ => rfl⟩

/-- The scopes of different sides differ. -/
theorem Outline.side_inj {info' : ClassInfo} {side side' : Bool} (h : Outline p laid a) (hi : a.classes[i]? = some info)
    (hj : a.classes[j]? = some info') (he : info.side side = info'.side side') : i = j ∧ side = side' := by
  obtain ⟨receiver, hs, -⟩ := h.sides i info hi side
  obtain ⟨receiver', hs', -⟩ := h.sides j info' hj side'
  rw [he, hs'] at hs
  simp only [Option.some.injEq, Scope.mk.injEq, ScopeBody.side.injEq, true_and] at hs
  exact ⟨hs.1.symm, hs.2.1.symm⟩

theorem Outline.layOutSide {t : ScopeTree} {side : Bool} {ds : List Declaration} {vars : List VarId} (h : Outline p laid a)
    (hi : a.classes[i]? = some info) (hadds : a.scopes.Adds t) (hl : t.Laid (info.side side) ds vars) :
    Outline p (fun j s => if j = i ∧ s = side then ds else laid j s)
      ({ a with scopes := t.modifyScope (info.side side) (·.withSlots vars) }.modifyClass i (.withSlots side vars)) := by
  -- Every other scope stays as it was.
  have hother : ∀ id, id ≠ info.side side →
      (t.modifyScope (info.side side) (·.withSlots vars)).scope? id = a.scopes.scope? id := by
    intro id hne
    rw [ScopeTree.scope?_modifyScope, if_neg hne, hadds.scopes]
  have hscope : ∀ id, ((t.modifyScope (info.side side) (·.withSlots vars)).scope? id).isSome = (a.scopes.scope? id).isSome := by
    intro id
    rw [ScopeTree.scope?_modifyScope, hadds.scopes]
    split <;> simp
  refine h.modifyClass (ClassInfo.sameEntry_withSlots side vars) (hother _ (h.side_ne_root hi side).symm)
    (fun x v hv => hadds.vars x v hv) (fun id s hs => by rw [← hscope, hs]; rfl) ?_ ?_
  · intro x v hv
    rw [hscope]
    rcases hadds.new x v hv with hv | hnew
    · exact h.vars x v hv
    · exact hnew
  · intro j info₀ h₀ side'
    obtain ⟨receiver, hs, hv, hl₀⟩ := h.sides j info₀ h₀ side'
    refine ⟨receiver, ?_⟩
    by_cases hij : i = j ∧ side' = side
    · obtain ⟨rfl, rfl⟩ := hij
      rw [hi] at h₀
      cases h₀
      simp only [and_self, if_true, ClassInfo.slots_withSlots]
      refine ⟨?_, hadds.vars _ _ hv, hl.length, hl.var, hl.names⟩
      rw [ScopeTree.scope?_modifyScope, if_pos rfl, hadds.scopes, hs]
      rfl
    · have hne : info₀.side side' ≠ info.side side := fun he => hij (by
        obtain ⟨rfl, rfl⟩ := h.side_inj h₀ hi he
        exact ⟨rfl, rfl⟩)
      have hslots : (if i = j then info₀.withSlots side vars else info₀).slots side' = info₀.slots side' := by
        split
        · next hj => rw [ClassInfo.slots_withSlots, if_neg fun hs => hij ⟨hj, hs⟩]
        · rfl
      have hlaid : (if j = i ∧ side' = side then ds else laid j side') = laid j side' := if_neg fun h => hij ⟨h.1.symm, h.2⟩
      rw [hslots, hlaid, hother _ hne]
      have hl' := hl₀.adds hadds
      exact ⟨hs, hadds.vars _ _ hv, hl'.length, hl'.var, hl'.names⟩

/-- The classes keep their superclasses. -/
structure SameSupers (a b : Analysis) : Prop where
  size : b.classes.size = a.classes.size
  supers : ∀ i, b.superOf i = a.superOf i

theorem SameSupers.trans {d : Analysis} (h : SameSupers a b) (h' : SameSupers b d) : SameSupers a d :=
  ⟨by rw [h'.size, h.size], fun i => by rw [h'.supers, h.supers]⟩

theorem SameSupers.laidOut (h : SameSupers a b) : p.laidOut b = p.laidOut a := by
  funext i side
  rw [Program.laidOut, Program.laidOut, Analysis.ancestors, Analysis.ancestors, h.size, ancestorsWithin_congr h.supers]

theorem SameSupers.isCyclic (h : SameSupers a b) (i : Nat) : b.isCyclic i = a.isCyclic i := by
  rw [Analysis.isCyclic, Analysis.isCyclic, h.size, ancestorsWithin_congr h.supers]

theorem sameSupers_withSlots (a : Analysis) (t : ScopeTree) (i : Nat) (side : Bool) (vars : List VarId) :
    SameSupers a ({ a with scopes := t }.modifyClass i (.withSlots side vars)) := by
  refine ⟨by simp [Analysis.modifyClass], fun j => ?_⟩
  simp only [Analysis.superOf, Analysis.modifyClass, Array.getElem?_modify]
  by_cases hij : i = j
  · rw [if_pos hij, Option.bind_map]
    congr 1
    funext c
    cases side <;> rfl
  · rw [if_neg hij]

theorem outline_layOutSide (side : Bool) {ds : List Declaration} {vars : List VarId} (h : Outline p laid w.analysis)
    (hi : w.analysis.classes[index]? = some info) (hr : Runs (declareSlots (info.side side) ds) w vars w') :
    SameSupers w.analysis (w'.analysis.modifyClass index (.withSlots side vars)) ∧
      (w'.analysis.modifyClass index (.withSlots side vars)).classes[index]? = some (info.withSlots side vars) ∧
      Outline p (fun j s => if j = index ∧ s = side then ds else laid j s)
        (w'.analysis.modifyClass index (.withSlots side vars)) := by
  obtain ⟨receiver, hs, -⟩ := h.sides index info hi side
  obtain ⟨t, e, hadds, hl⟩ := runs_declareSlots (by rw [hs]; rfl) hr
  rw [e]
  refine ⟨sameSupers_withSlots _ _ _ _ _, ?_, h.layOutSide hi hadds hl⟩
  rw [Analysis.getElem?_modifyClass]
  simp only [hi, Option.map_some, if_true]

/-- A class is laid out one side after the other. -/
theorem runs_layOutClass_iff (hi : w.analysis.classes[index]? = some info) :
    Runs (layOutClass p (c, index)) w u w' ↔ ∃ vars w₁ vars' w₂,
      Runs (declareSlots (info.side false) (p.laidOut w.analysis index false)) w vars w₁ ∧
      Runs (declareSlots ((info.withSlots false vars).side true) (p.laidOut w.analysis index true))
        (w₁.mapAnalysis (·.modifyClass index (.withSlots false vars))) vars' w₂ ∧
      w' = (w₂.mapAnalysis (·.modifyClass index (.withSlots true vars'))).tell [.laidOut c.name vars.length vars'.length] := by
  unfold layOutClass
  simp only [runs_analysis_bind, hi]
  simp only [Runs.bind_iff, runs_update, runs_tell]
  constructor
  · rintro ⟨vars, w₁, h₁, _, _, rfl, vars', w₂, h₂, _, _, rfl, rfl⟩
    exact ⟨vars, w₁, vars', w₂, h₁, h₂, rfl⟩
  · rintro ⟨vars, w₁, vars', w₂, h₁, h₂, rfl⟩
    exact ⟨vars, w₁, h₁, ⟨⟩, _, rfl, vars', w₂, h₂, ⟨⟩, _, rfl, rfl⟩

theorem outline_layOutClass (h : Outline p laid w.analysis) (hi : w.analysis.classes[index]? = some info)
    (hr : Runs (layOutClass p (c, index)) w u w') : SameSupers w.analysis w'.analysis ∧
      Outline p (fun j s => if j = index then p.laidOut w.analysis j s else laid j s) w'.analysis := by
  obtain ⟨vars, w₁, vars', w₂, h₁, h₂, rfl⟩ := (runs_layOutClass_iff hi).1 hr
  obtain ⟨hs₁, hi₁, ho₁⟩ := outline_layOutSide false h hi h₁
  obtain ⟨hs₂, -, ho₂⟩ := outline_layOutSide true ho₁ hi₁ h₂
  refine ⟨hs₁.trans hs₂, ?_⟩
  have hlaid : (fun j s => if j = index ∧ s = true then p.laidOut w.analysis index true
      else if j = index ∧ s = false then p.laidOut w.analysis index false else laid j s) =
      fun j s => if j = index then p.laidOut w.analysis j s else laid j s := by
    funext j s
    by_cases hj : j = index
    · subst hj
      cases s <;> simp
    · simp [hj]
  rw [← hlaid]
  exact ho₂

/-! ## All variables are listed -/

namespace ScopeTree.AllListed
variable {t t' : ScopeTree} {scope root : ScopeId} {vars : List VarId}

/-- A new class in the root. -/
theorem addMember {members : List VarId} {v : Variable} {o : Option ScopeId} (h : t.AllListed)
    (hs : t.scope? v.scope = some ⟨o, .root members⟩) : (t.addMember v).2.AllListed := by
  have hself : (t.addMember v).2.scope? v.scope = some ⟨o, .root (members ++ [⟨t.vars.size⟩])⟩ := by
    rw [scope?_addMember, if_pos rfl, hs]
    rfl
  refine h.update (fun id s hid => ?_) fun x w hw => ?_
  · by_cases hne : id = v.scope
    · subst hne
      rw [hs] at hid
      cases hid
      exact ⟨_, hself, fun y hy => by simp_all⟩
    · exact ⟨s, by rw [scope?_addMember, if_neg hne, hid], fun _ hy => hy⟩
  · rw [var?_addMember] at hw
    split at hw
    · next hx =>
      cases x
      cases hx
      cases hw
      exact .inr ⟨_, hself, by simp⟩
    · exact .inl ⟨w, hw, rfl⟩

/-- A new side with its receiver. -/
theorem addSide (h : t.AllListed) (outer : ScopeId) (i : Nat) (side : Bool) : (t.addSide outer i side).2.AllListed := by
  refine h.update (fun id s hid => ⟨s, ?_, fun _ hy => hy⟩) fun x w hw => ?_
  · have := scope?_lt hid
    rw [scope?_addSide, if_neg (by omega), hid]
  · rw [var?_addSide] at hw
    split at hw
    · next hx =>
      cases x
      cases hx
      cases hw
      exact .inr ⟨_, by rw [scope?_addSide, if_pos (by rfl)], by simp⟩
    · exact .inl ⟨w, hw, rfl⟩

/-- New variables that become the slots of a side that had none. -/
theorem withSlots {o : Option ScopeId} {side : Bool} {receiver : VarId} (h : t.AllListed)
    (hs : t.scope? scope = some ⟨o, .side i side receiver []⟩) (hscopes : ∀ id, t'.scope? id = t.scope? id)
    (hnew : ∀ x v, t'.var? x = some v → t.var? x = some v ∨ v.scope = scope ∧ x ∈ vars) :
    (t'.modifyScope scope (·.withSlots vars)).AllListed := by
  have hself : (t'.modifyScope scope (·.withSlots vars)).scope? scope = some ⟨o, .side i side receiver vars⟩ := by
    rw [scope?_modifyScope, if_pos rfl, hscopes, hs]
    rfl
  refine h.update (fun id s hid => ?_) fun x v hv => ?_
  · by_cases hne : id = scope
    · subst hne
      rw [hs] at hid
      cases hid
      exact ⟨_, hself, fun y hy => by simp_all⟩
    · exact ⟨s, by rw [scope?_modifyScope, if_neg hne, hscopes, hid], fun _ hy => hy⟩
  · rcases hnew x v hv with hold | ⟨rfl, hx⟩
    · exact .inl ⟨v, hold, rfl⟩
    · exact .inr ⟨_, hself, by simp [hx]⟩

end ScopeTree.AllListed

theorem allListed_registerClass (h : Outline p laid w.analysis) (hl : w.analysis.scopes.AllListed)
    (hr : Runs (registerClass (c, index)) w u w') : w'.analysis.scopes.AllListed := by
  obtain ⟨-, e⟩ := runs_registerClass hr
  rw [e]
  exact ((hl.addMember h.members).addSide _ _ _).addSide _ _ _

theorem allListed_register (hfresh : w.analysis = .fresh) (h : Runs (register p) w u w') : w'.analysis.scopes.AllListed := by
  have hstart : w.analysis.scopes.AllListed := by
    rw [hfresh]
    intro x v hv
    cases hv
  unfold register at h
  rw [List.forM_eq_forM] at h
  have := Runs.forM_zipIdx (fun k w => (Outline p (fun _ _ => []) w.analysis ∧ w.analysis.classes.size = k ∧
    ∀ i, w.analysis.superOf i = none) ∧ w.analysis.scopes.AllListed) p.classes 0
    (fun i c w w' hc hw hr => ⟨outline_registerClass hw.1.1 hw.1.2.1 hw.1.2.2 (by simpa using hc) hr,
      allListed_registerClass hw.1.1 hw.2 hr⟩) h ⟨by rw [hfresh]; exact ⟨outline_fresh p, rfl, fun _ => rfl⟩, hstart⟩
  exact this.2

/-- Linking makes no scope and no variable. -/
theorem scopes_linkAll (ho : Outline p laid w.analysis) (h : Runs (forM p.classes.zipIdx linkClass) w u w') :
    w'.analysis.scopes = w.analysis.scopes := by
  have := Runs.forM_zipIdx (fun _ v => Outline p laid v.analysis ∧ v.analysis.scopes = w.analysis.scopes) p.classes 0
    (fun i c v v' hc hv hr => by
      obtain ⟨ho, hs⟩ := hv
      rcases runs_linkClass ho hr with ⟨-, rfl⟩ | ⟨j, c', -, -, e⟩
      · exact ⟨ho, hs⟩
      · rw [e]
        exact ⟨ho.withSuper _ _, hs⟩) h ⟨ho, rfl⟩
  exact this.2

/-- Every variable made for a side is among its slots. -/
theorem runs_slots_new {scope : ScopeId} {made vars : List VarId} {ds : List Declaration}
    (h : Runs (ds.foldlM (declareSlot scope) made) w vars w') : made ⊆ vars ∧
      ∀ x v, w'.analysis.scopes.var? x = some v → w.analysis.scopes.var? x = some v ∨ v.scope = scope ∧ x ∈ vars := by
  induction ds generalizing w made with
  | nil =>
    rw [List.foldlM_nil] at h
    obtain ⟨rfl, rfl⟩ := Runs.pure_iff.1 h
    exact ⟨fun _ hx => hx, fun x v hv => .inl hv⟩
  | cons d ds ih =>
    rw [List.foldlM_cons] at h
    obtain ⟨made', w₁, h₁, h₂⟩ := Runs.bind_iff.1 h
    obtain ⟨hsub, hnew⟩ := ih h₂
    obtain ⟨-, rfl, rfl⟩ := runs_declareSlot_iff.1 h₁
    refine ⟨fun x hx => hsub (List.mem_append_left _ hx), fun x v hv => ?_⟩
    rcases hnew x v hv with hadded | hlater
    · simp only [Work.withScopes, Work.mapAnalysis, ScopeTree.var?_addVar] at hadded
      split at hadded
      · next hx =>
        cases x
        cases hx
        cases hadded
        exact .inr ⟨rfl, hsub (by simp)⟩
      · exact .inl hadded
    · exact .inr hlater

theorem allListed_layOutSide {side : Bool} {ds : List Declaration} {vars : List VarId} (h : Outline p laid w.analysis)
    (hi : w.analysis.classes[index]? = some info) (hnone : laid index side = []) (hl : w.analysis.scopes.AllListed)
    (hr : Runs (declareSlots (info.side side) ds) w vars w') : w'.analysis.scopes.AllListed := by
  obtain ⟨receiver, hs, -, hlaid⟩ := h.sides index info hi side
  have hslots : info.slots side = [] := by
    rw [← List.length_eq_zero_iff, hlaid.length, hnone]
    rfl
  rw [hslots] at hs
  obtain ⟨w₁, h₁, rfl⟩ := runs_declareSlots_iff.1 hr
  have hnil : w.analysis.scopes.Laid (info.side side) [] [] := ⟨rfl, by simp, .nil⟩
  obtain ⟨t, e, hadds, -⟩ := runs_slots (by rw [hs]; rfl) hnil h₁
  have hscopes : w₁.analysis.scopes = t := by rw [e]
  exact hl.withSlots hs (by rw [hscopes]; exact hadds.scopes) (runs_slots_new h₁).2

theorem allListed_layOutClass (h : Outline p laid w.analysis) (hi : w.analysis.classes[index]? = some info)
    (hnone : ∀ side, laid index side = []) (hl : w.analysis.scopes.AllListed)
    (hr : Runs (layOutClass p (c, index)) w u w') : w'.analysis.scopes.AllListed := by
  obtain ⟨vars, w₁, vars', w₂, h₁, h₂, rfl⟩ := (runs_layOutClass_iff hi).1 hr
  have hl₁ : w₁.analysis.scopes.AllListed := allListed_layOutSide h hi (hnone false) hl h₁
  obtain ⟨-, hi₁, ho₁⟩ := outline_layOutSide false h hi h₁
  have hnone₁ : (if index = index ∧ true = false then p.laidOut w.analysis index false else laid index true) = [] := by
    rw [if_neg (by simp), hnone]
  have hl₂ : w₂.analysis.scopes.AllListed := allListed_layOutSide
    (w := w₁.mapAnalysis (·.modifyClass index (.withSlots false vars))) ho₁ hi₁ hnone₁ hl₁ h₂
  exact hl₂

theorem allListed_layOutAll (ho : Outline p (fun _ _ => []) w.analysis) (hsize : w.analysis.classes.size = p.classes.length)
    (hl : w.analysis.scopes.AllListed) (h : Runs (forM p.classes.zipIdx (layOutClass p)) w u w') :
    w'.analysis.scopes.AllListed := by
  have := Runs.forM_zipIdx (fun k v => v.analysis.classes.size = p.classes.length ∧ v.analysis.scopes.AllListed ∧
    ∃ laid, Outline p laid v.analysis ∧ ∀ i side, k ≤ i → laid i side = []) p.classes 0
    (fun i c v v' hc hv hr => by
      obtain ⟨hsize, hl, laid, ho, hnone⟩ := hv
      have hlt : 0 + i < v.analysis.classes.size := by
        rw [hsize, Nat.zero_add]
        exact (List.getElem?_eq_some_iff.1 hc).1
      have hi := Array.getElem?_eq_getElem hlt
      obtain ⟨hs', ho'⟩ := outline_layOutClass ho hi hr
      refine ⟨by rw [hs'.size, hsize], allListed_layOutClass ho hi (fun side => hnone _ side (Nat.le_refl _)) hl hr, _, ho', ?_⟩
      intro j side hj
      rw [if_neg (by omega), hnone j side (by omega)]) h ⟨hsize, hl, _, ho, fun _ _ _ => rfl⟩
  exact this.2.1

/-! ## All of it -/

theorem runs_checkAcyclic (h : Runs (checkAcyclic (c, index)) w u w') : w' = w ∧ w.analysis.isCyclic index = false := by
  unfold checkAcyclic at h
  simp only at h
  rw [runs_analysis_bind] at h
  split at h
  · simp at h
  · next hc => exact ⟨(Runs.pure_iff.1 h).2, by simpa using hc⟩

theorem linked_linkAll (ho : Outline p laid w.analysis) (hsize : w.analysis.classes.size = p.classes.length)
    (hnone : ∀ i, w.analysis.superOf i = none) (h : Runs (forM p.classes.zipIdx linkClass) w u w') :
    Outline p laid w'.analysis ∧ w'.analysis.classes.size = p.classes.length ∧ LinkedTo p p.classes.length w'.analysis := by
  have hstart : LinkedTo p 0 w.analysis := fun i c _ => .inl ⟨hnone i, nofun⟩
  have := Runs.forM_zipIdx (fun k w => Outline p laid w.analysis ∧ w.analysis.classes.size = p.classes.length ∧
    LinkedTo p k w.analysis) p.classes 0
    (fun i c w w' hc hw hr => linked_linkClass hw.1 hw.2.1 hw.2.2 (by simpa using hc) hr) h ⟨ho, hsize, hstart⟩
  simpa using this

theorem acyclic_checkAll (h : Runs (forM p.classes.zipIdx checkAcyclic) w u w') :
    w' = w ∧ ∀ i < p.classes.length, w.analysis.isCyclic i = false := by
  have := Runs.forM_zipIdx (fun k v => v = w ∧ ∀ i < k, w.analysis.isCyclic i = false) p.classes 0
    (fun i c v v' hc hv hr => by
      obtain ⟨rfl, hacyclic⟩ := runs_checkAcyclic hr
      obtain ⟨rfl, hbefore⟩ := hv
      refine ⟨rfl, fun j hj => ?_⟩
      by_cases hij : j = 0 + i
      · rw [hij, hacyclic]
      · exact hbefore j (by omega)) h ⟨rfl, nofun⟩
  simpa using this

theorem outline_layOutAll (ho : Outline p (fun _ _ => []) w.analysis) (hsize : w.analysis.classes.size = p.classes.length)
    (h : Runs (forM p.classes.zipIdx (layOutClass p)) w u w') : SameSupers w.analysis w'.analysis ∧
      Outline p (fun j s => if j < p.classes.length then p.laidOut w.analysis j s else []) w'.analysis := by
  have := Runs.forM_zipIdx (fun k v => SameSupers w.analysis v.analysis ∧
    Outline p (fun j s => if j < k then p.laidOut w.analysis j s else []) v.analysis) p.classes 0
    (fun i c v v' hc hv hr => by
      obtain ⟨hs, ho⟩ := hv
      have hlt : 0 + i < v.analysis.classes.size := by
        rw [hs.size, hsize, Nat.zero_add]
        exact (List.getElem?_eq_some_iff.1 hc).1
      obtain ⟨hs', ho'⟩ := outline_layOutClass ho (Array.getElem?_eq_getElem hlt) hr
      have hlaid : (fun j s => if j < 0 + i + 1 then p.laidOut w.analysis j s else []) =
          fun j s => if j = 0 + i then p.laidOut v.analysis j s else if j < 0 + i then p.laidOut w.analysis j s else [] := by
        funext j s
        rw [hs.laidOut]
        by_cases hj : j = 0 + i
        · rw [if_pos hj, if_pos (by omega)]
        · by_cases hj' : j < 0 + i
          · rw [if_neg hj, if_pos hj', if_pos (by omega)]
          · rw [if_neg hj, if_neg hj', if_neg (by omega)]
      rw [hlaid]
      exact ⟨hs.trans hs', ho'⟩) h ⟨⟨rfl, fun _ => rfl⟩, by simpa using ho⟩
  simpa using this

/-- Only the classes that are there have to be laid out. -/
theorem Outline.congr {laid' : Nat → Bool → List Declaration} (h : Outline p laid a)
    (hl : ∀ i < a.classes.size, ∀ side, laid' i side = laid i side) : Outline p laid' a := by
  refine { h with sides := fun i info hi side => ?_ }
  rw [hl i (Array.getElem?_eq_some_iff.1 hi).1 side]
  exact h.sides i info hi side

/-- What holds when all classes are entered and linked. -/
theorem ready_of_link {w₁ : Work} (hfresh : w.analysis = .fresh) (hr : Runs (register p) w ⟨⟩ w₁)
    (hk : Runs (link p) w₁ u w') : Ready p w'.analysis := by
  obtain ⟨ho, hsize, hnone⟩ := outline_register hfresh hr
  unfold link at hk
  simp only [List.forM_eq_forM, Runs.bind_iff] at hk
  obtain ⟨_, w₂, h₂, _, w₃, h₃, h₄⟩ := hk
  obtain ⟨ho₂, hsize₂, hl⟩ := linked_linkAll ho hsize hnone h₂
  -- The check for cycles changes nothing, and layout keeps the superclasses it relies on.
  obtain ⟨rfl, hacyclic⟩ := acyclic_checkAll h₃
  obtain ⟨hs, ho₄⟩ := outline_layOutAll ho₂ hsize₂ h₄
  have hsize₄ : w'.analysis.classes.size = p.classes.length := by rw [hs.size, hsize₂]
  have hlisted : w₃.analysis.scopes.AllListed := by
    rw [scopes_linkAll ho h₂]
    exact allListed_register hfresh hr
  refine ⟨?_, hsize₄, fun i j => ?_, fun c hc n hn => hl.supers hc hn, fun i hi => ?_, allListed_layOutAll ho₂ hsize₂ hlisted h₄⟩
  · apply ho₄.congr
    intro i hi side
    rw [hs.laidOut, if_pos (by omega)]
  · rw [hs.supers, hl.super_iff ho₂ hsize₂]
  · rw [hs.isCyclic, hacyclic i hi]

namespace Ready

theorem short (h : Ready p a) (hi : i < p.classes.length) :
    (a.ancestorsWithin (a.classes.size + 1) i).length ≤ a.classes.size := by
  simpa [Analysis.isCyclic] using h.acyclic i hi

theorem mem_ancestors (h : Ready p a) (hi : i < p.classes.length) : j ∈ a.ancestors i ↔ p.Inherits i j := by
  have hsuper : (fun i j => a.superOf i = some j) = p.Super := by
    funext i j
    exact propext (h.linked i j)
  rw [Analysis.ancestors, mem_ancestorsWithin (h.short hi), hsuper]
  rfl

/-- A side has a slot for what the class and the classes it inherits from declare. -/
theorem mem_laidOut {side : Bool} {d : Declaration} (h : Ready p a) (hi : i < p.classes.length) :
    d ∈ p.laidOut a i side ↔ ∃ (j : Nat) (c : ClassDefinition), p.Inherits i j ∧ p.classes[j]? = some c ∧ d ∈ c.vars side := by
  simp only [Program.laidOut, inherited, List.mem_flatMap, List.mem_reverse, h.mem_ancestors hi]
  constructor
  · rintro ⟨j, hj, hd⟩
    cases hc : p.classes[j]? with
    | none => simp [hc] at hd
    | some c => exact ⟨j, c, hj, hc, by simpa [hc] using hd⟩
  · rintro ⟨j, c, hj, hc, hd⟩
    exact ⟨j, hj, by simpa [hc] using hd⟩

end Ready
end
end BlockScope
