import BlockScope.Proofs.Analysis.Validity
import Mathlib.Data.List.Perm.Subperm
/-!
# Valid hierarchies of classes

What a program has to observe of its classes is exactly what `register` and `link` check. A class that inherits from
no cycle has a lineage up to a topmost class, which are the ancestors that its variables are laid out from
(`Program.Lineage.ancestors`). So classes that were laid out are valid (`Ready.vars` and the lemmas before it), and
valid ones are laid out (`exists_link`).
-/
namespace BlockScope
open Stage

/-- The superclasses that an analysis knows are those of the program. -/
def Linked (p : Program) (a : Analysis) : Prop := ∀ i j, a.superOf i = some j ↔ p.Super i j

section
variable {p : Program} {laid : Nat → Bool → List Declaration} {a : Analysis} {w : Work} {c : ClassDefinition} {i j n index : Nat}
  {line : List ClassDefinition} {info : ClassInfo}

/-! ## Lineages -/

theorem superOf_eq_none (hl : Linked p a) (hc : p.classes[i]? = some c) (hs : c.superName = none) :
    a.superOf i = none := by
  rw [Option.eq_none_iff_forall_ne_some]
  intro j hj
  obtain ⟨c', _, hc', -, hname⟩ := (hl i j).1 hj
  rw [hc] at hc'
  cases hc'
  rw [hs] at hname
  cases hname

namespace Program.Lineage

theorem lt_length (h : p.Lineage i line) : i < p.classes.length := by
  cases h with
  | top hc => exact (List.getElem?_eq_some_iff.1 hc).1
  | above hc => exact (List.getElem?_eq_some_iff.1 hc).1

theorem ancestors (h : p.Lineage i line) (hl : Linked p a) (hn : line.length ≤ n) :
    (a.ancestorsWithin n i).map (fun j => p.classes[j]?) = line.map some := by
  induction h generalizing n with
  | top hc hs =>
    obtain ⟨n, rfl⟩ : ∃ k, n = k + 1 := ⟨n - 1, by simp at hn; omega⟩
    rw [ancestorsWithin_of_no_super (superOf_eq_none hl hc hs), List.map_singleton, List.map_singleton, hc]
  | above hc hs _ ih =>
    rw [List.length_cons] at hn
    obtain ⟨n, rfl⟩ : ∃ k, n = k + 1 := ⟨n - 1, by omega⟩
    rw [ancestorsWithin_of_super ((hl _ _).2 hs), List.map_cons, List.map_cons, ih (by omega), hc]

theorem length_ancestorsWithin (h : p.Lineage i line) (hl : Linked p a) (n : Nat) :
    (a.ancestorsWithin n i).length = min n line.length := by
  induction h generalizing n with
  | top hc hs =>
    cases n with
    | zero => rfl
    | succ n =>
      rw [ancestorsWithin_of_no_super (superOf_eq_none hl hc hs), List.length_singleton, List.length_singleton]
      omega
  | above hc hs _ ih =>
    cases n with
    | zero => rfl
    | succ n =>
      rw [ancestorsWithin_of_super ((hl _ _).2 hs), List.length_cons, List.length_cons, ih]
      omega

/-- A side is laid out from the lineage, the topmost class first. -/
theorem laidOut_eq {side : Bool} (h : p.Lineage i line) (hl : Linked p a) (hn : line.length ≤ a.classes.size) :
    p.laidOut a i side = line.reverse.flatMap (·.vars side) := by
  have hline := h.ancestors hl hn
  calc p.laidOut a i side
      = ((a.ancestors i).map fun j => p.classes[j]?).reverse.flatMap fun o => (o.map (·.vars side)).getD [] := by
        rw [← List.map_reverse, List.flatMap_map]
        rfl
    _ = (line.map some).reverse.flatMap fun o => (o.map (·.vars side)).getD [] := by rw [Analysis.ancestors, hline]
    _ = line.reverse.flatMap (·.vars side) := by
        rw [← List.map_reverse, List.flatMap_map]
        rfl

theorem distinct_laidOut_iff {side : Bool} (h : p.Lineage i line) (hl : Linked p a)
    (hn : line.length ≤ a.classes.size) : Distinct (p.laidOut a i side) ↔ Distinct (line.flatMap (·.vars side)) := by
  rw [h.laidOut_eq hl hn]
  exact (((List.reverse_perm line).flatMap_right _).map _).nodup_iff

end Program.Lineage

/-- A chain that ends is a lineage. -/
theorem exists_lineage (hl : Linked p a)
    (hsupers : ∀ c ∈ p.classes, ∀ n, c.superName = some n → n ∈ p.classes.map (·.name)) (hc : p.classes[i]? = some c)
    (hshort : (a.ancestorsWithin (n + 1) i).length ≤ n) : ∃ line, p.Lineage i line ∧ line.length ≤ n := by
  induction n generalizing i c with
  | zero => exact absurd hshort (Nat.not_le.2 (length_ancestorsWithin_pos a 0 i))
  | succ n ih =>
    cases hs : a.superOf i with
    | none =>
      refine ⟨[c], .top hc ?_, by simp⟩
      rw [Option.eq_none_iff_forall_ne_some]
      intro name hname
      obtain ⟨c', hmem, rfl⟩ := List.mem_map.1 (hsupers c (List.mem_of_getElem? hc) name hname)
      obtain ⟨j, hj⟩ := List.getElem?_of_mem hmem
      rw [(hl i j).2 ⟨c, c', hc, hj, hname⟩] at hs
      cases hs
    | some parent =>
      have hsuper := (hl i parent).1 hs
      obtain ⟨-, c', -, hc', -⟩ := id hsuper
      rw [ancestorsWithin_of_super hs, List.length_cons] at hshort
      obtain ⟨line, hline, hlen⟩ := ih hc' (by omega)
      exact ⟨c :: line, .above hc hsuper hline, by rw [List.length_cons]; omega⟩

/-! ## Cycles -/

/-- Upwards from a class that inherits from itself there is always one more. -/
theorem length_ancestorsWithin_of_cycle (h : Relation.TransGen (fun i j => a.superOf i = some j) i i) :
    (a.ancestorsWithin n i).length = n := by
  induction n generalizing i with
  | zero => rfl
  | succ n ih =>
    obtain ⟨j, hs, hback⟩ := Relation.TransGen.head'_iff.1 h
    rw [ancestorsWithin_of_super hs, List.length_cons, ih (.tail' hback hs)]

theorem inherits_of_mem (hl : Linked p a) (hj : j ∈ a.ancestorsWithin n i) : p.Inherits i j := by
  induction n generalizing i with
  | zero => cases hj
  | succ n ih =>
    cases hs : a.superOf i with
    | none =>
      rw [ancestorsWithin_of_no_super hs, List.mem_singleton] at hj
      rw [hj]
      exact .refl
    | some parent =>
      rw [ancestorsWithin_of_super hs, List.mem_cons] at hj
      rcases hj with rfl | hj
      · exact .refl
      · exact .head ((hl i parent).1 hs) (ih hj)

/-- A way up on which no class comes twice is no longer than the program. -/
theorem length_le_of_nodup (hl : Linked p a) (hsize : a.classes.size = p.classes.length) (hi : i < p.classes.length)
    (hnodup : (a.ancestorsWithin n i).Nodup) : (a.ancestorsWithin n i).length ≤ a.classes.size := by
  have hsub : a.ancestorsWithin n i ⊆ List.range a.classes.size := by
    intro j hj
    rw [List.mem_range, hsize]
    rcases Relation.ReflTransGen.cases_tail (inherits_of_mem hl hj) with rfl | ⟨k, -, -, c', -, hc', -⟩
    · exact hi
    · exact (List.getElem?_eq_some_iff.1 hc').1
  have hle := (List.subperm_of_subset hnodup hsub).length_le
  rw [List.length_range] at hle
  exact hle

/-- Without cycles no class comes twice on the way up, which is then no longer than the program. -/
theorem isCyclic_eq_false (hl : Linked p a) (hsize : a.classes.size = p.classes.length)
    (hacyclic : ∀ i, ¬ Relation.TransGen p.Super i i) (hi : i < p.classes.length) : a.isCyclic i = false := by
  have hnodup : ∀ n i, (a.ancestorsWithin n i).Nodup := by
    intro n
    induction n with
    | zero => exact fun _ => .nil
    | succ n ih =>
      intro i
      cases hs : a.superOf i with
      | none =>
        rw [ancestorsWithin_of_no_super hs]
        exact List.nodup_singleton i
      | some parent =>
        rw [ancestorsWithin_of_super hs]
        refine List.nodup_cons.2 ⟨fun hmem => hacyclic i ?_, ih parent⟩
        exact .head' ((hl i parent).1 hs) (inherits_of_mem hl hmem)
  simp only [Analysis.isCyclic, decide_eq_false_iff_not, Nat.not_lt]
  exact length_le_of_nodup hl hsize hi (hnodup _ i)

/-! ## Classes that are laid out -/

namespace Ready

theorem distinct_classes (h : Ready p a) : (p.classes.map (·.name)).Nodup := by
  have hnames : p.classes.map (·.name) = a.classes.toList.map (·.name) := by
    apply List.ext_getElem?
    intro i
    rw [List.getElem?_map, List.getElem?_map, Array.getElem?_toList]
    cases hi : a.classes[i]? with
    | none =>
      rw [Array.getElem?_eq_none_iff, h.size] at hi
      rw [List.getElem?_eq_none hi]
      rfl
    | some info =>
      obtain ⟨c, hc, hname, -⟩ := h.outline.classes i info hi
      rw [hc, Option.map_some, Option.map_some, hname]
  rw [hnames]
  exact h.outline.distinct

theorem no_cycle (h : Ready p a) (i : Nat) : ¬ Relation.TransGen p.Super i i := by
  intro hcycle
  have hsuper : (fun i j => a.superOf i = some j) = p.Super := by
    funext i j
    exact propext (h.linked i j)
  obtain ⟨j, ⟨c, -, hc, -⟩, -⟩ := Relation.TransGen.head'_iff.1 hcycle
  have hshort := h.short (List.getElem?_eq_some_iff.1 hc).1
  rw [← hsuper] at hcycle
  rw [length_ancestorsWithin_of_cycle hcycle] at hshort
  omega

theorem lt_of_lineage (h : Ready p a) (hline : p.Lineage i line) : i < a.classes.size := by
  rw [h.size]
  exact hline.lt_length

theorem length_lineage (h : Ready p a) (hline : p.Lineage i line) : line.length ≤ a.classes.size := by
  have hshort := h.short (h.size ▸ h.lt_of_lineage hline)
  rw [hline.length_ancestorsWithin h.linked] at hshort
  omega

theorem vars (h : Ready p a) (hline : p.Lineage i line) (side : Bool) : Distinct (line.flatMap (·.vars side)) := by
  obtain ⟨receiver, -, -, hlaid⟩ := h.outline.sides i _ (Array.getElem?_eq_getElem (h.lt_of_lineage hline)) side
  exact (hline.distinct_laidOut_iff h.linked (h.length_lineage hline)).1 hlaid.names

theorem lineage (h : Ready p a) (hc : p.classes[i]? = some c) : ∃ line, p.Lineage i line := by
  obtain ⟨line, hline, -⟩ := exists_lineage h.linked h.supers hc (h.short (List.getElem?_eq_some_iff.1 hc).1)
  exact ⟨line, hline⟩

/-- A side of a class has a slot for each variable of its lineage. -/
theorem length_slots (h : Ready p a) (hi : a.classes[i]? = some info) (hline : p.Lineage i line) (side : Bool) :
    (info.slots side).length = (line.reverse.flatMap (·.vars side)).length := by
  obtain ⟨receiver, -, -, hlaid⟩ := h.outline.sides i info hi side
  rw [hlaid.length, hline.laidOut_eq h.linked (h.length_lineage hline)]

end Ready

/-! ## Valid classes are entered -/

theorem exists_registerClass (h : Outline p laid w.analysis) (hsize : w.analysis.classes.size = index)
    (hnames : (p.classes.map (·.name)).Nodup) (hc : p.classes[index]? = some c) :
    ∃ w', Runs (registerClass (c, index)) w ⟨⟩ w' := by
  have hnone : w.analysis.classNamed? c.name = none := by
    rw [Analysis.classNamed?, List.find?_eq_none]
    intro info hmem hname
    obtain ⟨i, hi⟩ := List.getElem?_of_mem hmem
    rw [Array.getElem?_toList] at hi
    have hlt := (Array.getElem?_eq_some_iff.1 hi).1
    obtain ⟨c', hc', hname', -⟩ := h.classes i info hi
    -- The class at a place before has another name.
    have hsame : (p.classes.map (·.name))[i]? = (p.classes.map (·.name))[index]? := by
      rw [List.getElem?_map, List.getElem?_map, hc', hc, Option.map_some, Option.map_some, ← hname', beq_iff_eq.1 hname]
    have hi' : i < (p.classes.map (·.name)).length := by
      rw [List.length_map]
      exact (List.getElem?_eq_some_iff.1 hc').1
    have := (List.getElem?_inj hi' hnames).1 hsame
    omega
  unfold registerClass
  simp only [runs_analysis_bind, hnone, Option.isSome_none, Bool.false_eq_true, if_false]
  simp only [Runs.bind_iff, runs_onScopes, runs_tell, runs_update]
  exact ⟨_, _, _, ⟨rfl, rfl⟩, _, _, ⟨rfl, rfl⟩, _, _, ⟨rfl, rfl⟩, ⟨⟩, _, rfl, rfl⟩

theorem exists_register (hv : p.Valid) (hfresh : w.analysis = .fresh) : ∃ w', Runs (register p) w ⟨⟩ w' := by
  have hstart : Outline p (fun _ _ => []) w.analysis ∧ w.analysis.classes.size = 0 ∧ ∀ i, w.analysis.superOf i = none := by
    rw [hfresh]
    exact ⟨outline_fresh p, rfl, fun _ => rfl⟩
  unfold register
  rw [List.forM_eq_forM]
  exact Runs.exists_forM_zipIdx (fun k w => Outline p (fun _ _ => []) w.analysis ∧ w.analysis.classes.size = k ∧
    ∀ i, w.analysis.superOf i = none) p.classes 0
    (fun i c w w' hc hw hr => outline_registerClass hw.1 hw.2.1 hw.2.2 (by simpa using hc) hr)
    (fun i c w hc hw => exists_registerClass hw.1 hw.2.1 hv.classes (by simpa using hc)) hstart

/-! ## Valid classes are linked -/

theorem exists_linkClass (h : Outline p laid w.analysis) (hsize : w.analysis.classes.size = p.classes.length)
    (hsuper : ∀ n, c.superName = some n → n ∈ p.classes.map (·.name)) : ∃ w', Runs (linkClass (c, index)) w ⟨⟩ w' := by
  unfold linkClass
  cases hs : c.superName with
  | none => exact ⟨w, by simp [hs]⟩
  | some name =>
    obtain ⟨found, v, hfound, -⟩ := h.finds_member hsize (hsuper name hs) false
    obtain ⟨w₁, hr, -⟩ := exists_lookup false hfound
    simp only [hs, runs_analysis_bind]
    simp only [Runs.bind_iff, runs_analysis, Runs.tryCatch_throw_iff, runs_update, runs_tell]
    exact ⟨_, _, w₁, hr, _, _, ⟨rfl, rfl⟩, ⟨⟩, _, rfl, rfl⟩

theorem exists_checkAcyclic (h : w.analysis.isCyclic index = false) : Runs (checkAcyclic (c, index)) w ⟨⟩ w := by
  unfold checkAcyclic
  rw [runs_analysis_bind, h]
  exact Runs.pure_iff.2 ⟨rfl, rfl⟩

/-- Classes whose superclasses are all there are linked. -/
theorem exists_linkAll (hsupers : ∀ c ∈ p.classes, ∀ n, c.superName = some n → n ∈ p.classes.map (·.name))
    (ho : Outline p laid w.analysis) (hsize : w.analysis.classes.size = p.classes.length)
    (hnone : ∀ i, w.analysis.superOf i = none) : ∃ w', Runs (forM p.classes.zipIdx linkClass) w ⟨⟩ w' := by
  have hstart : LinkedTo p 0 w.analysis := fun i c _ => .inl ⟨hnone i, nofun⟩
  exact Runs.exists_forM_zipIdx (fun k w => Outline p laid w.analysis ∧ w.analysis.classes.size = p.classes.length ∧
    LinkedTo p k w.analysis) p.classes 0
    (fun i c w w' hc hw hr => linked_linkClass hw.1 hw.2.1 hw.2.2 (by simpa using hc) hr)
    (fun i c w hc hw => exists_linkClass hw.1 hw.2.1 (hsupers c (List.mem_of_getElem? hc))) ⟨ho, hsize, hstart⟩

theorem runs_checkAll (h : ∀ i < p.classes.length, w.analysis.isCyclic i = false) :
    Runs (forM p.classes.zipIdx checkAcyclic) w ⟨⟩ w := by
  obtain ⟨w', hr⟩ := Runs.exists_forM_zipIdx (s := w) (g := checkAcyclic) (fun _ v => v = w) p.classes 0
    (fun i c v v' hc hv hr => by rw [(runs_checkAcyclic hr).1, hv])
    (fun i c v hc hv => ⟨v, exists_checkAcyclic (by
      rw [hv, Nat.zero_add]
      exact h i (List.getElem?_eq_some_iff.1 hc).1)⟩) rfl
  obtain ⟨rfl, -⟩ := acyclic_checkAll hr
  exact hr

/-! ## Valid classes are laid out -/

theorem exists_slots {scope : ScopeId} {made : List VarId} {done ds : List Declaration}
    (hs : (w.analysis.scopes.scope? scope).isSome) (hl : w.analysis.scopes.Laid scope done made) (hd : Distinct (done ++ ds)) :
    ∃ vars w', Runs (ds.foldlM (declareSlot scope) made) w vars w' := by
  induction ds generalizing w made done with
  | nil => exact ⟨made, w, by simp⟩
  | cons d ds ih =>
    have hfresh : w.analysis.scopes.findNamed made d.name = none := by
      rw [ScopeTree.findNamed_eq_none]
      rintro x hx v hv hname
      obtain ⟨e, he, j, hv'⟩ := hl.of_slot hx
      rw [hv] at hv'
      cases hv'
      rw [Distinct, List.map_append, List.nodup_append] at hd
      exact hd.2.2 _ (List.mem_map.2 ⟨e, he, rfl⟩) _ (List.mem_map.2 ⟨d, by simp, rfl⟩) hname
    obtain ⟨vars, w₁, h₁⟩ : ∃ vars w₁, Runs (declareSlot scope made d) w vars w₁ :=
      ⟨_, _, runs_declareSlot_iff.2 ⟨hfresh, rfl, rfl⟩⟩
    obtain ⟨t, e, hadds, hl₁⟩ := runs_declareSlot hs hl h₁
    have hs₁ : (w₁.analysis.scopes.scope? scope).isSome := by
      rw [e, hadds.scopes]
      exact hs
    obtain ⟨vars', w', h'⟩ := ih hs₁ (by rw [e]; exact hl₁) (by rw [List.append_assoc]; exact hd)
    exact ⟨vars', w', by rw [List.foldlM_cons, Runs.bind_iff]; exact ⟨vars, w₁, h₁, h'⟩⟩

theorem exists_declareSlots {scope : ScopeId} {ds : List Declaration} (hs : (w.analysis.scopes.scope? scope).isSome)
    (hd : Distinct ds) : ∃ vars w', Runs (declareSlots scope ds) w vars w' := by
  have hnil : w.analysis.scopes.Laid scope [] [] := ⟨rfl, by simp, .nil⟩
  obtain ⟨vars, w₁, h⟩ := exists_slots hs hnil hd
  exact ⟨vars, _, runs_declareSlots_iff.2 ⟨w₁, h, rfl⟩⟩

theorem exists_layOutClass (h : Outline p laid w.analysis) (hi : w.analysis.classes[index]? = some info)
    (hd : ∀ side, Distinct (p.laidOut w.analysis index side)) : ∃ w', Runs (layOutClass p (c, index)) w ⟨⟩ w' := by
  have hsome : ∀ {laid'} {b : Analysis} {info' : ClassInfo} (side : Bool), Outline p laid' b → b.classes[index]? = some info' →
      (b.scopes.scope? (info'.side side)).isSome := by
    intro laid' b info' side ho hi'
    obtain ⟨receiver, hs, -⟩ := ho.sides index info' hi' side
    rw [hs]
    rfl
  obtain ⟨vars, w₁, h₁⟩ := exists_declareSlots (hsome false h hi) (hd false)
  obtain ⟨-, hi₁, ho₁⟩ := outline_layOutSide false h hi h₁
  obtain ⟨vars', w₂, h₂⟩ := exists_declareSlots
    (w := w₁.mapAnalysis (·.modifyClass index (.withSlots false vars))) (hsome true ho₁ hi₁) (hd true)
  exact ⟨_, (runs_layOutClass_iff hi).2 ⟨vars, w₁, vars', w₂, h₁, h₂, rfl⟩⟩

theorem exists_link (hv : p.Valid) (ho : Outline p (fun _ _ => []) w.analysis)
    (hsize : w.analysis.classes.size = p.classes.length) (hnone : ∀ i, w.analysis.superOf i = none) : ∃ w', Runs (link p) w ⟨⟩ w' := by
  obtain ⟨w₁, h₁⟩ := exists_linkAll hv.supers ho hsize hnone
  obtain ⟨ho₁, hsize₁, hl⟩ := linked_linkAll ho hsize hnone h₁
  have hsupers : Linked p w₁.analysis := fun i j => hl.super_iff ho₁ hsize₁
  have hacyclic : ∀ i < p.classes.length, w₁.analysis.isCyclic i = false := fun i hi =>
    isCyclic_eq_false hsupers hsize₁ hv.acyclic hi
  -- Every class has a lineage, and its variables on either side have different names.
  have hdistinct : ∀ i < p.classes.length, ∀ side, Distinct (p.laidOut w₁.analysis i side) := by
    intro i hi side
    have hshort : (w₁.analysis.ancestorsWithin (w₁.analysis.classes.size + 1) i).length ≤ w₁.analysis.classes.size := by
      simpa [Analysis.isCyclic] using hacyclic i hi
    obtain ⟨line, hline, hlen⟩ := exists_lineage hsupers hv.supers (List.getElem?_eq_getElem hi) hshort
    exact (hline.distinct_laidOut_iff hsupers hlen).2 (hv.vars i line hline side)
  have hlayouts : ∃ w₂, Runs (forM p.classes.zipIdx (layOutClass p)) w₁ ⟨⟩ w₂ :=
    Runs.exists_forM_zipIdx (fun _ w => SameSupers w₁.analysis w.analysis ∧ ∃ laid, Outline p laid w.analysis) p.classes 0
      (fun i c w w' hc hw hr => by
        obtain ⟨hs, laid, ho⟩ := hw
        have hlt : 0 + i < w.analysis.classes.size := by
          rw [hs.size, hsize₁, Nat.zero_add]
          exact (List.getElem?_eq_some_iff.1 hc).1
        obtain ⟨hs', ho'⟩ := outline_layOutClass ho (Array.getElem?_eq_getElem hlt) hr
        exact ⟨hs.trans hs', _, ho'⟩)
      (fun i c w hc hw => by
        obtain ⟨hs, laid, ho⟩ := hw
        have hi : i < p.classes.length := (List.getElem?_eq_some_iff.1 hc).1
        have hlt : 0 + i < w.analysis.classes.size := by
          rw [hs.size, hsize₁, Nat.zero_add]
          exact hi
        refine exists_layOutClass ho (Array.getElem?_eq_getElem hlt) fun side => ?_
        rw [hs.laidOut, Nat.zero_add]
        exact hdistinct i hi side) ⟨⟨rfl, fun _ => rfl⟩, _, ho₁⟩
  obtain ⟨w₂, h₂⟩ := hlayouts
  unfold link
  simp only [List.forM_eq_forM, Runs.bind_iff]
  exact ⟨w₂, ⟨⟩, w₁, h₁, ⟨⟩, w₁, runs_checkAll hacyclic, h₂⟩

end
end BlockScope
