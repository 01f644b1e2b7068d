import BlockScope.Proofs.Analysis.Hierarchy
import BlockScope.Proofs.Outcomes
import Mathlib.Data.Nat.Find
import Mathlib.Logic.Function.Iterate
/-!
# Detecting cycles

From a class whose superclasses are all there the way up either ends, in a lineage, or it never does
(`Program.lineage_or_endless`). A lineage lists no class twice, since the classes on it have lineages of different lengths,
so it is no longer than the program, and a walk of one class more than that tells the two apart (`isCyclic_iff_endless`).
What `link` refuses as cyclic is therefore exactly an endless way up, and the layout after it walks lineages only.
-/
namespace BlockScope
open Stage

/-- Following superclasses from a class never ends. -/
def Program.Endless (p : Program) (i : Nat) : Prop := ∃ f : Nat → Nat, f 0 = i ∧ ∀ n, p.Super (f n) (f (n + 1))

section
variable {p : Program} {a : Analysis} {w w' : Work} {c : ClassDefinition} {i j n index : Nat} {line line' : List ClassDefinition}
  {e : AnalysisError}

/-! ## Ways up that end -/

namespace Program.Lineage

theorem ancestorsWithin_eq {m : Nat} (h : p.Lineage i line) (hl : Linked p a) (hn : line.length ≤ n) (hm : line.length ≤ m) :
    a.ancestorsWithin n i = a.ancestorsWithin m i := by
  induction h generalizing n m with
  | top hc hs =>
    obtain ⟨n, rfl⟩ : ∃ k, n = k + 1 := ⟨n - 1, by simp at hn; omega⟩
    obtain ⟨m, rfl⟩ : ∃ k, m = k + 1 := ⟨m - 1, by simp at hm; omega⟩
    have hnone := superOf_eq_none hl hc hs
    rw [ancestorsWithin_of_no_super hnone, ancestorsWithin_of_no_super hnone]
  | above hc hs _ ih =>
    rw [List.length_cons] at hn hm
    obtain ⟨n, rfl⟩ : ∃ k, n = k + 1 := ⟨n - 1, by omega⟩
    obtain ⟨m, rfl⟩ : ∃ k, m = k + 1 := ⟨m - 1, by omega⟩
    have hsome := (hl _ _).2 hs
    rw [ancestorsWithin_of_super hsome, ancestorsWithin_of_super hsome, ih (m := m) (by omega) (by omega)]

theorem length_unique (h : p.Lineage i line) (h' : p.Lineage i line') (hl : Linked p a) : line'.length = line.length := by
  have e := h.length_ancestorsWithin hl (line.length + line'.length)
  rw [h'.length_ancestorsWithin hl] at e
  omega

/-- Further up the lineages are no longer. -/
theorem of_mem (h : p.Lineage i line) (hl : Linked p a) (hj : j ∈ a.ancestorsWithin n i) :
    ∃ line', p.Lineage j line' ∧ line'.length ≤ line.length := by
  induction h generalizing n with
  | top hc hs =>
    cases n with
    | zero => cases hj
    | succ n =>
      rw [ancestorsWithin_of_no_super (superOf_eq_none hl hc hs), List.mem_singleton] at hj
      rw [hj]
      exact ⟨_, .top hc hs, Nat.le_refl _⟩
  | above hc hs rest ih =>
    cases n with
    | zero => cases hj
    | succ n =>
      rw [ancestorsWithin_of_super ((hl _ _).2 hs), List.mem_cons] at hj
      rcases hj with rfl | hj
      · exact ⟨_, .above hc hs rest, Nat.le_refl _⟩
      · obtain ⟨line', hline', hle⟩ := ih hj
        exact ⟨line', hline', by rw [List.length_cons]; omega⟩

theorem nodup (h : p.Lineage i line) (hl : Linked p a) : (a.ancestorsWithin n i).Nodup := by
  induction h generalizing n with
  | top hc hs =>
    cases n with
    | zero => exact .nil
    | succ n =>
      rw [ancestorsWithin_of_no_super (superOf_eq_none hl hc hs)]
      exact List.nodup_singleton _
  | above hc hs rest ih =>
    cases n with
    | zero => exact .nil
    | succ n =>
      rw [ancestorsWithin_of_super ((hl _ _).2 hs)]
      refine List.nodup_cons.2 ⟨fun hmem => ?_, ih⟩
      obtain ⟨line', hline', hle⟩ := rest.of_mem hl hmem
      have hlen := (above hc hs rest).length_unique hline' hl
      rw [List.length_cons] at hlen
      omega

theorem length_le (h : p.Lineage i line) (hl : Linked p a) (hsize : a.classes.size = p.classes.length) :
    line.length ≤ p.classes.length := by
  have hle := length_le_of_nodup hl hsize h.lt_length (h.nodup hl (n := line.length))
  rw [h.length_ancestorsWithin hl, hsize] at hle
  omega

end Program.Lineage

/-! ## Ways up that do not -/

/-- A class that has no lineage inherits from one that has none. -/
theorem Program.lineage_or_endless
    (hsupers : ∀ c ∈ p.classes, ∀ n, c.superName = some n → n ∈ p.classes.map (·.name)) (hc : p.classes[i]? = some c) :
    (∃ line, p.Lineage i line) ∨ p.Endless i := by
  let Stray := { i : Nat // i < p.classes.length ∧ ∀ line, ¬ p.Lineage i line }
  have hnext : ∀ s : Stray, ∃ t : Stray, p.Super s.1 t.1 := by
    rintro ⟨i, hi, hno⟩
    have hc : p.classes[i]? = some p.classes[i] := List.getElem?_eq_getElem hi
    cases hs : p.classes[i].superName with
    | none => exact absurd (.top hc hs) (hno _)
    | some name =>
      obtain ⟨c', hmem, rfl⟩ := List.mem_map.1 (hsupers _ (List.getElem_mem hi) name hs)
      obtain ⟨j, hj⟩ := List.getElem?_of_mem hmem
      have hsuper : p.Super i j := ⟨_, c', hc, hj, hs⟩
      exact ⟨⟨j, (List.getElem?_eq_some_iff.1 hj).1, fun line hline => hno _ (.above hc hsuper hline)⟩, hsuper⟩
  by_cases h : ∃ line, p.Lineage i line
  · exact .inl h
  · right
    obtain ⟨next, hsuper⟩ := Classical.axiomOfChoice hnext
    let start : Stray := ⟨i, (List.getElem?_eq_some_iff.1 hc).1, fun line hline => h ⟨line, hline⟩⟩
    refine ⟨fun n => (next^[n] start).1, rfl, fun n => ?_⟩
    simp only [Function.iterate_succ_apply']
    exact hsuper _

namespace Program.Endless

theorem getElem? (h : p.Endless i) : ∃ c, p.classes[i]? = some c := by
  obtain ⟨f, rfl, hf⟩ := h
  obtain ⟨c, -, hc, -⟩ := hf 0
  exact ⟨c, hc⟩

/-- However far one walks, there is one class more. -/
theorem length_ancestorsWithin (h : p.Endless i) (hl : Linked p a) (n : Nat) : (a.ancestorsWithin n i).length = n := by
  induction n generalizing i with
  | zero => rfl
  | succ n ih =>
    obtain ⟨f, rfl, hf⟩ := h
    have hrest : p.Endless (f 1) := ⟨fun n => f (n + 1), rfl, fun n => hf (n + 1)⟩
    rw [ancestorsWithin_of_super ((hl _ _).2 (hf 0)), List.length_cons, ih hrest]

end Program.Endless

/-- One class more than there are in the program is walked on an endless way up, and on no other. -/
theorem isCyclic_iff_endless (hl : Linked p a) (hsize : a.classes.size = p.classes.length)
    (hsupers : ∀ c ∈ p.classes, ∀ n, c.superName = some n → n ∈ p.classes.map (·.name)) (hc : p.classes[i]? = some c) :
    a.isCyclic i = true ↔ p.Endless i := by
  simp only [Analysis.isCyclic, decide_eq_true_eq]
  constructor
  · intro hlong
    rcases Program.lineage_or_endless hsupers hc with ⟨line, hline⟩ | h
    · have hle := hline.length_le hl hsize
      rw [hline.length_ancestorsWithin hl] at hlong
      omega
    · exact h
  · intro h
    rw [h.length_ancestorsWithin hl]
    exact Nat.lt_succ_self _

/-! ## What linking refuses -/

theorem fails_checkAcyclic (h : w.analysis.isCyclic index = true) :
    Fails (checkAcyclic (c, index)) w ⟨.cyclicInheritance c.name, some c.span⟩ w := by
  unfold checkAcyclic
  rw [fails_analysis_bind, if_pos h, Fails.throw_iff]
  exact ⟨rfl, rfl⟩

/-- The first class with an endless way up is the one refused. -/
theorem fails_checkAll (hc : p.classes[i]? = some c) (hbefore : ∀ j < i, w.analysis.isCyclic j = false)
    (h : w.analysis.isCyclic i = true) :
    Fails (forM p.classes.zipIdx checkAcyclic) w ⟨.cyclicInheritance c.name, some c.span⟩ w := by
  apply Fails.forM_zipIdx hc
  · intro j d hj hd
    rw [Nat.zero_add]
    exact exists_checkAcyclic (hbefore j hj)
  · rw [Nat.zero_add]
    exact fails_checkAcyclic h

theorem fails_declareSlot {scope : ScopeId} {made : List VarId} {d : Declaration}
    (h : Fails (declareSlot scope made d) w e w') : e.fault = .duplicateDeclaration d.name := by
  unfold declareSlot at h
  rw [fails_analysis_bind] at h
  simp only at h
  split at h
  · simp only [Fails.bind_iff, Fails.throw_iff, Runs.throw_iff, false_and, exists_false, or_false] at h
    rw [h.1]
  · simp only [Fails.bind_iff, fails_onScopes, Fails.pure_iff, and_false, exists_false, or_false] at h

theorem fails_declareSlots {scope : ScopeId} {ds : List Declaration} (h : Fails (declareSlots scope ds) w e w') :
    ∃ name, e.fault = .duplicateDeclaration name := by
  unfold declareSlots at h
  simp only [Fails.bind_iff, fails_onScopes, Fails.pure_iff, and_false, exists_false, or_false] at h
  obtain ⟨d, -, made, w₁, hd⟩ := Fails.of_foldlM h
  exact ⟨d.name, fails_declareSlot hd⟩

/-- Layout refuses nothing but a name declared twice. -/
theorem fails_layOutClass {entry : ClassDefinition × Nat} (h : Fails (layOutClass p entry) w e w') :
    ∃ name, e.fault = .duplicateDeclaration name := by
  unfold layOutClass at h
  rw [fails_analysis_bind] at h
  split at h
  · simp at h
  · simp only [Fails.bind_iff, fails_update, fails_tell, and_false, exists_false, or_false, false_or] at h
    rcases h with h | ⟨_, w₁, -, _, w₂, -, h⟩
    · exact fails_declareSlots h
    · exact fails_declareSlots h

/-! ## Superclasses during layout -/

instance : Std.Refl SameSupers := ⟨fun _ => ⟨rfl, fun _ => rfl⟩⟩

instance : IsTrans Analysis SameSupers := ⟨fun _ _ _ => SameSupers.trans⟩

theorem leaves_declareSlots (scope : ScopeId) (ds : List Declaration) : Leaves SameSupers (declareSlots scope ds) := by
  have hscopes : ∀ {α : Type} (g : ScopeTree → α × ScopeTree), Leaves SameSupers (onScopes g) := fun g =>
    .onScopes fun a => ⟨rfl, fun _ => rfl⟩
  unfold declareSlots
  refine .bind (.foldlM (fun made d _ => ?_) []) fun vars => .bind (hscopes _) fun _ => .pure vars
  unfold declareSlot
  refine .bind .analysis fun a => ?_
  dsimp only
  split
  · exact .bind (.throw _) fun _ => .bind (hscopes _) fun var => .pure _
  · exact .bind (hscopes _) fun var => .pure _

/-- Whether or not it succeeds, the superclasses stay what they were. -/
theorem leaves_layOutClass (p : Program) (entry : ClassDefinition × Nat) : Leaves SameSupers (layOutClass p entry) := by
  unfold layOutClass
  refine .bind .analysis fun a => ?_
  dsimp only
  split
  · exact .pure _
  · next info _ =>
    exact .bind (leaves_declareSlots _ _) fun vars =>
      .bind (.update fun a => sameSupers_withSlots a a.scopes entry.2 false vars) fun _ =>
      .bind (leaves_declareSlots _ _) fun vars' =>
      .bind (.update fun a => sameSupers_withSlots a a.scopes entry.2 true vars') fun _ => .tell _

/-! ## Detection is exact -/

theorem exists_linked (hsupers : ∀ c ∈ p.classes, ∀ n, c.superName = some n → n ∈ p.classes.map (·.name))
    (hfresh : w.analysis = .fresh) (hr : Runs (register p) w ⟨⟩ w') :
    ∃ w₁, Runs (forM p.classes.zipIdx linkClass) w' ⟨⟩ w₁ ∧ w₁.analysis.classes.size = p.classes.length ∧
      Linked p w₁.analysis := by
  obtain ⟨ho, hsize, hnone⟩ := outline_register hfresh hr
  obtain ⟨w₁, h₁⟩ := exists_linkAll hsupers ho hsize hnone
  obtain ⟨ho₁, hsize₁, hl⟩ := linked_linkAll ho hsize hnone h₁
  exact ⟨w₁, h₁, hsize₁, fun i j => hl.super_iff ho₁ hsize₁⟩

theorem fails_link_of_cyclic (h : Runs (forM p.classes.zipIdx linkClass) w ⟨⟩ w') (hc : p.classes[i]? = some c)
    (hbefore : ∀ j < i, w'.analysis.isCyclic j = false) (hcyclic : w'.analysis.isCyclic i = true) :
    Fails (link p) w ⟨.cyclicInheritance c.name, some c.span⟩ w' := by
  unfold link
  simp only [List.forM_eq_forM]
  exact Fails.bind_iff.2 (.inr ⟨⟨⟩, w', h, Fails.bind_iff.2 (.inl (fails_checkAll hc hbefore hcyclic))⟩)

/-- Without a cycle the checks pass, and what is left is layout. -/
theorem link_of_acyclic (h : Runs (forM p.classes.zipIdx linkClass) w ⟨⟩ w')
    (hacyclic : ∀ i < p.classes.length, w'.analysis.isCyclic i = false) :
    SameSupers w'.analysis ((link p).workAfter w).analysis ∧
      ∀ e w'', Fails (link p) w e w'' → ∃ name, e.fault = .duplicateDeclaration name := by
  have hchecks := runs_checkAll hacyclic
  unfold link
  simp only [List.forM_eq_forM]
  constructor
  · rw [workAfter_bind h, workAfter_bind hchecks]
    exact Leaves.forM (fun entry _ => leaves_layOutClass p entry) w'
  · intro e w'' hfails
    rcases Fails.bind_iff.1 hfails with hfails | ⟨_, w₁, hr, hfails⟩
    · exact absurd h hfails.not_runs
    · obtain ⟨-, rfl⟩ := h.unique hr
      rcases Fails.bind_iff.1 hfails with hfails | ⟨_, w₂, hr, hfails⟩
      · exact absurd hchecks hfails.not_runs
      · obtain ⟨entry, -, _, hentry⟩ := Fails.of_forM hfails
        exact fails_layOutClass hentry

end

/-- Where every superclass is there, `link` refuses a program as cyclic exactly if some way up is endless. It names the
first class that has one; if none has, every way up is a lineage, and the walk over superclasses reaches its end. -/
theorem link_cyclic_iff_endless {p : Program} {w₀ w : Work} (hfresh : w₀.analysis = .fresh)
    (hregister : Runs (register p) w₀ ⟨⟩ w)
    (hsupers : ∀ c ∈ p.classes, ∀ n, c.superName = some n → n ∈ p.classes.map (·.name)) :
    ((∃ name span w', Fails (link p) w ⟨.cyclicInheritance name, span⟩ w') ↔ ∃ i, p.Endless i) ∧
    (∀ i, p.Endless i → (∀ j < i, ¬ p.Endless j) → ∃ c w', p.classes[i]? = some c ∧
      Fails (link p) w ⟨.cyclicInheritance c.name, some c.span⟩ w') ∧
    ((∀ i, ¬ p.Endless i) → ∀ a, a = ((link p).workAfter w).analysis → ∀ i < p.classes.length,
      ∃ line, p.Lineage i line ∧ line.length ≤ p.classes.length ∧
        (a.ancestors i).map (fun j => p.classes[j]?) = line.map some ∧
        ∀ n, p.classes.length ≤ n → a.ancestorsWithin n i = a.ancestors i) := by
  obtain ⟨w₁, h₁, hsize, hlinked⟩ := exists_linked hsupers hfresh hregister
  have hcyclic : ∀ i < p.classes.length, (w₁.analysis.isCyclic i = true ↔ p.Endless i) := fun i hi =>
    isCyclic_iff_endless hlinked hsize hsupers (List.getElem?_eq_getElem hi)
  have hacyclic : (∀ i, ¬ p.Endless i) → ∀ i < p.classes.length, w₁.analysis.isCyclic i = false := fun hno i hi =>
    Bool.eq_false_iff.2 fun h => hno i ((hcyclic i hi).1 h)
  have hfirst : ∀ i, p.Endless i → (∀ j < i, ¬ p.Endless j) → ∃ c w', p.classes[i]? = some c ∧
      Fails (link p) w ⟨.cyclicInheritance c.name, some c.span⟩ w' := by
    intro i hi hbefore
    obtain ⟨c, hc⟩ := hi.getElem?
    have hlt := (List.getElem?_eq_some_iff.1 hc).1
    refine ⟨c, w₁, hc, fails_link_of_cyclic h₁ hc (fun j hj => ?_) ((hcyclic i hlt).2 hi)⟩
    exact Bool.eq_false_iff.2 fun h => hbefore j hj ((hcyclic j (by omega)).1 h)
  refine ⟨⟨?_, ?_⟩, hfirst, ?_⟩
  · rintro ⟨name, span, w', hfails⟩
    by_contra hno
    obtain ⟨name', hfault⟩ := (link_of_acyclic h₁ (hacyclic (not_exists.1 hno))).2 _ _ hfails
    cases hfault
  · intro h
    classical
    obtain ⟨c, w', -, hfails⟩ := hfirst (Nat.find h) (Nat.find_spec h) fun j hj => Nat.find_min h hj
    exact ⟨c.name, some c.span, w', hfails⟩
  · rintro hno a rfl i hi
    obtain ⟨hsame, -⟩ := link_of_acyclic h₁ (hacyclic hno)
    have hl : Linked p ((link p).workAfter w).analysis := fun i j => by rw [hsame.supers, hlinked]
    have hsize' : ((link p).workAfter w).analysis.classes.size = p.classes.length := by rw [hsame.size, hsize]
    rcases Program.lineage_or_endless hsupers (List.getElem?_eq_getElem hi) with ⟨line, hline⟩ | h
    · have hlen := hline.length_le hl hsize'
      refine ⟨line, hline, hlen, hline.ancestors hl (by omega), fun n hn => ?_⟩
      exact hline.ancestorsWithin_eq hl (by omega) (by omega)
    · exact absurd h (hno i)

/-- Bare classes, each with the name of its superclass. -/
def Program.bare (classes : List (String × Option String)) : Program where
  arena := .empty
  classes := classes.zipIdx.map fun ((name, superName), i) =>
    { name, superName, superSpan := .point ⟨i, i + 1, 1⟩, instanceVars := [], classVars := [], instanceMethods := [],
      classMethods := [], span := .point ⟨i, i + 1, 1⟩ }

/-- A stage that succeeds, as far as can be seen from its outcome. -/
theorem exists_runs {α : Type} {m : Stage α} {w : Work} (h : ((ExceptT.run m).run w).1.toOption.isSome = true) :
    ∃ x w', Runs m w x w' := by
  rcases Fails.or_runs m w with hr | ⟨e, w', hf⟩
  · exact hr
  · rw [show (ExceptT.run m).run w = (.error e, w') from hf] at h
    cases h

/-- A class that leads into a cycle is refused for it without being on it, and a chain of all classes is walked to its end. -/
theorem link_cyclic_iff_endless_leading :
    (∃ w w', Runs (register (.bare [("A", some "B"), ("B", some "C"), ("C", some "B")])) ⟨.fresh, #[]⟩ ⟨⟩ w ∧
      Fails (link (.bare [("A", some "B"), ("B", some "C"), ("C", some "B")])) w
        ⟨.cyclicInheritance "A", some (.point ⟨0, 1, 1⟩)⟩ w') ∧
    ∃ w a, Runs (register (.bare [("C", some "B"), ("B", some "A"), ("A", none)])) ⟨.fresh, #[]⟩ ⟨⟩ w ∧
      a = ((link (.bare [("C", some "B"), ("B", some "A"), ("A", none)])).workAfter w).analysis ∧
      a.ancestorsWithin 7 0 = a.ancestors 0 := by
  constructor
  · obtain ⟨_, w, hr⟩ := exists_runs (m := register (.bare [("A", some "B"), ("B", some "C"), ("C", some "B")]))
      (w := ⟨.fresh, #[]⟩) (by decide +kernel)
    obtain ⟨-, hfirst, -⟩ := link_cyclic_iff_endless rfl hr (by decide +kernel)
    have hendless : (Program.bare [("A", some "B"), ("B", some "C"), ("C", some "B")]).Endless 0 := by
      refine ⟨fun n => if n = 0 then 0 else 2 - n % 2, rfl, fun n => ?_⟩
      cases n with
      | zero => exact ⟨_, _, rfl, rfl, rfl⟩
      | succ n =>
        simp only [Nat.add_eq_zero_iff, Nat.one_ne_zero, and_false, if_false]
        rcases Nat.mod_two_eq_zero_or_one n with h | h
        · rw [show (n + 1) % 2 = 1 by omega, show (n + 1 + 1) % 2 = 0 by omega]
          exact ⟨_, _, rfl, rfl, rfl⟩
        · rw [show (n + 1) % 2 = 0 by omega, show (n + 1 + 1) % 2 = 1 by omega]
          exact ⟨_, _, rfl, rfl, rfl⟩
    obtain ⟨c, w', hc, hfails⟩ := hfirst 0 hendless fun j hj => absurd hj (Nat.not_lt_zero j)
    cases hc
    exact ⟨w, w', hr, hfails⟩
  · obtain ⟨_, _, h⟩ := exists_runs (w := ⟨.fresh, #[]⟩) (m := do
      register (.bare [("C", some "B"), ("B", some "A"), ("A", none)])
      link (.bare [("C", some "B"), ("B", some "A"), ("A", none)])) (by decide +kernel)
    obtain ⟨_, w, hr, hk⟩ := Runs.bind_iff.1 h
    obtain ⟨hiff, -, hends⟩ := link_cyclic_iff_endless rfl hr (by decide +kernel)
    have hnone : ∀ i, ¬ (Program.bare [("C", some "B"), ("B", some "A"), ("A", none)]).Endless i := by
      intro i hi
      obtain ⟨_, _, _, hfails⟩ := hiff.2 ⟨i, hi⟩
      exact hfails.not_runs hk
    obtain ⟨_, -, -, -, hwalk⟩ := hends hnone _ rfl 0 (by decide)
    exact ⟨w, _, hr, rfl, hwalk 7 (by decide)⟩

end BlockScope
