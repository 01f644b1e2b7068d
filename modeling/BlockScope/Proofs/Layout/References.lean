import BlockScope.Proofs.Analysis.InlinedSlots
import BlockScope.Proofs.Layout.Frames
/-!
# References between frames

A closure is created by the nearest method or closure around it, its creator, and what it is handed its creator must have
at hand. A heap record or a value that a closure is handed belongs to a frame of the same method around it; and the
creator is the owner, or is handed the same itself, since every use that passes the closure passes its creator too. So
the names in a layout are those of frames of the layout.
-/
namespace BlockScope

/-- The scope creates the closure: it is the nearest one around it that is no inlined block. -/
def ScopeTree.Creates (t : ScopeTree) (creator x : ScopeId) : Prop := ∃ outer, t.outer? x = some outer ∧ t.realScope outer = creator

/-- What belongs to a method or closure around another one, in the same method, is at hand where that one is created: its
creator is the owner, or is handed it. -/
structure ScopeTree.AtHand (t : ScopeTree) (x owner : ScopeId) (handed : ScopeId → Prop) : Prop where
  around : t.Within x owner ∧ x ≠ owner
  framed : t.hasFrame owner ∧ t.methodOf owner = t.methodOf x
  created : ∃ creator, t.Creates creator x ∧ t.hasFrame creator ∧ t.methodOf creator = t.methodOf x ∧
    (creator = owner ∨ handed creator)

theorem ScopeTree.AtHand.imp {t : ScopeTree} {x owner : ScopeId} {P Q : ScopeId → Prop} (h : t.AtHand x owner P)
    (himp : ∀ creator, P creator → Q creator) : t.AtHand x owner Q := by
  obtain ⟨haround, hframed, creator, hcreates, hframe, hsame, hor⟩ := h
  exact ⟨haround, hframed, creator, hcreates, hframe, hsame, hor.imp_right (himp creator)⟩

namespace Resolved
variable {p : Program} {a : Analysis} {x y M : ScopeId}

theorem method_of_code (h : Resolved p a) (hx : a.scopes.IsCode x) :
    ∃ M, a.scopes.methodOf x = some M ∧ a.scopes.scopeIs (·.isMethod) M ∧ a.scopes.Within x M := by
  obtain ⟨openers, hplaced⟩ := h.placed_of_code hx
  obtain ⟨cls, place, M, -, -, hmethod, hwithin, hmethodOf⟩ := h.method_of_placed hplaced
  exact ⟨M, hmethodOf, hmethod, hwithin⟩

/-- Code around code lies in the same method. -/
theorem methodOf_of_within (h : Resolved p a) (hx : a.scopes.IsCode x) (hy : a.scopes.IsCode y) (hw : a.scopes.Within x y) :
    a.scopes.methodOf y = a.scopes.methodOf x := by
  obtain ⟨M, hM, hmethod, hwithin⟩ := h.method_of_code hx
  obtain ⟨M', hM', hmethod', hwithin'⟩ := h.method_of_code hy
  have hcode : ∀ {s}, a.scopes.scopeIs (·.isMethod) s → a.scopes.IsCode s :=
    fun hs => ScopeTree.isCode_of_hasFrame (by simp [ScopeTree.hasFrame, hs])
  rw [hM, hM']
  rcases hwithin.total (hw.trans hwithin') with hw' | hw'
  · rw [h.eq_of_around_method hmethod hw' (hcode hmethod')]
  · rw [h.eq_of_around_method hmethod' hw' (hcode hmethod)]

/-! ## Creators -/

/-- A closure has a creator: a method or closure around it. -/
theorem creator (h : Resolved p a) (hx : a.scopes.scopeIs (·.isTrueBlock) x) :
    ∃ outer creator, a.scopes.outer? x = some outer ∧ a.scopes.HostedBy outer creator ∧ a.scopes.hasFrame creator := by
  have hcode := ScopeTree.isCode_of_hasFrame (t := a.scopes) (s := x) (by simp [ScopeTree.hasFrame, hx])
  obtain ⟨openers, hplaced⟩ := h.placed_of_code hcode
  cases hplaced with
  | method _ _ _ hentered =>
    have hmethod := hentered.scopeIs (· = some .method)
    rw [show a.scopes.scopeIs (fun s => s.codeKind? = some .method) x = false from
      ScopeTree.not_method_of_block (.inl hx)] at hmethod
    cases hmethod
  | @block b code role _ S outer _ _ hentered hrest =>
    obtain ⟨o, k, f, hS⟩ := hrest.isCode
    obtain ⟨creator, f', hhost, hf'⟩ := h.wf.hosted S o k f hS
    refine ⟨S, creator, hentered.outer?_eq, hhost, ?_⟩
    rw [ScopeTree.hasFrame, Bool.or_eq_true]
    exact ScopeTree.method_or_trueBlock hf' hhost.not_inlined

end Resolved

/-- Between a closure and its creator there are inlined blocks only, so nothing else lies between them. -/
theorem ScopeTree.HostedBy.within_of_around {t : ScopeTree} {o creator D : ScopeId} (hn : t.Nested) (h : t.HostedBy o creator)
    (hw : t.Within o D) (hD : t.scopeIs (·.isInlined) D = false) : t.Within creator D := by
  rcases h.within.total hw with hin | hout
  · exact hin
  · by_cases heq : D = creator
    · rw [heq]
      exact .refl _
    · rw [h.inlined_of_between hn ⟨hw, hout, heq⟩] at hD
      cases hD

theorem ScopeTree.not_inlined_of_hasFrame {t : ScopeTree} {s : ScopeId} (h : t.hasFrame s) : t.scopeIs (·.isInlined) s = false := by
  obtain ⟨o, k, f, hs⟩ := isCode_of_hasFrame h
  rw [hasFrame, scopeIs_of_scope hs, scopeIs_of_scope hs] at h
  rw [scopeIs_of_scope hs]
  cases k with
  | method | block => rfl
  | inlinedBlock => cases h

/-- A use that passes a closure passes its creator, unless the creator owns what is used. -/
theorem Resolved.atHand {p : Program} {a : Analysis} {x : ScopeId} {e : NodeId} {v : Variable} {y : VarId} (h : Resolved p a)
    (hpass : p.Passes a e y x) (hv : a.scopes.var? y = some v) (hx : a.scopes.scopeIs (·.isTrueBlock) x)
    (hD : a.scopes.hasFrame v.scope) :
    a.scopes.AtHand x v.scope fun creator => a.scopes.scopeIs (·.isTrueBlock) creator ∧ p.Passes a e y creator := by
  obtain ⟨hident, hrefers, U, v', hU, hv', hstart, hstop, hne⟩ := hpass
  rw [hv] at hv'
  cases hv'
  have hcode := ScopeTree.isCode_of_hasFrame (t := a.scopes) (s := x) (by simp [ScopeTree.hasFrame, hx])
  obtain ⟨outer, creator, houter, hhost, hcreator⟩ := h.creator hx
  have hup : a.scopes.Within x creator := .outer houter hhost.within
  refine ⟨⟨hstop, hne⟩, ⟨hD, h.methodOf_of_within hcode (ScopeTree.isCode_of_hasFrame hD) hstop⟩, creator,
    ⟨outer, houter, hhost.realScope_eq h.wf.nested⟩, hcreator,
    h.methodOf_of_within hcode (ScopeTree.isCode_of_hasFrame hcreator) hup, ?_⟩
  obtain heq | ⟨o, ho, hw⟩ := hstop.cases_outer
  · exact absurd heq.symm hne
  rw [houter] at ho
  cases ho
  have hin := hhost.within_of_around h.wf.nested hw (ScopeTree.not_inlined_of_hasFrame hD)
  by_cases heq : creator = v.scope
  · exact .inl heq
  · right
    refine ⟨?_, hident, hrefers, U, v, hU, hv, hstart.trans hup, hin, heq⟩
    rcases (Bool.or_eq_true _ _).mp hcreator with hmethod | htrue
    · exact absurd (h.eq_of_around_method hmethod hin (ScopeTree.isCode_of_hasFrame hD)).symm heq
    · exact htrue

/-! ## In the end -/

/-- What is stored is listed by the frame that owns it. -/
theorem ScopeTree.Owned.frame_of_stored {t : ScopeTree} {x : VarId} {v : Variable} (h : t.Owned) (hv : t.var? x = some v)
    (hk : v.kind.IsStored) :
    ∃ f, t.frame? v.scope = some f ∧ x ∈ if v.kind = .heap then f.heapvars else f.arguments ++ f.locals := by
  obtain ⟨⟨o, body⟩, hs, he⟩ := mem_owners.1 ((h.mem_owners_iff hv).2 ⟨rfl, rfl⟩)
  cases body with
  | root members => rcases hk with hk | hk | hk <;> simp [Scope.owned, hk] at he
  | side i side receiver slots => rcases hk with hk | hk | hk <;> simp [Scope.owned, hk] at he
  | code k f =>
    refine ⟨f, frame?_of_scope hs, ?_⟩
    rcases hk with hk | hk | hk <;> simp [Scope.owned, hk] at he ⊢ <;> simp [he]

namespace Analyzed
variable {p : Program} {a b : Analysis} {x D : ScopeId} {e : NodeId} {w : Variable} {var : VarId} {P : ScopeId → Prop}

theorem methodOf_eq (h : Analyzed p a b) (s : ScopeId) : b.scopes.methodOf s = a.scopes.methodOf s := by
  unfold ScopeTree.methodOf
  rw [h.converts.shape.chain h.resolved.wf.nested, funext h.converts.shape.isMethod]

theorem atHand_of_resolved (h : Analyzed p a b) (hx : a.scopes.AtHand x D P) : b.scopes.AtHand x D P := by
  obtain ⟨⟨hwithin, hne⟩, hframed, creator, ⟨outer, houter, hreal⟩, hcreator, hsame, hor⟩ := hx
  refine ⟨⟨h.converts.shape.within.2 hwithin, hne⟩, ?_, creator, ⟨outer, ?_, ?_⟩, ?_, ?_, hor⟩
  · rw [h.hasFrame_eq, h.methodOf_eq, h.methodOf_eq]
    exact hframed
  · rw [h.converts.shape.outer?, houter]
  · rw [h.realScope_eq, hreal]
  · rw [h.hasFrame_eq, hcreator]
  · rw [h.methodOf_eq, h.methodOf_eq, hsame]

/-- What is stored belongs to a method or a closure. -/
theorem hasFrame_of_stored (h : Analyzed p a b) (hw : b.scopes.var? var = some w) (hk : w.kind.IsStored) :
    b.scopes.hasFrame w.scope := by
  obtain ⟨f, hf, hmem⟩ := h.owned.frame_of_stored hw hk
  have hno : b.scopes.scopeIs (·.isInlined) w.scope = false := by
    rw [Bool.eq_false_iff]
    intro hinlined
    obtain ⟨f', hf', honly⟩ := h.namesOnly hinlined
    rw [hf] at hf'
    cases hf'
    obtain ⟨hargs, hlocals, hheap⟩ := honly.storage
    simp [hargs, hlocals, hheap] at hmem
  exact (Bool.or_eq_true _ _).mpr (ScopeTree.method_or_trueBlock hf hno)

theorem atHand (h : Analyzed p a b) (hpass : p.Passes b e var x) (hw : b.scopes.var? var = some w) (hk : w.kind.IsStored)
    (hx : b.scopes.scopeIs (·.isTrueBlock) x) :
    b.scopes.AtHand x w.scope fun creator => b.scopes.scopeIs (·.isTrueBlock) creator ∧ p.Passes b e var creator := by
  have hframe := h.hasFrame_of_stored hw hk
  obtain ⟨v, hv, kind, rfl⟩ := h.var_of_var hw
  rw [h.converts.shape.isTrueBlock] at hx
  rw [h.hasFrame_eq] at hframe
  refine (h.atHand_of_resolved (h.resolved.atHand (h.passes_iff.1 hpass) hv hx hframe)).imp fun creator ⟨htrue, hpass⟩ => ?_
  exact ⟨by rw [h.converts.shape.isTrueBlock, htrue], h.passes_iff.2 hpass⟩

/-- A heap record that a closure is handed is one of a method or closure around it, and its creator has it. -/
theorem record_at_hand (h : Analyzed p a b) (hD : D ∈ b.scopes.recordsOf x) :
    (∃ f, b.scopes.frame? D = some f ∧ f.heapvars ≠ []) ∧ b.scopes.AtHand x D (D ∈ b.scopes.recordsOf ·) := by
  obtain ⟨-, -, hrecords, -⟩ := h.records_values x
  obtain ⟨hx, e, y, w, hpass, hw, hheap, rfl⟩ := (hrecords D).1 hD
  obtain ⟨f, hf, hmem⟩ := h.owned.frame_of_stored hw (.inr (.inr hheap))
  rw [if_pos hheap] at hmem
  refine ⟨⟨f, hf, List.ne_nil_of_mem hmem⟩, (h.atHand hpass hw (.inr (.inr hheap)) hx).imp fun creator ⟨htrue, hpass⟩ => ?_⟩
  obtain ⟨-, -, hrecords, -⟩ := h.records_values creator
  exact (hrecords w.scope).2 ⟨htrue, e, y, w, hpass, hw, hheap, rfl⟩

/-- A value that a closure is handed is an argument or local of a method or closure around it, and its creator has it. -/
theorem value_at_hand (h : Analyzed p a b) (hy : var ∈ b.scopes.valuesOf x) : ∃ w f, b.scopes.var? var = some w ∧
    b.scopes.frame? w.scope = some f ∧ var ∈ f.arguments ++ f.locals ∧
      b.scopes.AtHand x w.scope (var ∈ b.scopes.valuesOf ·) := by
  obtain ⟨-, -, -, hvalues⟩ := h.records_values x
  obtain ⟨hx, e, w, hpass, hw, hkind, hread⟩ := (hvalues var).1 hy
  have hstored : w.kind.IsStored := hkind.imp_right .inl
  obtain ⟨f, hf, hmem⟩ := h.owned.frame_of_stored hw hstored
  rw [if_neg (by rcases hkind with hk | hk <;> simp [hk])] at hmem
  refine ⟨w, f, hw, hf, hmem, (h.atHand hpass hw hstored hx).imp fun creator ⟨htrue, hpass⟩ => ?_⟩
  obtain ⟨-, -, -, hvalues⟩ := h.records_values creator
  exact (hvalues var).2 ⟨htrue, e, w, hpass, hw, hkind, hread⟩

end Analyzed

/-! ## In a layout -/

/-- Among the frames of one method, `owner` is around `f`, and the closure of `f` is created in `creator`. -/
structure FrameLayout.CreatedIn (t : ScopeTree) (frames : List FrameLayout) (f owner creator : FrameLayout) : Prop where
  owner_mem : owner ∈ frames
  creator_mem : creator ∈ frames
  around : t.Within f.scope owner.scope ∧ f.scope ≠ owner.scope
  creates : t.Creates creator.scope f.scope

/-- The text names the heap record of a frame around `f`, and where `f` is created the record is at hand under that name. -/
def FrameLayout.GetsRecord (t : ScopeTree) (frames : List FrameLayout) (f : FrameLayout) (D : ScopeId) (text : String) : Prop :=
  ∃ owner creator, f.CreatedIn t frames owner creator ∧ owner.scope = D ∧ owner.heapvarsName = some text ∧
    text = heapvarsNameOf owner.name ∧ (creator = owner ∨ D ∈ t.recordsOf creator.scope ∧ text ∈ creator.usingHeapvarsFrom)

/-- The text names an argument or local of a frame around `f`, and where `f` is created its value is at hand under that
name. -/
def FrameLayout.GetsValue (t : ScopeTree) (frames : List FrameLayout) (f : FrameLayout) (x : VarId) (text : String) : Prop :=
  ∃ owner creator v, f.CreatedIn t frames owner creator ∧ t.var? x = some v ∧ owner.scope = v.scope ∧
    v.name ∈ owner.arguments ++ owner.locals ∧ text = owner.name ++ v.name ∧
    (creator = owner ∨ x ∈ t.valuesOf creator.scope ∧ text ∈ creator.copyingVars)

/-- The frames of one method: its own and then those of the closures in its body, under their names, and for each of them
what it is handed. -/
structure Program.FramesOf (p : Program) (a : Analysis) (info : ClassInfo) (className : String) (m : Method) (s : ScopeId)
    (frames : List FrameLayout) : Prop where
  made : p.MadeForMethod a info m s
  scopes : frames.map (·.scope) = s :: p.closures a m
  all : ∀ x, x ∈ frames.map (·.scope) ↔ a.scopes.hasFrame x ∧ a.scopes.methodOf x = some s
  names : frames.map (·.name) = m.entryPoint className ::
    (p.closures a m).zipIdx.map (closureName a.scopes (m.entryPoint className))
  records : ∀ f ∈ frames, List.Forall₂ (f.GetsRecord a.scopes frames) (a.scopes.recordsOf f.scope) f.usingHeapvarsFrom
  values : ∀ f ∈ frames, List.Forall₂ (f.GetsValue a.scopes frames) (a.scopes.valuesOf f.scope) f.copyingVars

section
variable {t : ScopeTree} {x : ScopeId} (names : FrameNames)

theorem frameLayout_records :
    (frameLayout t names x).usingHeapvarsFrom = (t.recordsOf x).map fun D => heapvarsNameOf (names.nameOf D) := by
  unfold frameLayout ScopeTree.recordsOf
  cases t.frame? x <;> rfl

theorem frameLayout_values : (frameLayout t names x).copyingVars =
    (t.valuesOf x).filterMap fun id => (t.var? id).map fun v => names.nameOf v.scope ++ v.name := by
  unfold frameLayout ScopeTree.valuesOf
  cases t.frame? x <;> rfl

theorem ScopeTree.AtHand.createdIn {owner s : ScopeId} {handed : ScopeId → Prop} {framed : List ScopeId}
    (h : t.AtHand x owner handed) (hall : ∀ x, x ∈ framed ↔ t.hasFrame x ∧ t.methodOf x = some s) (hx : x ∈ framed) :
    ∃ creator, (frameLayout t names x).CreatedIn t (framed.map (frameLayout t names)) (frameLayout t names owner)
      (frameLayout t names creator) ∧ (creator = owner ∨ handed creator) := by
  obtain ⟨haround, ⟨howner, hsame⟩, creator, hcreates, hframe, hsame', hor⟩ := h
  obtain ⟨-, hmethod⟩ := (hall x).1 hx
  have hmem : ∀ {y}, t.hasFrame y → t.methodOf y = t.methodOf x → frameLayout t names y ∈ framed.map (frameLayout t names) :=
    fun {y} hy hsame => List.mem_map_of_mem ((hall y).2 ⟨hy, by rw [hsame, hmethod]⟩)
  exact ⟨creator, ⟨hmem howner hsame, hmem hframe hsame', haround, hcreates⟩, hor⟩

end

theorem forall₂_filterMap {α β : Type} {R : α → β → Prop} {f : α → Option β} {l : List α}
    (h : ∀ x ∈ l, ∃ y, f x = some y ∧ R x y) : List.Forall₂ R l (l.filterMap f) := by
  induction l with
  | nil => exact .nil
  | cons x l ih =>
    obtain ⟨y, hy, hR⟩ := h x List.mem_cons_self
    rw [List.filterMap_cons_some hy]
    exact .cons hR (ih fun z hz => h z (List.mem_cons_of_mem _ hz))

/-- A method and its closures are the scopes with a frame that the method is around. -/
theorem Resolved.mem_framed {p : Program} {a : Analysis} {i : Nat} {m : Method} {s x : ScopeId} (h : Resolved p a)
    (hscope : p.IsMethodScope a i m s) :
    x ∈ s :: p.closures a m ↔ a.scopes.hasFrame x ∧ a.scopes.methodOf x = some s := by
  have hself : ∀ {y}, a.scopes.scopeIs (·.isMethod) y → a.scopes.methodOf y = some y := fun {y} hy =>
    h.wf.nested.methodOf_eq (.refl y) hy fun z ⟨hin, hout, hne⟩ => absurd (hin.antisymm h.wf.nested hout).symm hne
  rw [List.mem_cons, h.mem_closures hscope, ScopeTree.hasFrame, Bool.or_eq_true]
  obtain ⟨place, hm, hs⟩ := hscope
  have hmethod := h.isMethod_of_scope hm hs
  constructor
  · rintro (rfl | ⟨htrue, hof⟩)
    · exact ⟨.inl hmethod, hself hmethod⟩
    · exact ⟨.inr htrue, hof⟩
  · rintro ⟨hx | hx, hof⟩
    · rw [hself hx] at hof
      exact .inl (Option.some.inj hof)
    · exact .inr ⟨hx, hof⟩

namespace Analyzed
variable {p : Program} {a b : Analysis} {names : FrameNames} {framed : List ScopeId} {x D s : ScopeId} {y : VarId}

theorem mem_framed {i : Nat} {m : Method} (h : Analyzed p a b) (hscope : p.IsMethodScope a i m s) :
    x ∈ s :: p.closures b m ↔ b.scopes.hasFrame x ∧ b.scopes.methodOf x = some s := by
  rw [h.closures_eq, h.hasFrame_eq, h.methodOf_eq]
  exact h.resolved.mem_framed hscope

theorem getsRecord (h : Analyzed p a b) (hall : ∀ x, x ∈ framed ↔ b.scopes.hasFrame x ∧ b.scopes.methodOf x = some s)
    (hx : x ∈ framed) (hD : D ∈ b.scopes.recordsOf x) :
    (frameLayout b.scopes names x).GetsRecord b.scopes (framed.map (frameLayout b.scopes names)) D
      (heapvarsNameOf (names.nameOf D)) := by
  obtain ⟨⟨f, hf, hne⟩, hat⟩ := h.record_at_hand hD
  obtain ⟨creator, hcreated, hor⟩ := hat.createdIn names hall hx
  have hname : (frameLayout b.scopes names D).heapvarsName = some (heapvarsNameOf (names.nameOf D)) := by
    simp [frameLayout, hf, hne]
  refine ⟨_, _, hcreated, rfl, hname, rfl, ?_⟩
  rcases hor with rfl | hmem
  · exact .inl rfl
  · refine .inr ⟨hmem, ?_⟩
    rw [frameLayout_records]
    exact List.mem_map_of_mem hmem

theorem getsValue (h : Analyzed p a b) (hall : ∀ x, x ∈ framed ↔ b.scopes.hasFrame x ∧ b.scopes.methodOf x = some s)
    (hx : x ∈ framed) (hy : y ∈ b.scopes.valuesOf x) :
    ∃ text, (b.scopes.var? y).map (fun v => names.nameOf v.scope ++ v.name) = some text ∧
      (frameLayout b.scopes names x).GetsValue b.scopes (framed.map (frameLayout b.scopes names)) y text := by
  obtain ⟨v, f, hv, hf, hmem, hat⟩ := h.value_at_hand hy
  obtain ⟨creator, hcreated, hor⟩ := hat.createdIn names hall hx
  have hname : v.name ∈ (f.arguments ++ f.locals).map b.scopes.nameOf :=
    List.mem_map.2 ⟨y, hmem, by simp [ScopeTree.nameOf, hv]⟩
  refine ⟨_, by rw [hv]; rfl, _, _, v, hcreated, hv, rfl, by simpa [frameLayout, hf] using hname, rfl, ?_⟩
  rcases hor with rfl | hmem
  · exact .inl rfl
  · refine .inr ⟨hmem, ?_⟩
    rw [frameLayout_values]
    exact List.mem_filterMap.2 ⟨y, hmem, by rw [hv]; rfl⟩

theorem framesOf {i : Nat} {m : Method} {info : ClassInfo} (h : Analyzed p a b) (hi : b.classes[i]? = some info)
    (hscope : p.IsMethodScope a i m s) (className : String) :
    p.FramesOf b info className m s (methodLayout p b className m s).frames := by
  have hm : m ∈ p.methods := by
    obtain ⟨place, hm, -⟩ := hscope
    exact Program.Forest.mem_methods hm
  have hall : ∀ x, x ∈ s :: p.closures b m ↔ b.scopes.hasFrame x ∧ b.scopes.methodOf x = some s := fun _ => h.mem_framed hscope
  rw [h.frames_of_method hm]
  have hscopes : ∀ names, ((s :: p.closures b m).map (frameLayout b.scopes names)).map (·.scope) = s :: p.closures b m := by
    intro names
    rw [List.map_map]
    exact List.map_id _
  constructor
  case made => exact h.madeForMethod hi hscope
  case scopes => exact hscopes _
  case all =>
    rw [hscopes]
    exact hall
  case names =>
    rw [List.map_map]
    refine map_nameOf b.scopes (m.entryPoint className) ?_
    rw [h.closures_eq]
    exact h.resolved.nodup_framed hscope
  case records =>
    intro f hf
    obtain ⟨x, hx, rfl⟩ := List.mem_map.1 hf
    rw [frameLayout_records, List.forall₂_map_right_iff]
    exact List.forall₂_same.2 fun D hD => h.getsRecord hall hx hD
  case values =>
    intro f hf
    obtain ⟨x, hx, rfl⟩ := List.mem_map.1 hf
    rw [frameLayout_values]
    exact forall₂_filterMap fun y hy => h.getsValue hall hx hy

end Analyzed

/-- A layout has one frame for every method and closure, of each class in the order of its methods and of each method its
own before those of its closures. A heap record or value that a frame is handed is named after a frame around it in the
same method, and the frame that creates the closure owns it or is handed the same. -/
theorem layout_references_resolve {bytes : List UInt8} {p : Program} {a : Analysis} (hp : Program.ofBytes bytes = .ok p)
    (ha : p.analyze = .ok a) :
    ((p.layout a).classes.flatMap (·.frames)).map (·.scope) = a.scopes.ids.filter a.scopes.hasFrame ∧
    a.classes.size = p.classes.length ∧ (p.layout a).classes.length = p.classes.length ∧
    ∀ (i : Nat) (c : ClassDefinition) (info : ClassInfo) (l : ClassLayout), p.classes[i]? = some c →
      a.classes[i]? = some info → (p.layout a).classes[i]? = some l → info.methods.length = c.methods.length ∧
      ∃ parts, l.frames = parts.flatten ∧
        List.Forall₂ (fun x frames => p.FramesOf a info c.name x.1 x.2 frames) (c.methods.zip info.methods) parts := by
  obtain ⟨a₀, h⟩ := analyzed_of_ok hp ha
  refine ⟨h.frame_scopes, h.size_classes, h.length_layout, ?_⟩
  intro i c info l hc hi hl
  obtain ⟨hinstance, hclass⟩ := h.resolved.parallel hc (by rw [← h.classes_eq, hi])
  have hmethods : List.Forall₂ (p.IsMethodScope a₀ i) c.methods info.methods := List.rel_append hinstance hclass
  obtain rfl : classLayout p a c info = l := Option.some.inj ((Program.getElem?_layout hc hi).symm.trans hl)
  refine ⟨hmethods.length_eq.symm, (c.methods.zip info.methods).map fun x => (methodLayout p a c.name x.1 x.2).frames, ?_, ?_⟩
  · rw [classLayout_frames, List.flatMap_def]
  · rw [List.forall₂_map_right_iff]
    exact List.forall₂_same.2 fun x hx => h.framesOf hi ((List.forall₂_iff_zip.1 hmethods).2 hx) c.name

/-- A closure in a loop in a closure: what it is handed from the method its creator is handed too, and a value of the
creator it gets from there. -/
theorem layout_references_resolve_nested : ∃ p a info c m s frames f, Program.ofBytes
      "A : nil [ m: x [ | t | [ 1 to: 2 do: [ :i | [ t := x. i ] ] ] ] class n [ ^ [ self ] ] ]".toUTF8.toList = .ok p ∧
    p.analyze = .ok a ∧ p.FramesOf a info c m s frames ∧ f ∈ frames ∧ f.scope = ⟨6⟩ ∧ a.scopes.Creates ⟨4⟩ ⟨6⟩ ∧
    List.Forall₂ (f.GetsRecord a.scopes frames) [⟨3⟩] ["_i_A__m__heapvars"] ∧
    List.Forall₂ (f.GetsValue a.scopes frames) [⟨3⟩, ⟨5⟩] ["_i_A__m_x", "_i_A__m__MB0i#0"] := by
  obtain ⟨p, a, hp, ha, hcheck⟩ := exists_of_accepted
    "A : nil [ m: x [ | t | [ 1 to: 2 do: [ :i | [ t := x. i ] ] ] ] class n [ ^ [ self ] ] ]".toUTF8
    (fun p a => p.classes[0]?.isSome ∧ a.classes[0]?.isSome ∧ a.scopes.outer? ⟨6⟩ = some ⟨5⟩ ∧ a.scopes.realScope ⟨5⟩ = ⟨4⟩ ∧
      a.scopes.recordsOf ⟨6⟩ = [⟨3⟩] ∧ a.scopes.valuesOf ⟨6⟩ = [⟨3⟩, ⟨5⟩] ∧
      (p.layout a).classes[0]?.any fun l => l.frames[2]?.any fun f => f.scope = ⟨6⟩ ∧
        f.usingHeapvarsFrom = ["_i_A__m__heapvars"] ∧ f.copyingVars = ["_i_A__m_x", "_i_A__m__MB0i#0"])
    (by decide +kernel)
  obtain ⟨hc, hi, houter, hreal, hrecords, hvalues, hcheck⟩ := of_decide_eq_true hcheck
  obtain ⟨c, hc⟩ := Option.isSome_iff_exists.1 hc
  obtain ⟨info, hi⟩ := Option.isSome_iff_exists.1 hi
  obtain ⟨l, hl, hcheck⟩ := (Option.any_eq_true _ _).1 hcheck
  obtain ⟨f, hf, hcheck⟩ := (Option.any_eq_true _ _).1 hcheck
  obtain ⟨hscope, husing, hcopying⟩ := of_decide_eq_true hcheck
  obtain ⟨-, -, -, hclasses⟩ := layout_references_resolve hp ha
  obtain ⟨-, parts, hparts, hall⟩ := hclasses 0 c info l hc hi hl
  have hmem := List.mem_of_getElem? hf
  rw [hparts] at hmem
  obtain ⟨frames, hframes, hmem⟩ := List.mem_flatten.1 hmem
  obtain ⟨⟨m, s⟩, -, hof⟩ := ScopeTree.exists_of_mem_left hall.flip hframes
  have hrecord := hof.records f hmem
  have hvalue := hof.values f hmem
  rw [hscope, hrecords, husing] at hrecord
  rw [hscope, hvalues, hcopying] at hvalue
  exact ⟨p, a, info, c.name, m, s, frames, f, hp, ha, hof, hmem, hscope, ⟨⟨5⟩, houter, hreal⟩, hrecord, hvalue⟩

end BlockScope
