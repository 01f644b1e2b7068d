import BlockScope.Proofs.Analysis.Independence
import BlockScope.Proofs.Analysis.Reordering
import BlockScope.Proofs.Analysis.Inlining
import BlockScope.Proofs.Analysis.Coverage
import BlockScope.Proofs.Layout.References
/-!
# The order of classes does not matter

A program is accepted whatever the order of its classes, and each class gets the same layout. A method makes twins in both
orders, and a layout says nothing of scopes and variables but their names and kinds, so its frames are the same
(`MethodTwins.frames`); only the places of their scopes differ. What a class has as a whole comes from its lineage and its
superclass, which are found by name (`Resolved.length_slots_eq`, `Resolved.superName_eq`).
-/
namespace BlockScope

/-- The frame without the place of its scope. -/
def FrameLayout.unplaced (f : FrameLayout) : FrameLayout := { f with scope := ⟨0⟩ }

/-- The layout without the places of scopes. -/
def ClassLayout.unplaced (c : ClassLayout) : ClassLayout := { c with frames := c.frames.map FrameLayout.unplaced }

/-! ## Lists entry by entry -/

section
variable {α β γ : Type} {R : α → β → Prop} {l : List α} {l' : List β}

theorem filterMap_eq_of_rel {f : α → Option γ} {g : β → Option γ} (h : List.Forall₂ R l l')
    (hfg : ∀ x ∈ l, ∀ y, R x y → f x = g y) : l.filterMap f = l'.filterMap g := by
  induction h with
  | nil => rfl
  | @cons x y l l' hxy _ ih =>
    rw [List.filterMap_cons, List.filterMap_cons, hfg x (by simp) y hxy, ih fun z hz => hfg z (List.mem_cons_of_mem _ hz)]

theorem map_eq_of_rel {f : α → γ} {g : β → γ} (h : List.Forall₂ R l l') (hfg : ∀ x ∈ l, ∀ y, R x y → f x = g y) :
    l.map f = l'.map g := by
  rw [← List.filterMap_eq_map, ← List.filterMap_eq_map]
  exact filterMap_eq_of_rel h fun x hx y hxy => congrArg some (hfg x hx y hxy)

theorem map_zipIdx_eq_of_rel {f : α × Nat → γ} {g : β × Nat → γ} (h : List.Forall₂ R l l')
    (hfg : ∀ x y k, R x y → f (x, k) = g (y, k)) (k : Nat) : (l.zipIdx k).map f = (l'.zipIdx k).map g := by
  induction h generalizing k with
  | nil => rfl
  | @cons x y l l' hxy _ ih => rw [List.zipIdx_cons, List.zipIdx_cons, List.map_cons, List.map_cons, hfg x y k hxy, ih]

theorem rel_filterMap {δ : Type} {S : β → δ → Prop} {f : α → Option β} {g : α → Option δ} {l : List α}
    (h : ∀ x ∈ l, Option.Rel S (f x) (g x)) : List.Forall₂ S (l.filterMap f) (l.filterMap g) := by
  induction l with
  | nil => exact .nil
  | cons x l ih =>
    have hrest := ih fun y hy => h y (List.mem_cons_of_mem _ hy)
    have hx := h x (by simp)
    rw [List.filterMap_cons, List.filterMap_cons]
    generalize f x = y at hx
    generalize g x = z at hx
    cases hx with
    | none => exact hrest
    | some hyz => exact .cons hyz hrest

/-- Related entries have the same image if all entries do, one by one. -/
theorem eq_of_map_eq {f : α → γ} {g : β → γ} {x : α} {y : β} (hR : Relator.RightUnique R) (h : List.Forall₂ R l l')
    (hmap : l.map f = l'.map g) (hx : x ∈ l) (hxy : R x y) : f x = g y := by
  induction h with
  | nil => cases hx
  | @cons x' y' l l' hxy' _ ih =>
    obtain ⟨hhead, htail⟩ := List.cons_eq_cons.1 hmap
    rcases List.mem_cons.1 hx with rfl | hx
    · rw [hhead, hR hxy' hxy]
    · exact ih htail hx

end

/-! ## Twins under the same names -/

namespace Twins
variable {r : Pairing} {t t' : ScopeTree} {s s' : ScopeId} {xs xs' : List VarId}

theorem map_nameOf (h : Twins r t t') (hxs : List.Forall₂ r.var xs xs') : xs.map t.nameOf = xs'.map t'.nameOf :=
  map_eq_of_rel hxs fun _ _ _ hx => h.nameOf hx

theorem path (h : Twins r t t') (hn : t.Nested) (hn' : t'.Nested) (ho : t.Outermost) (ho' : t'.Outermost) (hs : r.scope s s') :
    t.path s = t'.path s' := by
  obtain ⟨l, l', rest, rest', hl, hl', hpairs, hrest, hrest'⟩ := h.chain hn hn' ho ho' hs
  -- Only code has a letter, and beyond the paired scopes there is none.
  have hnil : ∀ {t : ScopeTree} {rest : List ScopeId}, (∀ s ∈ rest, t.frame? s = none) →
      (rest.filterMap fun s => (t.scope? s).bind (·.letter?)) = [] := by
    intro t rest hrest
    rw [List.filterMap_eq_nil_iff]
    intro s hs
    rw [Option.bind_eq_none_iff]
    rintro ⟨o, body⟩ hsc
    cases body with
    | root | side => rfl
    | code k f =>
      have hf := hrest s hs
      rw [ScopeTree.frame?_of_scope hsc] at hf
      cases hf
  have hletters : (l.filterMap fun s => (t.scope? s).bind (·.letter?)) = l'.filterMap fun s => (t'.scope? s).bind (·.letter?) := by
    refine filterMap_eq_of_rel hpairs fun u _ u' hu => ?_
    obtain ⟨o, o', k, f, f', hsc, hsc', -⟩ := h.scope u u' hu
    rw [hsc, hsc']
    rfl
  unfold ScopeTree.path
  rw [hl, hl', List.filterMap_append, List.filterMap_append, hnil hrest, hnil hrest', hletters]

end Twins

/-! ## One method -/

/-- The method at these places of two programs, analysed to twins. -/
structure MethodTwins (r : Pairing) (p q : Program) (a b a' b' : Analysis) (i j place : Nat) (m : Method) (s s' : ScopeId) :
    Prop where
  left : Analyzed p a b
  right : Analyzed q a' b'
  arena : q.arena = p.arena
  method : p.method? i place = some m
  method' : q.method? j place = some m
  scope : a.scopeOf? (.method i place) = some s
  scope' : a'.scopeOf? (.method j place) = some s'
  twins : Twins r b.scopes b'.scopes
  events : List.Forall₂ (r.Event p.arena a.scopeOf? a'.scopeOf?) (p.methodEvents i place m) (q.methodEvents j place m)

namespace MethodTwins
variable {r : Pairing} {p q : Program} {a b a' b' : Analysis} {i j place : Nat} {m : Method} {s s' x x' : ScopeId}

theorem closure (h : MethodTwins r p q a b a' b' i j place m s s') {id : NodeId} (hid : id ∈ m.body.flatMap p.arena.reached) :
    Option.Rel r.scope (b.closure? id) (b'.closure? id) := by
  rw [← Program.filterMap_methodEvents i place] at hid
  obtain ⟨ev, hev, hnode⟩ := List.mem_filterMap.1 hid
  obtain ⟨ev', -, hpair⟩ := ScopeTree.exists_of_mem_left h.events hev
  cases hpair with
  | method => cases hnode
  | @node o o' role id' hopeners hblock =>
    cases hnode
    unfold Analysis.closure?
    rw [h.left.blockScopes_eq, h.right.blockScopes_eq]
    by_cases hb : (p.arena.blockCode? id).isSome
    · obtain ⟨u, u', hu, hu', hpair⟩ := hblock hb
      have hu : a.blockScopes.get? id = some u := hu
      have hu' : a'.blockScopes.get? id = some u' := hu'
      have htrue : b.scopes.scopeIs (·.isTrueBlock) u = b'.scopes.scopeIs (·.isTrueBlock) u' :=
        h.twins.scopeIs hpair (· = some .block)
      rw [hu, hu', Option.filter_some, Option.filter_some, htrue]
      split
      · exact .some hpair
      · exact .none
    · have hno : ∀ {p : Program} {a b : Analysis}, Analyzed p a b → ¬ (p.arena.blockCode? id).isSome → a.blockScopes.get? id = none := by
        intro p a b h hb
        rw [Option.eq_none_iff_forall_ne_some]
        intro u hu
        obtain ⟨_, _, code, -, hcode⟩ := h.resolved.event_of_blockScope hu
        exact hb (by rw [hcode]; rfl)
      rw [hno h.left hb, hno h.right (by rw [h.arena]; exact hb)]
      exact .none

/-- The method and its closures are paired, in order. -/
theorem framed (h : MethodTwins r p q a b a' b' i j place m s s') :
    List.Forall₂ r.scope (s :: p.closures b m) (s' :: q.closures b' m) := by
  have hself : r.scope s s' := by
    have hevs := h.events
    rw [Program.methodEvents, Program.methodEvents] at hevs
    obtain _ | ⟨⟨u, u', hu, hu', hpair⟩, -⟩ := hevs
    cases h.scope.symm.trans hu
    cases h.scope'.symm.trans hu'
    exact hpair
  refine .cons hself ?_
  rw [Program.closures, Program.closures, h.arena]
  exact rel_filterMap fun id hid => h.closure hid

/-- What is paired in the method goes by the same name in both. -/
theorem name (h : MethodTwins r p q a b a' b' i j place m s s') (entryPoint : String) (hx : x ∈ s :: p.closures b m)
    (hpair : r.scope x x') : (frameNames b.scopes entryPoint s (p.closures b m)).nameOf x =
      (frameNames b'.scopes entryPoint s' (q.closures b' m)).nameOf x' := by
  have hn := h.left.converts.shape.nested h.left.resolved.wf.nested
  have hn' := h.right.converts.shape.nested h.right.resolved.wf.nested
  have ho := h.left.resolved.outermost.of_shape h.left.converts.shape
  have ho' := h.right.resolved.outermost.of_shape h.right.converts.shape
  have hnodup : (s :: p.closures b m).Nodup := by
    rw [h.left.closures_eq]
    exact h.left.resolved.nodup_framed ⟨place, h.method, h.scope⟩
  have hnodup' : (s' :: q.closures b' m).Nodup := by
    rw [h.right.closures_eq]
    exact h.right.resolved.nodup_framed ⟨place, h.method', h.scope'⟩
  refine eq_of_map_eq h.twins.uniqueScope.2 h.framed ?_ hx hpair
  rw [map_nameOf _ _ hnodup, map_nameOf _ _ hnodup']
  congr 1
  refine map_zipIdx_eq_of_rel (List.forall₂_cons.1 h.framed).2 (fun u u' k hu => ?_) 0
  rw [closureName, closureName, h.twins.path hn hn' ho ho' hu]

/-- What belongs to a frame around another one of the method is among the frames of the method. -/
theorem mem_of_atHand {owner : ScopeId} {handed : ScopeId → Prop} (h : MethodTwins r p q a b a' b' i j place m s s')
    (hx : x ∈ s :: p.closures b m) (hat : b.scopes.AtHand x owner handed) : owner ∈ s :: p.closures b m := by
  obtain ⟨hframe, hsame⟩ := hat.framed
  have hscope : p.IsMethodScope a i m s := ⟨place, h.method, h.scope⟩
  obtain ⟨-, hmethod⟩ := (h.left.mem_framed hscope).1 hx
  exact (h.left.mem_framed hscope).2 ⟨hframe, by rw [hsame, hmethod]⟩

/-- The frame of a method or closure. -/
theorem frame (h : MethodTwins r p q a b a' b' i j place m s s') (entryPoint : String) (hx : x ∈ s :: p.closures b m)
    (hpair : r.scope x x') : (frameLayout b.scopes (frameNames b.scopes entryPoint s (p.closures b m)) x).unplaced =
      (frameLayout b'.scopes (frameNames b'.scopes entryPoint s' (q.closures b' m)) x').unplaced := by
  obtain ⟨f, f', hf, hf', hfs⟩ := h.twins.frame hpair
  have hname := h.name entryPoint hx hpair
  have hrecords : f.usingHeapvarsFrom.map (fun D => heapvarsNameOf ((frameNames b.scopes entryPoint s (p.closures b m)).nameOf D)) =
      f'.usingHeapvarsFrom.map fun D => heapvarsNameOf ((frameNames b'.scopes entryPoint s' (q.closures b' m)).nameOf D) := by
    refine map_eq_of_rel hfs.records fun D hD D' hDD => ?_
    have hmem : D ∈ b.scopes.recordsOf x := by simpa [ScopeTree.recordsOf, hf] using hD
    obtain ⟨-, hat⟩ := h.left.record_at_hand hmem
    rw [h.name entryPoint (h.mem_of_atHand hx hat) hDD]
  have hvalues : (f.copyingVars.filterMap fun id => (b.scopes.var? id).map fun v =>
        (frameNames b.scopes entryPoint s (p.closures b m)).nameOf v.scope ++ v.name) =
      f'.copyingVars.filterMap fun id => (b'.scopes.var? id).map fun v =>
        (frameNames b'.scopes entryPoint s' (q.closures b' m)).nameOf v.scope ++ v.name := by
    refine filterMap_eq_of_rel hfs.values fun y hy y' hyy => ?_
    obtain ⟨v, v', hv, hv', hvs⟩ := h.twins.var y y' hyy
    have hmem : y ∈ b.scopes.valuesOf x := by simpa [ScopeTree.valuesOf, hf] using hy
    obtain ⟨w, -, hw, -, -, hat⟩ := h.left.value_at_hand hmem
    cases hv.symm.trans hw
    rw [hv, hv', Option.map_some, Option.map_some, h.name entryPoint (h.mem_of_atHand hx hat) hvs.scope, hvs.same]
  have hempty : f.heapvars.isEmpty = f'.heapvars.isEmpty := by
    rw [Bool.eq_iff_iff, List.isEmpty_iff_length_eq_zero, List.isEmpty_iff_length_eq_zero, hfs.heapvars.length_eq]
  have hkind : b.scopes.scopeIs (·.isMethod) x = b'.scopes.scopeIs (·.isMethod) x' := h.twins.scopeIs hpair (· = some .method)
  unfold frameLayout FrameLayout.unplaced
  simp only [hf, hf', Option.getD_some, hname, hrecords, hvalues, hempty, hkind, hfs.context, h.twins.map_nameOf hfs.arguments,
    h.twins.map_nameOf hfs.locals, h.twins.map_nameOf hfs.heapvars]

/-- The frames of a method are the same in both, but for the places of their scopes. -/
theorem frames (h : MethodTwins r p q a b a' b' i j place m s s') (className : String) :
    (methodLayout p b className m s).frames.map FrameLayout.unplaced =
      (methodLayout q b' className m s').frames.map FrameLayout.unplaced := by
  rw [h.left.frames_of_method (Program.Forest.mem_methods h.method),
    h.right.frames_of_method (Program.Forest.mem_methods h.method'), List.map_map, List.map_map]
  exact map_eq_of_rel h.framed fun x hx x' hpair => h.frame _ hx hpair

end MethodTwins

/-! ## Sends -/

/-- Which sends are recorded and how depends on the nodes alone. -/
theorem Resolved.sends_eq {p q : Program} {a a' : Analysis} (h : Resolved p a) (h' : Resolved q a') (harena : q.arena = p.arena)
    (id : NodeId) : a'.sends.get? id = a.sends.get? id := by
  have hnone : ∀ {p q : Program} {a a' : Analysis}, Resolved p a → Resolved q a' → q.arena = p.arena → a.sends.get? id = none →
      a'.sends.get? id = none := by
    intro p q a a' h h' harena hid
    rw [Option.eq_none_iff_forall_ne_some]
    intro shape hshape
    obtain ⟨receiver, selector, args, he, -⟩ := h'.send_shape hshape
    have hvisible := (h'.sends_iff he).1 (by rw [hshape]; rfl)
    rw [harena] at he hvisible
    have hsome := (h.sends_iff he).2 hvisible
    rw [hid] at hsome
    cases hsome
  cases hid : a.sends.get? id with
  | none => exact hnone h h' harena hid
  | some shape =>
    cases hid' : a'.sends.get? id with
    | none =>
      rw [hnone h' h harena.symm hid'] at hid
      cases hid
    | some shape' =>
      obtain ⟨receiver, selector, args, he, hiff⟩ := h.send_shape hid
      obtain ⟨receiver', selector', args', he', hiff'⟩ := h'.send_shape hid'
      rw [harena] at he' hiff'
      cases he.symm.trans he'
      have hsame : ∀ i, shape' = .inlined i ↔ shape = .inlined i := fun i => (hiff' i).trans (hiff i).symm
      cases shape with
      | inlined i => rw [(hsame i).2 rfl]
      | plain =>
        cases shape' with
        | plain => rfl
        | inlined i => exact absurd ((hsame i).1 rfl) (by simp)

theorem Analysis.dispatchedIn_congr {a b : Analysis} (h : ∀ id, b.sends.get? id = a.sends.get? id) (arena : Arena)
    (visits : List Visit) : b.dispatchedIn arena visits = a.dispatchedIn arena visits := by
  refine List.flatMap_congr fun visit _ => ?_
  cases visit with
  | send id => simp only [h]
  | _ => rfl

/-! ## One class -/

/-- The layout of a method without the places of scopes. -/
def MethodLayout.unplaced (m : MethodLayout) : MethodLayout := { m with frames := m.frames.map FrameLayout.unplaced }

theorem classLayout_unplaced (p : Program) (a : Analysis) (c : ClassDefinition) (info : ClassInfo) :
    let methods := (c.methods.zip info.methods).map fun x => (methodLayout p a c.name x.1 x.2).unplaced
    (classLayout p a c info).unplaced = {
      name := c.name
      superName := (info.superClass.bind (a.classes[·]?)).map (·.name)
      instanceSize := (info.slots false).length
      classSize := (info.slots true).length
      instanceMethods := (methods.filter (!·.classSide)).map (·.entry)
      classMethods := (methods.filter (·.classSide)).map (·.entry)
      symbolReferences := appendNew [] (methods.flatMap (·.dispatched))
      frames := methods.flatMap (·.frames) } := by
  simp only [ClassLayout.unplaced, classLayout, List.filter_map, List.map_map, List.flatMap_map, List.map_flatMap]
  rfl

namespace Resolved
variable {p q : Program} {a a' : Analysis} {i j : Nat} {c : ClassDefinition} {info info' : ClassInfo}

/-- The superclass is the one that the class names. -/
theorem superName_eq (h : Resolved p a) (hc : p.classes[i]? = some c) (hi : a.classes[i]? = some info) :
    (info.superClass.bind (a.classes[·]?)).map (·.name) = c.superName := by
  obtain ⟨a₀, hready, hsteps⟩ := h.run
  obtain ⟨info₀, hi₀, hsame⟩ := hsteps.class_before hi
  have hsuper : info.superClass = a₀.superOf i := by
    rw [hsame, Analysis.superOf, hi₀]
    rfl
  rw [hsuper]
  cases hs : c.superName with
  | none => rw [superOf_eq_none hready.linked hc hs]; rfl
  | some n =>
    obtain ⟨c', hmem, rfl⟩ := List.mem_map.1 (hready.supers c (List.mem_of_getElem? hc) n hs)
    obtain ⟨k, hk⟩ := List.getElem?_of_mem hmem
    have hlt : k < a.classes.size := by
      rw [h.size_classes]
      exact (List.getElem?_eq_some_iff.1 hk).1
    have hik := Array.getElem?_eq_getElem hlt
    obtain ⟨infoK, hk₀, hsameK⟩ := hsteps.class_before hik
    obtain ⟨c'', hk', hname, -⟩ := hready.outline.classes k infoK hk₀
    cases hk.symm.trans hk'
    rw [(hready.linked i k).2 ⟨c, c', hc, hk, hs⟩, Option.bind_some, hik, Option.map_some, hsameK, ← hname]

/-- A side has as many slots in either order. -/
theorem length_slots_eq (h : Resolved p a) (h' : Resolved q a') (horder : p.Reorders q) (hij : p.SameAt q i j)
    (hi : a.classes[i]? = some info) (hj : a'.classes[j]? = some info') (side : Bool) :
    (info.slots side).length = (info'.slots side).length := by
  obtain ⟨a₀, hready, hsteps⟩ := h.run
  obtain ⟨a₀', hready', hsteps'⟩ := h'.run
  obtain ⟨info₀, hi₀, hsame⟩ := hsteps.class_before hi
  obtain ⟨info₀', hj₀, hsame'⟩ := hsteps'.class_before hj
  obtain ⟨c, hc, -⟩ := id hij
  obtain ⟨line, hline⟩ := hready.lineage hc
  rw [hsame.slots, hsame'.slots, hready.length_slots hi₀ hline, hready'.length_slots hj₀ (horder.lineage hline hij)]

end Resolved

/-- The layout of a method. -/
theorem MethodTwins.layout {r : Pairing} {p q : Program} {a b a' b' : Analysis} {i j place : Nat} {m : Method} {s s' : ScopeId}
    (h : MethodTwins r p q a b a' b' i j place m s s') (className : String) :
    (methodLayout p b className m s).unplaced = (methodLayout q b' className m s').unplaced := by
  have hdispatched : (methodLayout p b className m s).dispatched = (methodLayout q b' className m s').dispatched := by
    unfold methodLayout
    simp only [h.arena]
    refine (Analysis.dispatchedIn_congr (fun id => ?_) _ _).symm
    rw [h.left.sends_eq, h.right.sends_eq, h.left.resolved.sends_eq h.right.resolved h.arena]
  unfold MethodLayout.unplaced
  rw [h.frames, hdispatched]
  rfl

/-! ## In any order -/

/-- The class at these places has the same layout. -/
theorem Program.Reorders.classLayout_eq {p q : Program} {b b' : Analysis} {i j : Nat} {c : ClassDefinition} {info info' : ClassInfo}
    (h : p.Reorders q) (hp : p.Parsed Spelled) (hb : p.analyze = .ok b) (hb' : q.analyze = .ok b') (hc : p.classes[i]? = some c)
    (hc' : q.classes[j]? = some c) (hi : b.classes[i]? = some info) (hj : b'.classes[j]? = some info') :
    (classLayout p b c info).unplaced = (classLayout q b' c info').unplaced := by
  obtain ⟨w, hr, hnone, hw⟩ := hp.converted hb
  obtain ⟨w', hr', hnone', hw'⟩ := (h.parsed hp).converted hb'
  have hleft : Analyzed p w.analysis b := hw ▸ hr.analyzed hnone
  have hright : Analyzed q w'.analysis b' := hw' ▸ hr'.analyzed hnone'
  have hij : p.SameAt q i j := ⟨c, hc, hc'⟩
  have hi₀ : w.analysis.classes[i]? = some info := by rw [← hleft.classes_eq, hi]
  have hj₀ : w'.analysis.classes[j]? = some info' := by rw [← hright.classes_eq, hj]
  have hmethods : ((c.methods.zip info.methods).map fun x => (methodLayout p b c.name x.1 x.2).unplaced) =
      (c.methods.zip info'.methods).map fun x => (methodLayout q b' c.name x.1 x.2).unplaced := by
    apply List.ext_getElem?
    intro place
    rw [List.getElem?_map, List.getElem?_map]
    cases hplace : c.methods[place]? with
    | none =>
      have hnone : ∀ scopes : List ScopeId, (c.methods.zip scopes)[place]? = none := by
        intro scopes
        have := List.getElem?_eq_none_iff.1 hplace
        exact List.getElem?_eq_none (by rw [List.length_zip]; omega)
      rw [hnone, hnone]
      rfl
    | some m =>
      have hm : p.method? i place = some m := by rw [Program.method?, hc, Option.bind_some, hplace]
      have hm' : q.method? j place = some m := by rw [hij.method?, hm]
      obtain ⟨s, hs⟩ := hr.scope_of_method hm
      obtain ⟨s', hs'⟩ := hr'.scope_of_method hm'
      obtain ⟨r, htwins, hevents⟩ := hr.method_twins hr' h.arena hm hm'
      rw [hw, hw'] at htwins
      have hlisted : info.methods[place]? = some s := by rwa [Analysis.scopeOf?, hi₀] at hs
      have hlisted' : info'.methods[place]? = some s' := by rwa [Analysis.scopeOf?, hj₀] at hs'
      have hzip : (c.methods.zip info.methods)[place]? = some (m, s) := List.getElem?_zip_eq_some.2 ⟨hplace, hlisted⟩
      have hzip' : (c.methods.zip info'.methods)[place]? = some (m, s') := List.getElem?_zip_eq_some.2 ⟨hplace, hlisted'⟩
      rw [hzip, hzip', Option.map_some, Option.map_some]
      exact congrArg some (MethodTwins.layout ⟨hleft, hright, h.arena, hm, hm', hs, hs', htwins, hevents⟩ c.name)
  rw [classLayout_unplaced, classLayout_unplaced, hmethods, hleft.classes_eq, hright.classes_eq, hr.superName_eq hc hi₀, hr'.superName_eq hc' hj₀,
    hr.length_slots_eq hr' h hij hi₀ hj₀, hr.length_slots_eq hr' h hij hi₀ hj₀]

/-- A program whose classes are put in another order is accepted if and only if it is accepted as it was; and then the layout
has the same classes in that order, each equal in everything but the places of the scopes of its frames. -/
theorem class_order_irrelevant {bytes : List UInt8} {p q : Program} (hp : Program.ofBytes bytes = .ok p)
    (harena : q.arena = p.arena) (hperm : q.classes.Perm p.classes) :
    ((∃ a, p.analyze = .ok a) ↔ ∃ b, q.analyze = .ok b) ∧
    ∀ a b, p.analyze = .ok a → q.analyze = .ok b →
      (p.layout a).classes.length = p.classes.length ∧ (q.layout b).classes.length = q.classes.length ∧
      ∀ (i j : Nat), q.classes[j]? = p.classes[i]? →
        (q.layout b).classes[j]?.map ClassLayout.unplaced = (p.layout a).classes[i]?.map ClassLayout.unplaced := by
  have hparsed := Program.parsed_ofBytes hp
  have horder : p.Reorders q := ⟨harena, hperm⟩
  have hparsed' := horder.parsed hparsed
  constructor
  · constructor
    · rintro ⟨a, ha⟩
      exact horder.exists_analysis hparsed ha
    · rintro ⟨b, hb⟩
      exact horder.symm.exists_analysis hparsed' hb
  · intro a b ha hb
    obtain ⟨a₀, hleft⟩ := hparsed.analyzed ha
    obtain ⟨b₀, hright⟩ := hparsed'.analyzed hb
    refine ⟨hleft.length_layout, hright.length_layout, fun i j hij => ?_⟩
    cases hc : p.classes[i]? with
    | none =>
      rw [hc, List.getElem?_eq_none_iff, ← hright.length_layout] at hij
      rw [List.getElem?_eq_none_iff, ← hleft.length_layout] at hc
      rw [List.getElem?_eq_none hij, List.getElem?_eq_none hc]
    | some c =>
      rw [hc] at hij
      obtain ⟨info, hi, hl⟩ := hleft.layout_at hc
      obtain ⟨info', hj, hl'⟩ := hright.layout_at hij
      rw [hl, hl', Option.map_some, Option.map_some, horder.classLayout_eq hparsed ha hb hc hij hi hj]

/-- A subclass before its superclass, and the other way round: its closure returns out of its method, writes one variable of
it, reads another and uses an inherited one. The scopes of its frames have other places then. -/
theorem class_order_irrelevant_reversed : ∃ (p q : Program) (a b : Analysis), Program.ofBytes
      "B : A [ m: x [ | t | [ t := x. ^ u ] ] ] A : nil [ | u | n [ ^ [ :y | self m: y ] ] ]".toUTF8.toList = .ok p ∧
    q = ⟨p.arena, p.classes.reverse⟩ ∧ p.analyze = .ok a ∧ q.analyze = .ok b ∧
    (p.layout a).classes.map (·.name) = ["B", "A"] ∧ (q.layout b).classes.length = 2 ∧
    (q.layout b).classes[0]?.map ClassLayout.unplaced = (p.layout a).classes[1]?.map ClassLayout.unplaced ∧
    (q.layout b).classes[1]?.map ClassLayout.unplaced = (p.layout a).classes[0]?.map ClassLayout.unplaced ∧
    (q.layout b).classes[1]? ≠ (p.layout a).classes[0]? := by
  obtain ⟨p, a, hp, ha, hcheck⟩ := exists_of_accepted
    "B : A [ m: x [ | t | [ t := x. ^ u ] ] ] A : nil [ | u | n [ ^ [ :y | self m: y ] ] ]".toUTF8
    (fun p a => p.classes.length = 2 ∧ (p.layout a).classes.map (·.name) = ["B", "A"] ∧
      (Program.analyze ⟨p.arena, p.classes.reverse⟩).toOption.all fun b =>
        (Program.layout ⟨p.arena, p.classes.reverse⟩ b).classes[1]? ≠ (p.layout a).classes[0]?)
    (by decide +kernel)
  obtain ⟨htwo, hnames, hother⟩ := of_decide_eq_true hcheck
  obtain ⟨haccepted, hlayouts⟩ := class_order_irrelevant (q := ⟨p.arena, p.classes.reverse⟩) hp rfl p.classes.reverse_perm
  obtain ⟨b, hb⟩ := haccepted.1 ⟨a, ha⟩
  obtain ⟨-, hlength, hsame⟩ := hlayouts a b ha hb
  rw [hb] at hother
  refine ⟨p, _, a, b, hp, rfl, ha, hb, hnames, by rw [hlength, List.length_reverse, htwo], hsame 1 0 ?_, hsame 0 1 ?_,
    of_decide_eq_true hother⟩
  · rw [List.getElem?_reverse (by omega), htwo]
  · rw [List.getElem?_reverse (by omega), htwo]

end BlockScope
