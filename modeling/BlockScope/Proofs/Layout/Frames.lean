import BlockScope.Layout
import BlockScope.Proofs.Analysis.Captures
import BlockScope.Proofs.Analysis.Ownership
import BlockScope.Proofs.Program.Visited
/-!
# Which frames a layout has

A layout has a frame for every method and every closure and for nothing else, in the order in which their scopes were
made (`Analyzed.frame_scopes`): of each method its own, then those of the closures in its body as they open. The frames
of a method are those of the closures that have it around them (`Resolved.mem_closures`), and each has a name made from
that of the method (`map_nameOf`).
-/
namespace BlockScope

/-- The scope of the block at a node, if it is a closure. -/
def Analysis.closure? (a : Analysis) (id : NodeId) : Option ScopeId :=
  (a.blockScopes.get? id).filter (a.scopes.scopeIs (·.isTrueBlock))

/-- The closures in the body of a method as they open, each before those in it. -/
def Program.closures (p : Program) (a : Analysis) (m : Method) : List ScopeId :=
  (m.body.flatMap p.arena.reached).filterMap a.closure?

/-- The scope is that of a method or a closure. -/
def ScopeTree.hasFrame (t : ScopeTree) (s : ScopeId) : Bool := t.scopeIs (·.isMethod) s || t.scopeIs (·.isTrueBlock) s

theorem ScopeTree.isCode_of_hasFrame {t : ScopeTree} {s : ScopeId} (h : t.hasFrame s) : t.IsCode s := by
  obtain h | h := (Bool.or_eq_true _ _).mp h
  · obtain ⟨f, hf⟩ := ScopeTree.frame_of_method h
    obtain ⟨o, k, hs⟩ := ScopeTree.scope_of_frame hf
    exact ⟨o, k, f, hs⟩
  · obtain ⟨f, hf⟩ := ScopeTree.frame_of_trueBlock h
    obtain ⟨o, k, hs⟩ := ScopeTree.scope_of_frame hf
    exact ⟨o, k, f, hs⟩

/-- Every class of an analysed program has the layout in its place. -/
theorem Program.getElem?_layout {p : Program} {a : Analysis} {i : Nat} {c : ClassDefinition} {info : ClassInfo}
    (hc : p.classes[i]? = some c) (hi : a.classes[i]? = some info) :
    (p.layout a).classes[i]? = some (classLayout p a c info) := by
  have hzip : (p.classes.zip a.classes.toList)[i]? = some (c, info) :=
    List.getElem?_zip_eq_some.2 ⟨hc, by rw [Array.getElem?_toList, hi]⟩
  rw [layout, List.getElem?_map, hzip]
  rfl

/-! ## Closures in order -/

theorem closuresIn_shown {arena : Arena} {a : Analysis} {id : NodeId}
    (h : ∀ s, a.blockScopes.get? id = some s → (arena.blockCode? id).isSome) :
    a.closuresIn (arena.shown id) = (a.closure? id).toList := by
  have hnone : arena.blockCode? id = none → a.closure? id = none := by
    intro hcode
    unfold Analysis.closure?
    cases hs : a.blockScopes.get? id with
    | none => rfl
    | some s =>
      have hsome := h s hs
      rw [hcode] at hsome
      cases hsome
  unfold Analysis.closuresIn Arena.shown
  rw [List.filterMap_cons_none rfl]
  cases he : arena.expr? id with
  | none => simp [hnone (by simp [Arena.blockCode?, he])]
  | some e =>
    cases e with
    | block params temps body =>
      rw [List.filterMap_cons, filterMap_declarations _ (fun _ => rfl)]
      simp only [Analysis.closure?]
      cases Option.filter _ (a.blockScopes.get? id) <;> rfl
    | _ => simp [hnone (by simp [Arena.blockCode?, he])]

namespace Resolved
variable {p : Program} {a : Analysis} {i place : Nat} {m : Method} {s x : ScopeId} {c : ClassDefinition} {info : ClassInfo}

theorem not_method_of_blockScope {b : NodeId} (h : Resolved p a) (hb : a.blockScopes.get? b = some s) :
    a.scopes.scopeIs (·.isMethod) s = false := by
  obtain ⟨o, role, -, hev, -⟩ := h.event_of_blockScope hb
  obtain ⟨outer, haround⟩ := Program.around_of_event hev
  cases h.placed_block hev haround hb with
  | @block _ code role' _ S _ _ _ hentered _ =>
    refine (hentered.scopeIs (· = some .method)).trans ?_
    cases role' <;> rfl

theorem isMethod_of_scope (h : Resolved p a) (hm : p.method? i place = some m) (hs : a.scopeOf? (.method i place) = some s) :
    a.scopes.scopeIs (·.isMethod) s := by
  obtain ⟨info, hi, -⟩ := Option.bind_eq_some_iff.1 hs
  exact (h.madeForMethod hi ⟨place, hm, hs⟩).isMethod

/-- Of the scopes that the events of a method make, those with a frame are its own and those of its closures. -/
theorem filter_made (h : Resolved p a) (hm : p.method? i place = some m) (hs : a.scopeOf? (.method i place) = some s) :
    ((p.methodEvents i place m).filterMap (Event.made? p.arena a.scopeOf?)).filter a.scopes.hasFrame = s :: p.closures a m := by
  have hbody : (m.body.flatMap (p.arena.eventsOf (.method i place) .plain)).filterMap (Event.made? p.arena a.scopeOf?) =
      (m.body.flatMap p.arena.reached).filterMap a.blockScopes.get? := by
    calc _ = (m.body.flatMap (p.arena.eventsOf (.method i place) .plain)).filterMap fun ev => ev.node?.bind a.blockScopes.get? := by
          refine List.filterMap_congr fun ev hev => ?_
          obtain ⟨x, -, hev⟩ := List.mem_flatMap.1 hev
          obtain ⟨o, role, b, rfl⟩ := node_of_mem_events hev
          exact h.made_node o role b
      _ = _ := by
          rw [← List.filterMap_filterMap, List.filterMap_flatMap]
          simp only [Arena.eventsOf, Arena.filterMap_events]
          rfl
  have hclosures : ((m.body.flatMap p.arena.reached).filterMap a.blockScopes.get?).filter a.scopes.hasFrame = p.closures a m := by
    rw [List.filter_filterMap, Program.closures]
    refine List.filterMap_congr fun b _ => ?_
    unfold Analysis.closure? ScopeTree.hasFrame
    cases hb : a.blockScopes.get? b with
    | none => rfl
    | some x => simp [Option.filter, h.not_method_of_blockScope hb]
  have hself : a.scopes.hasFrame s = true := by simp [ScopeTree.hasFrame, h.isMethod_of_scope hm hs]
  have hmade : (Event.method i place).made? p.arena a.scopeOf? = some s := hs
  rw [Program.methodEvents, List.filterMap_cons_some hmade, hbody, List.filter_cons_of_pos hself, hclosures]

/-- The scopes with a frame, method by method. -/
theorem filter_ids (h : Resolved p a) : a.scopes.ids.filter a.scopes.hasFrame =
    (p.classes.zip a.classes.toList).flatMap fun (c, info) => (c.methods.zip info.methods).flatMap fun (m, s) =>
      s :: p.closures a m := by
  obtain ⟨a₀, hready, hsteps⟩ := h.run
  have hbefore : a₀.scopes.ids.filter a.scopes.hasFrame = [] := by
    rw [List.filter_eq_nil_iff]
    intro id hid hframe
    obtain ⟨s₀, hs₀⟩ := ScopeTree.scope?_of_lt (ScopeTree.mem_ids.1 hid)
    obtain ⟨o, k, f, hs⟩ := (ScopeTree.isCode_of_hasFrame hframe).of_grows (hsteps.wf_grows hready.outline.wf).2 hs₀
    exact hready.outline.no_code hs
  rw [hsteps.ids_eq hready.outline.wf, List.filter_append, hbefore, List.nil_append, Program.events, List.filterMap_flatMap,
    List.filter_flatMap]
  symm
  apply flatMap_zip
  intro i c hc
  obtain ⟨info, hi⟩ : ∃ info, a.classes[i]? = some info := by
    have hlt := (List.getElem?_eq_some_iff.1 hc).1
    rw [← h.size_classes] at hlt
    exact ⟨_, Array.getElem?_eq_getElem hlt⟩
  refine ⟨info, by rw [Array.getElem?_toList, hi], ?_⟩
  simp only [Nat.zero_add, Program.classEvents, List.filterMap_flatMap, List.filter_flatMap]
  apply flatMap_zip
  intro place m hm
  have hmethod : p.method? i place = some m := by rw [Program.method?, hc, Option.bind_some, hm]
  obtain ⟨s, hscope⟩ := h.scope_of_method hmethod
  refine ⟨s, by rwa [Analysis.scopeOf?, hi] at hscope, ?_⟩
  rw [Nat.zero_add]
  exact (h.filter_made hmethod hscope).symm

/-! ## The closures of one method -/

/-- From a method or block outwards there are blocks only, up to its method. -/
theorem method_of_placed {openers : List Opener} (h : Resolved p a) (hplaced : Placed p a openers x) : ∃ cls place M,
    openers.getLast? = some (.method cls place) ∧ a.scopeOf? (.method cls place) = some M ∧ a.scopes.scopeIs (·.isMethod) M ∧
      a.scopes.Within x M ∧ a.scopes.methodOf x = some M := by
  obtain ⟨cls, place, M, hlast, hM, hmethod, hwithin, hblocks⟩ := h.method_around hplaced
  exact ⟨cls, place, M, hlast, hM, hmethod, hwithin,
    h.wf.nested.methodOf_eq hwithin hmethod fun y hy => ScopeTree.not_method_of_block (hblocks y hy)⟩

theorem methodOf_of_event {o : Opener} {role : Role} {b : NodeId} (h : Resolved p a) (hm : p.method? i place = some m)
    (hev : .node o role b ∈ p.methodEvents i place m) (hb : a.blockScopes.get? b = some x) :
    a.scopes.methodOf x = a.scopeOf? (.method i place) := by
  obtain ⟨outer, haround, hlast⟩ := Program.around_of_methodEvents hm hev
  have hplaced := h.placed_block (Program.mem_events.2 ⟨i, place, m, hm, hev⟩) haround hb
  obtain ⟨cls, place', M, hlast', hM, -, -, hmethodOf⟩ := h.method_of_placed hplaced
  rw [List.getLast?_cons_cons, hlast] at hlast'
  cases hlast'
  rw [hmethodOf, hM]

/-- The closures of a method are those that it is around. -/
theorem mem_closures (h : Resolved p a) (hscope : p.IsMethodScope a i m s) :
    x ∈ p.closures a m ↔ a.scopes.scopeIs (·.isTrueBlock) x ∧ a.scopes.methodOf x = some s := by
  obtain ⟨place, hm, hs⟩ := hscope
  simp only [Program.closures, List.mem_filterMap, Analysis.closure?, Option.filter_eq_some_iff, ← Program.filterMap_methodEvents i place]
  constructor
  · rintro ⟨b, ⟨ev, hev, hnode⟩, hb, htrue⟩
    cases ev with
    | method => cases hnode
    | node o role b' =>
      cases hnode
      exact ⟨htrue, by rw [h.methodOf_of_event hm hev hb, hs]⟩
  · rintro ⟨htrue, hmethodOf⟩
    obtain ⟨f, hf⟩ := ScopeTree.frame_of_trueBlock htrue
    obtain ⟨o', k, hscope⟩ := ScopeTree.scope_of_frame hf
    obtain ⟨ev, hev, hmade⟩ := h.made_of_code ⟨o', k, f, hscope⟩
    obtain ⟨i', place', m', hm', hev⟩ := Program.mem_events.1 hev
    cases ev with
    | method cls place =>
      rcases List.mem_cons.1 hev with heq | hev
      · cases heq
        have hmethod := h.isMethod_of_scope hm' hmade
        rw [ScopeTree.not_method_of_block (.inl htrue)] at hmethod
        cases hmethod
      · obtain ⟨y, -, hev⟩ := List.mem_flatMap.1 hev
        obtain ⟨_, _, _, heq⟩ := node_of_mem_events hev
        cases heq
    | node o role b =>
      rw [h.made_node] at hmade
      -- The block lies in a method with the same scope, which is this one.
      rw [h.methodOf_of_event hm' hev hmade] at hmethodOf
      cases h.opener_unique hmethodOf hs
      rw [hm] at hm'
      cases hm'
      exact ⟨b, ⟨_, hev, rfl⟩, hmade, htrue⟩

/-- A method and its closures have different scopes. -/
theorem nodup_framed (h : Resolved p a) (hscope : p.IsMethodScope a i m s) : (s :: p.closures a m).Nodup := by
  obtain ⟨place, hm, hs⟩ := hscope
  obtain ⟨c, hc, hm⟩ := Option.bind_eq_some_iff.1 hm
  obtain ⟨info, hi, hs⟩ := Option.bind_eq_some_iff.1 hs
  have hnodup := a.scopes.nodup_ids.filter a.scopes.hasFrame
  rw [h.filter_ids] at hnodup
  have hclass : (c, info) ∈ p.classes.zip a.classes.toList :=
    List.mem_of_getElem? (List.getElem?_zip_eq_some.2 ⟨hc, by rw [Array.getElem?_toList, hi]⟩)
  have hmethod : (m, s) ∈ c.methods.zip info.methods := List.mem_of_getElem? (List.getElem?_zip_eq_some.2 ⟨hm, hs⟩)
  exact (List.nodup_flatMap.1 ((List.nodup_flatMap.1 hnodup).1 _ hclass)).1 _ hmethod

end Resolved

/-! ## Names -/

/-- The name of a closure with its number in a method. -/
def closureName (t : ScopeTree) (entryPoint : String) (entry : ScopeId × Nat) : String :=
  s!"{entryPoint}_{t.path entry.1}{entry.2}"

theorem FrameNames.nameOf_of_mem {names : FrameNames} {id : ScopeId} {name : String} (hn : (List.map (·.1) names).Nodup)
    (h : (id, name) ∈ names) : names.nameOf id = name := by
  obtain ⟨e, he⟩ : ∃ e, List.find? (·.1 = id) names = some e :=
    Option.isSome_iff_exists.1 (List.find?_isSome.2 ⟨(id, name), h, by simp⟩)
  have hid : e.1 = id := by simpa using List.find?_some he
  have heq : e = (id, name) := List.inj_on_of_nodup_map hn (List.mem_of_find?_eq_some he) h hid
  rw [FrameNames.nameOf, he, heq]
  rfl

/-- A method goes by its entry point, and its closures by their numbers. -/
theorem map_nameOf (t : ScopeTree) (entryPoint : String) {method : ScopeId} {blocks : List ScopeId} (hn : (method :: blocks).Nodup) :
    (method :: blocks).map (frameNames t entryPoint method blocks).nameOf =
      entryPoint :: blocks.zipIdx.map (closureName t entryPoint) := by
  have hnames : frameNames t entryPoint method blocks =
      (blocks.zipIdx.map fun e => (e.1, closureName t entryPoint e)).reverse ++ [(method, entryPoint)] :=
    List.foldl_flip_cons_eq_append
  have hkeys : (List.map (·.1) (frameNames t entryPoint method blocks)).Nodup := by
    have hfst : List.map (·.1) (frameNames t entryPoint method blocks) = (method :: blocks).reverse := by
      rw [hnames, List.map_append, List.map_reverse, List.map_map, List.reverse_cons]
      exact congrArg (·.reverse ++ [method]) (List.zipIdx_map_fst 0 blocks)
    rw [hfst]
    exact List.nodup_reverse.2 hn
  have hname : ∀ e ∈ blocks.zipIdx, (frameNames t entryPoint method blocks).nameOf e.1 = closureName t entryPoint e := by
    intro e he
    refine FrameNames.nameOf_of_mem hkeys ?_
    rw [hnames]
    exact List.mem_append_left _ (List.mem_reverse.2 (List.mem_map.2 ⟨e, he, rfl⟩))
  have hblocks : blocks.map (frameNames t entryPoint method blocks).nameOf = blocks.zipIdx.map (closureName t entryPoint) := by
    rw [← List.map_congr_left hname]
    exact (congrArg (List.map _) (List.zipIdx_map_fst 0 blocks).symm).trans List.map_map
  have hmethod : (frameNames t entryPoint method blocks).nameOf method = entryPoint := by
    refine FrameNames.nameOf_of_mem hkeys ?_
    rw [hnames]
    exact List.mem_append_right _ (List.mem_singleton.2 rfl)
  rw [List.map_cons, hmethod, hblocks]

theorem classLayout_frames (p : Program) (a : Analysis) (c : ClassDefinition) (info : ClassInfo) :
    (classLayout p a c info).frames = (c.methods.zip info.methods).flatMap fun (m, s) => (methodLayout p a c.name m s).frames :=
  List.flatMap_map ..

namespace Analyzed
variable {p : Program} {a b : Analysis} {m : Method}

theorem closures_eq (h : Analyzed p a b) (m : Method) : p.closures b m = p.closures a m := by
  have htrue : b.scopes.scopeIs (·.isTrueBlock) = a.scopes.scopeIs (·.isTrueBlock) := funext h.converts.shape.isTrueBlock
  unfold Program.closures
  refine List.filterMap_congr fun id _ => ?_
  rw [Analysis.closure?, Analysis.closure?, h.blockScopes_eq, htrue]

theorem hasFrame_eq (h : Analyzed p a b) (s : ScopeId) : b.scopes.hasFrame s = a.scopes.hasFrame s := by
  rw [ScopeTree.hasFrame, ScopeTree.hasFrame, h.converts.shape.isMethod, h.converts.shape.isTrueBlock]

/-- The walk of a layout meets the closures of a method. -/
theorem closuresIn_visits (h : Analyzed p a b) (hm : m ∈ p.methods) : b.closuresIn (p.arena.visits m.body) = p.closures b m := by
  rw [h.resolved.parsed.forest.visits_body hm, Program.closures, List.filterMap_eq_flatMap_toList]
  unfold Analysis.closuresIn
  rw [List.filterMap_flatMap]
  refine List.flatMap_congr fun id _ => closuresIn_shown fun s hs => ?_
  rw [h.blockScopes_eq] at hs
  obtain ⟨_, _, code, -, hcode⟩ := h.resolved.event_of_blockScope hs
  simp [hcode]

/-- The frames of a method, with the names that they get. -/
theorem frames_of_method (h : Analyzed p a b) (hm : m ∈ p.methods) (className : String) (s : ScopeId) :
    (methodLayout p b className m s).frames = (s :: p.closures b m).map
      (frameLayout b.scopes (frameNames b.scopes (m.entryPoint className) s (p.closures b m))) := by
  rw [methodLayout, h.closuresIn_visits hm]

theorem length_layout (h : Analyzed p a b) : (p.layout b).classes.length = p.classes.length := by
  simp [Program.layout, h.size_classes]

theorem layout_at {i : Nat} {c : ClassDefinition} (h : Analyzed p a b) (hc : p.classes[i]? = some c) :
    ∃ info, b.classes[i]? = some info ∧ (p.layout b).classes[i]? = some (classLayout p b c info) := by
  have hlt : i < b.classes.size := by
    rw [h.size_classes]
    exact (List.getElem?_eq_some_iff.1 hc).1
  have hi := Array.getElem?_eq_getElem hlt
  exact ⟨_, hi, Program.getElem?_layout hc hi⟩

/-- Every method and every closure has one frame, in the order in which the scopes were made. -/
theorem frame_scopes (h : Analyzed p a b) :
    ((p.layout b).classes.flatMap (·.frames)).map (·.scope) = b.scopes.ids.filter b.scopes.hasFrame := by
  have hids : b.scopes.ids.filter b.scopes.hasFrame = a.scopes.ids.filter a.scopes.hasFrame := by
    rw [h.converts.shape.ids_eq, funext h.hasFrame_eq]
  rw [hids, h.resolved.filter_ids]
  simp only [Program.layout, List.flatMap_map, classLayout_frames, List.map_flatMap, h.classes_eq]
  refine List.flatMap_congr fun ⟨c, info⟩ hc => List.flatMap_congr fun ⟨m, s⟩ hm => ?_
  have hmem : m ∈ p.methods := List.mem_flatMap.2 ⟨c, (List.of_mem_zip hc).1, (List.of_mem_zip hm).1⟩
  rw [h.frames_of_method hmem, List.map_map, ← h.closures_eq]
  exact List.map_id _

end Analyzed
end BlockScope
