import BlockScope.Proofs.Analysis.Coverage
import BlockScope.Proofs.Analysis.Kept
import BlockScope.Proofs.Analysis.Returns
/-!
# The order in which scopes are made

Resolving names makes one scope for every method and block that it meets, in the order in which it meets them, and no
other (`Steps.ids_eq`). So different methods and blocks have different scopes (`Resolved.opener_unique`), every scope of
code is that of one of them (`Resolved.placed_of_code`), and a class lists the scopes of its methods side by side with
the methods (`Resolved.parallel`).
-/
namespace BlockScope

/-- The opener whose scope an event makes. -/
def Event.opener? (arena : Arena) : Event → Option Opener
  | .method cls place => some (.method cls place)
  | .node _ _ id => if (arena.blockCode? id).isSome then some (.block id) else none

/-- The scope that an event makes. -/
def Event.made? (arena : Arena) (scopeOf : Opener → Option ScopeId) (ev : Event) : Option ScopeId :=
  (ev.opener? arena).bind scopeOf

/-- The start of a method, with the scope it gets. -/
def Event.start? (p : Program) (scopeOf : Opener → Option ScopeId) : Event → Option (Job × ScopeId)
  | .method cls place =>
    (p.method? cls place).bind fun m => (scopeOf (.method cls place)).map fun scope => (⟨cls, place, m⟩, scope)
  | .node _ _ _ => none

/-! ## Scopes in order -/

namespace ScopeTree
variable {t t' : ScopeTree}

theorem ids_concat (h : t'.scopes.size = t.scopes.size + 1) : t'.ids = t.ids ++ [⟨t.scopes.size⟩] := by
  simp [ids, h, List.range_succ]

theorem ids_of_size (h : t'.scopes.size = t.scopes.size) : t'.ids = t.ids := by rw [ids, h, ids]

theorem size_markFound (t : ScopeTree) (found : Found) (forWrite : Bool) :
    (t.markFound found forWrite).scopes.size = t.scopes.size := by
  unfold markFound
  split <;> rfl

theorem pairwise_ids (t : ScopeTree) : t.ids.Pairwise (·.index < ·.index) := by
  unfold ids
  rw [List.pairwise_map]
  exact List.pairwise_lt_range

theorem SameShape.ids_eq (h : t.SameShape t') : t'.ids = t.ids := by
  apply ids_of_size
  have hlt : ∀ id : ScopeId, id.index < t'.scopes.size ↔ id.index < t.scopes.size := by
    intro id
    constructor
    · intro hid
      obtain ⟨s, hs⟩ := scope?_of_lt hid
      cases hs' : t.scope? id with
      | none =>
        rw [h.none id hs'] at hs
        cases hs
      | some s' => exact scope?_lt hs'
    · intro hid
      obtain ⟨s, hs⟩ := scope?_of_lt hid
      obtain ⟨f, hf⟩ := h.scope id s hs
      exact scope?_lt hf
  have h₁ := (hlt ⟨t.scopes.size⟩).1
  have h₂ := (hlt ⟨t'.scopes.size⟩).2
  simp only at h₁ h₂
  omega

end ScopeTree

section
variable {p : Program} {scopeOf : Opener → Option ScopeId} {a b : Analysis} {ev : Event} {evs : List Event}

/-- An event adds the scope of the opener that it meets, if any, at the end. -/
theorem Step.ids_eq (h : Step p scopeOf a ev b) (hw : a.scopes.Wf) :
    b.scopes.ids = a.scopes.ids ++ (ev.made? p.arena scopeOf).toList := by
  cases h with
  | method hm hinfo hscope hside hopens =>
    obtain ⟨-, -, -, -, -, hsize⟩ := hopens.spec hw hside nofun
    simp only [Event.made?, Event.opener?, Option.bind_some, hscope, Option.toList_some, hopens.scope]
    exact ScopeTree.ids_concat hsize
  | block hb hscope ho hcode hopens =>
    obtain ⟨o', k', f', hs⟩ := hcode
    obtain ⟨-, -, -, -, -, hsize⟩ := hopens.spec hw hs fun _ => ⟨k', f', rfl⟩
    simp only [Event.made?, Event.opener?, hb, Option.isSome_some, if_true, Option.bind_some, hscope, Option.toList_some,
      hopens.scope]
    exact ScopeTree.ids_concat hsize
  | use he =>
    simp only [Event.made?, Event.opener?, Arena.blockCode?, he]
    simpa using ScopeTree.ids_of_size (ScopeTree.size_markFound _ _ _)
  | other hi hb => simp [Event.made?, Event.opener?, hb]

theorem Steps.ids_eq (h : Steps p scopeOf a evs b) (hw : a.scopes.Wf) :
    b.scopes.ids = a.scopes.ids ++ evs.filterMap (Event.made? p.arena scopeOf) := by
  induction h with
  | nil => simp
  | @cons a b c ev evs h _ ih =>
    rw [ih (h.wf_grows hw).1, h.ids_eq hw, List.append_assoc, List.filterMap_cons]
    cases ev.made? p.arena scopeOf <;> rfl

/-! ## Methods side by side with their scopes -/

theorem Step.classes (h : Step p scopeOf a ev b) (i : Nat) : b.classes[i]? = (a.classes[i]?).map fun info =>
    ((ev.start? p scopeOf).toList.filter (·.1.cls = i)).foldl (fun c x => c.addMethod x.1.method.classSide x.2) info := by
  cases h with
  | @method cls place m info scope so t hm hinfo hscope =>
    simp only [Event.start?, hm, Option.bind_some, hscope, Option.map_some, Option.toList_some, Analysis.getElem?_modifyClass]
    by_cases hi : cls = i <;> simp [hi]
  | block | use | other => simp [Event.start?]

theorem Steps.classes (h : Steps p scopeOf a evs b) (i : Nat) : b.classes[i]? = (a.classes[i]?).map fun info =>
    ((evs.filterMap (Event.start? p scopeOf)).filter (·.1.cls = i)).foldl
      (fun c x => c.addMethod x.1.method.classSide x.2) info := by
  induction h with
  | nil => simp
  | @cons a b c ev evs h _ ih =>
    rw [ih, h.classes, Option.map_map]
    congr 1
    funext info
    rw [List.filterMap_cons]
    cases ev.start? p scopeOf with
    | none => rfl
    | some x => simp only [Function.comp, Option.toList_some, List.filter_cons, List.filter_nil]; split <;> rfl

/-- Below a node there are nodes only. -/
theorem node_of_mem_events {arena : Arena} {n : Nat} {o : Opener} {role : Role} {id : NodeId}
    (hev : ev ∈ arena.events n o role id) : ∃ o' role' x, ev = .node o' role' x := by
  induction n generalizing o role id with
  | zero => cases hev
  | succ n ih =>
    rcases List.mem_cons.1 hev with rfl | hev
    · exact ⟨o, role, id, rfl⟩
    · obtain ⟨part, -, hev⟩ := List.mem_flatMap.1 hev
      exact ih hev

theorem starts_of_method {cls place : Nat} {m : Method} {scope : ScopeId} (hm : p.method? cls place = some m)
    (hscope : scopeOf (.method cls place) = some scope) :
    (p.methodEvents cls place m).filterMap (Event.start? p scopeOf) = [(⟨cls, place, m⟩, scope)] := by
  have hbody : (m.body.flatMap (p.arena.eventsOf (.method cls place) .plain)).filterMap (Event.start? p scopeOf) = [] := by
    rw [List.filterMap_eq_nil_iff]
    intro ev hev
    obtain ⟨x, -, hev⟩ := List.mem_flatMap.1 hev
    obtain ⟨o, role, id, rfl⟩ := node_of_mem_events hev
    rfl
  rw [Program.methodEvents, List.filterMap_cons, hbody]
  simp [Event.start?, hm, hscope]

end

/-! ## When all names are resolved -/

/-- The scope is that of this method of the class. -/
def Program.IsMethodScope (p : Program) (a : Analysis) (i : Nat) (m : Method) (s : ScopeId) : Prop :=
  ∃ place, p.method? i place = some m ∧ a.scopeOf? (.method i place) = some s

theorem Placed.isCode {p : Program} {a : Analysis} {openers : List Opener} {s : ScopeId} (h : Placed p a openers s) :
    a.scopes.IsCode s := by
  cases h with
  | method _ _ _ hentered => exact hentered.isCode
  | block _ _ hentered _ => exact hentered.isCode

namespace Resolved
variable {p : Program} {a : Analysis} {ev ev' : Event} {s : ScopeId} {b b' : NodeId} {i : Nat} {c : ClassDefinition}
  {info : ClassInfo}

/-- Scopes are made in the order of the events. -/
theorem pairwise_made (h : Resolved p a) : p.events.Pairwise fun ev ev' =>
    ∀ s, ev.made? p.arena a.scopeOf? = some s → ∀ s', ev'.made? p.arena a.scopeOf? = some s' → s.index < s'.index := by
  obtain ⟨a₀, hready, hsteps⟩ := h.run
  have hids := a.scopes.pairwise_ids
  rw [hsteps.ids_eq hready.outline.wf, List.pairwise_append] at hids
  exact List.pairwise_filterMap.1 hids.2.1

/-- A scope is made once. -/
theorem event_unique (h : Resolved p a) (hev : ev ∈ p.events) (hev' : ev' ∈ p.events)
    (hs : ev.made? p.arena a.scopeOf? = some s) (hs' : ev'.made? p.arena a.scopeOf? = some s) : ev = ev' := by
  obtain ⟨a₀, hready, hsteps⟩ := h.run
  have hids := a.scopes.nodup_ids
  rw [hsteps.ids_eq hready.outline.wf] at hids
  exact Program.eq_of_nodup_filterMap hids.of_append_right hev hev' hs hs'

/-- A block with a scope has an event. -/
theorem event_of_blockScope (h : Resolved p a) (hb : a.blockScopes.get? b = some s) :
    ∃ o role code, .node o role b ∈ p.events ∧ p.arena.blockCode? b = some code := by
  obtain ⟨a₀, hready, hsteps⟩ := h.run
  by_contra hno
  have hnone : a.blockScopes.get? b = a₀.blockScopes.get? b := by
    refine hsteps.blockScopes_eq fun o role hev => ?_
    by_contra hcode
    obtain ⟨code, hcode⟩ := Option.ne_none_iff_exists'.1 hcode
    exact hno ⟨o, role, code, hev, hcode⟩
  rw [hnone, hready.outline.tables.2.1] at hb
  cases hb

/-- The event of a node makes the scope that the node has, if any. -/
theorem made_node (h : Resolved p a) (o : Opener) (role : Role) (b : NodeId) :
    (Event.node o role b).made? p.arena a.scopeOf? = a.blockScopes.get? b := by
  cases hcode : p.arena.blockCode? b with
  | some code => simp [Event.made?, Event.opener?, hcode, Analysis.scopeOf?]
  | none =>
    have hnone : a.blockScopes.get? b = none := by
      by_contra hne
      obtain ⟨s, hs⟩ := Option.ne_none_iff_exists'.1 hne
      obtain ⟨_, _, code, -, hcode'⟩ := h.event_of_blockScope hs
      rw [hcode] at hcode'
      cases hcode'
    simp [Event.made?, Event.opener?, hcode, hnone]

/-- The scope of a block has its place in the nesting of the program. -/
theorem placed_block {o : Opener} {role : Role} {outer : List Opener} (h : Resolved p a) (hev : .node o role b ∈ p.events)
    (haround : p.Around b (o :: outer)) (hs : a.blockScopes.get? b = some s) : Placed p a (.block b :: o :: outer) s := by
  obtain ⟨a₀, hready, hsteps⟩ := h.run
  obtain ⟨_, _, code, -, hcode⟩ := h.event_of_blockScope hs
  obtain ⟨scope, S, -, hS, hscope, -, hentered⟩ := hsteps.opened hready.outline.wf h.parsed.forest.nodup_events hev hcode
  rw [hs] at hscope
  cases hscope
  exact .block hcode hs hentered (h.placed haround hev rfl hS)

/-- What an event makes is a scope with its place in the nesting of the program. -/
theorem placed_of_made (h : Resolved p a) (hev : ev ∈ p.events) (hmade : ev.made? p.arena a.scopeOf? = some s) :
    ∃ openers, Placed p a openers s := by
  obtain ⟨a₀, hready, hsteps⟩ := h.run
  cases ev with
  | method cls place =>
    obtain ⟨m, info, scope, hm, hi, hscope, hentered⟩ := hsteps.started hready.outline.wf hev
    have hs : a.scopeOf? (.method cls place) = some s := hmade
    rw [hs] at hscope
    cases hscope
    exact ⟨_, .method hm hi hs hentered⟩
  | node o role b =>
    rw [h.made_node] at hmade
    obtain ⟨outer, haround⟩ := Program.around_of_event hev
    exact ⟨_, h.placed_block hev haround hmade⟩

/-- A scope is made by an event, or was there before the bodies and is no code. -/
theorem made_or_before (h : Resolved p a) {sc : Scope} (hs : a.scopes.scope? s = some sc) :
    (∃ ev ∈ p.events, ev.made? p.arena a.scopeOf? = some s) ∨
      ¬ a.scopes.IsCode s ∧ (s = ⟨0⟩ ∨ ∃ (i : Nat) (info : ClassInfo) (side : Bool), a.classes[i]? = some info ∧ info.side side = s) := by
  obtain ⟨a₀, hready, hsteps⟩ := h.run
  have hmem := ScopeTree.mem_ids.2 (ScopeTree.scope?_lt hs)
  rw [hsteps.ids_eq hready.outline.wf] at hmem
  rcases List.mem_append.1 hmem with hold | hmade
  · obtain ⟨s₀, hs₀⟩ := ScopeTree.scope?_of_lt (ScopeTree.mem_ids.1 hold)
    refine .inr ⟨fun hcode => ?_, ?_⟩
    · obtain ⟨o', k', f', hs'⟩ := hcode.of_grows (hsteps.wf_grows hready.outline.wf).2 hs₀
      exact hready.outline.no_code hs'
    · rcases hready.outline.only s s₀ hs₀ with hroot | ⟨i, info₀, side, hi₀, rfl⟩
      · exact .inl (by rw [hroot, hready.outline.root])
      · obtain ⟨info, hi, hsame⟩ := hsteps.classes_eq hi₀
        exact .inr ⟨i, info, side, hi, hsame.side side⟩
  · exact .inl (List.mem_filterMap.1 hmade)

/-- Every scope of a method or block is made by an event. -/
theorem made_of_code (h : Resolved p a) (hs : a.scopes.IsCode s) :
    ∃ ev ∈ p.events, ev.made? p.arena a.scopeOf? = some s := by
  have ⟨o, k, f, hscope⟩ := hs
  exact (h.made_or_before hscope).resolve_right fun hno => hno.1 hs

theorem placed_of_code (h : Resolved p a) (hs : a.scopes.IsCode s) : ∃ openers, Placed p a openers s := by
  obtain ⟨ev, hev, hmade⟩ := h.made_of_code hs
  exact h.placed_of_made hev hmade

/-! ### Classes -/

/-- Every method starts with its scope, in the order of the program. -/
theorem starts_eq (h : Resolved p a) : (p.events.filterMap (Event.start? p a.scopeOf?)).map (·.1) = p.jobs := by
  have hjob : ∀ job ∈ p.jobs, ((job.events p).filterMap (Event.start? p a.scopeOf?)).map (·.1) = [job] := by
    intro job hjob
    have hm := mem_jobs hjob
    obtain ⟨scope, hscope⟩ := h.scope_of_method hm
    rw [Job.events, starts_of_method hm hscope]
    rfl
  rw [← flatMap_jobs, List.filterMap_flatMap, List.map_flatMap, List.flatMap_congr hjob, List.flatMap_singleton']

theorem size_classes (h : Resolved p a) : a.classes.size = p.classes.length := by
  obtain ⟨a₀, hready, hsteps⟩ := h.run
  rw [← hready.size]
  apply Nat.le_antisymm <;> apply Nat.le_of_not_lt <;> intro hlt
  · have := hsteps.classes a₀.classes.size
    rw [Array.getElem?_eq_getElem hlt, Array.getElem?_eq_none (Nat.le_refl _)] at this
    cases this
  · have := hsteps.classes a.classes.size
    rw [Array.getElem?_eq_getElem hlt, Array.getElem?_eq_none (Nat.le_refl _)] at this
    cases this

/-- A start is that of a method with its scope. -/
theorem isMethodScope_of_start {x : Job × ScopeId} (hx : x ∈ p.events.filterMap (Event.start? p a.scopeOf?)) :
    p.IsMethodScope a x.1.cls x.1.method x.2 := by
  obtain ⟨ev, -, hstart⟩ := List.mem_filterMap.1 hx
  cases ev with
  | method cls place =>
    obtain ⟨m, hm, hstart⟩ := Option.bind_eq_some_iff.1 hstart
    obtain ⟨scope, hscope, rfl⟩ := Option.map_eq_some_iff.1 hstart
    exact ⟨place, hm, hscope⟩
  | node => cases hstart

/-- What a class knows of its methods are their starts. -/
theorem class_of_starts (h : Resolved p a) (hc : p.classes[i]? = some c) (hi : a.classes[i]? = some info) :
    ∃ starts info₀, starts = (p.events.filterMap (Event.start? p a.scopeOf?)).filter (·.1.cls = i) ∧
      starts.map (·.1) = jobsFrom i 0 c.methods ∧ info₀.instanceMethods = [] ∧ info₀.classMethods = [] ∧
      info = starts.foldl (fun c x => c.addMethod x.1.method.classSide x.2) info₀ := by
  obtain ⟨a₀, hready, hsteps⟩ := h.run
  have hclasses := hsteps.classes i
  rw [hi] at hclasses
  obtain ⟨info₀, hi₀, hinfo⟩ := Option.map_eq_some_iff.1 hclasses.symm
  obtain ⟨-, -, -, hinstance, hclass, -⟩ := hready.outline.classes i info₀ hi₀
  have hjobs := filter_jobs p.classes 0 i
  rw [Nat.zero_add, hc, ← Program.jobs, ← h.starts_eq, List.filter_map] at hjobs
  exact ⟨_, info₀, rfl, hjobs, hinstance, hclass, hinfo.symm⟩

/-- A class lists the scopes of its methods in the order of the methods, instance methods and class methods apart. -/
theorem parallel (h : Resolved p a) (hc : p.classes[i]? = some c) (hi : a.classes[i]? = some info) :
    List.Forall₂ (p.IsMethodScope a i) c.instanceMethods info.instanceMethods ∧
      List.Forall₂ (p.IsMethodScope a i) c.classMethods info.classMethods := by
  obtain ⟨starts, info₀, hstarts, hjobs, hinstance, hclass, rfl⟩ := h.class_of_starts hc hi
  have hscope : ∀ x ∈ starts, p.IsMethodScope a i x.1.method x.2 := by
    intro x hx
    rw [hstarts] at hx
    obtain ⟨hx, hcls⟩ := List.mem_filter.1 hx
    have hmethod := isMethodScope_of_start hx
    rwa [of_decide_eq_true hcls] at hmethod
  obtain ⟨l₁, l₂, rfl, hl₁, hl₂, e₁, e₂⟩ := sides_of_jobs (h.parsed.sided c (List.mem_of_getElem? hc)) hjobs hinstance hclass
  simp only [e₁, e₂, ← hl₁, ← hl₂, List.forall₂_map_left_iff, List.forall₂_map_right_iff, List.forall₂_same]
  exact ⟨fun x hx => hscope x (List.mem_append_left _ hx), fun x hx => hscope x (List.mem_append_right _ hx)⟩

theorem length_methods (h : Resolved p a) (hc : p.classes[i]? = some c) (hi : a.classes[i]? = some info) :
    info.methods.length = c.methods.length := by
  obtain ⟨hinstance, hclass⟩ := h.parallel hc hi
  rw [ClassInfo.methods, ClassDefinition.methods, List.length_append, List.length_append, hinstance.length_eq, hclass.length_eq]

/-- The scopes of the methods of a class are made in the order of the methods. -/
theorem pairwise_methods (h : Resolved p a) (hc : p.classes[i]? = some c) (hi : a.classes[i]? = some info) :
    info.methods.Pairwise (·.index < ·.index) := by
  obtain ⟨starts, info₀, rfl, hjobs, hinstance, hclass, rfl⟩ := h.class_of_starts hc hi
  have hmade : ∀ (ev : Event) (x : Job × ScopeId), ev.start? p a.scopeOf? = some x → ev.made? p.arena a.scopeOf? = some x.2 := by
    intro ev x hstart
    cases ev with
    | method cls place =>
      obtain ⟨m, -, hstart⟩ := Option.bind_eq_some_iff.1 hstart
      obtain ⟨scope, hscope, rfl⟩ := Option.map_eq_some_iff.1 hstart
      exact hscope
    | node => cases hstart
  rw [methods_of_jobs (h.parsed.sided c (List.mem_of_getElem? hc)) hjobs hinstance hclass, List.pairwise_map]
  refine List.Pairwise.filter _ (List.pairwise_filterMap.2 (h.pairwise_made.imp ?_))
  intro ev ev' hlt x hx x' hx'
  exact hlt _ (hmade ev x hx) _ (hmade ev' x' hx')

/-- A method or block with a scope has an event. -/
theorem event_of_opener {o : Opener} (h : Resolved p a) (ho : a.scopeOf? o = some s) :
    ∃ ev ∈ p.events, ev.opener? p.arena = some o := by
  cases o with
  | method cls place =>
    obtain ⟨info, hi, hplace⟩ := Option.bind_eq_some_iff.1 ho
    have hlt := (Array.getElem?_eq_some_iff.1 hi).1
    rw [h.size_classes] at hlt
    have hplace := (List.getElem?_eq_some_iff.1 hplace).1
    rw [h.length_methods (List.getElem?_eq_getElem hlt) hi] at hplace
    have hm : p.method? cls place = some (p.classes[cls].methods[place]) := by
      rw [Program.method?, List.getElem?_eq_getElem hlt, Option.bind_some, List.getElem?_eq_getElem hplace]
    exact ⟨_, Program.event_of_method hm, rfl⟩
  | block b =>
    obtain ⟨o', role, code, hev, hcode⟩ := h.event_of_blockScope ho
    exact ⟨_, hev, by simp [Event.opener?, hcode]⟩

/-- No two methods or blocks share a scope. -/
theorem opener_unique {o o' : Opener} (h : Resolved p a) (ho : a.scopeOf? o = some s) (ho' : a.scopeOf? o' = some s) : o = o' := by
  obtain ⟨ev, hev, hopener⟩ := h.event_of_opener ho
  obtain ⟨ev', hev', hopener'⟩ := h.event_of_opener ho'
  have hmade : ev.made? p.arena a.scopeOf? = some s := by rw [Event.made?, hopener, Option.bind_some, ho]
  have hmade' : ev'.made? p.arena a.scopeOf? = some s := by rw [Event.made?, hopener', Option.bind_some, ho']
  cases h.event_unique hev hev' hmade hmade'
  rw [hopener] at hopener'
  exact Option.some.inj hopener'

end Resolved
end BlockScope
