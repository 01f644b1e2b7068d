import BlockScope.Proofs.Analysis.Creation
import BlockScope.Proofs.Analysis.Lexical
/-!
# Who owns what in the end

The scopes of an accepted program form a tree: the root first, under it two sides for every class, under a side the
methods of that side, and under code the blocks in it. Every variable is listed exactly once, by the scope that it names
as its own and in the list for its kind. Conversion moves variables from one list of a scope to another, and the tree
and the owners stay.
-/
namespace BlockScope

/-- What a scope stands under, by what it is: sides under the root, a method under its side of its class, blocks under code. -/
def Program.StandsUnder (p : Program) (a : Analysis) (id outer : ScopeId) : ScopeBody → Prop
  | .root _ => False
  | .side i side _ _ => outer = ⟨0⟩ ∧ ∃ info, a.classes[i]? = some info ∧ info.side side = id
  | .code .method _ => ∃ i m receiver slots, p.IsMethodScope a i m id ∧
      a.scopes.scope? outer = some ⟨some ⟨0⟩, .side i m.classSide receiver slots⟩
  | .code _ _ => a.scopes.IsCode outer

/-- The scope was made for the method: it stands under its side of the class, has a variable for everything that the method
declares, and the blocks directly in the body of the method stand under it. -/
structure Program.MadeForMethod (p : Program) (a : Analysis) (info : ClassInfo) (m : Method) (s : ScopeId) : Prop where
  isMethod : a.scopes.scopeIs (·.isMethod) s
  outer : a.scopes.outer? s = some (info.side m.classSide)
  declares : ∀ d ∈ m.code.declared, ∃ x v, a.scopes.var? x = some v ∧ v.scope = s ∧ v.name = d.name ∧ v.span = some d.span
  blocks : ∀ b S, p.arena.Inside m.body b → a.blockScopes.get? b = some S → a.scopes.outer? S = some s

/-! ## The tree of scopes -/

theorem Steps.class_before {p : Program} {scopeOf : Opener → Option ScopeId} {a b : Analysis} {evs : List Event} {i : Nat}
    {info : ClassInfo} (h : Steps p scopeOf a evs b) (hi : b.classes[i]? = some info) :
    ∃ info₀, a.classes[i]? = some info₀ ∧ info₀.SameClass info := by
  have hclasses := h.classes i
  rw [hi] at hclasses
  obtain ⟨info₀, hi₀, -⟩ := Option.map_eq_some_iff.1 hclasses.symm
  obtain ⟨info', hi', hsame⟩ := h.classes_eq hi₀
  rw [hi] at hi'
  cases hi'
  exact ⟨info₀, hi₀, hsame⟩

namespace Resolved
variable {p : Program} {a : Analysis} {id s : ScopeId} {o : Option ScopeId} {body : ScopeBody} {i : Nat} {info : ClassInfo}
  {c : ClassDefinition} {m : Method} {side : Bool}

theorem root_eq (h : Resolved p a) : a.root = ⟨0⟩ := by
  obtain ⟨a₀, hready, hsteps⟩ := h.run
  rw [hsteps.root_eq, hready.outline.root]

/-- The root lists the classes. -/
theorem root_scope (h : Resolved p a) : a.scopes.scope? ⟨0⟩ = some ⟨none, .root (a.classes.toList.map (·.member))⟩ := by
  obtain ⟨a₀, hready, hsteps⟩ := h.run
  have hs := (hsteps.wf_grows hready.outline.wf).2.scope_eq hready.outline.members nofun
  have hmembers : a₀.classes.toList.map (·.member) = a.classes.toList.map (·.member) := by
    apply List.ext_getElem?
    intro i
    simp only [List.getElem?_map, Array.getElem?_toList]
    cases hi : a.classes[i]? with
    | none =>
      have hnone := hsteps.classes i
      rw [hi, eq_comm, Option.map_eq_none_iff] at hnone
      rw [hnone]
    | some info =>
      obtain ⟨info₀, hi₀, hsame⟩ := hsteps.class_before hi
      rw [hi₀, Option.map_some, Option.map_some, hsame.member]
  rw [hready.outline.root, hmembers] at hs
  exact hs

theorem sides (h : Resolved p a) (hi : a.classes[i]? = some info) (side : Bool) :
    ∃ receiver, a.scopes.scope? (info.side side) = some ⟨some ⟨0⟩, .side i side receiver (info.slots side)⟩ := by
  obtain ⟨c, hc⟩ : ∃ c, p.classes[i]? = some c := by
    have hlt := (Array.getElem?_eq_some_iff.1 hi).1
    rw [h.size_classes] at hlt
    exact ⟨_, List.getElem?_eq_getElem hlt⟩
  obtain ⟨⟨receiver, -, hs, -⟩, -⟩ := h.side_scope hc hi side
  rw [h.root_eq] at hs
  exact ⟨receiver, hs⟩

theorem standsUnder (h : Resolved p a) (hs : a.scopes.scope? id = some ⟨o, body⟩) (hne : id ≠ ⟨0⟩) :
    ∃ outer, o = some outer ∧ outer.index < id.index ∧ p.StandsUnder a id outer body := by
  have hlt : ∀ outer, o = some outer → outer.index < id.index := by
    rintro outer rfl
    exact h.wf.nested id outer (ScopeTree.outer?_of_scope hs)
  rcases h.made_or_before hs with ⟨ev, hev, hmade⟩ | ⟨-, hroot | ⟨i, info, side, hi, rfl⟩⟩
  · obtain ⟨openers, hplaced⟩ := h.placed_of_made hev hmade
    cases hplaced with
    | @method cls place m info _ hm hi hscope hentered =>
      obtain ⟨xs, ys, slots, hs', -⟩ := hentered
      rw [hs] at hs'
      cases hs'
      obtain ⟨receiver, hside⟩ := h.sides hi m.classSide
      exact ⟨_, rfl, hlt _ rfl, cls, m, receiver, _, ⟨place, hm, hscope⟩, hside⟩
    | @block b code role _ S outer hb hscope hentered hrest =>
      obtain ⟨xs, ys, slots, hs', -⟩ := hentered
      rw [hs] at hs'
      cases hs'
      refine ⟨S, rfl, hlt _ rfl, ?_⟩
      cases role <;> exact hrest.isCode
  · exact absurd hroot hne
  · obtain ⟨receiver, hs'⟩ := h.sides hi side
    rw [hs] at hs'
    cases hs'
    exact ⟨⟨0⟩, rfl, hlt _ rfl, rfl, info, hi, rfl⟩

/-! ## Around a method there is no code -/

theorem eq_of_around_method (h : Resolved p a) {M y : ScopeId} (hM : a.scopes.scopeIs (·.isMethod) M)
    (hw : a.scopes.Within M y) (hy : a.scopes.IsCode y) : y = M := by
  rcases hw.cases_outer with rfl | ⟨o, ho, hw⟩
  · rfl
  · exfalso
    obtain ⟨⟨o', body⟩, hs, hbody⟩ := (Option.any_eq_true _ _).1 hM
    have hne : M ≠ ⟨0⟩ := by
      rintro rfl
      rw [h.root_scope] at hs
      cases hs
      cases hbody
    cases body with
    | root | side => cases hbody
    | code k f =>
      obtain rfl : k = .method := Option.some.inj (of_decide_eq_true hbody)
      obtain ⟨outer, rfl, -, i, m, receiver, slots, -, hside⟩ := h.standsUnder hs hne
      rw [ScopeTree.outer?_of_scope hs] at ho
      cases ho
      -- On the way there are a side and the root, and no more.
      rcases hw.cases_outer with rfl | ⟨o, ho, hw⟩
      · obtain ⟨_, _, _, hy⟩ := hy
        rw [hside] at hy
        cases hy
      · rw [ScopeTree.outer?_of_scope hside] at ho
        cases ho
        rcases hw.cases_outer with rfl | ⟨o, ho, -⟩
        · obtain ⟨_, _, _, hy⟩ := hy
          rw [h.root_scope] at hy
          cases hy
        · rw [ScopeTree.outer?_of_scope h.root_scope] at ho
          cases ho

/-! ## Methods -/

theorem madeForMethod (h : Resolved p a) (hi : a.classes[i]? = some info) (hs : p.IsMethodScope a i m s) :
    p.MadeForMethod a info m s := by
  obtain ⟨a₀, hready, hsteps⟩ := h.run
  obtain ⟨place, hm, hscope⟩ := hs
  obtain ⟨m', info', scope, hm', hi', hscope', hentered⟩ := hsteps.started hready.outline.wf (Program.event_of_method hm)
  rw [hm] at hm'
  cases hm'
  rw [hi] at hi'
  cases hi'
  rw [hscope] at hscope'
  cases hscope'
  constructor
  case isMethod => exact hentered.scopeIs (· = some .method)
  case outer => exact hentered.outer?_eq
  case declares =>
    obtain ⟨xs, ys, slots, -, hxs, hys, -⟩ := hentered
    intro d hd
    rcases List.mem_append.1 hd with hd | hd
    · obtain ⟨x, -, v, hv, hname, hspan, hvs, -⟩ := ScopeTree.exists_of_mem_left hxs hd
      exact ⟨x, v, hv, hvs, hname, hspan⟩
    · obtain ⟨x, -, v, hv, hname, hspan, hvs, -⟩ := ScopeTree.exists_of_mem_left hys hd
      exact ⟨x, v, hv, hvs, hname, hspan⟩
  case blocks =>
    intro b S hb hS
    obtain ⟨o, role, code, hev, hcode⟩ := h.event_of_blockScope hS
    obtain ⟨scope, outer, hscope', ho, -, -, hentered'⟩ :=
      hsteps.opened hready.outline.wf h.parsed.forest.nodup_events hev hcode
    have hscopes : a.scopeOf? (.block b) = some S := hS
    rw [hscopes] at hscope'
    cases hscope'
    -- The opener around the block is the method.
    obtain ⟨outer', haround⟩ := Program.around_of_event hev
    have hencl : p.Encloses (.method i place) b := ⟨m.code, by simp [Program.code?, hm], hb⟩
    rw [h.parsed.forest.encloses_unique haround.head hencl, hscope] at ho
    cases ho
    exact hentered'.outer?_eq

/-! ## Nothing is listed twice -/

/-- The members of the root are numbered by their classes. -/
theorem nodup_members (h : Resolved p a) : (a.classes.toList.map (·.member)).Nodup := by
  obtain ⟨a₀, hready, hsteps⟩ := h.run
  have hg := (hsteps.wf_grows hready.outline.wf).2
  apply a.scopes.nodup_of_index
  intro i x hx
  simp only [List.getElem?_map, Array.getElem?_toList] at hx
  obtain ⟨info, hi, rfl⟩ := Option.map_eq_some_iff.1 hx
  obtain ⟨info₀, hi₀, hsame⟩ := hsteps.class_before hi
  obtain ⟨c, -, -, -, -, hv⟩ := hready.outline.classes i info₀ hi₀
  obtain ⟨level, hv'⟩ := hg.vars _ _ hv
  rw [hsame.member]
  exact ⟨_, hv', rfl⟩

/-- The slots of a side are numbered by their places. -/
theorem nodup_slots (h : Resolved p a) (hi : a.classes[i]? = some info) (side : Bool) : (info.slots side).Nodup := by
  obtain ⟨a₀, hready, hsteps⟩ := h.run
  have hg := (hsteps.wf_grows hready.outline.wf).2
  obtain ⟨info₀, hi₀, hsame⟩ := hsteps.class_before hi
  obtain ⟨receiver, -, -, hlaid⟩ := hready.outline.sides i info₀ hi₀ side
  rw [hsame.slots]
  apply a.scopes.nodup_of_index
  intro j x hx
  have hlt : j < (p.laidOut a₀ i side).length := by
    rw [← hlaid.length]
    exact (List.getElem?_eq_some_iff.1 hx).1
  obtain ⟨level, hv⟩ := hg.vars _ _ (hlaid.var j _ x (List.getElem?_eq_getElem hlt) hx)
  exact ⟨_, hv, rfl⟩

end Resolved

namespace ScopeTree.Entered
variable {t : ScopeTree} {s outer : ScopeId} {k : CodeKind} {params temps : List Declaration} {f : Frame} {o : Option ScopeId}

theorem map_nameOf {declaredAs : VarKind} {ds : List Declaration} {xs : List VarId}
    (h : List.Forall₂ (t.Declared s k declaredAs) ds xs) : xs.map t.nameOf = ds.map (·.name) := by
  induction h with
  | nil => rfl
  | cons hd _ ih =>
    obtain ⟨v, hv, hname, -⟩ := hd
    simp [nameOf, hv, hname, ih]

/-- The names of an inlined block are different, so the variables are. -/
theorem nodup_inlined (h : t.Entered s outer k params temps) (hs : t.scope? s = some ⟨o, .code k f⟩) : f.inlined.Nodup := by
  obtain ⟨xs, ys, slots, hs', hxs, hys, -, hnames⟩ := h
  rw [hs] at hs'
  cases hs'
  have hnodup : (xs ++ ys).Nodup := by
    refine List.Nodup.of_map t.nameOf ?_
    rw [List.map_append, map_nameOf hxs, map_nameOf hys, ← List.map_append]
    exact hnames
  unfold frameOf Frame.withSlots
  split
  · exact hnodup
  · exact .nil

end ScopeTree.Entered

/-! ## In the end -/

theorem ScopeTree.SameShape.scope_before {t t' : ScopeTree} {id : ScopeId} {s' : Scope} (h : t.SameShape t')
    (hs : t'.scope? id = some s') : ∃ s f, t.scope? id = some s ∧ s' = s.mapFrame f := by
  cases hs₀ : t.scope? id with
  | none =>
    rw [h.none id hs₀] at hs
    cases hs
  | some s =>
    obtain ⟨f, hf⟩ := h.scope id s hs₀
    rw [hs] at hf
    exact ⟨s, f, rfl, Option.some.inj hf⟩

namespace Analyzed
variable {p : Program} {a b : Analysis} {id s outer : ScopeId} {o : Option ScopeId} {k : CodeKind} {f : Frame} {x : VarId}
  {i : Nat} {info : ClassInfo} {m : Method} {body : ScopeBody} {kind : VarKind}

theorem size_classes (h : Analyzed p a b) : b.classes.size = p.classes.length := by
  rw [h.classes_eq, h.resolved.size_classes]

theorem standsUnder (h : Analyzed p a b) (hs : b.scopes.scope? id = some ⟨o, body⟩) (hne : id ≠ ⟨0⟩) :
    ∃ outer, o = some outer ∧ outer.index < id.index ∧ p.StandsUnder b id outer body := by
  obtain ⟨⟨o₀, body₀⟩, g, hs₀, heq⟩ := h.converts.shape.scope_before hs
  obtain ⟨outer, rfl, hlt, hunder⟩ := h.resolved.standsUnder hs₀ hne
  obtain rfl : o = some outer := congrArg Scope.outer heq |>.trans (Scope.outer_mapFrame _ _)
  refine ⟨outer, rfl, hlt, ?_⟩
  cases body₀ with
  | root => exact hunder.elim
  | side =>
    cases heq
    rw [Program.StandsUnder, h.classes_eq]
    exact hunder
  | code k f =>
    cases heq
    have hblock : a.scopes.IsCode outer → b.scopes.IsCode outer := by
      rintro ⟨o, k, f, hcode⟩
      obtain ⟨g, hg⟩ := h.converts.shape.scope outer _ hcode
      exact ⟨o, k, g f, hg⟩
    cases k with
    | method =>
      obtain ⟨i, m, receiver, slots, ⟨place, hm, hscope⟩, hside⟩ := hunder
      exact ⟨i, m, receiver, slots, ⟨place, hm, by rw [h.scopeOf?_eq, hscope]⟩, h.converts.shape.scope_eq hside nofun⟩
    | block => exact hblock hunder
    | inlinedBlock => exact hblock hunder

theorem madeForMethod (h : Analyzed p a b) (hi : b.classes[i]? = some info) (hs : p.IsMethodScope a i m s) :
    p.MadeForMethod b info m s := by
  rw [h.classes_eq] at hi
  obtain ⟨hmethod, houter, hdeclares, hin⟩ := h.resolved.madeForMethod hi hs
  refine ⟨by rw [h.converts.shape.isMethod, hmethod], by rw [h.converts.shape.outer?, houter], fun d hd => ?_, fun b' S hb hS => ?_⟩
  · obtain ⟨x, v, hv, hscope, hname, hspan⟩ := hdeclares d hd
    obtain ⟨kind, hv'⟩ := h.converts.var_of_var hv
    exact ⟨x, _, hv', hscope, hname, hspan⟩
  · rw [h.converts.shape.outer?]
    exact hin b' S hb (by rw [← h.blockScopes_eq, hS])

/-- The lists of a frame in the end: locals that are written remotely are on the heap, and nothing else has changed. -/
theorem lists_eq {f₀ : Frame} (h : Analyzed p a b) (hf₀ : a.scopes.frame? s = some f₀) (hf : b.scopes.frame? s = some f) :
    f.arguments = f₀.arguments ∧ f.locals = f₀.locals.filter (fun x => !a.scopes.isWrittenRemotely x) ∧
      f.heapvars = f₀.locals.filter a.scopes.isWrittenRemotely ∧ f.inlined = f₀.inlined := by
  obtain ⟨f₁, hf₁, hargs, hlocals, hheap⟩ := h.frame_eq hf
  obtain ⟨f₂, hf₂, hst, -⟩ := h.frame_of_frame hf
  rw [hf₀] at hf₁ hf₂
  cases hf₁
  cases hf₂
  have hinlined : f.storage.inlined = (f₀.moveToHeap (a.scopes.toMove f₀)).storage.inlined := by rw [hst]
  exact ⟨hargs, hlocals, hheap, hinlined⟩

/-- A frame lists nothing that it does not own as the list says. -/
theorem owner_of_code (h : Analyzed p a b) (hs : b.scopes.scope? s = some ⟨o, .code k f⟩)
    (hx : (kind, x) ∈ (⟨o, .code k f⟩ : Scope).owned) : ∃ v, b.scopes.var? x = some v ∧ v.scope = s ∧ v.kind = kind := by
  obtain ⟨f₀, hs₀⟩ := h.converts.shape.code_of_code hs
  have hf₀ : a.scopes.frame? s = some f₀ := ScopeTree.frame?_of_scope hs₀
  have hf : b.scopes.frame? s = some f := ScopeTree.frame?_of_scope hs
  have hwf := h.resolved.wf.code s o k f₀ hs₀
  obtain ⟨hargs, hlocals, hheap, hinlined⟩ := h.lists_eq hf₀ hf
  simp only [Scope.owned, List.mem_append, List.mem_map, Prod.mk.injEq, hargs, hlocals, hheap, hinlined,
    List.mem_filter, Bool.not_eq_true'] at hx
  rcases hx with ((⟨_, hx, rfl, rfl⟩ | ⟨_, ⟨hx, hnot⟩, rfl, rfl⟩) | ⟨_, ⟨hx, hwritten⟩, rfl, rfl⟩) | ⟨_, hx, rfl, rfl⟩
  · obtain ⟨v, hv, hscope, hk, -⟩ := hwf.arguments _ hx
    exact ⟨v, h.var_of_argument hv hk, hscope, hk⟩
  · obtain ⟨v, hv, hscope, hk, -⟩ := hwf.locals _ hx
    refine ⟨v, (h.var_eq hv v).2 (.inr ⟨rfl, fun hmoved => ?_⟩), hscope, hk⟩
    simp [ScopeTree.isWrittenRemotely, hv, hmoved.2] at hnot
  · obtain ⟨v, hv, rfl, -, -⟩ := hwf.locals _ hx
    have hremote : v.remote = .written := by simpa [ScopeTree.isWrittenRemotely, hv] using hwritten
    exact ⟨_, (h.var_eq hv _).2 (.inl ⟨rfl, ⟨f₀, hf₀, List.mem_append_right _ hx⟩, hremote⟩), rfl, rfl⟩
  · obtain ⟨v, slot, host, fh, hv, hscope, hk, -⟩ := hwf.inlined _ hx
    exact ⟨v, h.var_kept hv (by simp [VarKind.IsStored, hk]), hscope, hk⟩

theorem nodup_owned_code (h : Analyzed p a b) (hs : b.scopes.scope? s = some ⟨o, .code k f⟩) :
    (⟨o, .code k f⟩ : Scope).owned.Nodup := by
  obtain ⟨f₀, hs₀⟩ := h.converts.shape.code_of_code hs
  have hf₀ : a.scopes.frame? s = some f₀ := ScopeTree.frame?_of_scope hs₀
  have hf : b.scopes.frame? s = some f := ScopeTree.frame?_of_scope hs
  have harranged := h.resolved.listing.arranged s f₀ hf₀
  obtain ⟨hargs, hlocals, hheap, hinlined⟩ := h.lists_eq hf₀ hf
  obtain ⟨_, code, outer, k', -, -, hentered⟩ := h.resolved.opener_of_code ⟨_, _, _, hs₀⟩
  have hk : k' = k := by
    obtain ⟨xs, ys, slots, hs', -⟩ := hentered
    rw [hs₀] at hs'
    cases hs'
    rfl
  subst hk
  apply Scope.nodup_owned_code
  · rw [hargs]
    exact harranged.arguments.nodup
  · rw [hlocals]
    exact (harranged.locals.filter _).nodup
  · rw [hheap]
    exact (harranged.locals.filter _).nodup
  · rw [hinlined]
    exact hentered.nodup_inlined hs₀

theorem allListed (h : Analyzed p a b) : b.scopes.AllListed := by
  intro x v hv
  obtain ⟨v₀, hv₀, kind, rfl⟩ := h.var_of_var hv
  obtain ⟨⟨o, body⟩, hs, hx⟩ := h.resolved.allListed x v₀ hv₀
  cases body with
  | root => exact ⟨_, h.converts.shape.scope_eq hs nofun, hx⟩
  | side => exact ⟨_, h.converts.shape.scope_eq hs nofun, hx⟩
  | code k f₀ =>
    have hlists : a.scopes.Lists v₀.scope x := by
      refine ⟨f₀, ScopeTree.frame?_of_scope hs, ?_⟩
      simp only [Scope.mem_listed_code, Frame.listed, List.mem_append] at hx ⊢
      tauto
    obtain ⟨f, hf, hmem⟩ := h.lists hlists
    obtain ⟨o', k', hs'⟩ := ScopeTree.scope_of_frame hf
    refine ⟨_, hs', ?_⟩
    simp only [Scope.mem_listed_code, Frame.listed, List.mem_append] at hmem ⊢
    tauto

/-- In the end every variable is listed once. -/
theorem owned (h : Analyzed p a b) : b.scopes.Owned := by
  -- A variable of the root or of a side is no storage, so conversion leaves it alone.
  have hfixed : ∀ {id kind x}, a.scopes.Owns id kind x → ¬ kind.IsStored →
      ∃ v, b.scopes.var? x = some v ∧ v.scope = id ∧ v.kind = kind := by
    rintro id kind x ⟨v, hv, hscope, rfl, -⟩ hk
    exact ⟨v, h.var_kept hv hk, hscope, rfl⟩
  have hroot := h.resolved.root_scope
  constructor
  case kinds =>
    intro id s kind x hs hx
    obtain ⟨⟨o, body⟩, g, hs₀, rfl⟩ := h.converts.shape.scope_before hs
    cases body with
    | root members =>
      obtain ⟨_, hmem, heq⟩ := List.mem_map.1 hx
      cases heq
      exact hfixed (h.resolved.wf.root id o members hs₀ x hmem) (by simp [VarKind.IsStored])
    | side i side receiver slots =>
      obtain ⟨hreceiver, hslots⟩ := h.resolved.wf.side id o i side receiver slots hs₀
      rcases List.mem_cons.1 hx with heq | hx
      · cases heq
        exact hfixed hreceiver (by simp [VarKind.IsStored])
      · obtain ⟨_, hmem, heq⟩ := List.mem_map.1 hx
        cases heq
        exact hfixed (hslots x hmem) (by simp [VarKind.IsStored])
    | code k f => exact h.owner_of_code hs hx
  case listed => exact h.allListed
  case nodup =>
    intro id s hs
    obtain ⟨⟨o, body⟩, g, hs₀, rfl⟩ := h.converts.shape.scope_before hs
    by_cases hid : id = ⟨0⟩
    · subst hid
      rw [hroot] at hs₀
      cases hs₀
      exact h.resolved.nodup_members.map fun x y he => (Prod.mk.inj he).2
    · obtain ⟨outer, rfl, -, hunder⟩ := h.resolved.standsUnder hs₀ hid
      cases body with
      | root => exact hunder.elim
      | side i side receiver slots =>
        obtain ⟨-, info, hi, rfl⟩ := hunder
        obtain ⟨receiver', hs'⟩ := h.resolved.sides hi side
        rw [hs₀] at hs'
        cases hs'
        have hslots := (h.resolved.nodup_slots hi side).map fun x y (he : (VarKind.slot, x) = (.slot, y)) => (Prod.mk.inj he).2
        refine List.nodup_cons.2 ⟨?_, hslots⟩
        simp
      | code k f => exact h.nodup_owned_code hs

end Analyzed

/-- In an accepted program the scopes are a tree, with one root and everything else on what was made before it; every
variable is listed exactly once, by its own scope and under its own kind; no two methods or blocks share a scope; and a
class lists the scopes of its methods side by side with the methods, in whose order they were made. -/
theorem ownership_exact {bytes : List UInt8} {p : Program} {a : Analysis} (hp : Program.ofBytes bytes = .ok p)
    (ha : p.analyze = .ok a) :
    (∃ members, a.scopes.scope? ⟨0⟩ = some ⟨none, .root members⟩) ∧
    (∀ id s, a.scopes.scope? id = some s → id ≠ ⟨0⟩ →
      ∃ outer, s.outer = some outer ∧ outer.index < id.index ∧ p.StandsUnder a id outer s.body) ∧
    (∀ x v, a.scopes.var? x = some v → a.scopes.owners.filter (·.2.2 = x) = [(v.scope, v.kind, x)]) ∧
    (∀ e ∈ a.scopes.owners, (a.scopes.var? e.2.2).isSome) ∧
    (∀ o o' s, a.scopeOf? o = some s → a.scopeOf? o' = some s → o = o') ∧
    a.classes.size = p.classes.length ∧
    ∀ (i : Nat) (c : ClassDefinition) (info : ClassInfo), p.classes[i]? = some c → a.classes[i]? = some info →
      List.Forall₂ (p.MadeForMethod a info) c.instanceMethods info.instanceMethods ∧
      List.Forall₂ (p.MadeForMethod a info) c.classMethods info.classMethods ∧
      info.methods.Pairwise (·.index < ·.index) := by
  obtain ⟨a₀, h⟩ := analyzed_of_ok hp ha
  refine ⟨⟨_, h.converts.shape.scope_eq h.resolved.root_scope nofun⟩, fun id s hs hne => h.standsUnder hs hne,
    fun x v hv => h.owned.filter_owners hv, fun ⟨id, kind, x⟩ he => h.owned.var_of_owners he, fun o o' s ho ho' => ?_,
    h.size_classes, fun i c info hc hi => ?_⟩
  · rw [h.scopeOf?_eq] at ho ho'
    exact h.resolved.opener_unique ho ho'
  · have hi₀ : a₀.classes[i]? = some info := by rw [← h.classes_eq, hi]
    obtain ⟨hinstance, hclass⟩ := h.resolved.parallel hc hi₀
    exact ⟨hinstance.imp fun m s hs => h.madeForMethod hi hs, hclass.imp fun m s hs => h.madeForMethod hi hs,
      h.resolved.pairwise_methods hc hi₀⟩

/-- A temporary that is moved to the heap, a name of an inlined block, and a method of the class side. -/
theorem ownership_exact_moved : ∃ p a c info, Program.ofBytes
      "A : nil [ | u | m: x [ | t | x ifTrue: [ | c | [ t := c ] ] ifFalse: [ u ] ] class n [ ^ self ] ]".toUTF8.toList = .ok p ∧
    p.analyze = .ok a ∧ a.scopes.owners.filter (·.2.2 = ⟨5⟩) = [(⟨3⟩, .heap, ⟨5⟩)] ∧
    a.scopes.owners.filter (·.2.2 = ⟨7⟩) = [(⟨4⟩, .inlined, ⟨7⟩)] ∧ p.classes[0]? = some c ∧ a.classes[0]? = some info ∧
    info.classMethods = [⟨7⟩] ∧ List.Forall₂ (p.MadeForMethod a info) c.classMethods info.classMethods := by
  obtain ⟨p, a, hp, ha, hcheck⟩ := exists_of_accepted
    "A : nil [ | u | m: x [ | t | x ifTrue: [ | c | [ t := c ] ] ifFalse: [ u ] ] class n [ ^ self ] ]".toUTF8
    (fun p a => (a.scopes.var? ⟨5⟩).any (fun v => v.scope = ⟨3⟩ ∧ v.kind = .heap) ∧
      (a.scopes.var? ⟨7⟩).any (fun v => v.scope = ⟨4⟩ ∧ v.kind = .inlined) ∧ p.classes[0]?.isSome ∧
      a.classes[0]?.any (·.classMethods = [⟨7⟩])) (by decide +kernel)
  obtain ⟨hmoved, hinlined, hclass, hmethods⟩ := of_decide_eq_true hcheck
  obtain ⟨v, hv, hmoved⟩ := (Option.any_eq_true _ _).1 hmoved
  obtain ⟨w, hw, hinlined⟩ := (Option.any_eq_true _ _).1 hinlined
  obtain ⟨c, hc⟩ := Option.isSome_iff_exists.1 hclass
  obtain ⟨info, hi, hmethods⟩ := (Option.any_eq_true _ _).1 hmethods
  obtain ⟨hvs, hvk⟩ := of_decide_eq_true hmoved
  obtain ⟨hws, hwk⟩ := of_decide_eq_true hinlined
  obtain ⟨-, -, howners, -, -, -, hparallel⟩ := ownership_exact hp ha
  refine ⟨p, a, c, info, hp, ha, ?_, ?_, hc, hi, of_decide_eq_true hmethods, (hparallel 0 c info hc hi).2.1⟩
  · rw [howners ⟨5⟩ v hv, hvs, hvk]
  · rw [howners ⟨7⟩ w hw, hws, hwk]

end BlockScope
