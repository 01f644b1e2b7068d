import BlockScope.Proofs.Analysis.RemoteAccess
/-!
# Names are lexical

A name refers to what the text around it says: the declaration of the innermost block or method around it that
declares the name, or else something of the side of the class that the method is on. What was made later or
elsewhere never interferes, and the slots behind names of inlined blocks are found by no name at all.
-/
namespace BlockScope

/-! ## Finding a name in one scope -/

namespace ScopeTree
variable {t : ScopeTree} {s outer : ScopeId} {k : CodeKind} {params temps : List Declaration} {name : String} {x : VarId}

/-- The variables in which names are looked up. -/
def Lists (t : ScopeTree) (s : ScopeId) (x : VarId) : Prop :=
  ∃ f, t.frame? s = some f ∧ x ∈ f.heapvars ++ f.arguments ++ f.locals ++ f.inlined

theorem mem_frameOf {f : Frame} {xs ys slots : List VarId} (hf : f = (frameOf k xs ys).withSlots slots) :
    x ∈ f.heapvars ++ f.arguments ++ f.locals ++ f.inlined ↔ x ∈ xs ∨ x ∈ ys ∨ x ∈ slots := by
  subst hf
  unfold frameOf Frame.withSlots
  split
  · simp only [Frame.empty, List.nil_append, List.mem_append]
    constructor
    · rintro (h | h | h)
      · exact .inr (.inr h)
      · exact .inl h
      · exact .inr (.inl h)
    · rintro (h | h | h)
      · exact .inr (.inl h)
      · exact .inr (.inr h)
      · exact .inl h
  · simp [Frame.empty]

/-- What is found in a scope was made for one of its declarations. -/
theorem Entered.declared_of_find {o : Option ScopeId} {k' : CodeKind} {f : Frame} (h : t.Entered s outer k params temps)
    (hname : Spelled name) (hs : t.scope? s = some ⟨o, .code k' f⟩) (hx : t.findInFrame f name = some x) :
    ∃ d, d.name = name ∧ (d ∈ params ∧ t.Declared s k .argument d x ∨ d ∈ temps ∧ t.Declared s k .temporary d x) := by
  obtain ⟨xs, ys, slots, hs', hxs, hys, hslots, -⟩ := h
  rw [hs] at hs'
  cases hs'
  obtain ⟨hmem, v, hv, hvn⟩ := findNamed_eq_some hx
  have hnamed : ∀ declaredAs d, t.Declared s k declaredAs d x → d.name = name := by
    rintro declaredAs d ⟨v', hv', hdn, -⟩
    rw [hv] at hv'
    cases hv'
    rw [← hdn, hvn]
  rcases (mem_frameOf rfl).1 hmem with hx | hx | hx
  · obtain ⟨d, hd, hdecl⟩ := exists_of_mem_right hxs hx
    exact ⟨d, hnamed _ d hdecl, .inl ⟨hd, hdecl⟩⟩
  · obtain ⟨d, hd, hdecl⟩ := exists_of_mem_right hys hx
    exact ⟨d, hnamed _ d hdecl, .inr ⟨hd, hdecl⟩⟩
  -- Slots of inlined blocks further in have names that cannot be spelled.
  · obtain ⟨v', hv', hno⟩ := hslots x hx
    rw [hv] at hv'
    cases hv'
    exact absurd (hvn ▸ hname) hno

/-- Whatever a scope declares is found in it. -/
theorem Entered.not_declared {o : Option ScopeId} {k' : CodeKind} {f : Frame} (h : t.Entered s outer k params temps)
    (hs : t.scope? s = some ⟨o, .code k' f⟩) (hx : t.findInFrame f name = none) : name ∉ (params ++ temps).map (·.name) := by
  obtain ⟨xs, ys, slots, hs', hxs, hys, -, -⟩ := h
  rw [hs] at hs'
  cases hs'
  have hno : ∀ declaredAs d x, t.Declared s k declaredAs d x → x ∈ xs ∨ x ∈ ys ∨ x ∈ slots → d.name ≠ name := by
    rintro declaredAs d x ⟨v, hv, hdn, -⟩ hmem hd
    exact findNamed_eq_none.1 hx x ((mem_frameOf rfl).2 hmem) v hv (hdn.trans hd)
  intro hmem
  obtain ⟨d, hd, hdn⟩ := List.mem_map.1 hmem
  rcases List.mem_append.1 hd with hd | hd
  · obtain ⟨x, hx, hdecl⟩ := exists_of_mem_left hxs hd
    exact hno _ d x hdecl (.inl hx) hdn
  · obtain ⟨x, hx, hdecl⟩ := exists_of_mem_left hys hd
    exact hno _ d x hdecl (.inr (.inl hx)) hdn

end ScopeTree

/-! ## What a name refers to -/

/-- The variable that an opener has for a declaration: a name for a slot if it is compiled in place, and otherwise
storage of its own. -/
def Analysis.MadeFor (a : Analysis) (o : Opener) (d : Declaration) (x : VarId) : Prop :=
  ∃ s v, a.scopeOf? o = some s ∧ a.scopes.Lists s x ∧ a.scopes.var? x = some v ∧ v.name = d.name ∧ v.span = some d.span ∧
    v.scope = s ∧ if a.scopes.scopeIs (·.isInlined) s then v.kind = .inlined ∧ v.aliasOf.isSome
      else v.kind.IsStored ∧ v.aliasOf = none

/-- The class declares an instance variable of this name on that side, or inherits one. -/
def Program.HasVar (p : Program) (cls : Nat) (classSide : Bool) (n : String) : Prop :=
  ∃ (j : Nat) (c : ClassDefinition), p.Inherits cls j ∧ p.classes[j]? = some c ∧ n ∈ (c.vars classSide).map (·.name)

/-- What a name refers to that is declared in no method or block: the receiver, an instance variable or a class. -/
inductive Program.OnSide (p : Program) (a : Analysis) (cls : Nat) (classSide : Bool) (n : String) (x : VarId) : Prop where
  | receiver {info : ClassInfo} {outer : Option ScopeId} {slots : List VarId} {v : Variable} (hn : n = "self" ∨ n = "super")
    (hi : a.classes[cls]? = some info) (hs : a.scopes.scope? (info.side classSide) = some ⟨outer, .side cls classSide x slots⟩)
    (hv : a.scopes.var? x = some v) (hk : v.kind = .receiver) (hvn : v.name = "self")
  | slot {info : ClassInfo} {outer : Option ScopeId} {receiver : VarId} {slots : List VarId} {v : Variable}
    (hn : ¬ (n = "self" ∨ n = "super")) (hvar : p.HasVar cls classSide n) (hi : a.classes[cls]? = some info)
    (hs : a.scopes.scope? (info.side classSide) = some ⟨outer, .side cls classSide receiver slots⟩) (hx : x ∈ slots)
    (hv : a.scopes.var? x = some v) (hk : v.kind = .slot) (hvn : v.name = n)
  | member {i : Nat} {c : ClassDefinition} {info : ClassInfo} {v : Variable} (hn : ¬ (n = "self" ∨ n = "super"))
    (hno : ¬ p.HasVar cls classSide n) (hc : p.classes[i]? = some c) (hname : c.name = n) (hi : a.classes[i]? = some info)
    (hx : info.member = x) (hv : a.scopes.var? x = some v) (hk : v.kind = .member) (hvn : v.name = n)

/-- What a name refers to, read off the openers around it, the innermost first. -/
inductive Program.Names (p : Program) (a : Analysis) (n : String) : List Opener → VarId → Prop where
  | here {o : Opener} {outer : List Opener} {code : Code} {d : Declaration} {x : VarId} (hc : p.code? o = some code)
    (hd : d ∈ code.declared) (hn : d.name = n) (hx : a.MadeFor o d x) : p.Names a n (o :: outer) x
  | outward {b : NodeId} {outer : List Opener} {code : Code} {x : VarId} (hc : p.code? (.block b) = some code)
    (hno : n ∉ code.declared.map (·.name)) (rest : p.Names a n outer x) : p.Names a n (.block b :: outer) x
  | side {cls place : Nat} {m : Method} {x : VarId} (hm : p.method? cls place = some m)
    (hno : n ∉ m.code.declared.map (·.name)) (hx : p.OnSide a cls m.classSide n x) : p.Names a n [.method cls place] x

/-! ## Sides of classes -/

theorem ScopeTree.Grows.scope_eq {t t' : ScopeTree} {s : ScopeId} {o : Option ScopeId} {body : ScopeBody} (hg : t.Grows t')
    (hs : t.scope? s = some ⟨o, body⟩) (hbody : ∀ k f, body ≠ .code k f) : t'.scope? s = some ⟨o, body⟩ := by
  obtain ⟨slots, -, hs'⟩ := hg.scopes s _ hs
  cases body with
  | code k f => exact absurd rfl (hbody k f)
  | root | side => exact hs'

theorem ScopeTree.SameShape.scope_eq {t t' : ScopeTree} {s : ScopeId} {o : Option ScopeId} {body : ScopeBody}
    (h : t.SameShape t') (hs : t.scope? s = some ⟨o, body⟩) (hbody : ∀ k f, body ≠ .code k f) :
    t'.scope? s = some ⟨o, body⟩ := by
  obtain ⟨f, hs'⟩ := h.scope s _ hs
  cases body with
  | code k f => exact absurd rfl (hbody k f)
  | root | side => exact hs'

namespace ScopeTree.Laid
variable {t : ScopeTree} {scope : ScopeId} {ds : List Declaration} {slots : List VarId} {x : VarId} {d : Declaration}

theorem of_slot (h : t.Laid scope ds slots) (hx : x ∈ slots) :
    ∃ d ∈ ds, ∃ j, t.var? x = some (.new d.name scope .slot (some d.span) (some j)) := by
  obtain ⟨j, hj⟩ := List.getElem?_of_mem hx
  have hlt : j < ds.length := by
    rw [← h.length]
    exact (List.getElem?_eq_some_iff.1 hj).1
  exact ⟨ds[j], List.getElem_mem hlt, j, h.var j _ x (List.getElem?_eq_getElem hlt) hj⟩

theorem of_declaration (h : t.Laid scope ds slots) (hd : d ∈ ds) :
    ∃ x ∈ slots, ∃ j, t.var? x = some (.new d.name scope .slot (some d.span) (some j)) := by
  obtain ⟨j, hj⟩ := List.getElem?_of_mem hd
  have hlt : j < slots.length := by
    rw [h.length]
    exact (List.getElem?_eq_some_iff.1 hj).1
  exact ⟨slots[j], List.getElem_mem hlt, j, h.var j d _ hj (List.getElem?_eq_getElem hlt)⟩

theorem var_isSome (h : t.Laid scope ds slots) (hx : x ∈ slots) : (t.var? x).isSome := by
  obtain ⟨d, -, j, hv⟩ := h.of_slot hx
  rw [hv]
  rfl

end ScopeTree.Laid

/-- The names that the slots of a side have are those of the variables of the class on that side. -/
theorem Ready.findNamed_slots {p : Program} {a : Analysis} {cls : Nat} {info : ClassInfo} {side : Bool} {n : String}
    (h : Ready p a) (hi : a.classes[cls]? = some info) :
    a.scopes.findNamed (info.slots side) n = none ↔ ¬ p.HasVar cls side n := by
  obtain ⟨receiver, -, -, hlaid⟩ := h.outline.sides cls info hi side
  have hlt : cls < p.classes.length := by
    rw [← h.size]
    exact (Array.getElem?_eq_some_iff.1 hi).1
  rw [ScopeTree.findNamed_eq_none]
  constructor
  · rintro hno ⟨j, c, hj, hc, hn⟩
    obtain ⟨d, hd, rfl⟩ := List.mem_map.1 hn
    obtain ⟨x, hx, k, hv⟩ := hlaid.of_declaration ((h.mem_laidOut hlt).2 ⟨j, c, hj, hc, hd⟩)
    exact hno x hx _ hv rfl
  · rintro hno x hx w hw rfl
    obtain ⟨d, hd, k, hv⟩ := hlaid.of_slot hx
    rw [hw] at hv
    cases hv
    obtain ⟨j, c, hj, hc, hd⟩ := (h.mem_laidOut hlt).1 hd
    exact hno ⟨j, c, hj, hc, List.mem_map.2 ⟨d, hd, rfl⟩⟩

namespace Resolved
variable {p : Program} {a : Analysis} {cls : Nat} {c : ClassDefinition} {classSide : Bool} {n : String} {r : Bool} {found : Found}
  {info : ClassInfo} {receiver : VarId}

/-- The scope of a side, and the names that its slots have. -/
theorem side_scope (h : Resolved p a) (hc : p.classes[cls]? = some c) (hi : a.classes[cls]? = some info) (classSide : Bool) :
    (∃ receiver v, a.scopes.scope? (info.side classSide) = some ⟨some a.root, .side cls classSide receiver (info.slots classSide)⟩ ∧
      a.scopes.var? receiver = some v ∧ v.kind = .receiver ∧ v.name = "self") ∧
      ∀ n, a.scopes.findNamed (info.slots classSide) n = none ↔ ¬ p.HasVar cls classSide n := by
  obtain ⟨a₀, hready, hsteps⟩ := h.run
  have hlt : cls < a₀.classes.size := by
    rw [hready.size]
    exact (List.getElem?_eq_some_iff.1 hc).1
  have hi₀ := Array.getElem?_eq_getElem hlt
  obtain ⟨info', hi', hsame⟩ := hsteps.classes_eq hi₀
  rw [hi] at hi'
  cases hi'
  obtain ⟨receiver, hs, hv, hlaid⟩ := hready.outline.sides cls _ hi₀ classSide
  have hg := (hsteps.wf_grows hready.outline.wf).2
  obtain ⟨level, hv'⟩ := hg.vars receiver _ hv
  rw [hsame.side, hsame.slots, hsteps.root_eq]
  refine ⟨⟨receiver, _, hg.scope_eq hs nofun, hv', rfl, rfl⟩, fun n => ?_⟩
  rw [hg.findNamed_eq fun x hx => hlaid.var_isSome hx]
  exact hready.findNamed_slots hi₀

/-- The classes that are found in the root. -/
theorem member_of_find (h : Resolved p a) (hf : a.scopes.find a.root n r = some found) :
    ∃ (i : Nat) (c : ClassDefinition) (info : ClassInfo) (v : Variable), p.classes[i]? = some c ∧ c.name = n ∧
      a.classes[i]? = some info ∧ info.member = found.var ∧
      a.scopes.var? found.var = some v ∧ v.kind = .member ∧ v.name = n := by
  obtain ⟨a₀, hready, hsteps⟩ := h.run
  have hg := (hsteps.wf_grows hready.outline.wf).2
  have hroot := hg.scope_eq hready.outline.members nofun
  rw [hsteps.root_eq, h.wf.nested.find_eq hroot] at hf
  simp only [ScopeTree.findIn, Option.bind_none, Option.or_none] at hf
  obtain ⟨x, hx, rfl⟩ := Option.map_eq_some_iff.1 hf
  obtain ⟨hmem, v, hv, hvn⟩ := ScopeTree.findNamed_eq_some hx
  obtain ⟨info₀, hi₀, rfl⟩ := List.mem_map.1 hmem
  obtain ⟨i, hi₀⟩ := List.getElem?_of_mem hi₀
  rw [Array.getElem?_toList] at hi₀
  obtain ⟨c, hc, -, -, -, hv₀⟩ := hready.outline.classes i info₀ hi₀
  obtain ⟨info, hi, hsame⟩ := hsteps.classes_eq hi₀
  obtain ⟨level, hv'⟩ := hg.vars _ _ hv₀
  rw [hv] at hv'
  cases hv'
  exact ⟨i, c, info, _, hc, hvn, hi, hsame.member, hv, rfl, hvn⟩

/-- A name that is found from a side on. -/
theorem onSide (h : Resolved p a) (hc : p.classes[cls]? = some c) (hi : a.classes[cls]? = some info)
    (hf : a.scopes.find (info.side classSide) n r = some found) : p.OnSide a cls classSide n found.var := by
  obtain ⟨⟨receiver, v, hs, hv, hk, hvn⟩, hnames⟩ := h.side_scope hc hi classSide
  obtain ⟨-, hslots⟩ := h.wf.side _ _ _ _ _ _ hs
  rw [h.wf.nested.find_eq hs] at hf
  simp only [ScopeTree.findIn] at hf
  by_cases hn : n = "self" ∨ n = "super"
  · rw [if_pos hn, Option.some_or] at hf
    cases hf
    exact .receiver hn hi hs hv hk hvn
  · rw [if_neg hn] at hf
    cases hx : a.scopes.findNamed (info.slots classSide) n with
    | some x =>
      rw [hx, Option.map_some, Option.some_or] at hf
      cases hf
      obtain ⟨hmem, v, hv, hvn⟩ := ScopeTree.findNamed_eq_some hx
      obtain ⟨v', hv', -, hk, -⟩ := hslots x hmem
      rw [hv] at hv'
      cases hv'
      have hvar : p.HasVar cls classSide n := by
        by_contra hno
        rw [(hnames n).2 hno] at hx
        cases hx
      exact .slot hn hvar hi hs hmem hv hk hvn
    | none =>
      rw [hx, Option.map_none, Option.none_or] at hf
      obtain ⟨i, c', info', v, hc', hname, hi', hx', hv, hk, hvn⟩ := h.member_of_find hf
      exact .member hn ((hnames n).1 hx) hc' hname hi' hx' hv hk hvn

/-! ## From a use outwards -/

theorem madeFor_of_find {o : Opener} {U outer : ScopeId} {k : CodeKind} {f : Frame} {params temps : List Declaration} {x : VarId}
    (ho : a.scopeOf? o = some U) (hentered : a.scopes.Entered U outer k params temps) (hn : Spelled n)
    (hs : a.scopes.scope? U = some ⟨some outer, .code k f⟩) (hx : a.scopes.findInFrame f n = some x) :
    ∃ d ∈ params ++ temps, d.name = n ∧ a.MadeFor o d x := by
  obtain ⟨d, hdn, hdecl⟩ := hentered.declared_of_find hn hs hx
  have hlists : a.scopes.Lists U x := ⟨f, ScopeTree.frame?_of_scope hs, (ScopeTree.findNamed_eq_some hx).1⟩
  have hmade : ∀ kind, kind.IsStored → a.scopes.Declared U k kind d x → a.MadeFor o d x := by
    rintro kind hkind ⟨v, hv, hname, hspan, hscope, -, hk⟩
    refine ⟨U, v, ho, hlists, hv, hname, hspan, hscope, ?_⟩
    rw [ScopeTree.scopeIs_of_scope hs]
    simp only [Scope.isInlined, Scope.codeKind?, Option.some.injEq, decide_eq_true_eq]
    split at hk
    · next hk' => rw [if_pos hk']; exact hk
    · next hk' => rw [if_neg hk', hk.1]; exact ⟨hkind, hk.2⟩
  rcases hdecl with ⟨hd, hdecl⟩ | ⟨hd, hdecl⟩
  · exact ⟨d, List.mem_append_left _ hd, hdn, hmade _ (.inl rfl) hdecl⟩
  · exact ⟨d, List.mem_append_right _ hd, hdn, hmade _ (.inr (.inl rfl)) hdecl⟩

/-- One scope on the way: the name is declared there, or it is looked for further out. -/
theorem here_or_outward {o : Opener} {U outer : ScopeId} {k : CodeKind} {params temps : List Declaration} (h : Resolved p a)
    (ho : a.scopeOf? o = some U) (hentered : a.scopes.Entered U outer k params temps) (hn : Spelled n)
    (hf : a.scopes.find U n r = some found) : (∃ d ∈ params ++ temps, d.name = n ∧ a.MadeFor o d found.var) ∨
      n ∉ (params ++ temps).map (·.name) ∧ ∃ r', a.scopes.find outer n r' = some found := by
  obtain ⟨xs, ys, slots, hs, -⟩ := id hentered
  rw [h.wf.nested.find_eq hs] at hf
  simp only [ScopeTree.findIn] at hf
  cases hx : a.scopes.findInFrame ((ScopeTree.frameOf k xs ys).withSlots slots) n with
  | some x =>
    rw [hx, Option.map_some, Option.some_or] at hf
    cases hf
    exact .inl (madeFor_of_find ho hentered hn hs hx)
  | none =>
    rw [hx, Option.map_none, Option.none_or] at hf
    exact .inr ⟨hentered.not_declared hs hx, _, hf⟩

theorem names_of_placed {openers : List Opener} {U : ScopeId} (h : Resolved p a) (hplaced : Placed p a openers U) (hn : Spelled n)
    (hf : a.scopes.find U n r = some found) : p.Names a n openers found.var := by
  induction hplaced generalizing r with
  | method hm hi hU hentered =>
    rcases h.here_or_outward hU hentered hn hf with ⟨d, hd, hdn, hx⟩ | ⟨hno, r', hf'⟩
    · exact .here (by rw [Program.code?, hm, Option.map_some]) hd hdn hx
    · obtain ⟨c, hclass, -⟩ := Option.bind_eq_some_iff.1 hm
      exact .side hm hno (h.onSide hclass hi hf')
  | block hb hU hentered _ ih =>
    rcases h.here_or_outward hU hentered hn hf with ⟨d, hd, hdn, hx⟩ | ⟨hno, r', hf'⟩
    · exact .here hb hd hdn hx
    · exact .outward hb hno (ih hf')

theorem names {openers : List Opener} {o : Opener} {role : Role} {id : NodeId} {U : ScopeId} (h : Resolved p a)
    (haround : p.Around id openers) (hev : .node o role id ∈ p.events) (ho : openers.head? = some o) (hU : a.scopeOf? o = some U)
    (hn : Spelled n) (hf : a.scopes.find U n r = some found) : p.Names a n openers found.var :=
  h.names_of_placed (h.placed haround hev ho hU) hn hf

end Resolved

/-! ## In the end -/

namespace Analyzed
variable {p : Program} {a b : Analysis} {o : Opener} {d : Declaration} {x : VarId} {s : ScopeId} {n : String} {v : Variable}
  {cls : Nat} {classSide : Bool} {openers : List Opener}

/-- Conversion keeps what frames list. -/
theorem lists (h : Analyzed p a b) (hx : a.scopes.Lists s x) : b.scopes.Lists s x := by
  obtain ⟨f₀, hf₀, hx⟩ := hx
  obtain ⟨f, hf, -⟩ := h.converts.frames s f₀ hf₀
  obtain ⟨f₁, hf₁, hst, -⟩ := h.frame_of_frame hf
  rw [hf₀] at hf₁
  cases hf₁
  have hinlined : f.inlined = f₀.inlined := by
    have : f.storage.inlined = (f₀.moveToHeap (a.scopes.toMove f₀)).storage.inlined := by rw [hst]
    exact this
  obtain ⟨o, k, hs⟩ := ScopeTree.scope_of_frame hf₀
  rw [(h.resolved.wf.code s o k f₀ hs).idle.1, List.nil_append] at hx
  refine ⟨f, hf, ?_⟩
  rcases List.mem_append.1 hx with hx | hx
  · have := (h.mem_storage hf₀ hst).2 hx
    simp only [List.mem_append] at this ⊢
    tauto
  · rw [hinlined]
    exact List.mem_append_right _ hx

theorem var_kept (h : Analyzed p a b) (hv : a.scopes.var? x = some v) (hk : ¬ v.kind.IsStored) : b.scopes.var? x = some v := by
  refine (h.var_eq hv v).2 (.inr ⟨rfl, ?_⟩)
  rintro ⟨⟨f, hf, hx⟩, -⟩
  exact hk ((h.resolved.wf.owner_of_storage hf hx hv).2.imp_right .inl)

theorem madeFor (h : Analyzed p a b) (hx : a.MadeFor o d x) : b.MadeFor o d x := by
  obtain ⟨s, v, ho, hlists, hv, hname, hspan, hscope, hk⟩ := hx
  rw [← h.scopeOf?_eq] at ho
  by_cases hi : a.scopes.scopeIs (·.isInlined) s
  · rw [if_pos hi] at hk
    refine ⟨s, v, ho, h.lists hlists, h.var_kept hv (by simp [VarKind.IsStored, hk.1]), hname, hspan, hscope, ?_⟩
    rw [h.converts.shape.isInlined, if_pos hi]
    exact hk
  · rw [if_neg hi] at hk
    obtain ⟨w, hw⟩ := h.var_iff.2 ⟨v, hv⟩
    rcases (h.var_eq hv w).1 hw with ⟨rfl, -⟩ | ⟨rfl, -⟩
    · refine ⟨s, _, ho, h.lists hlists, hw, hname, hspan, hscope, ?_⟩
      rw [h.converts.shape.isInlined, if_neg hi]
      exact ⟨.inr (.inr rfl), hk.2⟩
    · refine ⟨s, _, ho, h.lists hlists, hw, hname, hspan, hscope, ?_⟩
      rw [h.converts.shape.isInlined, if_neg hi]
      exact hk

theorem onSide (h : Analyzed p a b) (hx : p.OnSide a cls classSide n x) : p.OnSide b cls classSide n x := by
  have hshape := h.converts.shape
  cases hx with
  | receiver hn hi hs hv hk hvn =>
    rw [← h.classes_eq] at hi
    exact .receiver hn hi (hshape.scope_eq hs (by simp)) (h.var_kept hv (by simp [VarKind.IsStored, hk])) hk hvn
  | slot hn hvar hi hs hmem hv hk hvn =>
    rw [← h.classes_eq] at hi
    exact .slot hn hvar hi (hshape.scope_eq hs (by simp)) hmem (h.var_kept hv (by simp [VarKind.IsStored, hk])) hk hvn
  | member hn hno hc hname hi hx hv hk hvn =>
    rw [← h.classes_eq] at hi
    exact .member hn hno hc hname hi hx (h.var_kept hv (by simp [VarKind.IsStored, hk])) hk hvn

theorem names (h : Analyzed p a b) (hx : p.Names a n openers x) : p.Names b n openers x := by
  induction hx with
  | here hc hd hn hx => exact .here hc hd hn (h.madeFor hx)
  | outward hc hno _ ih => exact .outward hc hno ih
  | side hm hno hx => exact .side hm hno (h.onSide hx)

end Analyzed

/-- Whatever a name refers to has a name that can be spelled. -/
theorem Program.Names.spelled {p : Program} {a : Analysis} {n : String} {openers : List Opener} {x : VarId}
    (h : p.Names a n openers x) (hn : Spelled n) : ∃ v, a.scopes.var? x = some v ∧ Spelled v.name := by
  induction h with
  | here _ _ hdn hx =>
    obtain ⟨s, v, -, -, hv, hname, -⟩ := hx
    exact ⟨v, hv, by rw [hname, hdn]; exact hn⟩
  | outward _ _ _ ih => exact ih
  | side _ _ hx =>
    cases hx with
    | receiver _ _ _ hv _ hvn => exact ⟨_, hv, by rw [hvn]; exact spelled_self⟩
    | slot _ _ _ _ _ hv _ hvn => exact ⟨_, hv, by rw [hvn]; exact hn⟩
    | member _ _ _ _ _ _ hv _ hvn => exact ⟨_, hv, by rw [hvn]; exact hn⟩

/-- Every bound name is bound to what the literals around it say it refers to, and never to the slot behind a name
of an inlined block. -/
theorem names_lexical {bytes : List UInt8} {p : Program} {a : Analysis} (hp : Program.ofBytes bytes = .ok p)
    (ha : p.analyze = .ok a) {e : NodeId} {x : VarId} (hx : a.bindings.get? e = some x) :
    ∃ n, p.arena.expr? e = some (.ident n) ∧ (∃ openers, p.Around e openers) ∧
      (∀ openers, p.Around e openers → p.Names a n openers x) ∧
      ∀ y v, a.scopes.var? y = some v → v.aliasOf ≠ some x := by
  obtain ⟨a₀, h⟩ := analyzed_of_ok hp ha
  rw [h.bindings_eq] at hx
  obtain ⟨o, role, n, U, found, hb, rfl⟩ := h.resolved.bound hx
  obtain ⟨outer, haround⟩ := Program.around_of_event hb.event
  have hn := h.resolved.parsed.named e n hb.ident
  have hnames := h.resolved.names haround hb.event rfl hb.scope hn hb.find
  refine ⟨n, hb.ident, ⟨_, haround⟩, fun openers h' => ?_, fun y v hv halias => ?_⟩
  · rw [h.resolved.parsed.forest.around_unique h' haround]
    exact h.names hnames
  · obtain ⟨v₀, hv₀, kind, rfl⟩ := h.var_of_var hv
    obtain ⟨w, hw, hmade⟩ := h.resolved.wf.madeUp y v₀ _ hv₀ halias
    obtain ⟨w', hw', hspelled⟩ := hnames.spelled hn
    rw [hw] at hw'
    cases hw'
    exact hmade hspelled

/-- A closure in an inlined block that declares the name of a parameter again: the nearer declaration wins. -/
theorem names_lexical_shadowed : ∃ p a n openers v,
    Program.ofBytes "A : nil [ m: x [ x ifTrue: [ |x| [ x ] ] ifFalse: [ self ] ] ]".toUTF8.toList = .ok p ∧ p.analyze = .ok a ∧
    p.arena.expr? ⟨1⟩ = some (.ident n) ∧ p.Around ⟨1⟩ openers ∧ p.Names a n openers ⟨5⟩ ∧
    a.scopes.var? ⟨5⟩ = some v ∧ v.kind = .inlined := by
  obtain ⟨p, a, hp, ha, hcheck⟩ := exists_of_accepted
    "A : nil [ m: x [ x ifTrue: [ |x| [ x ] ] ifFalse: [ self ] ] ]".toUTF8
    (fun _ a => a.bindings.get? ⟨1⟩ = some ⟨5⟩ ∧ (a.scopes.var? ⟨5⟩).any (·.kind = .inlined)) (by decide +kernel)
  obtain ⟨hx, hcheck⟩ := of_decide_eq_true hcheck
  obtain ⟨v, hv, hk⟩ := (Option.any_eq_true _ _).1 hcheck
  obtain ⟨n, he, ⟨openers, haround⟩, hnames, -⟩ := names_lexical hp ha hx
  exact ⟨p, a, n, openers, v, hp, ha, he, haround, hnames openers haround, hv, of_decide_eq_true hk⟩

end BlockScope
