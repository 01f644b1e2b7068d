import BlockScope.Proofs.Analysis.Lexical
import BlockScope.Proofs.Program.Visited
/-!
# Valid programs

`Program.Valid` is what a program has to observe, said of its text alone. What a name refers to is read off the
openers around it, the innermost first (`Program.Refers`). Where the scopes of these openers are entered one inside
the other (`Stacked`), a name is found exactly if it refers to something, and what is found may be assigned to
exactly if the referent may.
-/
namespace BlockScope

/-! ## What a program has to observe -/

inductive Referent where
  | parameter
  | temporary
  | receiver
  /-- A variable of an instance, or of a class itself. -/
  | slot
  | member
  deriving DecidableEq, Repr

/-- May be assigned to. -/
def Referent.writable : Referent → Bool
  | .temporary | .slot => true
  | .parameter | .receiver | .member => false

/-- What a name refers to, looked for from the innermost opener outwards. -/
inductive Program.Refers (p : Program) (n : String) : List Opener → Referent → Prop where
  | parameter {o : Opener} {outer : List Opener} {code : Code} (hc : p.code? o = some code)
    (hn : n ∈ code.params.map (·.name)) : p.Refers n (o :: outer) .parameter
  | temporary {o : Opener} {outer : List Opener} {code : Code} (hc : p.code? o = some code)
    (hno : n ∉ code.params.map (·.name)) (hn : n ∈ code.temps.map (·.name)) : p.Refers n (o :: outer) .temporary
  | outward {b : NodeId} {outer : List Opener} {code : Code} {r : Referent} (hc : p.code? (.block b) = some code)
    (hno : n ∉ code.declared.map (·.name)) (rest : p.Refers n outer r) : p.Refers n (.block b :: outer) r
  | receiver {cls place : Nat} {m : Method} (hm : p.method? cls place = some m) (hno : n ∉ m.code.declared.map (·.name))
    (hn : n = "self" ∨ n = "super") : p.Refers n [.method cls place] .receiver
  | slot {cls place : Nat} {m : Method} (hm : p.method? cls place = some m) (hno : n ∉ m.code.declared.map (·.name))
    (hn : ¬ (n = "self" ∨ n = "super")) (hvar : p.HasVar cls m.classSide n) : p.Refers n [.method cls place] .slot
  | member {cls place : Nat} {m : Method} (hm : p.method? cls place = some m) (hno : n ∉ m.code.declared.map (·.name))
    (hn : ¬ (n = "self" ∨ n = "super")) (hvar : ¬ p.HasVar cls m.classSide n) (hc : n ∈ p.classes.map (·.name)) :
    p.Refers n [.method cls place] .member

/-- The classes from one upwards to the topmost. -/
inductive Program.Lineage (p : Program) : Nat → List ClassDefinition → Prop where
  | top {i : Nat} {c : ClassDefinition} (hc : p.classes[i]? = some c) (hs : c.superName = none) : p.Lineage i [c]
  | above {i j : Nat} {c : ClassDefinition} {line : List ClassDefinition} (hc : p.classes[i]? = some c) (hs : p.Super i j)
    (rest : p.Lineage j line) : p.Lineage i (c :: line)

/-- No two declarations have one name. -/
def Distinct (ds : List Declaration) : Prop := (ds.map (·.name)).Nodup

/-- What the text of a program has to observe. -/
structure Program.Valid (p : Program) : Prop where
  classes : (p.classes.map (·.name)).Nodup
  supers : ∀ c ∈ p.classes, ∀ n, c.superName = some n → n ∈ p.classes.map (·.name)
  acyclic : ∀ i, ¬ Relation.TransGen p.Super i i
  /-- On either side, from a class up to the topmost one. -/
  vars : ∀ i line, p.Lineage i line → ∀ side, Distinct (line.flatMap (·.vars side))
  methods : ∀ m ∈ p.methods, Distinct m.code.declared
  blocks : ∀ b code, p.Visited b → p.arena.blockCode? b = some code → Distinct code.declared
  /-- A name is declared around it, or it is something of the class. -/
  names : ∀ e n, p.Visited e → p.arena.expr? e = some (.ident n) → ∃ openers r, p.Around e openers ∧ p.Refers n openers r
  /-- What is assigned to is a temporary or a variable of the class. -/
  targets : ∀ d e value, p.arena.expr? d = some (.assign e value) → p.Visited e →
    ∃ n openers r, p.arena.expr? e = some (.ident n) ∧ p.Around e openers ∧ p.Refers n openers r ∧ r.writable

/-! ## Finding a name in the scope of an opener -/

namespace ScopeTree
variable {t t' : ScopeTree} {U outer : ScopeId} {k : CodeKind} {params temps : List Declaration} {n : String} {r : Bool}
  {x : VarId} {d : Declaration}

/-- The name is found, and the variable may be assigned to or not. -/
def Finds (t : ScopeTree) (U : ScopeId) (n : String) (writable : Bool) : Prop :=
  ∀ r, ∃ found v, t.find U n r = some found ∧ t.var? found.var = some v ∧ v.writable = writable

/-- Of what code declares, the temporaries may be assigned to, and the parameters not. -/
theorem Declared.writable {kind : VarKind} (h : t.Declared U k kind d x) (hkind : kind = .argument ∨ kind = .temporary) :
    ∃ v, t.var? x = some v ∧ v.writable = decide (kind = .temporary) := by
  obtain ⟨v, hv, -, -, -, hdecl, hk⟩ := h
  refine ⟨v, hv, ?_⟩
  split at hk
  · rcases hkind with rfl | rfl <;> simp [Variable.writable, hk.1, hdecl]
  · rcases hkind with rfl | rfl <;> simp [Variable.writable, hk.1]

namespace Entered

theorem distinct (h : t.Entered U outer k params temps) : Distinct (params ++ temps) := by
  obtain ⟨-, -, -, -, -, -, -, hnames⟩ := h
  exact hnames

/-- A declared name is found in its scope. -/
theorem find_here (h : t.Entered U outer k params temps) (hnested : t.Nested) (hname : Spelled n)
    (hn : n ∈ (params ++ temps).map (·.name)) (r : Bool) : ∃ x d, t.find U n r = some ⟨x, .frame U r⟩ ∧ d.name = n ∧
      (d ∈ params ∧ t.Declared U k .argument d x ∨ d ∈ temps ∧ t.Declared U k .temporary d x) := by
  obtain ⟨xs, ys, slots, hs, -⟩ := id h
  rw [hnested.find_eq hs]
  simp only [findIn]
  cases hx : t.findInFrame ((frameOf k xs ys).withSlots slots) n with
  | none => exact absurd hn (h.not_declared hs hx)
  | some x =>
    obtain ⟨d, hd, hdecl⟩ := h.declared_of_find hname hs hx
    exact ⟨x, d, rfl, hd, hdecl⟩

theorem finds_parameter (h : t.Entered U outer k params temps) (hnested : t.Nested) (hname : Spelled n)
    (hn : n ∈ params.map (·.name)) : t.Finds U n false := by
  intro r
  have hmem : n ∈ (params ++ temps).map (·.name) := by
    rw [List.map_append]
    exact List.mem_append_left _ hn
  obtain ⟨x, d, hf, rfl, ⟨-, hdecl⟩ | ⟨hd, -⟩⟩ := h.find_here hnested hname hmem r
  · obtain ⟨v, hv, hw⟩ := hdecl.writable (.inl rfl)
    exact ⟨_, v, hf, hv, hw⟩
  · have hdistinct := h.distinct
    rw [Distinct, List.map_append] at hdistinct
    exact absurd rfl ((List.nodup_append.1 hdistinct).2.2 _ hn _ (List.mem_map.2 ⟨d, hd, rfl⟩))

theorem finds_temporary (h : t.Entered U outer k params temps) (hnested : t.Nested) (hname : Spelled n)
    (hno : n ∉ params.map (·.name)) (hn : n ∈ temps.map (·.name)) : t.Finds U n true := by
  intro r
  have hmem : n ∈ (params ++ temps).map (·.name) := by
    rw [List.map_append]
    exact List.mem_append_right _ hn
  obtain ⟨x, d, hf, rfl, ⟨hd, -⟩ | ⟨-, hdecl⟩⟩ := h.find_here hnested hname hmem r
  · exact absurd (List.mem_map.2 ⟨d, hd, rfl⟩) hno
  · obtain ⟨v, hv, hw⟩ := hdecl.writable (.inr rfl)
    exact ⟨_, v, hf, hv, hw⟩

/-- A name that a scope does not declare is looked for further out. -/
theorem find_outward (h : t.Entered U outer k params temps) (hnested : t.Nested) (hname : Spelled n)
    (hno : n ∉ (params ++ temps).map (·.name)) (r : Bool) : ∃ r', t.find U n r = t.find outer n r' := by
  obtain ⟨xs, ys, slots, hs, -⟩ := id h
  rw [hnested.find_eq hs]
  simp only [findIn]
  cases hx : t.findInFrame ((frameOf k xs ys).withSlots slots) n with
  | none => exact ⟨_, by rw [Option.map_none, Option.none_or, Option.bind_some]⟩
  | some x =>
    obtain ⟨d, rfl, ⟨hd, -⟩ | ⟨hd, -⟩⟩ := h.declared_of_find hname hs hx
    · exact absurd (List.mem_map.2 ⟨d, List.mem_append_left _ hd, rfl⟩) hno
    · exact absurd (List.mem_map.2 ⟨d, List.mem_append_right _ hd, rfl⟩) hno

theorem finds_outward {writable : Bool} (h : t.Entered U outer k params temps) (hnested : t.Nested) (hname : Spelled n)
    (hno : n ∉ (params ++ temps).map (·.name)) (hf : t.Finds outer n writable) : t.Finds U n writable := by
  intro r
  obtain ⟨r', hr⟩ := h.find_outward hnested hname hno r
  rw [hr]
  exact hf r'

end Entered

/-- What was found before a tree grew is found after. -/
theorem Finds.grow {writable : Bool} {s : Scope} (h : t.Finds U n writable) (hg : t.Grows t') (hw : t.Wf) (hw' : t'.Wf)
    (hname : Spelled n) (hs : t.scope? U = some s) : t'.Finds U n writable := by
  intro r
  obtain ⟨found, v, hf, hv, hwr⟩ := h r
  obtain ⟨level, hv'⟩ := hg.vars _ v hv
  exact ⟨found, _, by rw [hg.find_eq hw.nested hw'.nested hw.listed hname hs, hf], hv', hwr⟩

end ScopeTree

/-! ## Finding a name on a side of a class -/

/-- A class is found in the root under its name. -/
theorem Outline.finds_member {p : Program} {laid : Nat → Bool → List Declaration} {a : Analysis} {n : String}
    (h : Outline p laid a) (hsize : a.classes.size = p.classes.length) (hc : n ∈ p.classes.map (·.name)) : a.scopes.Finds a.root n false := by
  intro r
  rw [h.wf.nested.find_eq h.members]
  simp only [ScopeTree.findIn, Option.bind_none, Option.or_none]
  cases hx : a.scopes.findNamed (a.classes.toList.map (·.member)) n with
  | none =>
    obtain ⟨c, hmem, rfl⟩ := List.mem_map.1 hc
    obtain ⟨i, hi⟩ := List.getElem?_of_mem hmem
    have hlt : i < a.classes.size := by
      rw [hsize]
      exact (List.getElem?_eq_some_iff.1 hi).1
    obtain ⟨c', hc', -, -, -, hv⟩ := h.classes i _ (Array.getElem?_eq_getElem hlt)
    rw [hi] at hc'
    cases hc'
    have hmem : a.classes[i].member ∈ a.classes.toList.map (·.member) :=
      List.mem_map.2 ⟨_, Array.getElem_mem_toList hlt, rfl⟩
    exact absurd rfl (ScopeTree.findNamed_eq_none.1 hx _ hmem _ hv)
  | some x =>
    obtain ⟨hmem, -⟩ := ScopeTree.findNamed_eq_some hx
    obtain ⟨info, hinfo, rfl⟩ := List.mem_map.1 hmem
    obtain ⟨i, hi⟩ := List.getElem?_of_mem hinfo
    obtain ⟨c, -, -, -, -, hv⟩ := h.classes i info (by simpa using hi)
    exact ⟨_, _, rfl, hv, rfl⟩

namespace Ready
variable {p : Program} {a : Analysis} {cls : Nat} {info : ClassInfo} {side : Bool} {n : String} {r : Bool} {found : Found}

theorem finds_receiver (h : Ready p a) (hi : a.classes[cls]? = some info) (hn : n = "self" ∨ n = "super") :
    a.scopes.Finds (info.side side) n false := by
  intro r
  obtain ⟨receiver, hs, hv, -⟩ := h.outline.sides cls info hi side
  have hf : a.scopes.find (info.side side) n r = some ⟨receiver, .receiver⟩ := by
    rw [h.outline.wf.nested.find_eq hs]
    simp only [ScopeTree.findIn]
    rw [if_pos hn, Option.some_or]
  exact ⟨_, _, hf, hv, rfl⟩

theorem find_side (h : Ready p a) (hi : a.classes[cls]? = some info) (hn : ¬ (n = "self" ∨ n = "super")) (side r : Bool) :
    a.scopes.find (info.side side) n r =
      ((a.scopes.findNamed (info.slots side) n).map (⟨·, .slot⟩)).or (a.scopes.find a.root n r) := by
  obtain ⟨receiver, hs, -⟩ := h.outline.sides cls info hi side
  rw [h.outline.wf.nested.find_eq hs]
  simp only [ScopeTree.findIn]
  rw [if_neg hn, Option.bind_some, Scope.isTrueBlock, Scope.codeKind?]
  simp

theorem finds_slot (h : Ready p a) (hi : a.classes[cls]? = some info) (hn : ¬ (n = "self" ∨ n = "super"))
    (hvar : p.HasVar cls side n) : a.scopes.Finds (info.side side) n true := by
  intro r
  obtain ⟨receiver, -, -, hlaid⟩ := h.outline.sides cls info hi side
  cases hx : a.scopes.findNamed (info.slots side) n with
  | none => exact absurd hvar ((h.findNamed_slots hi).1 hx)
  | some x =>
    obtain ⟨hmem, -⟩ := ScopeTree.findNamed_eq_some hx
    obtain ⟨d, -, j, hv⟩ := hlaid.of_slot hmem
    exact ⟨_, _, by rw [h.find_side hi hn, hx, Option.map_some, Option.some_or], hv, rfl⟩

theorem finds_member (h : Ready p a) (hi : a.classes[cls]? = some info) (hn : ¬ (n = "self" ∨ n = "super"))
    (hvar : ¬ p.HasVar cls side n) (hc : n ∈ p.classes.map (·.name)) : a.scopes.Finds (info.side side) n false := by
  intro r
  rw [h.find_side hi hn, (h.findNamed_slots hi).2 hvar, Option.map_none, Option.none_or]
  exact h.outline.finds_member h.size hc r

/-- What is found from a side on is no class unless there is one of that name. -/
theorem member_of_find (h : Ready p a) (hi : a.classes[cls]? = some info) (hn : ¬ (n = "self" ∨ n = "super"))
    (hvar : ¬ p.HasVar cls side n) (hf : a.scopes.find (info.side side) n r = some found) : n ∈ p.classes.map (·.name) := by
  rw [h.find_side hi hn, (h.findNamed_slots hi).2 hvar, Option.map_none, Option.none_or] at hf
  obtain ⟨-, i, info', c, -, hc, rfl, -⟩ := h.outline.find_root hf
  exact List.mem_map.2 ⟨c, List.mem_of_getElem? hc, rfl⟩

end Ready

/-! ## Scopes inside one another -/

/-- The scopes of openers, the innermost first: each is entered in the next, and the last on its side of the class. -/
inductive Stacked (p : Program) (a : Analysis) (t : ScopeTree) : List (Opener × ScopeId) → Prop where
  | method {cls place : Nat} {m : Method} {info : ClassInfo} {U : ScopeId} (hm : p.method? cls place = some m)
    (hi : a.classes[cls]? = some info) (h : t.Entered U (info.side m.classSide) .method m.params m.temps) :
    Stacked p a t [(.method cls place, U)]
  | block {b : NodeId} {code : Code} {o : Opener} {U S : ScopeId} {k : CodeKind} {outer : List (Opener × ScopeId)}
    (hc : p.arena.blockCode? b = some code) (h : t.Entered U S k code.params code.temps)
    (rest : Stacked p a t ((o, S) :: outer)) : Stacked p a t ((.block b, U) :: (o, S) :: outer)

namespace Stacked
variable {p : Program} {a : Analysis} {t t' : ScopeTree} {stack outer : List (Opener × ScopeId)} {o : Opener} {U : ScopeId}
  {n : String} {ref : Referent} {r : Bool} {found : Found}

theorem grow (h : Stacked p a t stack) (hg : t.Grows t') : Stacked p a t' stack := by
  induction h with
  | method hm hi h => exact .method hm hi (h.grow hg)
  | block hc h _ ih => exact .block hc (h.grow hg) ih

theorem isCode (h : Stacked p a t ((o, U) :: outer)) : t.IsCode U := by
  cases h with
  | method _ _ h => exact h.isCode
  | block _ h _ => exact h.isCode

/-- A name that refers to something is found, as something that may be assigned to exactly if the referent may. -/
theorem finds (h : Stacked p a t ((o, U) :: outer)) (hready : Ready p a) (hw : t.Wf) (hg : a.scopes.Grows t) (hname : Spelled n)
    (href : p.Refers n (o :: outer.map (·.1)) ref) : t.Finds U n ref.writable := by
  generalize hstack : (o, U) :: outer = stack at h
  induction h generalizing o U outer with
  | @method cls place m info U' hm hi h =>
    cases hstack
    have hcode : p.code? (.method cls place) = some m.code := by rw [Program.code?, hm, Option.map_some]
    have hsome : ∃ s, a.scopes.scope? (info.side m.classSide) = some s := by
      obtain ⟨receiver, hs, -⟩ := hready.outline.sides cls info hi m.classSide
      exact ⟨_, hs⟩
    obtain ⟨s, hs⟩ := hsome
    -- The side was there before the bodies, and names found from it on are still found.
    have hside : ∀ {writable}, n ∉ m.code.declared.map (·.name) → a.scopes.Finds (info.side m.classSide) n writable →
        t.Finds U' n writable := fun hno hf =>
      h.finds_outward hw.nested hname hno (hf.grow hg hready.outline.wf hw hname hs)
    cases href with
    | parameter hc hn =>
      rw [hcode] at hc
      cases hc
      exact h.finds_parameter hw.nested hname hn
    | temporary hc hno hn =>
      rw [hcode] at hc
      cases hc
      exact h.finds_temporary hw.nested hname hno hn
    | receiver hm' hno hn =>
      rw [hm] at hm'
      cases hm'
      exact hside hno (hready.finds_receiver hi hn)
    | slot hm' hno hn hvar =>
      rw [hm] at hm'
      cases hm'
      exact hside hno (hready.finds_slot hi hn hvar)
    | member hm' hno hn hvar hc =>
      rw [hm] at hm'
      cases hm'
      exact hside hno (hready.finds_member hi hn hvar hc)
  | @block b code o' U' S k outer' hc h rest ih =>
    cases hstack
    cases href with
    | parameter hc' hn =>
      rw [Program.code?, hc] at hc'
      cases hc'
      exact h.finds_parameter hw.nested hname hn
    | temporary hc' hno hn =>
      rw [Program.code?, hc] at hc'
      cases hc'
      exact h.finds_temporary hw.nested hname hno hn
    | outward hc' hno href =>
      rw [Program.code?, hc] at hc'
      cases hc'
      exact h.finds_outward hw.nested hname hno (ih href rfl)

/-- A name that is found refers to something. -/
theorem refers (h : Stacked p a t ((o, U) :: outer)) (hready : Ready p a) (hw : t.Wf) (hg : a.scopes.Grows t) (hname : Spelled n)
    (hf : t.find U n r = some found) : ∃ ref, p.Refers n (o :: outer.map (·.1)) ref := by
  generalize hstack : (o, U) :: outer = stack at h
  induction h generalizing o U outer r with
  | @method cls place m info U' hm hi h =>
    cases hstack
    have hcode : p.code? (.method cls place) = some m.code := by rw [Program.code?, hm, Option.map_some]
    by_cases hparam : n ∈ m.params.map (·.name)
    · exact ⟨_, .parameter hcode hparam⟩
    by_cases htemp : n ∈ m.temps.map (·.name)
    · exact ⟨_, .temporary hcode hparam htemp⟩
    have hno : n ∉ m.code.declared.map (·.name) := by
      simp only [Code.declared, Method.code, List.map_append, List.mem_append]
      tauto
    by_cases hself : n = "self" ∨ n = "super"
    · exact ⟨_, .receiver hm hno hself⟩
    by_cases hvar : p.HasVar cls m.classSide n
    · exact ⟨_, .slot hm hno hself hvar⟩
    obtain ⟨receiver, hs, -⟩ := hready.outline.sides cls info hi m.classSide
    obtain ⟨r', hr⟩ := h.find_outward hw.nested hname hno r
    rw [hr, hg.find_eq hready.outline.wf.nested hw.nested hready.outline.wf.listed hname hs] at hf
    exact ⟨_, .member hm hno hself hvar (hready.member_of_find hi hself hvar hf)⟩
  | @block b code o' U' S k outer' hc h rest ih =>
    cases hstack
    by_cases hparam : n ∈ code.params.map (·.name)
    · exact ⟨_, .parameter hc hparam⟩
    by_cases htemp : n ∈ code.temps.map (·.name)
    · exact ⟨_, .temporary hc hparam htemp⟩
    have hno : n ∉ code.declared.map (·.name) := by
      simp only [Code.declared, List.map_append, List.mem_append]
      tauto
    obtain ⟨r', hr⟩ := h.find_outward hw.nested hname hno r
    rw [hr] at hf
    obtain ⟨ref, href⟩ := ih hf rfl
    exact ⟨ref, .outward hc hno href⟩

end Stacked
end BlockScope
