import BlockScope.Proofs.Analysis.Acceptance
/-!
# Classes in another order

A program may list its classes in any order. Its classes refer to each other by name, so what a class inherits, what a name
in a body refers to and what a walk visits do not depend on the order, and neither does what a program has to observe
(`Program.Reorders.valid`).
-/
namespace BlockScope

/-- The same nodes and the same classes, in whatever order. -/
structure Program.Reorders (p q : Program) : Prop where
  arena : q.arena = p.arena
  classes : q.classes.Perm p.classes

/-- The same class at these places. -/
def Program.SameAt (p q : Program) (i j : Nat) : Prop := ∃ c, p.classes[i]? = some c ∧ q.classes[j]? = some c

/-- The same method of the same class, or the same block. -/
inductive Program.SameOpener (p q : Program) : Opener → Opener → Prop where
  | method {i j : Nat} (place : Nat) (h : p.SameAt q i j) : p.SameOpener q (.method i place) (.method j place)
  | block (b : NodeId) : p.SameOpener q (.block b) (.block b)

/-- Classes with different names are at one place each. -/
theorem Program.place_unique {p : Program} (h : (p.classes.map (·.name)).Nodup) {i i' : Nat} {c : ClassDefinition}
    (hi : p.classes[i]? = some c) (hi' : p.classes[i']? = some c) : i = i' := by
  obtain ⟨hlt, -⟩ := List.getElem?_eq_some_iff.1 hi
  refine (List.getElem?_inj (by rwa [List.length_map]) h).1 ?_
  rw [List.getElem?_map, List.getElem?_map, hi, hi']

namespace Program.SameAt
variable {p q : Program} {i j : Nat} {c : ClassDefinition}

theorem symm (h : p.SameAt q i j) : q.SameAt p j i := by
  obtain ⟨c, hi, hj⟩ := h
  exact ⟨c, hj, hi⟩

theorem classes (h : p.SameAt q i j) : q.classes[j]? = p.classes[i]? := by
  obtain ⟨c, hi, hj⟩ := h
  rw [hi, hj]

theorem method? (h : p.SameAt q i j) (place : Nat) : q.method? j place = p.method? i place := by
  rw [Program.method?, Program.method?, h.classes]

end Program.SameAt

namespace Program.Reorders
variable {p q : Program} {i i' j : Nat} {c : ClassDefinition} {o o' : Opener} {e : NodeId} {n : String} {side : Bool}
  {openers openers' : List Opener} {line : List ClassDefinition} {r : Referent}

theorem symm (h : p.Reorders q) : q.Reorders p := ⟨h.arena.symm, h.classes.symm⟩

theorem mem_classes (h : p.Reorders q) : c ∈ q.classes ↔ c ∈ p.classes := h.classes.mem_iff

theorem mem_methods (h : p.Reorders q) {m : Method} : m ∈ q.methods ↔ m ∈ p.methods := (h.classes.flatMap_right _).mem_iff

theorem mem_names (h : p.Reorders q) : n ∈ q.classes.map (·.name) ↔ n ∈ p.classes.map (·.name) := (h.classes.map _).mem_iff

theorem sameAt (h : p.Reorders q) (hc : p.classes[i]? = some c) : ∃ j, p.SameAt q i j := by
  obtain ⟨j, hj⟩ := List.getElem?_of_mem (h.mem_classes.2 (List.mem_of_getElem? hc))
  exact ⟨j, c, hc, hj⟩

/-- However the classes are ordered, the bodies of all methods fill the arena in some order. -/
theorem parsed {P : String → Prop} (h : p.Reorders q) (hp : p.Parsed P) : q.Parsed P := by
  obtain ⟨⟨order, hperm, hbodies⟩, hsided, hnamed⟩ := hp
  refine ⟨⟨order, hperm.trans (h.classes.symm.flatMap_right _), ?_⟩, fun c hc => hsided c (h.mem_classes.1 hc), ?_⟩
  · rw [h.arena]
    exact hbodies
  · rw [h.arena]
    exact hnamed

/-! ## Superclasses -/

theorem super (h : p.Reorders q) (hs : p.Super i i') (hij : p.SameAt q i j) : ∃ j', q.Super j j' ∧ p.SameAt q i' j' := by
  obtain ⟨c, c', hc, hc', hname⟩ := hs
  obtain ⟨j', hj'⟩ := h.sameAt hc'
  exact ⟨j', ⟨c, c', by rw [hij.classes, hc], by rw [hj'.classes, hc'], hname⟩, hj'⟩

theorem inherits (h : p.Reorders q) (hs : p.Inherits i i') (hij : p.SameAt q i j) : ∃ j', q.Inherits j j' ∧ p.SameAt q i' j' := by
  induction hs with
  | refl => exact ⟨j, .refl, hij⟩
  | tail _ hs ih =>
    obtain ⟨j₁, hj₁, hsame⟩ := ih
    obtain ⟨j₂, hj₂, hsame'⟩ := h.super hs hsame
    exact ⟨j₂, hj₁.tail hj₂, hsame'⟩

theorem hasVar (h : p.Reorders q) (hij : p.SameAt q i j) (hv : p.HasVar i side n) : q.HasVar j side n := by
  obtain ⟨i', c, hi', hc, hn⟩ := hv
  obtain ⟨j', hj', hsame⟩ := h.inherits hi' hij
  exact ⟨j', c, hj', by rw [hsame.classes, hc], hn⟩

theorem lineage (h : p.Reorders q) (hline : p.Lineage i line) (hij : p.SameAt q i j) : q.Lineage j line := by
  induction hline generalizing j with
  | top hc hs => exact .top (by rw [hij.classes, hc]) hs
  | above hc hs _ ih =>
    obtain ⟨j', hs', hsame⟩ := h.super hs hij
    exact .above (by rw [hij.classes, hc]) hs' (ih hsame)

theorem acyclic (h : p.Reorders q) (hnames : (p.classes.map (·.name)).Nodup) (hno : ∀ i, ¬ Relation.TransGen p.Super i i)
    (j : Nat) : ¬ Relation.TransGen q.Super j j := by
  -- The way round in the second program is one in the first, from a place to one with the same class.
  have hway : ∀ {i j j'}, Relation.TransGen q.Super j j' → q.SameAt p j i → ∃ i', Relation.TransGen p.Super i i' ∧ q.SameAt p j' i' := by
    intro i j j' hway hji
    induction hway with
    | single hs =>
      obtain ⟨i', hs', hsame⟩ := h.symm.super hs hji
      exact ⟨i', .single hs', hsame⟩
    | tail _ hs ih =>
      obtain ⟨i₁, hi₁, hsame⟩ := ih
      obtain ⟨i₂, hs', hsame'⟩ := h.symm.super hs hsame
      exact ⟨i₂, hi₁.tail hs', hsame'⟩
  intro hcycle
  obtain ⟨j', ⟨c, -, hc, -⟩, -⟩ := Relation.TransGen.head'_iff.1 hcycle
  obtain ⟨i, hji⟩ := h.symm.sameAt hc
  obtain ⟨i', hi', hsame⟩ := hway hcycle hji
  obtain ⟨c₁, hj₁, hi₁⟩ := hji
  obtain ⟨c₂, hj₂, hi₂⟩ := hsame
  obtain rfl : c₁ = c₂ := Option.some.inj (hj₁.symm.trans hj₂)
  obtain rfl := Program.place_unique hnames hi₁ hi₂
  exact hno i hi'

/-! ## Names in bodies -/

theorem code? (h : p.Reorders q) (ho : p.SameOpener q o o') : q.code? o' = p.code? o := by
  cases ho with
  | method place hij => rw [Program.code?, Program.code?, hij.method?]
  | block b => rw [Program.code?, Program.code?, h.arena]

theorem encloses (h : p.Reorders q) (ho : p.SameOpener q o o') (he : p.Encloses o e) : q.Encloses o' e := by
  obtain ⟨code, hcode, hinside⟩ := he
  refine ⟨code, by rw [h.code? ho, hcode], ?_⟩
  rw [h.arena]
  exact hinside

theorem around (h : p.Reorders q) (ha : p.Around e openers) :
    ∃ openers', q.Around e openers' ∧ List.Forall₂ (p.SameOpener q) openers openers' := by
  induction ha with
  | @method e cls place he =>
    obtain ⟨code, hcode, -⟩ := id he
    obtain ⟨m, hm, -⟩ := Option.map_eq_some_iff.1 hcode
    obtain ⟨c, hc, -⟩ := Option.bind_eq_some_iff.1 hm
    obtain ⟨j, hij⟩ := h.sameAt hc
    exact ⟨_, .method (h.encloses (.method place hij) he), .cons (.method place hij) .nil⟩
  | @block e b outer he _ ih =>
    obtain ⟨outer', hrest, hsame⟩ := ih
    exact ⟨_, .block (h.encloses (.block b) he) hrest, .cons (.block b) hsame⟩

theorem refers (h : p.Reorders q) (hr : p.Refers n openers r) (ho : List.Forall₂ (p.SameOpener q) openers openers') :
    q.Refers n openers' r := by
  induction hr generalizing openers' with
  | parameter hc hn =>
    cases ho with
    | cons ho _ => exact .parameter (by rw [h.code? ho, hc]) hn
  | temporary hc hno hn =>
    cases ho with
    | cons ho _ => exact .temporary (by rw [h.code? ho, hc]) hno hn
  | outward hc hno _ ih =>
    cases ho with
    | cons ho hrest =>
      cases ho with
      | block => exact .outward (by rw [h.code? (.block _), hc]) hno (ih hrest)
  | receiver hm hno hn =>
    obtain _ | ⟨⟨place, hij⟩, _ | _⟩ := ho
    exact .receiver (by rw [hij.method?, hm]) hno hn
  | slot hm hno hn hvar =>
    obtain _ | ⟨⟨place, hij⟩, _ | _⟩ := ho
    exact .slot (by rw [hij.method?, hm]) hno hn (h.hasVar hij hvar)
  | member hm hno hn hvar hc =>
    obtain _ | ⟨⟨place, hij⟩, _ | _⟩ := ho
    exact .member (by rw [hij.method?, hm]) hno hn (fun hvar' => hvar (h.symm.hasVar hij.symm hvar')) (h.mem_names.2 hc)

theorem visited (h : p.Reorders q) (he : p.Visited e) : q.Visited e := by
  have hvisits : ∀ p : Program, p.visits = _ := fun p => Tells.program p #[]
  unfold Program.Visited at *
  rw [hvisits] at he ⊢
  rw [h.arena]
  simpa only [List.mem_append, List.mem_cons, List.mem_flatMap, h.mem_classes] using he

/-! ## What a program has to observe -/

theorem valid (h : p.Reorders q) (hv : p.Valid) : q.Valid where
  classes := (h.classes.map _).nodup_iff.2 hv.classes
  supers c hc n hn := h.mem_names.2 (hv.supers c (h.mem_classes.1 hc) n hn)
  acyclic := h.acyclic hv.classes hv.acyclic
  vars j line hline side := by
    obtain ⟨c, hc⟩ : ∃ c, q.classes[j]? = some c := by
      cases hline with
      | top hc _ => exact ⟨_, hc⟩
      | above hc _ _ => exact ⟨_, hc⟩
    obtain ⟨i, hji⟩ := h.symm.sameAt hc
    exact hv.vars i line (h.symm.lineage hline hji) side
  methods m hm := hv.methods m (h.mem_methods.1 hm)
  blocks b code hb hcode := hv.blocks b code (h.symm.visited hb) (by rw [← h.arena, hcode])
  names e n he hn := by
    obtain ⟨openers, r, haround, hr⟩ := hv.names e n (h.symm.visited he) (by rw [← h.arena, hn])
    obtain ⟨openers', haround', hsame⟩ := h.around haround
    exact ⟨openers', r, haround', h.refers hr hsame⟩
  targets d e value hd he := by
    obtain ⟨n, openers, r, hn, haround, hr, hw⟩ := hv.targets d e value (by rw [← h.arena, hd]) (h.symm.visited he)
    obtain ⟨openers', haround', hsame⟩ := h.around haround
    exact ⟨n, openers', r, by rw [h.arena, hn], haround', h.refers hr hsame, hw⟩

/-- A program is accepted whatever the order of its classes. -/
theorem exists_analysis (h : p.Reorders q) (hp : p.Parsed Spelled) {a : Analysis} (ha : p.analyze = .ok a) :
    ∃ b, q.analyze = .ok b := by
  obtain ⟨a₀, hanalyzed⟩ := hp.analyzed ha
  exact (h.parsed hp).exists_analysis (h.valid hanalyzed.resolved.valid)

end Program.Reorders
end BlockScope
