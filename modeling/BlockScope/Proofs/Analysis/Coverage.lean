import BlockScope.Proofs.Analysis.Converted
import BlockScope.Proofs.Program.Reached
/-!
# Which nodes are analysed

Every name, block, send and return of an accepted program has its entry in the table for it, unless a cascade
hides the node: what a message of a cascade is sent to, other than the receiver of the cascade, is looked at by
no pass. An undeclared name there goes unnoticed.
-/
namespace BlockScope

/-! ## Sends -/

theorem Table.get?_foldl_insert {α : Type} (value : α) (ids : List NodeId) (t : Table α) (x : NodeId) :
    (ids.foldl (·.insert · value) t).get? x = if x ∈ ids then some value else t.get? x := by
  induction ids generalizing t with
  | nil => rfl
  | cons id ids ih =>
    rw [List.foldl_cons, ih, Table.get?_insert]
    by_cases hx : x ∈ ids
    · simp [hx]
    · simp [hx, eq_comm]

section
variable {p : Program} {scopeOf : Opener → Option ScopeId} {a b : Analysis} {ev : Event} {evs : List Event} {x id : NodeId}
  {receiver : NodeId} {selector : String} {args : List NodeId}

theorem isSome_recordSends {arena : Arena} (he : arena.expr? x = some (.send receiver selector args)) (sends : Table SendShape) :
    ((arena.recordSends id sends).get? x).isSome ↔ (sends.get? x).isSome ∨ x ∈ arena.noted id := by
  unfold Arena.recordSends
  split
  · next h =>
    rw [Table.get?_insert, Arena.noted_of_expr h (by simp), List.mem_singleton]
    by_cases hx : id = x
    · simp [hx]
    · simp [hx, Ne.symm hx]
  · next messages h =>
    have hne : x ≠ id := by
      rintro rfl
      rw [he] at h
      cases h
    rw [Table.get?_foldl_insert, Arena.noted_of_cascade h]
    by_cases hx : x ∈ messages <;> simp [hx, hne]
  · next hsend hcascade =>
    have hne : x ∉ arena.noted id := by
      unfold Arena.noted
      split
      · next h => exact absurd h (hcascade _ _)
      · rw [List.mem_singleton]
        rintro rfl
        exact hsend _ _ _ he
    simp [hne]

/-- A send is entered by the event that takes note of it. -/
theorem Step.sends_iff (h : Step p scopeOf a ev b) (he : p.arena.expr? x = some (.send receiver selector args)) :
    (b.sends.get? x).isSome ↔ (a.sends.get? x).isSome ∨ ∃ o role y, ev = .node o role y ∧ x ∈ p.arena.noted y := by
  -- Blocks and names are no sends and take note of nothing else.
  have hother : ∀ {o role id e}, ev = .node o role id → p.arena.expr? id = some e → (∀ r ms, e ≠ .cascade r ms) →
      e ≠ .send receiver selector args → ¬ ∃ o role y, ev = .node o role y ∧ x ∈ p.arena.noted y := by
    rintro o role id e rfl hid hc hne ⟨o', role', y, hev, hx⟩
    cases hev
    rw [Arena.noted_of_expr hid hc, List.mem_singleton] at hx
    subst hx
    rw [he] at hid
    cases hid
    exact hne rfl
  cases h with
  | method =>
    simp only [reduceCtorEq, false_and, exists_false, or_false]
    rfl
  | block hb => simp only [hother rfl (Arena.blockCode?_eq_some.1 hb) (by simp) (by simp), or_false]
  | use hi => simp only [hother rfl hi (by simp) (by simp), or_false]
  | other => simp [isSome_recordSends he]

theorem Steps.sends_iff (h : Steps p scopeOf a evs b) (he : p.arena.expr? x = some (.send receiver selector args)) :
    (b.sends.get? x).isSome ↔ (a.sends.get? x).isSome ∨ ∃ o role y, .node o role y ∈ evs ∧ x ∈ p.arena.noted y := by
  induction h with
  | nil => simp
  | cons h _ ih =>
    rw [ih, h.sends_iff he, or_assoc]
    simp only [List.mem_cons, or_and_right, exists_or, eq_comm]

end

/-! ## Events and entries -/

namespace Resolved
variable {p : Program} {a : Analysis} {x : NodeId} {o : Opener} {role : Role}

/-- The opener of an event has a scope. -/
theorem scope_of_opener (h : Resolved p a) (hev : .node o role x ∈ p.events) : ∃ s, a.scopeOf? o = some s := by
  obtain ⟨outer, haround⟩ := Program.around_of_event hev
  obtain ⟨code, hcode, -⟩ := haround.head
  cases o with
  | method cls place =>
    obtain ⟨m, hm, -⟩ := Option.map_eq_some_iff.1 hcode
    exact h.scope_of_method hm
  | block b =>
    obtain ⟨o', role', hev'⟩ := Program.event_of_block hev
    have hb : (p.arena.blockCode? b).isSome := Option.isSome_iff_exists.2 ⟨code, hcode⟩
    exact h.scope_of_block hev' hb

theorem bindings_iff {name : String} (h : Resolved p a) (he : p.arena.expr? x = some (.ident name)) :
    (a.bindings.get? x).isSome ↔ ∃ o role, .node o role x ∈ p.events := by
  constructor
  · intro hx
    obtain ⟨y, hy⟩ := Option.isSome_iff_exists.1 hx
    obtain ⟨o, role, name', U, found, hb, -⟩ := h.bound hy
    exact ⟨o, role, hb.event⟩
  · rintro ⟨o, role, hev⟩
    obtain ⟨U, found, hb⟩ := h.bound_of_event hev he
    rw [hb.binding]
    rfl

theorem blockScopes_iff {params temps : List Declaration} {body : List NodeId} (h : Resolved p a)
    (he : p.arena.expr? x = some (.block params temps body)) :
    (a.blockScopes.get? x).isSome ↔ ∃ o role, .node o role x ∈ p.events := by
  constructor
  · intro hx
    obtain ⟨a₀, hready, hsteps⟩ := h.run
    by_contra hno
    have hnone : a.blockScopes.get? x = a₀.blockScopes.get? x :=
      hsteps.blockScopes_eq fun o role hev => absurd ⟨o, role, hev⟩ hno
    rw [hnone, hready.outline.tables.2.1] at hx
    cases hx
  · rintro ⟨o, role, hev⟩
    obtain ⟨s, hs⟩ := h.scope_of_block hev (by simp [Arena.blockCode?, he])
    rw [hs]
    rfl

theorem sends_iff {receiver : NodeId} {selector : String} {args : List NodeId} (h : Resolved p a)
    (he : p.arena.expr? x = some (.send receiver selector args)) : (a.sends.get? x).isSome ↔ ¬ p.arena.Hidden x := by
  obtain ⟨a₀, hready, hsteps⟩ := h.run
  rw [hsteps.sends_iff he, hready.outline.tables.2.2.1, h.parsed.forest.noted_iff (Arena.lt_size_of_expr he)]
  simp

end Resolved

theorem Analyzed.returns_iff {p : Program} {a b : Analysis} {x value : NodeId} (h : Analyzed p a b)
    (he : p.arena.expr? x = some (.ret value)) : (b.returns.get? x).isSome ↔ ∃ o role, .node o role x ∈ p.events := by
  rw [h.returns]
  constructor
  · rintro ⟨s, hs⟩
    obtain ⟨ev, hev, hs⟩ := List.mem_flatMap.1 hs
    obtain ⟨o, role, value', rfl, -⟩ := Event.ret_mem_sites.1 hs
    exact ⟨o, role, hev⟩
  · rintro ⟨o, role, hev⟩
    obtain ⟨s, hs⟩ := h.resolved.scope_of_opener hev
    exact ⟨s, List.mem_flatMap.2 ⟨_, hev, Event.ret_mem_sites.2 ⟨o, role, value, rfl, he, hs⟩⟩⟩

/-- In an accepted program the names, blocks, sends and returns without an entry are exactly those that lie in what
a message of a cascade is sent to, but not in the receiver of the cascade. -/
theorem entries_unless_hidden {bytes : List UInt8} {p : Program} {a : Analysis} (hp : Program.ofBytes bytes = .ok p)
    (ha : p.analyze = .ok a) (x : NodeId) :
    (∀ name, p.arena.expr? x = some (.ident name) → ((a.bindings.get? x).isSome ↔ ¬ p.arena.Hidden x)) ∧
    (∀ params temps body, p.arena.expr? x = some (.block params temps body) →
      ((a.blockScopes.get? x).isSome ↔ ¬ p.arena.Hidden x)) ∧
    (∀ receiver selector args, p.arena.expr? x = some (.send receiver selector args) →
      ((a.sends.get? x).isSome ↔ ¬ p.arena.Hidden x)) ∧
    (∀ value, p.arena.expr? x = some (.ret value) → ((a.returns.get? x).isSome ↔ ¬ p.arena.Hidden x)) := by
  obtain ⟨a₀, h⟩ := analyzed_of_ok hp ha
  have hforest := h.resolved.parsed.forest
  refine ⟨fun name he => ?_, fun params temps body he => ?_, fun receiver selector args he => ?_, fun value he => ?_⟩
  · rw [h.bindings_eq, h.resolved.bindings_iff he, hforest.event_iff he nofun]
  · rw [h.rest]
    exact (h.resolved.blockScopes_iff he).trans (hforest.event_iff he nofun)
  · rw [h.rest]
    exact h.resolved.sends_iff he
  · rw [h.returns_iff he, hforest.event_iff he nofun]

/-- The argument of the first of two chained sends in a cascade is such a name: it is declared nowhere, and the
program is accepted. -/
theorem entries_unless_hidden_chained : ∃ p a x,
    Program.ofBytes "A : nil [ m: x [ x foo; + y + x ] ]".toUTF8.toList = .ok p ∧ p.analyze = .ok a ∧
    p.arena.expr? x = some (.ident "y") ∧ a.bindings.get? x = none ∧ p.arena.Hidden x := by
  obtain ⟨p, a, hp, ha, hcheck⟩ := exists_of_accepted "A : nil [ m: x [ x foo; + y + x ] ]".toUTF8
    (fun p a => p.arena.expr? ⟨2⟩ = some (.ident "y") ∧ a.bindings.get? ⟨2⟩ = none) (by decide +kernel)
  obtain ⟨he, hx⟩ := of_decide_eq_true hcheck
  have hiff := (entries_unless_hidden hp ha ⟨2⟩).1 "y" he
  refine ⟨p, a, ⟨2⟩, hp, ha, he, hx, ?_⟩
  by_contra hno
  have hsome := hiff.2 hno
  rw [hx] at hsome
  cases hsome

end BlockScope
