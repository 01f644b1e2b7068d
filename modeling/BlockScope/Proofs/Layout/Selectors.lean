import BlockScope.Proofs.Analysis.Coverage
import BlockScope.Proofs.Analysis.Inlining
import BlockScope.Proofs.Layout.Order
import BlockScope.Proofs.Scope.Handing
/-!
# Which selectors a class refers to

The symbols of a class are the selectors of the sends in its methods that are dispatched, each once. Two walks have to
agree on them. The one that collects the symbols visits a send by itself, and the messages of a cascade with the cascade;
the one that filled the table of sends took note of them in the same places (`Forest.noted_in_body`), and of a message as
dispatched whatever its form (`Resolved.plain_of_message`).
-/
namespace BlockScope

/-- The node is a send of the selector, somewhere in a method of the class. -/
def Program.SendIn (p : Program) (c : ClassDefinition) (selector : String) (x : NodeId) : Prop :=
  ∃ m ∈ c.methods, ∃ root ∈ m.body, p.arena.Contains root x ∧
    ∃ receiver args, p.arena.expr? x = some (.send receiver selector args)

/-! ## Nodes noted in one method -/

namespace Arena
variable {a : Arena} {d x : NodeId} {n : Nat}

theorem contains_of_reachedWithin (hx : x ∈ a.reachedWithin n d) : a.Contains d x := by
  induction n generalizing d with
  | zero => cases hx
  | succ n ih =>
    rcases List.mem_cons.1 hx with rfl | hx
    · exact .refl
    · obtain ⟨y, hy, hx⟩ := List.mem_flatMap.1 hx
      exact (holds_of_parts hy).contains.trans (ih hx)

theorem selector?_eq_some {s : String} :
    a.selector? x = some s ↔ ∃ receiver args, a.expr? x = some (.send receiver s args) := by
  unfold selector?
  split
  · next receiver selector args he => simp [he]
  · next hno =>
    constructor
    · intro h
      cases h
    · rintro ⟨receiver, args, he⟩
      exact absurd he (hno _ _ _)

end Arena

namespace Program.Forest
variable {p : Program} {m : Method} {root x y : NodeId}

/-- A node in the body of a method that no cascade hides is noted by a visit of that body. -/
theorem noted_in_body (hf : p.Forest) (hm : m ∈ p.methods) (hroot : root ∈ m.body) (hx : p.arena.Contains root x)
    (hshown : ¬ p.arena.Hidden x) : ∃ y ∈ m.body.flatMap p.arena.reached, x ∈ p.arena.noted y := by
  obtain ⟨lo, hi, -, hfills⟩ := hf.fills hm
  obtain ⟨hlo, hhi⟩ := hfills.row_mem hroot
  have hle : lo ≤ x.index := by
    rcases hfills.closed.contains hlo hhi hx with hle | ⟨b, hb, -⟩
    · exact hle
    · cases hb
  have hlt : x.index < hi := Nat.lt_of_le_of_lt (hf.ordered.contains_le hx) hhi
  refine (((hfills.splits hf.ordered Arena.no_base).single rfl).exact x hle hlt).2 ?_
  rintro ⟨d, -, -, hhidden⟩
  exact hshown ⟨d, hhidden⟩

theorem not_hidden_of_noted {e : Expr} (hf : p.Forest) (hm : m ∈ p.methods) (hy : y ∈ m.body.flatMap p.arena.reached)
    (hx : x ∈ p.arena.noted y) (he : p.arena.expr? x = some e) : ¬ p.arena.Hidden x := by
  have hnode : y ∈ p.events.filterMap Event.node? := by
    rw [filterMap_events]
    exact List.mem_flatMap.2 ⟨m, hm, hy⟩
  obtain ⟨ev, hev, hy⟩ := List.mem_filterMap.1 hnode
  refine (hf.noted_iff (Arena.lt_size_of_expr he)).1 ?_
  cases ev <;> cases hy
  exact ⟨_, _, y, hev, hx⟩

end Program.Forest

/-! ## Selectors of one method -/

/-- A message of a cascade is dispatched. -/
theorem Resolved.plain_of_message {p : Program} {a : Analysis} {x : NodeId} (h : Resolved p a) (hx : p.arena.IsMessage x)
    (hsome : (a.sends.get? x).isSome) : a.sends.get? x = some .plain := by
  obtain ⟨shape, hshape⟩ := Option.isSome_iff_exists.1 hsome
  obtain ⟨receiver, selector, args, -, hform⟩ := h.send_shape hshape
  cases shape with
  | plain => exact hshape
  | inlined i =>
    obtain ⟨_, _, -, -, hno⟩ := (hform i).1 rfl
    exact absurd hx hno

/-- A visit collects the selectors of the dispatched sends that it takes note of. -/
theorem mem_dispatchedIn_shown {arena : Arena} {a : Analysis} {y : NodeId} {s : String}
    (hplain : ∀ x ∈ arena.noted y, arena.IsMessage x → (arena.selector? x).isSome → a.sends.get? x = some .plain) :
    s ∈ a.dispatchedIn arena (arena.shown y) ↔ ∃ x ∈ arena.noted y, arena.selector? x = some s ∧ a.sends.get? x = some .plain := by
  have hnone : ∀ {e}, arena.expr? y = some e → (∀ r sel as, e ≠ .send r sel as) → arena.selector? y ≠ some s := by
    rintro e he hne hsel
    obtain ⟨receiver, args, he'⟩ := Arena.selector?_eq_some.1 hsel
    rw [he] at he'
    cases he'
    exact hne _ _ _ rfl
  cases he : arena.expr? y with
  | none => simp [Analysis.dispatchedIn, Arena.shown, Arena.noted, Arena.selector?, he]
  | some e =>
    cases e with
    | send receiver selector args =>
      rw [Arena.noted_of_expr he (by simp)]
      simp only [Analysis.dispatchedIn, Arena.shown, he, List.flatMap_cons, List.flatMap_nil, List.nil_append, List.append_nil,
        List.mem_singleton, exists_eq_left]
      cases hs : a.sends.get? y with
      | none => simp
      | some shape => cases shape <;> simp
    | cascade receiver messages =>
      rw [Arena.noted_of_cascade he] at hplain ⊢
      simp only [Analysis.dispatchedIn, Arena.shown, he, List.flatMap_cons, List.flatMap_nil, List.nil_append, List.append_nil,
        List.mem_filterMap]
      constructor
      · rintro ⟨x, hx, hs⟩
        have hmem := List.mem_cons_of_mem y hx
        exact ⟨x, hmem, hs, hplain x hmem ⟨y, receiver, messages, he, hx⟩ (by simp [hs])⟩
      · rintro ⟨x, hx, hs, -⟩
        rcases List.mem_cons.1 hx with rfl | hx
        · exact absurd hs (hnone he (by simp))
        · exact ⟨x, hx, hs⟩
    | _ =>
      rw [Arena.noted_of_expr he (by simp)]
      simp [Analysis.dispatchedIn, Arena.shown, he, hnone he, List.flatMap_map]

namespace Analyzed
variable {p : Program} {a b : Analysis} {m : Method} {s : String}

/-- What a method collects are the selectors of the dispatched sends in its body. -/
theorem mem_dispatched (h : Analyzed p a b) (hm : m ∈ p.methods) : s ∈ b.dispatchedIn p.arena (p.arena.visits m.body) ↔
    ∃ root ∈ m.body, ∃ x, p.arena.Contains root x ∧ p.arena.selector? x = some s ∧ b.sends.get? x = some .plain := by
  have hf := h.resolved.parsed.forest
  have hmem : s ∈ b.dispatchedIn p.arena (p.arena.visits m.body) ↔ ∃ y ∈ m.body.flatMap p.arena.reached,
      ∃ x ∈ p.arena.noted y, p.arena.selector? x = some s ∧ b.sends.get? x = some .plain := by
    rw [hf.visits_body hm]
    unfold Analysis.dispatchedIn
    rw [List.flatMap_assoc, List.mem_flatMap]
    refine exists_congr fun y => and_congr_right fun hy => mem_dispatchedIn_shown fun x hx hmessage hsel => ?_
    obtain ⟨selector, hsel⟩ := Option.isSome_iff_exists.1 hsel
    obtain ⟨receiver, args, he⟩ := Arena.selector?_eq_some.1 hsel
    rw [h.sends_eq]
    exact h.resolved.plain_of_message hmessage ((h.resolved.sends_iff he).2 (hf.not_hidden_of_noted hm hy hx he))
  rw [hmem]
  constructor
  · rintro ⟨y, hy, x, hx, hdispatched⟩
    obtain ⟨root, hroot, hy⟩ := List.mem_flatMap.1 hy
    exact ⟨root, hroot, x, (Arena.contains_of_reachedWithin hy).trans (Arena.contains_of_own (.inr hx)), hdispatched⟩
  · rintro ⟨root, hroot, x, hx, hsel, hplain⟩
    obtain ⟨receiver, args, he⟩ := Arena.selector?_eq_some.1 hsel
    have hshown : ¬ p.arena.Hidden x := (h.resolved.sends_iff he).1 (by rw [← h.sends_eq, hplain]; rfl)
    obtain ⟨y, hy, hx⟩ := hf.noted_in_body hm hroot hx hshown
    exact ⟨y, hy, x, hx, hsel, hplain⟩

/-- The symbols of a class are those that its methods collect. -/
theorem mem_symbolReferences {i : Nat} {c : ClassDefinition} {info : ClassInfo} (h : Analyzed p a b)
    (hc : p.classes[i]? = some c) (hi : b.classes[i]? = some info) :
    s ∈ (classLayout p b c info).symbolReferences ↔ ∃ x, p.SendIn c s x ∧ b.sends.get? x = some .plain := by
  have hmethods : ∀ m ∈ c.methods, m ∈ p.methods := fun m hm => List.mem_flatMap.2 ⟨c, List.mem_of_getElem? hc, hm⟩
  have hlength : c.methods.length ≤ info.methods.length := by
    rw [h.rest] at hi
    exact Nat.le_of_eq (h.resolved.length_methods hc hi).symm
  have hcollected : (c.methods.zip info.methods).flatMap (fun e => (methodLayout p b c.name e.1 e.2).dispatched) =
      c.methods.flatMap fun m => b.dispatchedIn p.arena (p.arena.visits m.body) := by
    nth_rewrite 2 [← List.map_fst_zip hlength]
    rw [List.flatMap_map]
    rfl
  rw [classLayout, mem_appendNew, List.flatMap_map, hcollected, List.mem_flatMap]
  simp only [List.not_mem_nil, false_or]
  constructor
  · rintro ⟨m, hm, hs⟩
    obtain ⟨root, hroot, x, hx, hsel, hplain⟩ := (h.mem_dispatched (hmethods m hm)).1 hs
    exact ⟨x, ⟨m, hm, root, hroot, hx, Arena.selector?_eq_some.1 hsel⟩, hplain⟩
  · rintro ⟨x, ⟨m, hm, root, hroot, hx, hsend⟩, hplain⟩
    exact ⟨m, hm, (h.mem_dispatched (hmethods m hm)).2 ⟨root, hroot, x, hx, Arena.selector?_eq_some.2 hsend, hplain⟩⟩

end Analyzed

/-- In an accepted program the symbols of every class are the selectors of the sends in its methods that are recorded as
dispatched, each once; a selector whose sends there are all compiled in place is not among them. -/
theorem symbol_references_exact {bytes : List UInt8} {p : Program} {a : Analysis} (hp : Program.ofBytes bytes = .ok p)
    (ha : p.analyze = .ok a) : (p.layout a).classes.length = p.classes.length ∧
    ∀ (i : Nat) c, p.classes[i]? = some c → ∃ layout : ClassLayout, (p.layout a).classes[i]? = some layout ∧ layout.symbolReferences.Nodup ∧
      (∀ s, s ∈ layout.symbolReferences ↔ ∃ x, p.SendIn c s x ∧ a.sends.get? x = some .plain) ∧
      ∀ s, (∀ x, p.SendIn c s x → ∃ intrinsic, a.sends.get? x = some (.inlined intrinsic)) → s ∉ layout.symbolReferences := by
  obtain ⟨a₀, h⟩ := analyzed_of_ok hp ha
  refine ⟨h.length_layout, fun i c hc => ?_⟩
  obtain ⟨info, hi, hlayout⟩ := h.layout_at hc
  have hmem : ∀ s, s ∈ (classLayout p a c info).symbolReferences ↔ ∃ x, p.SendIn c s x ∧ a.sends.get? x = some .plain :=
    fun s => h.mem_symbolReferences hc hi
  refine ⟨_, hlayout, nodup_appendNew _ _ List.nodup_nil, hmem, fun s hinlined hs => ?_⟩
  obtain ⟨x, hx, hplain⟩ := (hmem s).1 hs
  obtain ⟨intrinsic, hx⟩ := hinlined x hx
  rw [hplain] at hx
  cases hx

/-- A loop compiled in place leaves no symbol, and a conditional in a cascade does. A selector sent in both is there once,
and one sent only to what a message of the cascade is sent to is not. -/
theorem symbol_references_exact_cascade : ∃ (p : Program) (a : Analysis) (c : ClassDefinition) (layout : ClassLayout),
    Program.ofBytes "A : nil [ m: x [ 1 to: x do: [ :i | x - i ]. x ifTrue: [ ] ifFalse: [ ]; * x - x ] ]".toUTF8.toList = .ok p ∧
    p.analyze = .ok a ∧ p.classes[0]? = some c ∧ (p.layout a).classes[0]? = some layout ∧ layout.symbolReferences.Nodup ∧
    layout.symbolReferences = ["-", "ifTrue:ifFalse:"] ∧ (∃ x, p.SendIn c "-" x ∧ a.sends.get? x = some .plain) ∧
    (¬ ∃ x, p.SendIn c "to:do:" x ∧ a.sends.get? x = some .plain) ∧ ¬ ∃ x, p.SendIn c "*" x ∧ a.sends.get? x = some .plain := by
  obtain ⟨p, a, hp, ha, hcheck⟩ := exists_of_accepted
    "A : nil [ m: x [ 1 to: x do: [ :i | x - i ]. x ifTrue: [ ] ifFalse: [ ]; * x - x ] ]".toUTF8
    (fun p a => p.classes.length = 1 ∧ (p.layout a).classes.map (·.symbolReferences) = [["-", "ifTrue:ifFalse:"]])
    (by decide +kernel)
  obtain ⟨hone, hsymbols⟩ := of_decide_eq_true hcheck
  obtain ⟨c, hc⟩ := List.length_eq_one_iff.1 hone
  have hc : p.classes[0]? = some c := by rw [hc]; rfl
  obtain ⟨layout, hlayout, hnodup, hmem, -⟩ := (symbol_references_exact hp ha).2 0 c hc
  have hrefs : layout.symbolReferences = ["-", "ifTrue:ifFalse:"] := by
    have hat := congrArg (·[0]?) hsymbols
    simpa [hlayout] using hat
  exact ⟨p, a, c, layout, hp, ha, hc, hlayout, hnodup, hrefs, (hmem "-").1 (by rw [hrefs]; decide),
    fun h => absurd ((hmem "to:do:").2 h) (by rw [hrefs]; decide), fun h => absurd ((hmem "*").2 h) (by rw [hrefs]; decide)⟩

end BlockScope
