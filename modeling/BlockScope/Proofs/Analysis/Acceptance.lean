import BlockScope.Proofs.Analysis.Progress
/-!
# Exactly the valid programs are accepted

A program whose names are all resolved observes what a valid program has to (`Resolved.valid`). With the stages that
succeed on a valid program this gives that the analysis accepts a program exactly if it is valid.
-/
namespace BlockScope

/-! ## Accepted programs are valid -/

namespace Resolved
variable {p : Program} {a a₀ : Analysis} {o : Opener} {role : Role} {id e : NodeId} {openers : List Opener} {n : String}
  {m : Method} {code : Code} {U : ScopeId}

/-- The scopes of openers are stacked, each on its side of the class as it was before the bodies. -/
theorem stacked (hready : Ready p a₀) (hsteps : Steps p a.scopeOf? a₀ p.events a) (hplaced : Placed p a openers U) :
    ∃ o outer, openers = o :: outer.map (·.1) ∧ Stacked p a₀ a.scopes ((o, U) :: outer) := by
  induction hplaced with
  | @method cls place m info U hm hi hU hentered =>
    have hlt : cls < a₀.classes.size := by
      obtain ⟨c, hc, -⟩ := Option.bind_eq_some_iff.1 hm
      rw [hready.size]
      exact (List.getElem?_eq_some_iff.1 hc).1
    obtain ⟨info', hi', hsame⟩ := hsteps.classes_eq (Array.getElem?_eq_getElem hlt)
    rw [hi] at hi'
    cases hi'
    rw [hsame.side] at hentered
    exact ⟨_, [], rfl, .method hm (Array.getElem?_eq_getElem hlt) hentered⟩
  | @block b code role U S outer hb hU hentered _ ih =>
    obtain ⟨o, stack, rfl, hstacked⟩ := ih
    exact ⟨_, (o, S) :: stack, rfl, .block hb hentered hstacked⟩

/-- A name with an event refers to something, which may be assigned to if the name is. -/
theorem referent (h : Resolved p a) (hev : .node o role e ∈ p.events) (he : p.arena.expr? e = some (.ident n)) :
    ∃ openers ref, p.Around e openers ∧ p.Refers n openers ref ∧ (role = .target → ref.writable) := by
  obtain ⟨a₀, hready, hsteps⟩ := h.run
  obtain ⟨U, found, hb⟩ := h.bound_of_event hev he
  obtain ⟨around, haround⟩ := Program.around_of_event hev
  obtain ⟨o', outer, houter, hstacked⟩ := stacked hready hsteps (h.placed haround hev rfl hb.scope)
  have hname := h.parsed.named e n he
  have hg := (hsteps.wf_grows hready.outline.wf).2
  obtain ⟨ref, href⟩ := hstacked.refers hready h.wf hg hname hb.find
  refine ⟨_, ref, haround, by rw [houter]; exact href, ?_⟩
  rintro rfl
  obtain ⟨v, hv, hwritable⟩ := h.writable hb
  obtain ⟨found', v', hfound', hv', hsame⟩ := hstacked.finds hready h.wf hg hname href false
  rw [hb.find] at hfound'
  cases hfound'
  rw [hv] at hv'
  cases hv'
  rw [← hsame]
  exact hwritable

theorem distinct_method (h : Resolved p a) (hm : m ∈ p.methods) : Distinct m.code.declared := by
  obtain ⟨a₀, hready, hsteps⟩ := h.run
  obtain ⟨c, hc, hm⟩ := List.mem_flatMap.1 hm
  obtain ⟨cls, hc⟩ := List.getElem?_of_mem hc
  obtain ⟨place, hplace⟩ := List.getElem?_of_mem hm
  have hmethod : p.method? cls place = some m := by rw [Program.method?, hc, Option.bind_some, hplace]
  obtain ⟨m', info, U, hm', -, -, hentered⟩ := hsteps.started hready.outline.wf (Program.event_of_method hmethod)
  rw [hmethod] at hm'
  cases hm'
  exact hentered.distinct

theorem distinct_block (h : Resolved p a) (hev : .node o role id ∈ p.events) (hb : p.arena.blockCode? id = some code) :
    Distinct code.declared := by
  obtain ⟨a₀, hready, hsteps⟩ := h.run
  obtain ⟨U, S, -, -, -, -, hentered⟩ := hsteps.opened hready.outline.wf h.parsed.forest.nodup_events hev hb
  exact hentered.distinct

/-- All that is resolved is valid. -/
theorem valid (h : Resolved p a) : p.Valid := by
  obtain ⟨a₀, hready, -⟩ := h.run
  have hforest := h.parsed.forest
  constructor
  case classes => exact hready.distinct_classes
  case supers => exact hready.supers
  case acyclic => exact hready.no_cycle
  case vars => exact fun i line hline => hready.vars hline
  case methods => exact fun m => h.distinct_method
  case blocks =>
    intro b code hvisited hb
    obtain ⟨o, role, hev⟩ := hforest.visited_iff.1 hvisited
    exact h.distinct_block hev hb
  case names =>
    intro e n hvisited he
    obtain ⟨o, role, hev⟩ := hforest.visited_iff.1 hvisited
    obtain ⟨openers, ref, haround, href, -⟩ := h.referent hev he
    exact ⟨openers, ref, haround, href⟩
  case targets =>
    intro d e value hd hvisited
    obtain ⟨o, role, hev⟩ := hforest.visited_iff.1 hvisited
    obtain ⟨n, hn⟩ := (hforest.assign_parts hd).1
    obtain ⟨openers, ref, haround, href, hwritable⟩ := h.referent hev hn
    exact ⟨n, openers, ref, hn, haround, href, hwritable ((hforest.fits_of_event hev).2 ⟨d, value, hd⟩)⟩

end Resolved

/-! ## Valid programs are accepted -/

theorem Program.Parsed.exists_analysis {p : Program} (hp : p.Parsed Spelled) (hv : p.Valid) : ∃ a, p.analyze = .ok a := by
  let w₀ : Work := Work.tell ⟨.fresh, #[]⟩ [.globalNames]
  obtain ⟨w₁, h₁⟩ := exists_register (w := w₀) hv rfl
  obtain ⟨ho, hsize, hnone⟩ := outline_register (w := w₀) rfl h₁
  obtain ⟨w₂, h₂⟩ := exists_link hv ho hsize hnone
  have hready : Ready p w₂.analysis := ready_of_link (w := w₀) rfl h₁ h₂
  obtain ⟨w₃, h₃⟩ := exists_resolve (w := w₂.tell [.semantics]) hp hv hready
  -- Conversion cannot fail.
  have hall : ∃ w, Runs (analysisStages p) ⟨.fresh, #[]⟩ ⟨⟩ w := by
    unfold analysisStages convert
    simp only [Runs.bind_iff, runs_tell, Runs.modify_iff]
    exact ⟨_, ⟨⟩, w₀, rfl, ⟨⟩, w₁, h₁, ⟨⟩, w₂, h₂, ⟨⟩, _, rfl, ⟨⟩, w₃, h₃, ⟨⟩, _, rfl, rfl⟩
  obtain ⟨w, hrun⟩ := hall
  refine ⟨w.analysis, ?_⟩
  have hout : (analysisStages p).runOn .fresh = (.ok ⟨⟩, w) := hrun
  rw [Program.analyze, Program.analyzeTelling, hout]
  rfl

/-- The source text spells a program, and the analysis refuses it. -/
def refused (bytes : List UInt8) : Bool :=
  match Program.ofBytes bytes with
  | .error _ => false
  | .ok p => match p.analyze with
    | .error _ => true
    | .ok _ => false

theorem exists_of_refused (bytes : ByteArray) (h : refused bytes.data.toList = true) :
    ∃ p e, Program.ofBytes bytes.toList = .ok p ∧ p.analyze = .error e := by
  rw [Text.toList_eq]
  unfold refused at h
  split at h
  · cases h
  · next p hp =>
    split at h
    · next e he => exact ⟨p, e, hp, he⟩
    · cases h

/-- The analysis accepts exactly the valid ones of the programs that a source text spells. -/
theorem accepted_iff_valid {bytes : List UInt8} {p : Program} (hp : Program.ofBytes bytes = .ok p) :
    (∃ a, p.analyze = .ok a) ↔ p.Valid := by
  constructor
  · rintro ⟨a, ha⟩
    obtain ⟨a₀, h⟩ := analyzed_of_ok hp ha
    exact h.resolved.valid
  · exact (Program.parsed_ofBytes hp).exists_analysis

/-- A closure may assign to a variable that its class inherits, but an inlined block not to its own parameter. -/
theorem accepted_iff_valid_assigned :
    (∃ p, Program.ofBytes "A : nil [ |x| ] B : A [ n [ ^ [ x := A ] ] ]".toUTF8.toList = .ok p ∧ p.Valid) ∧
    ∃ p, Program.ofBytes "A : nil [ m: y [ 1 to: y do: [:i | i := y ] ] ]".toUTF8.toList = .ok p ∧ ¬ p.Valid := by
  obtain ⟨p, a, hp, ha, -⟩ := exists_of_accepted "A : nil [ |x| ] B : A [ n [ ^ [ x := A ] ] ]".toUTF8
    (fun _ _ => true) (by decide +kernel)
  obtain ⟨q, e, hq, he⟩ := exists_of_refused "A : nil [ m: y [ 1 to: y do: [:i | i := y ] ] ]".toUTF8 (by decide +kernel)
  refine ⟨⟨p, hp, (accepted_iff_valid hp).1 ⟨a, ha⟩⟩, q, hq, fun hv => ?_⟩
  obtain ⟨b, hb⟩ := (accepted_iff_valid hq).2 hv
  rw [he] at hb
  cases hb

end BlockScope
