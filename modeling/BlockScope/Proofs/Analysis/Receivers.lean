import BlockScope.Proofs.Analysis.Lexical
import BlockScope.Proofs.Analysis.Returns
import BlockScope.Proofs.Program.Declaring
/-!
# Names of the receiver

`self` and `super` mean the receiver of the method they are in, unless a block around them has a parameter of that
name: such a parameter is the one kind of variable that a reserved word can name, since it is read with its colon as
a token of its own. Elsewhere what is declared is read as an identifier, and no identifier is a reserved word.
-/
namespace BlockScope

/-- The side of the class that the method around the node hangs on: that of the instances, or for a class method that
of the class itself. -/
def Program.HangsOn (p : Program) (a : Analysis) (e : NodeId) (side : ScopeId) : Prop :=
  ∃ openers cls place m info M, p.Around e openers ∧ openers.getLast? = some (.method cls place) ∧
    p.method? cls place = some m ∧ a.classes[cls]? = some info ∧ a.scopeOf? (.method cls place) = some M ∧
    a.scopes.outer? M = some side ∧ side = info.side m.classSide

/-- One of these openers is a block that has a parameter of this name. -/
def Program.Parameter (p : Program) (openers : List Opener) (n : String) : Prop :=
  ∃ b code, .block b ∈ openers ∧ p.code? (.block b) = some code ∧ n ∈ code.params.map (·.name)

/-- A block around the node has a parameter of this name. -/
def Program.Taken (p : Program) (e : NodeId) (n : String) : Prop := ∃ openers, p.Around e openers ∧ p.Parameter openers n

/-- The variable that stands for the receiver on a side of a class. -/
def Scope.receiver? (s : Scope) : Option VarId :=
  match s.body with
  | .side _ _ receiver _ => some receiver
  | _ => none

def ScopeTree.receiver? (t : ScopeTree) (s : ScopeId) : Option VarId := (t.scope? s).bind (·.receiver?)

theorem ScopeTree.receiver?_of_scope {t : ScopeTree} {s : ScopeId} {outer : Option ScopeId} {i : Nat} {side : Bool}
    {receiver : VarId} {slots : List VarId} (hs : t.scope? s = some ⟨outer, .side i side receiver slots⟩) :
    t.receiver? s = some receiver := by
  simp [receiver?, hs, Scope.receiver?]

theorem isReserved_of_receiver {n : String} (hn : n = "self" ∨ n = "super") : IsReserved n := by
  rcases hn with rfl | rfl
  · exact ⟨.self, rfl⟩
  · exact ⟨.super, rfl⟩

/-! ## What a reserved word refers to -/

namespace Program
variable {p : Program} {a : Analysis} {n : String} {openers : List Opener} {x : VarId} {b : NodeId} {code : Code}

/-- A method declares no reserved word. -/
theorem Declares.not_in_method {cls place : Nat} {m : Method} {d : Declaration} (h : p.Declares fun name => ¬ IsReserved name)
    (hm : p.method? cls place = some m) (hd : d ∈ m.code.declared) : ¬ IsReserved d.name := by
  obtain ⟨c, hc, hplace⟩ := Option.bind_eq_some_iff.1 hm
  exact (h.classes c (List.mem_of_getElem? hc)).methods m (List.mem_of_getElem? hplace) d hd

/-- A reserved word that a block declares is one of its parameters. -/
theorem Declares.parameter {d : Declaration} (h : p.Declares fun name => ¬ IsReserved name)
    (hcode : p.code? (.block b) = some code) (hd : d ∈ code.declared) (hn : IsReserved d.name) :
    d.name ∈ code.params.map (·.name) := by
  rcases List.mem_append.1 hd with hd | hd
  · exact List.mem_map.2 ⟨d, hd, rfl⟩
  · exact absurd hn (h.temps b code.params code.temps code.body (Arena.blockCode?_eq_some.1 hcode) d hd)

/-- A reserved word is a parameter of a block around it, or else refers to something of the side. -/
theorem Names.parameter_or_side (h : p.Names a n openers x) (hd : p.Declares fun name => ¬ IsReserved name)
    (hn : IsReserved n) : (p.Parameter openers n ∧ ∃ o d, a.MadeFor o d x) ∨
      ¬ p.Parameter openers n ∧ ∃ cls place m, openers.getLast? = some (.method cls place) ∧
        p.method? cls place = some m ∧ p.OnSide a cls m.classSide n x := by
  induction h with
  | @here o outer code d x hc hmem hdn hx =>
    subst hdn
    cases o with
    | method cls place =>
      obtain ⟨m, hm, rfl⟩ := Option.map_eq_some_iff.1 hc
      exact absurd hn (hd.not_in_method hm hmem)
    | block b => exact .inl ⟨⟨b, code, by simp, hc, hd.parameter hc hmem hn⟩, _, d, hx⟩
  | @outward b outer code x hc hno _ ih =>
    rcases ih with ⟨⟨b', code', hb', hcode', hn'⟩, hmade⟩ | ⟨hnone, cls, place, m, hlast, hm, hx⟩
    · exact .inl ⟨⟨b', code', List.mem_cons_of_mem _ hb', hcode', hn'⟩, hmade⟩
    · refine .inr ⟨?_, cls, place, m, ?_, hm, hx⟩
      · rintro ⟨b', code', hb', hcode', hn'⟩
        rcases List.mem_cons.1 hb' with h | hb'
        · cases h
          rw [hc] at hcode'
          cases hcode'
          rw [Code.declared, List.map_append] at hno
          exact hno (List.mem_append_left _ hn')
        · exact hnone ⟨b', code', hb', hcode', hn'⟩
      · rw [List.getLast?_cons, hlast]
        rfl
  | @side cls place m x hm hno hx =>
    refine .inr ⟨?_, cls, place, m, rfl, hm, hx⟩
    rintro ⟨b, code, hb, -⟩
    simp at hb

end Program

namespace Analyzed
variable {p : Program} {a b : Analysis} {e : NodeId} {o : Opener} {role : Role} {name n : String} {U side : ScopeId} {found : Found}
  {x : VarId} {openers : List Opener}

/-- The side that the method around a node hangs on, and the receiver there. -/
theorem hangsOn (h : Analyzed p a b) (haround : p.Around e openers) :
    ∃ cls place m info r v, openers.getLast? = some (.method cls place) ∧ p.method? cls place = some m ∧
      b.classes[cls]? = some info ∧ (∀ side, p.HangsOn b e side ↔ side = info.side m.classSide) ∧
      b.scopes.receiver? (info.side m.classSide) = some r ∧ b.scopes.var? r = some v ∧ v.kind = .receiver := by
  obtain ⟨a₀, hready, hsteps⟩ := h.resolved.run
  have hshape := h.converts.shape
  have hforest := h.resolved.parsed.forest
  obtain ⟨cls, place, m', hlast, hm'⟩ := haround.outermost
  obtain ⟨m, info, M, hm, hi, hM, hentered⟩ := hsteps.started hready.outline.wf (Program.event_of_method hm')
  obtain ⟨c, hclass, -⟩ := Option.bind_eq_some_iff.1 hm
  obtain ⟨⟨r, v, hs, hv, hk, -⟩, -⟩ := h.resolved.side_scope hclass hi m.classSide
  have hi' : b.classes[cls]? = some info := by rw [h.rest]; exact hi
  refine ⟨cls, place, m, info, r, v, hlast, hm, hi', fun side => ⟨?_, ?_⟩, ?_, ?_, hk⟩
  · rintro ⟨openers', cls', place', m', info', M', haround', hlast', hm', hinfo', -, -, rfl⟩
    obtain rfl := hforest.around_unique haround' haround
    rw [hlast] at hlast'
    cases hlast'
    rw [hm] at hm'
    cases hm'
    rw [hi'] at hinfo'
    cases hinfo'
    rfl
  · rintro rfl
    refine ⟨_, cls, place, m, info, M, haround, hlast, hm, hi', by rw [h.scopeOf?_eq]; exact hM, ?_, rfl⟩
    rw [hshape.outer?]
    exact hentered.outer?_eq
  · exact ScopeTree.receiver?_of_scope (hshape.scope_eq hs nofun)
  · exact h.var_kept hv (by simp [VarKind.IsStored, hk])

/-- What a name of the receiver is bound to. -/
theorem receiver_iff (h : Analyzed p a b) (hd : p.Declares fun name => ¬ IsReserved name) (hb : Bound p a e o role n U found)
    (hn : n = "self" ∨ n = "super") :
    ∃ side, (∀ side', p.HangsOn b e side' ↔ side' = side) ∧ (b.scopes.receiver? side = some found.var ↔ ¬ p.Taken e n) := by
  have hforest := h.resolved.parsed.forest
  obtain ⟨outer, haround⟩ := Program.around_of_event hb.event
  have hnames := h.names (h.resolved.names haround hb.event rfl hb.scope (h.resolved.parsed.named e n hb.ident) hb.find)
  obtain ⟨cls, place, m, info, r, v, hlast, hm, hi, hside, hr, hv, hk⟩ := h.hangsOn haround
  have htaken : p.Taken e n ↔ p.Parameter (o :: outer) n := by
    constructor
    · rintro ⟨openers, haround', hparam⟩
      rw [hforest.around_unique haround haround']
      exact hparam
    · intro hparam
      exact ⟨_, haround, hparam⟩
  refine ⟨_, hside, ?_⟩
  rw [htaken]
  rcases hnames.parameter_or_side hd (isReserved_of_receiver hn) with ⟨hparam, o', d, hmade⟩ | ⟨hnone, cls', place', m', hlast', hm', hx⟩
  -- A parameter is a variable of another kind than the receiver.
  · refine iff_of_false (fun heq => ?_) (not_not_intro hparam)
    rw [hr] at heq
    cases heq
    obtain ⟨s, w, -, -, hw, -, -, -, hkind⟩ := hmade
    rw [hv] at hw
    cases hw
    rw [hk] at hkind
    split at hkind
    · cases hkind.1
    · rcases hkind.1 with h | h | h <;> cases h
  · refine iff_of_true ?_ hnone
    rw [hlast] at hlast'
    cases hlast'
    rw [hm] at hm'
    cases hm'
    cases hx with
    | receiver _ hi' hs =>
      rw [hi] at hi'
      cases hi'
      exact ScopeTree.receiver?_of_scope hs
    | slot hno => exact absurd hn hno
    | member hno => exact absurd hn hno

end Analyzed

theorem Program.Declares.imp {P Q : String → Prop} {p : Program} (h : p.Declares P) (hPQ : ∀ name, P name → Q name) :
    p.Declares Q :=
  ⟨fun c hc => ⟨fun d hd => hPQ _ ((h.classes c hc).vars d hd), fun m hm d hd => hPQ _ ((h.classes c hc).methods m hm d hd)⟩,
    fun id params temps body hb d hd => hPQ _ (h.temps id params temps body hb d hd)⟩

/-- A bound `self` or `super` is bound to the receiver of the side that its method hangs on if and only if no block
around it has a parameter of that name. No reserved word names a variable of a class, a parameter of a method or a
temporary. -/
theorem receiver_unless_parameter {bytes : List UInt8} {p : Program} {a : Analysis} (hp : Program.ofBytes bytes = .ok p)
    (ha : p.analyze = .ok a) :
    (∀ e x n, a.bindings.get? e = some x → p.arena.expr? e = some (.ident n) → n = "self" ∨ n = "super" →
      ∃ side, (∀ side', p.HangsOn a e side' ↔ side' = side) ∧ (a.scopes.receiver? side = some x ↔ ¬ p.Taken e n)) ∧
    p.Declares fun name => ¬ IsReserved name := by
  have hd : p.Declares fun name => ¬ IsReserved name := (Program.declares_ofBytes hp).imp fun _ h => h.unreserved
  refine ⟨fun e x n hx he hn => ?_, hd⟩
  obtain ⟨a₀, h⟩ := analyzed_of_ok hp ha
  rw [h.bindings_eq] at hx
  obtain ⟨o, role, n', U, found, hb, rfl⟩ := h.resolved.bound hx
  rw [hb.ident] at he
  cases he
  exact h.receiver_iff hd hb hn

/-- A block with a parameter `self`, in which that name is not the receiver, in a class named by a reserved word. -/
theorem receiver_unless_parameter_self : ∃ p a, Program.ofBytes "nil: nil [ m [ ^ [:self | self ] ] ]".toUTF8.toList = .ok p ∧
    p.analyze = .ok a ∧ p.arena.expr? ⟨0⟩ = some (.ident "self") ∧ p.Taken ⟨0⟩ "self" ∧
    p.classes.map (·.name) = [Reserved.nil.spelling] ∧ p.Declares fun name => ¬ IsReserved name := by
  obtain ⟨p, a, hp, ha, hcheck⟩ := exists_of_accepted "nil: nil [ m [ ^ [:self | self ] ] ]".toUTF8
    (fun p a => a.bindings.get? ⟨0⟩ = some ⟨3⟩ ∧ p.arena.expr? ⟨0⟩ = some (.ident "self") ∧
      (∀ s ∈ a.scopes.scopes, s.receiver? ≠ some ⟨3⟩) ∧ p.classes.map (·.name) = [Reserved.nil.spelling]) (by decide +kernel)
  obtain ⟨hx, he, hnone, hclass⟩ := of_decide_eq_true hcheck
  obtain ⟨hreceiver, hd⟩ := receiver_unless_parameter hp ha
  obtain ⟨side, -, hiff⟩ := hreceiver ⟨0⟩ ⟨3⟩ "self" hx he (.inl rfl)
  refine ⟨p, a, hp, ha, he, ?_, hclass, hd⟩
  by_contra hfree
  obtain ⟨s, hs, hr⟩ := Option.bind_eq_some_iff.1 (hiff.2 hfree)
  exact hnone s (Array.mem_of_getElem? hs) hr

end BlockScope
