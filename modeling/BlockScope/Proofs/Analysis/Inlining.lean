import BlockScope.Proofs.Analysis.Creation
import BlockScope.Proofs.Program.Occurrences
/-!
# What is compiled in place

A send is compiled in place if it has the form for it and is no message of a cascade, and then those of its arguments are
that the form names. The shape in the table of sends says which, and the scope of a block says whether it is such an
argument: everything else is sent, and every other block becomes a closure.
-/
namespace BlockScope

/-- The forms of sends that are compiled in place: a conditional with two blocks without parameters, and a counting loop
whose last argument is a block with one. -/
inductive Arena.HasForm (a : Arena) : Intrinsic → String → List NodeId → Prop where
  | conditional {first second : NodeId} {temps temps' : List Declaration} {body body' : List NodeId}
    (h : a.expr? first = some (.block [] temps body)) (h' : a.expr? second = some (.block [] temps' body')) :
    a.HasForm .conditional "ifTrue:ifFalse:" [first, second]
  | countingLoop {stop step : NodeId} {param : Declaration} {temps : List Declaration} {body : List NodeId}
    (h : a.expr? step = some (.block [param] temps body)) : a.HasForm .countingLoop "to:do:" [stop, step]

/-- The node is a send of this form with these arguments, and no message of a cascade. -/
def Arena.InlinedAs (a : Arena) (d : NodeId) (i : Intrinsic) (args : List NodeId) : Prop :=
  ∃ receiver selector, a.expr? d = some (.send receiver selector args) ∧ a.HasForm i selector args ∧ ¬ a.IsMessage d

/-- The node itself is an argument that such a send compiles in place. -/
def Arena.InPlace (a : Arena) (b : NodeId) : Prop :=
  ∃ d i args k, a.InlinedAs d i args ∧ k ∈ i.inlinedArgs ∧ args[k]? = some b

namespace Arena
variable {a : Arena} {i : Intrinsic} {selector : String} {args : List NodeId} {d b : NodeId} {shape : SendShape} {role : Role}

theorem blockArity?_eq_some {n : Nat} :
    a.blockArity? b = some n ↔ ∃ params temps body, a.expr? b = some (.block params temps body) ∧ params.length = n := by
  unfold blockArity?
  split
  · next params temps body he => simp [he]
  · next he =>
    constructor
    · intro h
      cases h
    · rintro ⟨params, temps, body, h, -⟩
      exact absurd h (he _ _ _)

theorem intrinsic?_eq_some : a.intrinsic? selector args = some i ↔ a.HasForm i selector args := by
  constructor
  · intro h
    unfold intrinsic? at h
    split at h
    · next first second =>
      split at h
      · next hform =>
        cases h
        obtain ⟨rfl, hfirst, hsecond⟩ := hform
        obtain ⟨params, temps, body, hfirst, hnone⟩ := blockArity?_eq_some.1 hfirst
        obtain ⟨params', temps', body', hsecond, hnone'⟩ := blockArity?_eq_some.1 hsecond
        rw [List.length_eq_zero_iff.1 hnone] at hfirst
        rw [List.length_eq_zero_iff.1 hnone'] at hsecond
        exact .conditional hfirst hsecond
      · split at h
        · next hform =>
          cases h
          obtain ⟨rfl, hsecond⟩ := hform
          obtain ⟨params, temps, body, hsecond, hone⟩ := blockArity?_eq_some.1 hsecond
          obtain ⟨param, rfl⟩ := List.length_eq_one_iff.1 hone
          exact .countingLoop hsecond
        · cases h
    · cases h
  · intro h
    cases h with
    | conditional h h' => simp [intrinsic?, blockArity?, h, h', Intrinsic.selector]
    | countingLoop h => simp [intrinsic?, blockArity?, h, Intrinsic.selector]

/-- The shape of a send by its form. -/
theorem sendShape?_of_send {receiver : NodeId} (he : a.expr? d = some (.send receiver selector args)) :
    ∃ shape, a.sendShape? d = some shape ∧ ∀ i, shape = .inlined i ↔ a.HasForm i selector args := by
  simp only [← intrinsic?_eq_some, sendShape?, he]
  cases a.intrinsic? selector args <;> simp

theorem send_of_sendShape? (h : a.sendShape? d = some shape) :
    ∃ receiver selector args, a.expr? d = some (.send receiver selector args) := by
  unfold sendShape? at h
  split at h
  · next receiver selector args he => exact ⟨receiver, selector, args, he⟩
  · cases h

theorem argRole_eq_inlined {receiver : NodeId} (he : a.expr? d = some (.send receiver selector args))
    (hb : (a.blockCode? b).isSome) (k : Nat) :
    a.argRole d (b, k) = .inlined ↔ ∃ i, a.HasForm i selector args ∧ k ∈ i.inlinedArgs := by
  obtain ⟨shape, hshape, hform⟩ := sendShape?_of_send he
  unfold argRole
  rw [hshape]
  cases shape with
  | plain => simp [← hform]
  | inlined i => simp [← hform, hb]

/-- A block is compiled in place by the send that it is an argument of. -/
theorem mem_partRoles_inlined (hb : (a.blockCode? b).isSome) : (.inlined, b) ∈ a.partRoles d ↔
    ∃ receiver selector args i k, a.expr? d = some (.send receiver selector args) ∧ a.HasForm i selector args ∧
      k ∈ i.inlinedArgs ∧ args[k]? = some b := by
  constructor
  · intro h
    unfold partRoles at h
    split at h
    · simp at h
    · next receiver selector args he =>
      rcases List.mem_cons.1 h with h | h
      · cases h
      · obtain ⟨⟨x, k⟩, hx, heq⟩ := List.mem_map.1 h
        obtain ⟨hrole, rfl⟩ := Prod.mk.inj heq
        obtain ⟨i, hform, hk⟩ := (argRole_eq_inlined he hb k).1 hrole
        exact ⟨receiver, selector, args, i, k, he, hform, hk, List.mem_zipIdx_iff_getElem?.1 hx⟩
    · obtain ⟨x, -, heq⟩ := List.mem_map.1 h
      cases heq
  · rintro ⟨receiver, selector, args, i, k, he, hform, hk, hargs⟩
    simp only [partRoles, he, List.mem_cons, List.mem_map]
    refine .inr ⟨(b, k), List.mem_zipIdx_iff_getElem?.2 hargs, ?_⟩
    rw [(argRole_eq_inlined he hb k).2 ⟨i, hform, hk⟩]

end Arena

/-! ## Blocks -/

/-- A block has the role of one that is compiled in place exactly if it stands in such a place. -/
theorem Program.Forest.role_inlined_iff {p : Program} {o : Opener} {role : Role} {b : NodeId} {code : Code} (hf : p.Forest)
    (hev : .node o role b ∈ p.events) (hb : p.arena.blockCode? b = some code) : role = .inlined ↔ p.arena.InPlace b := by
  have hsome : (p.arena.blockCode? b).isSome := by simp [hb]
  constructor
  · rintro rfl
    obtain hplain | ⟨o', role', d, hev', hpart⟩ := Program.event_cases hev
    · cases hplain
    · obtain ⟨receiver, selector, args, i, k, he, hform, hk, hargs⟩ := (Arena.mem_partRoles_inlined hsome).1 hpart
      exact ⟨d, i, args, k, ⟨receiver, selector, he, hform, fun hm => hf.not_event_of_message hm hev'⟩, hk, hargs⟩
  · rintro ⟨d, i, args, k, ⟨receiver, selector, he, hform, hno⟩, hk, hargs⟩
    -- The send is noted, since its argument is, and as no message it is noted by its own event.
    have hshown : ¬ p.arena.Hidden b := (hf.event_iff (Arena.blockCode?_eq_some.1 hb) nofun).1 ⟨o, role, hev⟩
    have harg : b ∈ p.arena.argsOf d := by
      rw [Arena.argsOf_of_expr he]
      exact List.mem_of_getElem? hargs
    obtain ⟨o', role', y, hev', hy⟩ :=
      (hf.noted_iff (Arena.lt_size_of_expr he)).2 fun hhidden => hshown (hf.hidden_of_own hhidden (.inl harg))
    have hd : d = y := by
      unfold Arena.noted at hy
      split at hy
      · next receiver messages hc =>
        rcases List.mem_cons.1 hy with rfl | hm
        · rfl
        · exact absurd ⟨y, receiver, messages, hc, hm⟩ hno
      · exact List.mem_singleton.1 hy
    subst hd
    have hpart := (Arena.mem_partRoles_inlined hsome).2 ⟨receiver, selector, args, i, k, he, hform, hk, hargs⟩
    exact (hf.event_unique hev (hf.event_of_part hev' hpart)).2

/-! ## Sends -/

section
variable {p : Program} {scopeOf : Opener → Option ScopeId} {a b : Analysis} {ev : Event} {evs : List Event} {x id : NodeId}
  {shape : SendShape}

theorem cases_of_recordSends {arena : Arena} {sends : Table SendShape} (h : (arena.recordSends id sends).get? x = some shape) :
    sends.get? x = some shape ∨ id = x ∧ arena.sendShape? x = some shape ∨ arena.IsMessage x ∧ shape = .plain := by
  unfold Arena.recordSends at h
  split at h
  · next he =>
    rw [Table.get?_insert] at h
    split at h
    · next heq =>
      subst heq
      obtain ⟨shape', hshape, -⟩ := Arena.sendShape?_of_send he
      rw [hshape] at h ⊢
      exact .inr (.inl ⟨rfl, h⟩)
    · exact .inl h
  · next receiver messages he =>
    rw [Table.get?_foldl_insert] at h
    split at h
    · next hx => exact .inr (.inr ⟨⟨id, receiver, messages, he, hx⟩, (Option.some.inj h).symm⟩)
    · exact .inl h
  · exact .inl h

/-- An entry was there before, is the shape of the send of the event, or is that of a message. -/
theorem Step.sends_cases (h : Step p scopeOf a ev b) (hx : b.sends.get? x = some shape) : a.sends.get? x = some shape ∨
    (∃ o role, ev = .node o role x) ∧ p.arena.sendShape? x = some shape ∨ p.arena.IsMessage x ∧ shape = .plain := by
  cases h with
  | method | block | use => exact .inl hx
  | other =>
    rcases cases_of_recordSends hx with hold | ⟨rfl, hshape⟩ | hmessage
    · exact .inl hold
    · exact .inr (.inl ⟨⟨_, _, rfl⟩, hshape⟩)
    · exact .inr (.inr hmessage)

theorem Steps.sends_cases (h : Steps p scopeOf a evs b) (hx : b.sends.get? x = some shape) : a.sends.get? x = some shape ∨
    (∃ o role, .node o role x ∈ evs) ∧ p.arena.sendShape? x = some shape ∨ p.arena.IsMessage x ∧ shape = .plain := by
  induction h with
  | nil => exact .inl hx
  | cons hstep _ ih =>
    rcases ih hx with hold | ⟨⟨o, role, hev⟩, hshape⟩ | hmessage
    · rcases hstep.sends_cases hold with hold | ⟨⟨o, role, rfl⟩, hshape⟩ | hmessage
      · exact .inl hold
      · exact .inr (.inl ⟨⟨o, role, List.mem_cons_self⟩, hshape⟩)
      · exact .inr (.inr hmessage)
    · exact .inr (.inl ⟨⟨o, role, List.mem_cons_of_mem _ hev⟩, hshape⟩)
    · exact .inr (.inr hmessage)

end

namespace Resolved
variable {p : Program} {a : Analysis} {b d : NodeId} {s : ScopeId} {shape : SendShape}

/-- The scope of a block has the kind that its place asks for, and stands in that of the opener around it. -/
theorem block_scope (h : Resolved p a) (hb : a.blockScopes.get? b = some s) :
    (a.scopes.scopeIs (·.isInlined) s ↔ p.arena.InPlace b) ∧ (a.scopes.scopeIs (·.isTrueBlock) s ↔ ¬ p.arena.InPlace b) ∧
      ∃ outer, a.scopes.outer? s = some outer ∧ ∀ U, p.UseSite a b U ↔ U = outer := by
  obtain ⟨a₀, hready, hsteps⟩ := h.run
  have hforest := h.parsed.forest
  obtain ⟨o, role, code, hev, hcode⟩ := h.event_of_blockScope hb
  obtain ⟨scope, outer, hscope, ho, -, -, hentered⟩ := hsteps.opened hready.outline.wf hforest.nodup_events hev hcode
  have hs : a.scopeOf? (.block b) = some s := hb
  rw [hs] at hscope
  cases hscope
  have hinlined : a.scopes.scopeIs (·.isInlined) s = (role = .inlined : Bool) := by
    refine (hentered.scopeIs (· = some .inlinedBlock)).trans ?_
    cases role <;> rfl
  have htrue : a.scopes.scopeIs (·.isTrueBlock) s = (role ≠ .inlined : Bool) := by
    refine (hentered.scopeIs (· = some .block)).trans ?_
    cases role <;> rfl
  obtain ⟨outer', haround⟩ := Program.around_of_event hev
  refine ⟨?_, ?_, outer, hentered.outer?_eq, fun U => ⟨?_, ?_⟩⟩
  · rw [hinlined, ← hforest.role_inlined_iff hev hcode, decide_eq_true_eq]
  · rw [htrue, ← hforest.role_inlined_iff hev hcode, decide_eq_true_eq]
  · rintro ⟨o', ho', hU⟩
    rw [hforest.encloses_unique ho' haround.head, ho] at hU
    exact (Option.some.inj hU).symm
  · rintro rfl
    exact ⟨o, haround.head, ho⟩

/-- The shape of a send is the one of its form, or plain for a message of a cascade. -/
theorem send_shape (h : Resolved p a) (hd : a.sends.get? d = some shape) : ∃ receiver selector args,
    p.arena.expr? d = some (.send receiver selector args) ∧ ∀ i, shape = .inlined i ↔ p.arena.InlinedAs d i args := by
  obtain ⟨a₀, hready, hsteps⟩ := h.run
  have hforest := h.parsed.forest
  rcases hsteps.sends_cases hd with hold | ⟨⟨o, role, hev⟩, hshape⟩ | ⟨hmessage, rfl⟩
  · rw [hready.outline.tables.2.2.1] at hold
    cases hold
  · have hno : ¬ p.arena.IsMessage d := fun hm => hforest.not_event_of_message hm hev
    obtain ⟨receiver, selector, args, he⟩ := Arena.send_of_sendShape? hshape
    obtain ⟨shape', hshape', hform⟩ := Arena.sendShape?_of_send he
    rw [hshape] at hshape'
    cases hshape'
    refine ⟨receiver, selector, args, he, fun i => (hform i).trans ⟨fun hi => ⟨receiver, selector, he, hi, hno⟩, ?_⟩⟩
    rintro ⟨receiver', selector', he', hi, -⟩
    rw [he] at he'
    cases he'
    exact hi
  · obtain ⟨c, receiver, messages, hc, hm⟩ := id hmessage
    obtain ⟨target, selector, args, he⟩ := hforest.message_send hc hm
    refine ⟨target, selector, args, he, fun i => ⟨nofun, ?_⟩⟩
    rintro ⟨_, _, -, -, hno⟩
    exact absurd hmessage hno

end Resolved

/-- In an accepted program a block is compiled in place if and only if it stands itself as an argument that a send of the
right form, no message of a cascade, compiles in place; any other block is a closure, and both stand in the scope of the
block or method right around them. The table of sends has the intrinsic of exactly those sends that have such a form and
are no messages, and every other entry is plain. -/
theorem inlining_exact {bytes : List UInt8} {p : Program} {a : Analysis} (hp : Program.ofBytes bytes = .ok p)
    (ha : p.analyze = .ok a) :
    (∀ b s, a.blockScopes.get? b = some s →
      (a.scopes.scopeIs (·.isInlined) s ↔ p.arena.InPlace b) ∧ (a.scopes.scopeIs (·.isTrueBlock) s ↔ ¬ p.arena.InPlace b) ∧
      ∃ outer, a.scopes.outer? s = some outer ∧ ∀ U, p.UseSite a b U ↔ U = outer) ∧
    (∀ d shape, a.sends.get? d = some shape → ∃ receiver selector args, p.arena.expr? d = some (.send receiver selector args) ∧
      (∀ i, shape = .inlined i ↔ p.arena.InlinedAs d i args) ∧ (shape = .plain ↔ ∀ i, ¬ p.arena.InlinedAs d i args)) ∧
    ∀ d shape, a.sends.get? d = some shape → p.arena.IsMessage d → shape = .plain := by
  obtain ⟨a₀, h⟩ := analyzed_of_ok hp ha
  have hshape := h.converts.shape
  simp only [h.blockScopes_eq, h.sends_eq, h.useSite_iff, hshape.isInlined, hshape.isTrueBlock, hshape.outer?]
  refine ⟨fun b s hb => h.resolved.block_scope hb, fun d shape hd => ?_, fun d shape hd hmessage => ?_⟩
  · obtain ⟨receiver, selector, args, he, hiff⟩ := h.resolved.send_shape hd
    refine ⟨receiver, selector, args, he, hiff, ?_⟩
    simp only [← hiff]
    cases shape <;> simp
  · obtain ⟨receiver, selector, args, he, hiff⟩ := h.resolved.send_shape hd
    cases shape with
    | plain => rfl
    | inlined i =>
      obtain ⟨_, _, -, -, hno⟩ := (hiff i).1 rfl
      exact absurd hmessage hno

/-- A conditional and a loop as messages of a cascade are sent, a loop in one of them is compiled in place, and a block in
parentheses is a closure. -/
theorem inlining_exact_cascade : ∃ p a args, Program.ofBytes
      "A : nil [ m: x [ x ifTrue: [ x ] ifFalse: [ ]; to: x do: [ :i | 1 to: i do: [ :j | ([ j ]) ] ] ] ]".toUTF8.toList = .ok p ∧
    p.analyze = .ok a ∧ a.sends.get? ⟨4⟩ = some .plain ∧ a.sends.get? ⟨14⟩ = some .plain ∧
    p.arena.InlinedAs ⟨12⟩ .countingLoop args ∧ ¬ p.arena.InPlace ⟨2⟩ ∧ ¬ p.arena.InPlace ⟨13⟩ ∧ p.arena.InPlace ⟨11⟩ ∧
    ¬ p.arena.InPlace ⟨9⟩ := by
  obtain ⟨p, a, hp, ha, hcheck⟩ := exists_of_accepted
    "A : nil [ m: x [ x ifTrue: [ x ] ifFalse: [ ]; to: x do: [ :i | 1 to: i do: [ :j | ([ j ]) ] ] ] ]".toUTF8
    (fun _ a => a.sends.get? ⟨4⟩ = some .plain ∧ a.sends.get? ⟨14⟩ = some .plain ∧
      a.sends.get? ⟨12⟩ = some (.inlined .countingLoop) ∧ a.blockScopes.get? ⟨2⟩ = some ⟨4⟩ ∧ a.blockScopes.get? ⟨13⟩ = some ⟨6⟩ ∧
      a.blockScopes.get? ⟨11⟩ = some ⟨7⟩ ∧ a.blockScopes.get? ⟨9⟩ = some ⟨8⟩ ∧ a.scopes.scopeIs (·.isTrueBlock) ⟨4⟩ ∧
      a.scopes.scopeIs (·.isTrueBlock) ⟨6⟩ ∧ a.scopes.scopeIs (·.isInlined) ⟨7⟩ ∧ a.scopes.scopeIs (·.isTrueBlock) ⟨8⟩)
    (by decide +kernel)
  obtain ⟨hfirst, hsecond, hloop, h₂, h₁₃, h₁₁, h₉, htrue₂, htrue₁₃, hinlined, htrue₉⟩ := of_decide_eq_true hcheck
  obtain ⟨hblocks, hsends, -⟩ := inlining_exact hp ha
  obtain ⟨-, -, args, -, hshape, -⟩ := hsends ⟨12⟩ _ hloop
  exact ⟨p, a, args, hp, ha, hfirst, hsecond, (hshape _).1 rfl, (hblocks _ _ h₂).2.1.1 htrue₂, (hblocks _ _ h₁₃).2.1.1 htrue₁₃,
    (hblocks _ _ h₁₁).1.1 hinlined, (hblocks _ _ h₉).2.1.1 htrue₉⟩

end BlockScope
