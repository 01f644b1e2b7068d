import BlockScope.Proofs.Program.Spanning
/-!
# Spans nest

Methods and classes are read between brackets like blocks, so what a class declares lies in the class, what a method declares lies in the
method, and the parts of an expression lie in the expression (`spans_nest`). A method that follows the word `class` begins with that word;
any other begins with its pattern. Every span begins and ends with tokens, so the lines and columns of its ends are those of their
offsets.
-/
namespace BlockScope
open BlockScope.Parser

/-! ## Methods and classes -/

/-- A method that was read between two offsets, with its nodes in an arena. -/
structure Method.Laid (all : List Token) (a : Arena) (n m : Nat) (method : Method) : Prop where
  among : method.span.Among all
  start : n ≤ method.span.start.offset
  stop : method.span.stop.offset ≤ m
  declares : ∀ d ∈ method.params ++ method.temps, d.Stands all .identifier method.span.start.offset method.span.stop.offset
  body : ∀ x ∈ method.body, x.index < a.size ∧ (a.span x).Within method.span

/-- What a class declares between two offsets. -/
structure Parser.ClassItems.Laid (all : List Token) (a : Arena) (n m : Nat) (items : ClassItems) : Prop where
  vars : ∀ d ∈ items.instanceVars ++ items.classVars, d.Stands all .identifier n m
  methods : ∀ method ∈ items.instanceMethods ++ items.classMethods, method.Laid all a n m

/-- A class begins with the token of its name, which may have taken in the colon, and what it declares lies in it. -/
structure ClassDefinition.Laid (all : List Token) (a : Arena) (c : ClassDefinition) : Prop where
  among : c.span.Among all
  head : ∃ t ∈ all, t.span.start = c.span.start ∧ t.span.stop.offset ≤ c.span.stop.offset ∧
    (t.kind = .identifier c.name ∨ ∃ part, t.kind = .keyword part ∧ c.name = withoutColons part)
  superAmong : c.superSpan.Among all
  super : ∀ name, c.superName = some name → ∃ t ∈ all, t.span = c.superSpan ∧ t.kind = .identifier name
  vars : ∀ d ∈ c.instanceVars ++ c.classVars, d.Stands all .identifier c.span.start.offset c.span.stop.offset
  methods : ∀ method ∈ c.methods, method.Laid all a c.span.start.offset c.span.stop.offset

/-- A program whose nodes and classes stand where they should. -/
structure Program.Laid (all : List Token) (p : Program) : Prop where
  arena : p.arena.Laid all
  classes : ∀ c ∈ p.classes, c.Laid all p.arena

section
variable {all : List Token} {a b : Arena} {n m n' m' : Nat} {method : Method} {items : ClassItems} {c : ClassDefinition}

theorem Method.Laid.mono (h : method.Laid all a n m) (hab : a.Before b) (hn : n' ≤ n) (hm : m ≤ m') : method.Laid all b n' m' := by
  refine ⟨h.among, Nat.le_trans hn h.start, Nat.le_trans h.stop hm, h.declares, fun x hx => ?_⟩
  obtain ⟨hthere, hwithin⟩ := h.body x hx
  rw [hab.span hthere]
  exact ⟨Nat.lt_of_lt_of_le hthere hab.size, hwithin⟩

theorem ClassDefinition.Laid.mono (h : c.Laid all a) (hab : a.Before b) : c.Laid all b :=
  ⟨h.among, h.head, h.superAmong, h.super, h.vars,
    fun method hmethod => (h.methods method hmethod).mono hab (Nat.le_refl _) (Nat.le_refl _)⟩

namespace Parser.ClassItems.Laid

theorem mono (h : items.Laid all a n m) (hab : a.Before b) (hm : m ≤ m') : items.Laid all b n m' :=
  ⟨fun d hd => (h.vars d hd).mono (Nat.le_refl _) hm, fun method hmethod => (h.methods method hmethod).mono hab (Nat.le_refl _) hm⟩

theorem instanceVars {ds : List Declaration} (h : items.Laid all a n m) (hds : ∀ d ∈ ds, d.Stands all .identifier n m) :
    ClassItems.Laid all a n m { items with instanceVars := items.instanceVars ++ ds } := by
  refine ⟨fun d hd => ?_, h.methods⟩
  simp only [List.mem_append] at hd
  rcases hd with (hd | hd) | hd
  · exact h.vars d (List.mem_append_left _ hd)
  · exact hds d hd
  · exact h.vars d (List.mem_append_right _ hd)

theorem classVars {ds : List Declaration} (h : items.Laid all a n m) (hds : ∀ d ∈ ds, d.Stands all .identifier n m) :
    ClassItems.Laid all a n m { items with classVars := items.classVars ++ ds } := by
  refine ⟨fun d hd => ?_, h.methods⟩
  simp only [List.mem_append] at hd
  rcases hd with hd | hd | hd
  · exact h.vars d (List.mem_append_left _ hd)
  · exact h.vars d (List.mem_append_right _ hd)
  · exact hds d hd

theorem instanceMethod (h : items.Laid all a n m) (hmethod : method.Laid all a n m) :
    ClassItems.Laid all a n m { items with instanceMethods := items.instanceMethods ++ [method] } := by
  refine ⟨h.vars, fun method' hmem => ?_⟩
  simp only [List.mem_append, List.mem_singleton] at hmem
  rcases hmem with (hmem | rfl) | hmem
  · exact h.methods method' (List.mem_append_left _ hmem)
  · exact hmethod
  · exact h.methods method' (List.mem_append_right _ hmem)

theorem classMethod (h : items.Laid all a n m) (hmethod : method.Laid all a n m) :
    ClassItems.Laid all a n m { items with classMethods := items.classMethods ++ [method] } := by
  refine ⟨h.vars, fun method' hmem => ?_⟩
  simp only [List.mem_append, List.mem_singleton] at hmem
  rcases hmem with hmem | hmem | rfl
  · exact h.methods method' (List.mem_append_left _ hmem)
  · exact h.methods method' (List.mem_append_right _ hmem)
  · exact hmethod

end Parser.ClassItems.Laid
end

/-- The parser has moved on from an offset, with more nodes than in the arena, and the result was read between `low` and where it stands
now. -/
def Gained {α : Type} (all : List Token) (n : Nat) (a : Arena) (laid : Arena → Nat → α → Prop) (x : α) (s : ParserState) : Prop :=
  ∃ m, n ≤ m ∧ s.At all m ∧ a.Before s.arena ∧ laid s.arena m x

namespace Parser
variable {all : List Token} {n m low : Nat} {s : ParserState} {start : Span} {params : List Declaration} {items : ClassItems}

theorem gained_methodBody {classSide : Bool} {selector : String} (hs : s.At all n) (hstart : start.Among all)
    (hlow : low ≤ start.start.offset) (hle : start.stop.offset ≤ n) (hparams : ∀ d ∈ params, d.Stands all .identifier start.stop.offset n) :
    (methodBody classSide selector params start).Ensures s (Gained all n s.arena fun a m => Method.Laid all a low m) := by
  refine .expect_bind hs fun opening s₁ hopening hs₁ e₁ => .remaining_bind ?_
  refine (declares_optionalVariables _ hs₁).bind fun temps s₂ ⟨k, hk, hs₂, e₂, htemps⟩ => ?_
  refine (lays_statements (places_expressionWithin _) _ hs₂).bind fun body s₃ ⟨l, hl, hbody⟩ => ?_
  refine .expect_bind hbody.reached fun closing s₄ hclosing hs₄ e₄ => .pure ?_
  have hbefore : s.arena.Before s₄.arena := by
    rw [e₄, ← e₁, ← e₂]
    exact hbody.arena
  have := hstart.lt
  have := hopening.le
  have := hopening.lt
  have := hclosing.le
  have := hclosing.lt
  have hbegin : (start.merge closing.span).start.offset = start.start.offset := by
    rw [Span.offset_start_merge]
    omega
  have hend : (start.merge closing.span).stop.offset = closing.span.stop.offset := by
    rw [Span.offset_stop_merge]
    omega
  have hdeclares : ∀ d ∈ params ++ temps,
      d.Stands all .identifier (start.merge closing.span).start.offset (start.merge closing.span).stop.offset := by
    refine List.forall_mem_append.2 ⟨fun d hd => ?_, fun d hd => ?_⟩
    · exact (hparams d hd).mono (by omega) (by omega)
    · exact (htemps d hd).mono (by omega) (by omega)
  have hwithin : ∀ x ∈ body, x.index < s₄.arena.size ∧ (s₄.arena.span x).Within (start.merge closing.span) := by
    rw [e₄]
    intro x hx
    have hbehind := (hbody.each x hx).2
    have hends := hbody.reached.ends x (hbody.each x hx).1
    exact ⟨(hbody.each x hx).1, by omega, by omega⟩
  exact ⟨closing.span.stop.offset, by omega, hs₄, hbefore, hstart.merge hclosing.among, Nat.le_trans hlow (Nat.le_of_eq hbegin.symm),
    Nat.le_of_eq hend, hdeclares, hwithin⟩

theorem declares_patternParts (k : Nat) (hs : s.At all n) : (patternParts k).Ensures s fun parts s' =>
    Declared all .identifier n s.arena (parts.map (·.2)) s' := by
  induction k generalizing s n with
  | zero => exact .pure (.nil hs (Nat.le_refl _) rfl)
  | succ k ih =>
    refine .peek_bind ?_
    split
    · next part hkind =>
      refine .advance_bind_of hs hkind (by simp) fun t s₁ _ hread hs₁ e₁ => .identifier_bind hs₁ fun d s₂ hd hs₂ e₂ => ?_
      refine (ih hs₂).bind fun parts s₃ hparts => .pure (Declared.mono ?_ hread.le_stop)
      rw [e₂, e₁] at hparts
      exact .cons hd hparts
    · exact .pure (.nil hs.skipped (Nat.le_refl _) rfl)

/-- A pattern is read from the first token on, and the parameters stand behind that. -/
theorem declares_pattern (hs : s.At all n) : pattern.Ensures s fun r s' =>
    s.skipped.front.From all n ∧ Declared all .identifier s.skipped.front.span.stop.offset s.arena r.2 s' := by
  refine .advance_bind hs (fun t s₁ hk _ => ?_) fun t s₁ ht hread hs₁ e₁ => ?_
  · rw [hk]
    exact .throw _
  · rw [← ht, ← e₁]
    split
    · exact .pure ⟨hread, .nil hs₁ (Nat.le_refl _) rfl⟩
    · exact .identifier_bind hs₁ fun d s₂ hd hs₂ e₂ => .pure ⟨hread, .cons hd (.nil hs₂ (Nat.le_refl _) e₂)⟩
    · refine .identifier_bind hs₁ fun d s₂ hd hs₂ e₂ => .remaining_bind ?_
      refine (declares_patternParts _ hs₂).bind fun parts s₃ hparts => .pure ⟨hread, ?_⟩
      rw [e₂] at hparts
      exact .cons hd hparts
    · exact .throw _

theorem gained_method {classSide : Bool} (hs : s.At all n)
    (hstart : s.skipped.front.From all n → start.Among all ∧ low ≤ start.start.offset ∧
      start.stop.offset ≤ s.skipped.front.span.stop.offset) :
    (method classSide start).Ensures s (Gained all n s.arena fun a m => Method.Laid all a low m) := by
  refine (declares_pattern hs).bind fun ⟨selector, params⟩ s₁ ⟨hfront, l, hl, hs₁, e₁, hparams⟩ => ?_
  obtain ⟨hamong, hlow, hstop⟩ := hstart hfront
  rw [← e₁]
  refine (gained_methodBody hs₁ hamong hlow (by omega) fun d hd => (hparams d hd).mono hstop (Nat.le_refl _)).mono
    fun x s' ⟨m, hm, h⟩ => ?_
  exact ⟨m, by have := hfront.le_stop; omega, h⟩

theorem gained_classSideItem (hs : s.At all n) (hlow : low ≤ n) (hitems : items.Laid all s.arena low n)
    (hkind : s.skipped.headKind = .identifier "class") :
    (classSideItem items).Ensures s.skipped (Gained all n s.arena fun a m => ClassItems.Laid all a low m) := by
  refine .advance_bind_of hs hkind nofun fun word s₁ _ hword hs₁ e₁ => .peek_bind ?_
  have hle := hword.le_stop
  have hlow' : low ≤ word.span.start.offset := Nat.le_trans hlow hword.le
  split
  · refine .remaining_bind ((declares_variableList _ hs₁.skipped).bind fun vars s₂ ⟨m, hm, hs₂, e₂, hvars⟩ => .pure ?_)
    have e : s₂.arena = s.arena := e₂.trans e₁
    refine ⟨m, by omega, hs₂, e ▸ .refl _, (hitems.mono (e ▸ .refl _) (by omega)).classVars fun d hd => ?_⟩
    exact (hvars d hd).mono (by omega) (Nat.le_refl _)
  · -- A method of either side begins with the word.
    refine (gained_methodBody hs₁.skipped hword.among hlow' (Nat.le_refl _) (by simp)).bind
      fun method s₂ ⟨m, hm, hs₂, hab, hlaid⟩ => .pure ?_
    have hab' : s.arena.Before s₂.arena := e₁ ▸ hab
    exact ⟨m, by omega, hs₂, hab', (hitems.mono hab' (by omega)).instanceMethod hlaid⟩
  · split
    · next hbars =>
      refine .advance_bind_of hs₁ hbars (by simp [doubleBar]) fun t s₂ _ hread hs₂ e₂ => .pure ?_
      have e : s₂.arena = s.arena := e₂.trans e₁
      have := hread.le_stop
      exact ⟨_, by omega, hs₂, e ▸ .refl _, hitems.mono (e ▸ .refl _) (by omega)⟩
    · refine (gained_method hs₁.skipped fun hfront => ⟨hword.among, hlow', hfront.le_stop⟩).bind
        fun method s₂ ⟨m, hm, hs₂, hab, hlaid⟩ => .pure ?_
      have hab' : s.arena.Before s₂.arena := e₁ ▸ hab
      exact ⟨m, by omega, hs₂, hab', (hitems.mono hab' (by omega)).classMethod hlaid⟩

theorem gained_classItems (k : Nat) (hs : s.At all n) (hlow : low ≤ n) (hitems : items.Laid all s.arena low n) :
    (classItems k items).Ensures s (Gained all n s.arena fun a m => ClassItems.Laid all a low m) := by
  induction k generalizing s n items with
  | zero => exact .pure ⟨n, Nat.le_refl _, hs, .refl _, hitems⟩
  | succ k ih =>
    -- The rest goes on from where an item was left.
    have hrest : ∀ {m : Nat} {items' : ClassItems} {s' : ParserState}, n ≤ m → s'.At all m → s.arena.Before s'.arena →
        items'.Laid all s'.arena low m →
        (classItems k items').Ensures s' (Gained all n s.arena fun a m => ClassItems.Laid all a low m) := by
      intro m items' s' hm hs' hab hitems'
      refine (ih hs' (by omega) hitems').mono fun items'' s'' ⟨m', hm', hs'', hab', hitems''⟩ => ?_
      exact ⟨m', by omega, hs'', hab.trans hab', hitems''⟩
    refine .peek_bind ?_
    split
    · exact .pure ⟨n, Nat.le_refl _, hs.skipped, .refl _, hitems⟩
    split
    · refine .remaining_bind ((declares_variableList _ hs.skipped).bind fun vars s₁ ⟨m, hm, hs₁, e₁, hvars⟩ => ?_)
      have hab : s.arena.Before s₁.arena := e₁ ▸ .refl _
      exact hrest hm hs₁ hab ((hitems.mono hab hm).instanceVars fun d hd => (hvars d hd).mono hlow (Nat.le_refl _))
    split
    · next hkind =>
      exact (gained_classSideItem hs hlow hitems hkind).bind fun items' s₁ ⟨m, hm, hs₁, hab, hitems'⟩ => hrest hm hs₁ hab hitems'
    · refine .peekSpan_bind ?_
      rw [skipped_skipped]
      have hstart : s.skipped.skipped.front.From all n → s.skipped.front.span.Among all ∧ low ≤ s.skipped.front.span.start.offset ∧
          s.skipped.front.span.stop.offset ≤ s.skipped.skipped.front.span.stop.offset := by
        rw [skipped_skipped]
        exact fun hfront => ⟨hfront.among, Nat.le_trans hlow hfront.le, Nat.le_refl _⟩
      refine (gained_method hs.skipped hstart).bind fun method s₁ ⟨m, hm, hs₁, hab, hlaid⟩ => ?_
      exact hrest hm hs₁ hab ((hitems.mono hab hm).instanceMethod hlaid)

/-- The name of a class is read from its first token. -/
theorem ensures_className (hs : s.At all n) : className.Ensures s fun d s' => ∃ (t : Token) (m : Nat), t.From all n ∧ t.span = d.span ∧
    (t.kind = .identifier d.name ∨ ∃ part, t.kind = .keyword part ∧ d.name = withoutColons part) ∧ t.span.stop.offset ≤ m ∧ s'.At all m ∧
    s'.arena = s.arena := by
  refine .advance_bind hs (fun t s₁ hk _ => ?_) fun t s₁ _ hread hs₁ e₁ => ?_
  · rw [hk]
    exact .throw _
  · split
    · next name hk =>
      refine .expect_bind hs₁ fun colon s₂ hcolon hs₂ e₂ => .pure ?_
      exact ⟨t, _, hread, rfl, .inl hk, hcolon.le_stop, hs₂, e₂.trans e₁⟩
    · next part hk => exact .pure ⟨t, _, hread, rfl, .inr ⟨part, hk, rfl⟩, Nat.le_refl _, hs₁, e₁⟩
    · exact .throw _

theorem ensures_superclass (hs : s.At all n) : superclass.Ensures s fun r s' => ∃ t : Token, t.From all n ∧ t.span = r.2 ∧
    (∀ name, r.1 = some name → t.kind = .identifier name) ∧ s'.At all t.span.stop.offset ∧ s'.arena = s.arena := by
  refine .advance_bind hs (fun t s₁ hk _ => ?_) fun t s₁ _ hread hs₁ e₁ => ?_
  · rw [hk]
    exact .throw _
  · split
    · next name hk =>
      refine .pure ⟨t, hread, rfl, fun name' hname => ?_, hs₁, e₁⟩
      rw [hk, Option.some.inj hname]
    · exact .pure ⟨t, hread, rfl, nofun, hs₁, e₁⟩
    · exact .throw _

theorem gained_classDefinition (hs : s.At all n) :
    classDefinition.Ensures s (Gained all n s.arena fun a _ c => ClassDefinition.Laid all a c) := by
  refine (ensures_className hs).bind fun head s₁ ⟨t, k, ht, hspan, hkind, hk, hs₁, e₁⟩ => ?_
  refine (ensures_superclass hs₁).bind fun ⟨superName, superSpan⟩ s₂ ⟨u, hu, hsuper, hname, hs₂, e₂⟩ => ?_
  refine .expect_bind hs₂ fun opening s₃ hopening hs₃ e₃ => .remaining_bind ?_
  have hnone : ClassItems.Laid all s₃.arena opening.span.stop.offset opening.span.stop.offset {} := ⟨by simp, by simp⟩
  refine (gained_classItems _ hs₃ (Nat.le_refl _) hnone).bind fun items s₄ ⟨m, hm, hs₄, hab, hitems⟩ => ?_
  refine .expect_bind hs₄ fun closing s₅ hclosing hs₅ e₅ => .pure ?_
  have hbefore : s.arena.Before s₅.arena := by
    rw [e₅, ← e₁, ← e₂, ← e₃]
    exact hab
  have hsuperAmong : superSpan.Among all := by
    rw [← show u.span = superSpan from hsuper]
    exact hu.among
  have := ht.le
  have := ht.lt
  have := hu.le_stop
  have := hopening.le_stop
  have := hclosing.le
  have := hclosing.lt
  have hbegin : (head.span.merge closing.span).start = head.span.start := Span.start_merge (by rw [← hspan]; omega)
  have hend : (head.span.merge closing.span).stop.offset = closing.span.stop.offset := by
    rw [Span.offset_stop_merge, ← hspan]
    omega
  have hlow : (head.span.merge closing.span).start.offset ≤ opening.span.stop.offset := by
    rw [hbegin, ← hspan]
    omega
  refine ⟨closing.span.stop.offset, by omega, hs₅, hbefore, ⟨?_, ?_, hsuperAmong, ?_, ?_, ?_⟩⟩
  · exact (hspan ▸ ht.among).merge hclosing.among
  · exact ⟨t, ht.mem, by rw [hspan, hbegin], by rw [hend]; omega, hkind⟩
  · exact fun name h => ⟨u, hu.mem, hsuper, hname name h⟩
  · exact fun d hd => (hitems.vars d hd).mono hlow (by rw [hend]; omega)
  · rw [e₅]
    exact fun method hmethod => (hitems.methods method hmethod).mono (.refl _) hlow (by rw [hend]; omega)

theorem gained_classes (k : Nat) (hs : s.At all n) :
    (classes k).Ensures s (Gained all n s.arena fun a _ cs => ∀ c ∈ cs, ClassDefinition.Laid all a c) := by
  induction k generalizing s n with
  | zero => exact .pure ⟨n, Nat.le_refl _, hs, .refl _, nofun⟩
  | succ k ih =>
    refine .peek_bind ?_
    split
    · exact .pure ⟨n, Nat.le_refl _, hs.skipped, .refl _, nofun⟩
    · refine (gained_classDefinition hs.skipped).bind fun c s₁ ⟨m, hm, hs₁, hab, hc⟩ => ?_
      refine (ih hs₁).bind fun cs s₂ ⟨m', hm', hs₂, hab', hcs⟩ => .pure ?_
      exact ⟨m', by omega, hs₂, hab.trans hab', List.forall_mem_cons.2 ⟨hc.mono hab', hcs⟩⟩

end Parser

theorem Program.laid_ofBytes {bytes : List UInt8} {p : Program} (h : Program.ofBytes bytes = .ok p) : p.Laid (tokenize bytes) := by
  obtain ⟨cs, s, hruns, rfl⟩ := runs_ofTokens h
  have hstart : (ParserState.start (tokenize bytes)).At (tokenize bytes) 0 :=
    ⟨lined_tokenize bytes, fun id node hnode => by simp [ParserState.start, Arena.empty, Arena.get?] at hnode, nofun⟩
  obtain ⟨m, -, hs, -, hclasses⟩ := Ensures.remaining_bind (gained_classes _ hstart) cs s hruns
  exact ⟨hs.nodes, hclasses⟩

/-! ## Programs -/

/-- The names that an expression itself declares. -/
def Expr.declarations : Expr → List Declaration
  | .block params temps _ => params ++ temps
  | _ => []

def Node.spans (node : Node) : List Span := node.span :: node.expr.declarations.map (·.span)

def Method.spans (m : Method) : List Span := m.span :: (m.params ++ m.temps).map (·.span)

def ClassDefinition.spans (c : ClassDefinition) : List Span :=
  c.span :: c.superSpan :: (c.instanceVars ++ c.classVars).map (·.span) ++ c.methods.flatMap (·.spans)

/-- All spans of a program. -/
def Program.spans (p : Program) : List Span := p.arena.nodes.toList.flatMap (·.spans) ++ p.classes.flatMap (·.spans)

/-- The spans of the program of a text nest, and their ends are ends of its tokens. -/
structure Program.Nests (bytes : List UInt8) (p : Program) : Prop where
  parts : ∀ id, ∀ x ∈ p.arena.children id, x.index < p.arena.size ∧ (p.arena.span x).Within (p.arena.span id)
  blocks : ∀ id e, p.arena.expr? id = some e → ∀ d ∈ e.declarations, d.span.Within (p.arena.span id)
  statements : ∀ c ∈ p.classes, ∀ m ∈ c.methods, ∀ x ∈ m.body, x.index < p.arena.size ∧ (p.arena.span x).Within m.span
  declarations : ∀ c ∈ p.classes, ∀ m ∈ c.methods, ∀ d ∈ m.params ++ m.temps, d.span.Within m.span
  methods : ∀ c ∈ p.classes, ∀ m ∈ c.methods, m.span.Within c.span
  vars : ∀ c ∈ p.classes, ∀ d ∈ c.instanceVars ++ c.classVars, d.span.Within c.span
  lengths : ∀ span ∈ p.spans, span.start.offset < span.stop.offset
  starts : ∀ span ∈ p.spans, (∃ t ∈ tokenize bytes, t.span.start = span.start) ∧ span.start = placeAt bytes span.start.offset
  stops : ∀ span ∈ p.spans, (∃ t ∈ tokenize bytes, t.span.stop = span.stop) ∧ span.stop = placeAt bytes span.stop.offset

theorem Node.Laid.declarations {all : List Token} {a : Arena} {node : Node} (h : node.Laid all a) :
    ∀ d ∈ node.expr.declarations, d.span.Within node.span ∧ d.span.Among all := by
  have hkeeps := h.keeps
  unfold Node.Keeps at hkeeps
  unfold Expr.declarations
  split
  · next params temps body heq =>
    rw [heq] at hkeeps
    exact List.forall_mem_append.2 ⟨fun d hd => ⟨(hkeeps.1 d hd).within, (hkeeps.1 d hd).among⟩,
      fun d hd => ⟨(hkeeps.2 d hd).within, (hkeeps.2 d hd).among⟩⟩
  · exact nofun

/-- Every span of the program begins and ends with a token. -/
theorem Program.Laid.spans {all : List Token} {p : Program} (h : p.Laid all) : ∀ span ∈ p.spans, span.Among all := by
  refine List.forall_mem_append.2 ⟨fun span hspan => ?_, fun span hspan => ?_⟩
  · obtain ⟨node, hnode, hspan⟩ := List.mem_flatMap.1 hspan
    obtain ⟨i, hi, hget⟩ := List.mem_iff_getElem.1 hnode
    have hlaid := h.arena ⟨i⟩ node (by rw [Arena.get?, ← Array.getElem?_toList, List.getElem?_eq_getElem hi, hget])
    rcases List.mem_cons.1 hspan with rfl | hspan
    · exact hlaid.among
    · obtain ⟨d, hd, rfl⟩ := List.mem_map.1 hspan
      exact (hlaid.declarations d hd).2
  · obtain ⟨c, hc, hspan⟩ := List.mem_flatMap.1 hspan
    have hlaid := h.classes c hc
    rcases List.mem_append.1 hspan with hspan | hspan
    · rcases List.mem_cons.1 hspan with rfl | hspan
      · exact hlaid.among
      · rcases List.mem_cons.1 hspan with rfl | hspan
        · exact hlaid.superAmong
        · obtain ⟨d, hd, rfl⟩ := List.mem_map.1 hspan
          exact (hlaid.vars d hd).among
    · obtain ⟨m, hm, hspan⟩ := List.mem_flatMap.1 hspan
      rcases List.mem_cons.1 hspan with rfl | hspan
      · exact (hlaid.methods m hm).among
      · obtain ⟨d, hd, rfl⟩ := List.mem_map.1 hspan
        exact ((hlaid.methods m hm).declares d hd).among

/-- The ends of tokens are places of the text. -/
theorem places_tokenize (bytes : List UInt8) : ∀ t ∈ tokenize bytes,
    t.span.start = placeAt bytes t.span.start.offset ∧ t.span.stop = placeAt bytes t.span.stop.offset := by
  obtain ⟨ts, htokens, htiles⟩ := tiles_tokenize bytes
  rw [htokens]
  exact List.forall_mem_append.2 ⟨fun t ht => (htiles.token_span ht).2.2.2.2, List.forall_mem_singleton.2 ⟨rfl, rfl⟩⟩

/-- In the program of a text, parts lie in their expressions, statements and names in their methods, and methods and variables in their
classes. Every span takes some text, from the beginning of one token to the end of one, so its lines and columns are right. -/
theorem spans_nest {bytes : List UInt8} {p : Program} (h : Program.ofBytes bytes = .ok p) : p.Nests bytes := by
  have hlaid := Program.laid_ofBytes h
  have hspans := hlaid.spans
  have hplaces := places_tokenize bytes
  refine ⟨fun id x hx => ?_, fun id e he d hd => ?_, fun c hc m hm => ((hlaid.classes c hc).methods m hm).body,
    fun c hc m hm d hd => (((hlaid.classes c hc).methods m hm).declares d hd).within, fun c hc m hm => ?_,
    fun c hc d hd => ((hlaid.classes c hc).vars d hd).within, fun span hspan => (hspans span hspan).lt, fun span hspan => ?_,
    fun span hspan => ?_⟩
  · unfold Arena.children Arena.expr? at hx
    cases hget : p.arena.get? id with
    | none => simp [hget] at hx
    | some node =>
      have hspan : p.arena.span id = node.span := by rw [Arena.span, hget]; rfl
      rw [hget] at hx
      rw [hspan]
      exact (hlaid.arena id node hget).parts x hx
  · obtain ⟨node, hget, rfl⟩ := Option.map_eq_some_iff.1 he
    have hspan : p.arena.span id = node.span := by rw [Arena.span, hget]; rfl
    rw [hspan]
    exact ((hlaid.arena id node hget).declarations d hd).1
  · exact ⟨((hlaid.classes c hc).methods m hm).start, ((hlaid.classes c hc).methods m hm).stop⟩
  · obtain ⟨t, ht, hstart⟩ := (hspans span hspan).start
    exact ⟨⟨t, ht, hstart⟩, hstart ▸ (hplaces t ht).1⟩
  · obtain ⟨t, ht, hstop⟩ := (hspans span hspan).stop
    exact ⟨⟨t, ht, hstop⟩, hstop ▸ (hplaces t ht).2⟩

/-- A cascade on two lines, in a block with a parameter, in a method of the class side. -/
theorem spans_nest_cascade : ∃ p : Program,
    Program.ofBytes "A : nil [ | a |\nclass m: x [ ^ [:y | y at: x;\n foo; bar ] ] ]".toUTF8.toList = .ok p ∧
    p.arena.size = 8 ∧ p.spans.length = 14 ∧ p.Nests "A : nil [ | a |\nclass m: x [ ^ [:y | y at: x;\n foo; bar ] ] ]".toUTF8.toList := by
  obtain ⟨p, hp, hcheck⟩ := Program.exists_ofBytes "A : nil [ | a |\nclass m: x [ ^ [:y | y at: x;\n foo; bar ] ] ]".toUTF8
    (fun p => p.arena.size = 8 ∧ p.spans.length = 14) (by decide +kernel)
  have hsizes := of_decide_eq_true hcheck
  exact ⟨p, hp, hsizes.1, hsizes.2, spans_nest hp⟩

end BlockScope
