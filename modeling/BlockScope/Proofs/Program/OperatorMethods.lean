import BlockScope.Proofs.Program.Coupling
/-!
# Methods named by an operator

Between the brackets of a class an operator starts a method with one parameter, on the instance side by itself and on the class side
behind the word `class`. There is one exception: two bars are an empty list of variables in both places, so that no method can have
that name.
-/
namespace BlockScope
open BlockScope.Parser

namespace Parser
variable {s s₁ s₂ s' : ParserState} {token param : Token} {operator name : String} {m : Method} {items : ClassItems}

theorem lastSpan_expect {mark : Mark} (h : Runs (expect mark) s token s') : s'.lastSpan = token.span := by
  obtain ⟨t, s₁, hadvance, h⟩ := Runs.bind_iff.1 h
  obtain ⟨rfl, rfl⟩ := advance_iff.1 hadvance
  split at h
  · obtain ⟨rfl, rfl⟩ := Runs.pure_iff.1 h
    unfold ParserState.front ParserState.behind
    split <;> rfl
  · exact (Runs.throw_iff.1 h).elim

/-- A body can be read under any heading, with the same contents. The method ends where the body does. -/
theorem methodBody_heading {classSide : Bool} {selector : String} {params : List Declaration} {start : Span}
    (h : Runs (methodBody classSide selector params start) s m s') (classSide : Bool) (selector : String) (params : List Declaration)
    (start : Span) : Runs (methodBody classSide selector params start) s
      { m with classSide, selector, params, span := start.merge s'.lastSpan } s' := by
  simp only [Coupling.methodBody_eq, Runs.bind_iff, Runs.pure_iff] at h ⊢
  obtain ⟨opening, s₁, hopening, bound, s₂, hbound, ⟨temps, body⟩, s₃, hbody, closing, s₄, hclosing, rfl, rfl⟩ := h
  rw [lastSpan_expect hclosing]
  exact ⟨opening, s₁, hopening, bound, s₂, hbound, (temps, body), s₃, hbody, closing, s', hclosing, rfl, rfl⟩

/-- An operator and a parameter are the head of a method. -/
theorem runs_method_operator {classSide : Bool} {start : Span} (htoken : Runs advance s token s₁) (hkind : token.kind = .operator operator)
    (hparam : Runs advance s₁ param s₂) (hname : param.kind = .identifier name)
    (hbody : Runs (methodBody classSide operator [⟨name, param.span⟩] start) s₂ m s') : Runs (method classSide start) s m s' := by
  have hidentifier : Runs (identifier .binaryParameter) s₁ ⟨name, param.span⟩ s₂ := by
    refine Runs.bind_iff.2 ⟨param, s₂, hparam, ?_⟩
    rw [hname]
    exact Runs.pure_iff.2 ⟨rfl, rfl⟩
  have hpattern : Runs pattern s (operator, [⟨name, param.span⟩]) s₂ := by
    refine Runs.bind_iff.2 ⟨token, s₁, htoken, ?_⟩
    rw [hkind]
    exact Runs.bind_iff.2 ⟨_, _, hidentifier, Runs.pure_iff.2 ⟨rfl, rfl⟩⟩
  exact Runs.bind_iff.2 ⟨_, _, hpattern, hbody⟩

/-! ## Items of a class -/

/-- From the first state one item of a class is read, which adds so much to it, up to the second state. -/
def Item (s : ParserState) (add : ClassItems → ClassItems) (s' : ParserState) : Prop :=
  ∀ n items, (classItems (n + 1) items).runFrom s = (classItems n (add items)).runFrom s'

theorem Item.instanceMethod (hkind : s.skipped.headKind = .operator operator) (hbars : operator ≠ "||")
    (h : Runs (method false s.skipped.front.span) s.skipped m s') :
    Item s (fun items => { items with instanceMethods := items.instanceMethods ++ [m] }) s' := fun n items => by
  have hspan : Runs peekSpan s.skipped s.skipped.front.span s.skipped := by
    have hpeek := runFrom_peekSpan s.skipped
    rwa [skipped_skipped] at hpeek
  rw [classItems, runFrom_bind (runFrom_peek s), hkind, if_neg (by simp), if_neg (by simp [doubleBar, hbars]), if_neg (by simp),
    runFrom_bind hspan, runFrom_bind h]

theorem Item.bars (htoken : Runs advance s token s') (hkind : s.skipped.headKind = doubleBar) : Item s id s' := fun n items => by
  have hlist (bound : Nat) : Runs (variableList bound) s.skipped [] s' := by
    refine Runs.bind_iff.2 ⟨_, _, runFrom_peek s.skipped, ?_⟩
    rw [skipped_skipped, if_pos hkind]
    exact Runs.bind_iff.2 ⟨_, _, (runFrom_advance_skipped s).trans htoken, Runs.pure_iff.2 ⟨rfl, rfl⟩⟩
  have hremaining : Runs remaining s.skipped (s.skipped.tokens.length + 1) s.skipped := rfl
  rw [classItems, runFrom_bind (runFrom_peek s), hkind, if_neg (by simp [doubleBar]), if_pos (.inr rfl), runFrom_bind hremaining,
    runFrom_bind (hlist _), List.append_nil, id]

theorem Item.classSide {word : Token} {add : ClassItems → ClassItems} (hword : Runs advance s word s₁)
    (hclass : word.kind = .identifier "class") (h : ∀ items, Runs (classSideItem items) s.skipped (add items) s') : Item s add s' := by
  intro n items
  rw [classItems, runFrom_bind (runFrom_peek s), headKind_of_advance hword, hclass, if_neg (by simp), if_neg (by simp [doubleBar]),
    if_pos rfl, runFrom_bind (h items)]

theorem runs_classSideItem_method {word : Token} (hword : Runs advance s word s₁) (hkind : s₁.skipped.headKind = .operator operator)
    (hbars : operator ≠ "||") (h : Runs (method true word.span) s₁.skipped m s') :
    Runs (classSideItem items) s { items with classMethods := items.classMethods ++ [m] } s' := by
  refine Runs.bind_iff.2 ⟨word, s₁, hword, Runs.bind_iff.2 ⟨_, _, runFrom_peek s₁, ?_⟩⟩
  rw [hkind]
  dsimp only
  rw [if_neg (by simp [doubleBar, hbars])]
  exact Runs.bind_iff.2 ⟨m, s', h, Runs.pure_iff.2 ⟨rfl, rfl⟩⟩

theorem runs_classSideItem_bars {word : Token} (hword : Runs advance s word s₁) (htoken : Runs advance s₁ token s')
    (hkind : s₁.skipped.headKind = doubleBar) : Runs (classSideItem items) s items s' := by
  refine Runs.bind_iff.2 ⟨word, s₁, hword, Runs.bind_iff.2 ⟨_, _, runFrom_peek s₁, ?_⟩⟩
  rw [hkind]
  refine Runs.bind_iff.2 ⟨token, s', ?_, Runs.pure_iff.2 ⟨rfl, rfl⟩⟩
  exact (runFrom_advance_skipped s₁).trans htoken

end Parser

/-- Anywhere between the brackets of a class, an operator other than two bars, a parameter and a body add one method to the class and
nothing else: to its instance side, or to its class side if the word `class` comes first. Two bars add nothing in either place. -/
theorem operator_items {s s₁ : ParserState} {token : Token} {operator : String} (htoken : Runs advance s token s₁)
    (hkind : token.kind = .operator operator) :
    (operator ≠ "||" → ∀ (param : Token) (name : String) (s₂ s₃ : ParserState) (classSide : Bool) (selector : String)
      (params : List Declaration) (start : Span) (m : Method), Runs advance s₁ param s₂ → param.kind = .identifier name →
      Runs (methodBody classSide selector params start) s₂ m s₃ →
        Item s (fun items => { items with instanceMethods := items.instanceMethods ++
          [⟨false, operator, [⟨name, param.span⟩], m.temps, m.body, token.span.merge s₃.lastSpan⟩] }) s₃ ∧
        ∀ s₀ word, Runs advance s₀ word s → word.kind = .identifier "class" →
          Item s₀ (fun items => { items with classMethods := items.classMethods ++
            [⟨true, operator, [⟨name, param.span⟩], m.temps, m.body, word.span.merge s₃.lastSpan⟩] }) s₃) ∧
    (operator = "||" → Item s id s₁ ∧ ∀ s₀ word, Runs advance s₀ word s → word.kind = .identifier "class" → Item s₀ id s₁) := by
  have hhead : s.skipped.headKind = .operator operator := (headKind_of_advance htoken).trans hkind
  have hskipped : Runs advance s.skipped token s₁ := (runFrom_advance_skipped s).trans htoken
  constructor
  · intro hbars param name s₂ s₃ classSide selector params start m hparam hname hbody
    have hmethod (classSide : Bool) (start : Span) : Runs (method classSide start) s.skipped
        ⟨classSide, operator, [⟨name, param.span⟩], m.temps, m.body, start.merge s₃.lastSpan⟩ s₃ :=
      runs_method_operator hskipped hkind hparam hname (methodBody_heading hbody _ _ _ _)
    constructor
    · refine .instanceMethod hhead hbars ?_
      rw [← (advance_iff.1 htoken).1]
      exact hmethod false token.span
    · intro s₀ word hword hclass
      refine .classSide hword hclass fun items => ?_
      exact runs_classSideItem_method ((runFrom_advance_skipped s₀).trans hword) hhead hbars (hmethod true word.span)
  · rintro rfl
    refine ⟨.bars htoken hhead, fun s₀ word hword hclass => .classSide hword hclass fun items => ?_⟩
    exact runs_classSideItem_bars ((runFrom_advance_skipped s₀).trans hword) htoken hhead

/-- The method `+ x [ ^ x ]`, by itself and behind `class`, and two bars. -/
theorem operator_items_plus :
    let state (kinds : List TokenKind) (nodes : Arena) : ParserState := ⟨kinds.map (⟨·, .point .origin, ""⟩), nodes, .point .origin, false⟩
    let body : List TokenKind := [.mark .leftBracket, .mark .caret, .identifier "x", .mark .rightBracket]
    let after := state [] ⟨#[⟨.ident "x", .point .origin⟩, ⟨.ret ⟨0⟩, .point .origin⟩]⟩
    let m (classSide : Bool) : Method := ⟨classSide, "+", [⟨"x", .point .origin⟩], [], [⟨1⟩], .point .origin⟩
    Item (state (.operator "+" :: .identifier "x" :: body) .empty)
      (fun items => { items with instanceMethods := items.instanceMethods ++ [m false] }) after ∧
    Item (state (.identifier "class" :: .operator "+" :: .identifier "x" :: body) .empty)
      (fun items => { items with classMethods := items.classMethods ++ [m true] }) after ∧
    Item (state (.operator "||" :: .identifier "x" :: body) .empty) id (state (.identifier "x" :: body) .empty) := by
  have hbody : Runs (methodBody false "m" [] (.point .origin))
      ⟨[.mark .leftBracket, .mark .caret, .identifier "x", .mark .rightBracket].map (⟨·, .point .origin, ""⟩), .empty, .point .origin, false⟩
      ⟨false, "m", [], [], [⟨1⟩], .point .origin⟩
      ⟨[], ⟨#[⟨.ident "x", .point .origin⟩, ⟨.ret ⟨0⟩, .point .origin⟩]⟩, .point .origin, false⟩ := rfl
  intro state body after m
  have hplus : Runs advance (state (.operator "+" :: .identifier "x" :: body) .empty) ⟨.operator "+", .point .origin, ""⟩
      (state (.identifier "x" :: body) .empty) := runFrom_advance _
  have hword : Runs advance (state (.identifier "class" :: .operator "+" :: .identifier "x" :: body) .empty)
      ⟨.identifier "class", .point .origin, ""⟩ (state (.operator "+" :: .identifier "x" :: body) .empty) := runFrom_advance _
  have hbars : Runs advance (state (.operator "||" :: .identifier "x" :: body) .empty) ⟨.operator "||", .point .origin, ""⟩
      (state (.identifier "x" :: body) .empty) := runFrom_advance _
  obtain ⟨hinstance, hclass⟩ := (operator_items hplus rfl).1 (by decide) _ _ _ _ _ _ _ _ _ (runFrom_advance _) rfl hbody
  exact ⟨hinstance, hclass _ _ hword rfl, ((operator_items hbars rfl).2 rfl).1⟩

/-- Nothing can be defined under the name of two bars: what looks like such a method is one without parameters, behind an empty list
of variables. -/
theorem double_bar_no_method : (∃ t ∈ tokenize "A : nil [ || x [ ^ x ] ]".toUTF8.toList, t.kind = .operator "||") ∧
    ∃ p, Program.ofBytes "A : nil [ || x [ ^ x ] ]".toUTF8.toList = .ok p ∧
      p.classes.map (·.instanceMethods.map fun m => (m.selector, m.params.map (·.name))) = [[("x", [])]] := by
  refine ⟨by decide +kernel, ?_⟩
  obtain ⟨p, hp, hmethods⟩ := Program.exists_ofBytes "A : nil [ || x [ ^ x ] ]".toUTF8
    (fun p => p.classes.map (·.instanceMethods.map fun m => (m.selector, m.params.map (·.name))) = [[("x", [])]]) (by decide +kernel)
  exact ⟨p, hp, by simpa using hmethods⟩

end BlockScope
