import BlockScope.Proofs.Program.Primaries
/-!
# Reading what was written

Every phrase is read back from its tokens: the induction over phrases needs of each constructor only what the production
for it reads (`Phrase.readable`). Methods, classes and programs follow, and with them the main result: a program written
as tokens is accepted, and the nodes made for it show the phrases that it was written from.
-/
namespace BlockScope
open BlockScope.Parser

namespace Arena.Shows
variable {a b : Arena} {c : Category} {phrase : Phrase c} {piece : Piece}

theorem mono (hab : a.Before b) (h : a.Shows phrase piece) : b.Shows phrase piece := by
  induction h with
  | literal h => exact .literal (hab.expr h)
  | ident h => exact .ident (hab.expr h)
  | paren h _ ih => exact .paren (hab.expr h) ih
  | array h _ ih => exact .array (hab.expr h) ih
  | block h hparams htemps _ ih => exact .block (hab.expr h) hparams htemps ih
  | unary h => exact .unary (hab.expr h)
  | binary h _ ih => exact .binary (hab.expr h) ih
  | keyword h _ ih => exact .keyword (hab.expr h) ih
  | lastPart _ ih => exact .lastPart ih
  | morePart _ _ ih ihs => exact .morePart ih ihs
  | send _ _ ihr ihm => exact .send ihr ihm
  | tighter _ ih => exact .tighter ih
  | plain _ ih => exact .plain ih
  | cascade h _ _ _ ihr ihf iho => exact .cascade (hab.expr h) ihr ihf iho
  | assign h ht _ ih => exact .assign (hab.expr h) (hab.expr ht) ih
  | lastMessage _ ih => exact .lastMessage ih
  | moreMessage _ _ ih ihs => exact .moreMessage ih ihs
  | noElement => exact .noElement
  | element _ _ ih ihs => exact .element ih ihs
  | perform _ ih => exact .perform ih
  | ret h _ ih => exact .ret (hab.expr h) ih
  | noStatement => exact .noStatement
  | step _ _ ih ihs => exact .step ih ihs

/-- What shows a message is a send to the base. -/
theorem message_send {n : Nat} {message : Phrase (.message n)} {base id : NodeId}
    (h : a.Shows message (.one (.message base) id)) : ∃ selector args, a.expr? id = some (.send base selector args) := by
  cases h with
  | unary h => exact ⟨_, _, h⟩
  | binary h => exact ⟨_, _, h⟩
  | keyword h => exact ⟨_, _, h⟩

end Arena.Shows

theorem atom_literal (value : Literal) : atom? value.kind = some (.literal value) := by
  cases value <;> rfl

theorem atom_name (name : String) : atom? (nameKind name) = some (.ident name) := by
  unfold nameKind
  split
  · next h => rw [h]; rfl
  · split
    · next h => rw [h]; rfl
    · rfl

theorem opens_of_atom {kind : TokenKind} {e : Expr} (h : atom? kind = some e) : kind.opens := by
  cases kind <;> first | rfl | cases h

namespace Phrase

/-- The categories whose phrases start as expressions do. -/
def Leading : Category → Prop
  | .operand _ | .expression => True
  | _ => False

theorem opens {c : Category} (phrase : Phrase c) (hc : Leading c) : Opens phrase.kinds := by
  induction phrase with
  | literal value => exact fun _ => opens_of_atom (atom_literal value)
  | ident name => exact fun _ => opens_of_atom (atom_name name)
  | paren | array | block => exact fun _ => rfl
  | send receiver message ihr _ | cascade receiver message _ ihr _ _ =>
    intro rest
    simp only [kinds, List.append_assoc]
    exact ihr trivial _
  | tighter _ _ ih | plain _ ih => exact ih trivial
  | assign target value _ => exact fun _ => opens_of_atom (atom_name target)
  | _ => cases hc

/-- Phrases that are done have no tokens. -/
theorem isDone_elements {phrase : Phrase .elements} (h : phrase.isDone) : phrase = .noElement := by
  cases phrase with
  | noElement => rfl
  | element => cases h

theorem isDone_statements {phrase : Phrase .statements} (h : phrase.isDone) : phrase = .noStatement := by
  cases phrase with
  | noStatement => rfl
  | step => cases h

/-- The tokens of the phrase are read as the category asks for, and nodes are made that show it. -/
def Readable : {c : Category} → Phrase c → Prop
  | .operand n, phrase => ReadsOperand n phrase.kinds fun b x => b.Shows phrase (.one .operand x)
  | .message n, phrase => ReadsMessage n phrase.kinds fun b x y => b.Shows phrase (.one (.message x) y)
  | .parts, phrase => ReadsParts phrase.kinds phrase.selectorParts fun b xs => b.Shows phrase (.row .operand xs)
  | .messages, phrase => ReadsMessages phrase.kinds fun b x ys => b.Shows phrase (.row (.message x) ys)
  | .expression, phrase => ReadsExpression phrase.kinds fun b x => b.Shows phrase (.one .operand x)
  | .elements, phrase => ReadsElements phrase.kinds fun b xs => b.Shows phrase (.row .operand xs)
  | .statement, phrase => ReadsStatement phrase.kinds fun b x => b.Shows phrase (.one .statement x)
  | .statements, phrase => ReadsStatements phrase.kinds fun b xs => b.Shows phrase (.row .statement xs)

theorem readable {c : Category} (phrase : Phrase c) : phrase.Readable := by
  induction phrase with
  | literal value => exact readsOperand_atom (atom_literal value) fun _ _ => .literal
  | ident name => exact readsOperand_atom (atom_name name) fun _ _ => .ident
  | paren inner ih => exact ReadsExpression.paren ih Arena.Shows.mono fun _ _ _ => .paren
  | array parts ih => exact ReadsElements.array ih Arena.Shows.mono fun _ _ _ => .array
  | block params temps body ih => exact ReadsStatements.block ih Arena.Shows.mono fun _ _ _ _ _ => .block
  | unary selector => exact readsMessage_unary fun _ _ _ => .unary
  | binary operator hn arg ih => exact ReadsOperand.binary ih hn Arena.Shows.mono fun _ _ _ _ => .binary
  | keyword parts ih => exact ReadsParts.keyword ih Arena.Shows.mono fun _ _ _ _ => .keyword
  | lastPart part arg ih => exact ReadsOperand.lastPart ih Arena.Shows.mono fun _ _ => .lastPart
  | morePart part arg rest ih ihs => exact ReadsOperand.morePart ih ihs Arena.Shows.mono fun _ _ _ => .morePart
  | send receiver message ihr ihm => exact ReadsOperand.send ihr ihm Arena.Shows.mono fun _ _ _ => .send
  | tighter operand hlt ih => exact ReadsOperand.tighter ih hlt fun _ _ => .tighter
  | plain operand ih => exact ReadsOperand.plain ih fun _ _ => .plain
  | cascade receiver first others ihr ihf iho =>
    exact ReadsOperand.cascade ihr ihf iho Arena.Shows.mono (fun _ => Arena.Shows.mono) (fun _ => Arena.Shows.mono)
      (fun _ _ _ => Arena.Shows.message_send) fun _ _ _ _ _ => .cascade
  | assign target value ih =>
    exact ReadsOperand.assign (readsOperand_atom (atom_name target) fun _ _ h => h) ih Arena.Shows.mono fun _ _ _ _ => .assign
  | lastMessage message ih => exact ReadsMessage.last ih (fun _ => Arena.Shows.mono) fun _ _ _ => .lastMessage
  | moreMessage message others ih ihs => exact ReadsMessage.more ih ihs (fun _ => Arena.Shows.mono) fun _ _ _ _ => .moreMessage
  | noElement => exact readsElements_nil fun _ => .noElement
  | element first others ih ihs =>
    have hopens := first.opens trivial
    by_cases hdone : others.isDone
    · obtain rfl := isDone_elements hdone
      have hkinds : (element first noElement).kinds = first.kinds := by simp [kinds, isDone]
      rw [Readable, hkinds]
      exact ReadsExpression.lastElement ih hopens fun _ _ hx => .element hx .noElement
    · have hkinds : (element first others).kinds = first.kinds ++ .mark .dot :: others.kinds := by simp [kinds, hdone]
      rw [Readable, hkinds]
      exact ReadsExpression.moreElement ih ihs hopens Arena.Shows.mono fun _ _ _ => .element
  | perform value ih => exact ReadsExpression.perform ih (value.opens trivial) fun _ _ => .perform
  | ret value ih => exact ReadsExpression.ret ih Arena.Shows.mono fun _ _ _ => .ret
  | noStatement => exact readsStatements_nil fun _ => .noStatement
  | step first others ih ihs =>
    by_cases hdone : others.isDone
    · obtain rfl := isDone_statements hdone
      have hkinds : (step first noStatement).kinds = first.kinds := by simp [kinds, isDone]
      rw [Readable, hkinds]
      exact ReadsStatement.last ih Arena.Shows.mono fun _ _ hx => .step hx .noStatement
    · have hkinds : (step first others).kinds = first.kinds ++ .mark .dot :: others.kinds := by simp [kinds, hdone]
      rw [Readable, hkinds]
      exact ReadsStatement.more ih ihs Arena.Shows.mono fun _ _ _ => .step

end Phrase

/-! ## Methods -/

theorem MethodPhrase.ShownBy.mono {phrase : MethodPhrase} {a b : Arena} {side : Bool} {m : Method} (hab : a.Before b)
    (h : phrase.ShownBy a side m) : phrase.ShownBy b side m :=
  { h with body := h.body.mono hab }

namespace Parser
variable {a : Arena} {k : Nat} {rest rest' : List TokenKind} {names : List String} {phrase : MethodPhrase} {side : Bool}
  {items : ClassItems} {goal : Arena → ClassItems → Prop}

/-- The body of a method whose pattern has been read. -/
theorem reads_methodBody (phrase : MethodPhrase) {selector : String} {params : List Declaration} {start : Span}
    (hheader : (selector, params.map (·.name)) = phrase.pattern.header) :
    Reads a (methodBody side selector params start)
      (.mark .leftBracket :: variableKinds phrase.temps ++ phrase.body.kinds ++ [.mark .rightBracket] ++ rest) rest
      fun b m => phrase.ShownBy b side m := by
  have hbody : ReadsStatements phrase.body.kinds fun b xs => b.Shows phrase.body (.row .statement xs) := phrase.body.readable
  have hstart : (nextKind (phrase.body.kinds ++ .mark .rightBracket :: rest)).continuesBody := hbody.starts _ rfl
  have htemps := length_le_variableKinds phrase.temps
  simp only [List.cons_append, List.append_assoc, List.nil_append]
  apply Reads.expect_bind
  intro opening
  apply Reads.remaining_bind
  intro bound hbound
  rw [List.length_append] at hbound
  refine (reads_optionalVariables (by omega) (noVariables_of_body hstart)).bind fun b ts _ hts => ?_
  refine (hbody.reads bound (.mark .rightBracket :: rest) b bound (by omega) (by omega) rfl).bind fun c xs _ hxs => ?_
  apply Reads.expect_bind
  intro closing
  exact .pure ⟨rfl, hheader, hts, hxs⟩

theorem reads_patternParts {more : List (String × String)} (hk : more.length < k) (hrest : nextKind rest = .mark .leftBracket) :
    Reads a (patternParts k) (partKinds more ++ rest) rest fun _ parts =>
      parts.map (·.1) = more.map (·.1) ∧ parts.map (·.2.name) = more.map (·.2) := by
  induction more generalizing k a with
  | nil =>
    obtain ⟨k, rfl⟩ : ∃ j, k = j + 1 := ⟨k - 1, by omega⟩
    apply Reads.peek_bind
    rw [partKinds, List.nil_append, hrest]
    exact .pure ⟨rfl, rfl⟩
  | cons entry more ih =>
    obtain ⟨k, rfl⟩ : ∃ j, k = j + 1 := ⟨k - 1, by omega⟩
    apply Reads.peek_bind
    apply Reads.advance_bind
    intro t _
    apply Reads.identifier_bind
    intro d hd
    refine (ih (Nat.lt_of_succ_lt_succ hk)).bind fun b parts _ ⟨hparts, hparams⟩ => ?_
    exact .pure ⟨by simp [hparts], by simp [hd, hparams]⟩

theorem length_le_partKinds (entries : List (String × String)) : entries.length ≤ (partKinds entries).length := by
  induction entries with
  | nil => exact Nat.le_refl _
  | cons entry entries ih =>
    simp only [partKinds, List.length_cons]
    omega

theorem reads_pattern {pattern : PatternPhrase} (hrest : nextKind rest = .mark .leftBracket) :
    Reads a Parser.pattern (pattern.kinds ++ rest) rest fun _ r => (r.1, r.2.map (·.name)) = pattern.header := by
  cases pattern with
  | unary selector =>
    apply Reads.advance_bind
    intro t ht
    rw [ht]
    exact .pure rfl
  | binary operator param _ =>
    apply Reads.advance_bind
    intro t ht
    rw [ht]
    apply Reads.identifier_bind
    intro d hd
    exact .pure (by rw [PatternPhrase.header, ← hd]; rfl)
  | keyword part param more =>
    apply Reads.advance_bind
    intro t ht
    rw [ht]
    apply Reads.identifier_bind
    intro d hd
    apply Reads.remaining_bind
    intro n hn
    have hlength : (partKinds more ++ rest).length < n := hn
    have hmore := length_le_partKinds more
    rw [List.length_append] at hlength
    refine (reads_patternParts (by omega) hrest).bind fun b parts _ ⟨hparts, hparams⟩ => ?_
    exact .pure (by simp [PatternPhrase.header, hd, hparts, hparams, Function.comp_def])

theorem reads_method {start : Span} :
    Reads a (method side start) (phrase.kinds ++ rest) rest fun b m => phrase.ShownBy b side m := by
  have hkinds : phrase.kinds ++ rest = phrase.pattern.kinds ++
      (.mark .leftBracket :: variableKinds phrase.temps ++ phrase.body.kinds ++ [.mark .rightBracket] ++ rest) := by
    simp [MethodPhrase.kinds]
  rw [hkinds]
  refine (reads_pattern rfl).bind fun b r _ hheader => ?_
  exact reads_methodBody phrase hheader

/-! ## Classes -/

/-- Variables between the methods of a class, if there are any. -/
theorem reads_instanceVars (hk : (variableKinds names ++ rest).length < k)
    (next : ∀ k b ds, a.Before b → ds.map (·.name) = names → rest.length < k →
      Reads b (classItems k { items with instanceVars := items.instanceVars ++ ds }) rest rest' goal) :
    Reads a (classItems k items) (variableKinds names ++ rest) rest' goal := by
  by_cases hne : names = []
  · subst hne
    have hnext := next k a [] (.refl _) rfl hk
    rw [List.append_nil] at hnext
    exact hnext
  · obtain ⟨k, rfl⟩ : ∃ j, k = j + 1 := ⟨k - 1, by omega⟩
    have hlength := length_le_variableKinds names
    apply Reads.peek_bind
    rw [variableKinds_append hne, nextKind_cons, if_neg (by decide), if_pos (.inl rfl), ← variableKinds_append hne]
    apply Reads.remaining_bind
    intro bound hbound
    rw [List.length_append] at hk hbound
    refine (reads_variableList hne (by omega)).bind fun b ds hab hds => next k b ds hab hds ?_
    have := List.length_pos_iff.2 hne
    omega

/-- The word `class` before an item. -/
theorem reads_classSide {ahead : List TokenKind} {post : Arena → ClassItems → Prop}
    (h : Reads a (classSideItem items) (classWord :: ahead) rest post)
    (next : ∀ b items', a.Before b → post b items' → Reads b (classItems k items') rest rest' goal) :
    Reads a (classItems (k + 1) items) (classWord :: ahead) rest' goal := by
  apply Reads.peek_bind
  rw [nextKind_cons, if_neg (by decide), if_neg (by decide), if_pos (show classWord = .identifier "class" from rfl)]
  exact h.bind next

theorem reads_classVars (hk : ((if names = [] then [] else classWord :: variableKinds names) ++ rest).length < k)
    (next : ∀ k b ds, a.Before b → ds.map (·.name) = names → rest.length < k →
      Reads b (classItems k { items with classVars := items.classVars ++ ds }) rest rest' goal) :
    Reads a (classItems k items) ((if names = [] then [] else classWord :: variableKinds names) ++ rest) rest' goal := by
  by_cases hne : names = []
  · subst hne
    have hnext := next k a [] (.refl _) rfl hk
    rw [List.append_nil] at hnext
    exact hnext
  · obtain ⟨k, rfl⟩ : ∃ j, k = j + 1 := ⟨k - 1, by omega⟩
    have hlength := length_le_variableKinds names
    rw [if_neg hne, List.cons_append] at hk ⊢
    rw [List.length_cons, List.length_append] at hk
    have hitem : Reads a (classSideItem items) (classWord :: (variableKinds names ++ rest)) rest fun _ items' =>
        ∃ ds, ds.map (·.name) = names ∧ items' = { items with classVars := items.classVars ++ ds } := by
      apply Reads.advance_bind
      intro word _
      apply Reads.peek_bind
      rw [variableKinds_append hne, nextKind_cons, ← variableKinds_append hne]
      apply Reads.remaining_bind
      intro bound hbound
      rw [List.length_append] at hbound
      exact (reads_variableList hne (by omega)).bind fun b ds _ hds => .pure ⟨ds, hds, rfl⟩
    refine reads_classSide hitem ?_
    rintro b items' hab ⟨ds, hds, rfl⟩
    exact next k b ds hab hds (by omega)

/-- An instance method; one that is called `class` looks like the start of the class side. -/
theorem reads_instanceMethod
    (next : ∀ b m, a.Before b → phrase.ShownBy b false m →
      Reads b (classItems k { items with instanceMethods := items.instanceMethods ++ [m] }) rest rest' goal) :
    Reads a (classItems (k + 1) items) (phrase.kinds ++ rest) rest' goal := by
  -- Unless it is that one, the pattern starts with a token that no other item starts with.
  have hplain : ∀ kind ahead, phrase.kinds ++ rest = kind :: ahead → kind ≠ .mark .rightBracket →
      ¬ (kind = .mark .bar ∨ kind = doubleBar) → kind ≠ .identifier "class" →
      Reads a (classItems (k + 1) items) (phrase.kinds ++ rest) rest' goal := by
    intro kind ahead hkinds hclose hvars hclass
    apply Reads.peek_bind
    rw [hkinds, nextKind_cons, if_neg hclose, if_neg hvars, if_neg hclass, ← hkinds]
    apply Reads.peekSpan_bind
    intro start
    exact reads_method.bind next
  obtain ⟨pattern, temps, body⟩ := phrase
  cases pattern with
  | unary selector =>
    by_cases hclass : selector = "class"
    · subst hclass
      have hitem : Reads a (classSideItem items) (classWord :: (.mark .leftBracket :: variableKinds temps ++ body.kinds ++
          [.mark .rightBracket] ++ rest)) rest fun b items' => ∃ m, (MethodPhrase.mk (.unary "class") temps body).ShownBy b false m ∧
            items' = { items with instanceMethods := items.instanceMethods ++ [m] } := by
        apply Reads.advance_bind
        intro word _
        apply Reads.peek_bind
        have hbody : Reads a (methodBody false "class" [] word.span) (.mark .leftBracket :: variableKinds temps ++ body.kinds ++
            [.mark .rightBracket] ++ rest) rest fun b m => (MethodPhrase.mk (.unary "class") temps body).ShownBy b false m :=
          reads_methodBody ⟨.unary "class", temps, body⟩ rfl
        exact hbody.bind fun b m _ hm => .pure ⟨m, hm, rfl⟩
      refine reads_classSide hitem ?_
      rintro b items' hab ⟨m, hm, rfl⟩
      exact next b m hab hm
    · exact hplain _ _ rfl (by simp) (by simp [doubleBar]) (by simpa using hclass)
  | binary operator param hne => exact hplain _ _ rfl (by simp) (by simpa [doubleBar] using hne) (by simp)
  | keyword part param more => exact hplain _ _ rfl (by simp) (by simp [doubleBar]) (by simp)

theorem reads_classMethod
    (next : ∀ b m, a.Before b → phrase.ShownBy b true m →
      Reads b (classItems k { items with classMethods := items.classMethods ++ [m] }) rest rest' goal) :
    Reads a (classItems (k + 1) items) (classWord :: (phrase.kinds ++ rest)) rest' goal := by
  have hitem : Reads a (classSideItem items) (classWord :: (phrase.kinds ++ rest)) rest fun b items' =>
      ∃ m, phrase.ShownBy b true m ∧ items' = { items with classMethods := items.classMethods ++ [m] } := by
    apply Reads.advance_bind
    intro word _
    apply Reads.peek_bind
    have hmethod : Reads a (do
        let m ← method true word.span
        return { items with classMethods := items.classMethods ++ [m] }) (phrase.kinds ++ rest) rest fun b items' =>
          ∃ m, phrase.ShownBy b true m ∧ items' = { items with classMethods := items.classMethods ++ [m] } :=
      reads_method.bind fun b m _ hm => .pure ⟨m, hm, rfl⟩
    obtain ⟨pattern, temps, body⟩ := phrase
    cases pattern with
    | unary selector => exact hmethod
    | binary operator param hne =>
      have hbars : ¬ TokenKind.operator operator = doubleBar := by simpa [doubleBar] using hne
      simp only [MethodPhrase.kinds, PatternPhrase.kinds, List.cons_append, nextKind_cons, if_neg hbars]
      exact hmethod
    | keyword part param more => exact hmethod
  refine reads_classSide hitem ?_
  rintro b items' hab ⟨m, hm, rfl⟩
  exact next b m hab hm

theorem length_pos_kinds (phrase : MethodPhrase) : 0 < phrase.kinds.length := by
  simp only [MethodPhrase.kinds, List.length_append, List.length_cons]
  omega

/-- Methods of one side, each read as `step` says and added as `add` says. -/
theorem reads_methods {text : MethodPhrase → List TokenKind} {phrases : List MethodPhrase}
    (add : ClassItems → List Method → ClassItems) (hnil : ∀ items, add items [] = items)
    (hcons : ∀ items m ms, add (add items [m]) ms = add items (m :: ms)) (hpos : ∀ phrase, 0 < (text phrase).length)
    (step : ∀ {a k items phrase rest}, (∀ b m, a.Before b → phrase.ShownBy b side m →
      Reads b (classItems k (add items [m])) rest rest' goal) → Reads a (classItems (k + 1) items) (text phrase ++ rest) rest' goal)
    (hk : (phrases.flatMap text ++ rest).length < k)
    (next : ∀ k b ms, a.Before b → List.Forall₂ (·.ShownBy b side) phrases ms → rest.length < k →
      Reads b (classItems k (add items ms)) rest rest' goal) :
    Reads a (classItems k items) (phrases.flatMap text ++ rest) rest' goal := by
  induction phrases generalizing a k items with
  | nil => exact hnil items ▸ next k a [] (.refl _) .nil hk
  | cons phrase phrases ih =>
    obtain ⟨k, rfl⟩ : ∃ j, k = j + 1 := ⟨k - 1, by omega⟩
    have := hpos phrase
    rw [List.flatMap_cons, List.append_assoc] at hk ⊢
    rw [List.length_append] at hk
    refine step fun b m hab hm => ih (by omega) fun k c ms hbc hms hk => ?_
    rw [hcons]
    exact next k c (m :: ms) (hab.trans hbc) (.cons (hm.mono hbc) hms) hk

theorem reads_instanceMethods {phrases : List MethodPhrase} (hk : (phrases.flatMap (·.kinds) ++ rest).length < k)
    (next : ∀ k b ms, a.Before b → List.Forall₂ (·.ShownBy b false) phrases ms → rest.length < k →
      Reads b (classItems k { items with instanceMethods := items.instanceMethods ++ ms }) rest rest' goal) :
    Reads a (classItems k items) (phrases.flatMap (·.kinds) ++ rest) rest' goal :=
  reads_methods (fun items ms => { items with instanceMethods := items.instanceMethods ++ ms }) (by simp) (by simp)
    length_pos_kinds reads_instanceMethod hk next

theorem reads_classMethods {phrases : List MethodPhrase} (hk : (phrases.flatMap (classWord :: ·.kinds) ++ rest).length < k)
    (next : ∀ k b ms, a.Before b → List.Forall₂ (·.ShownBy b true) phrases ms → rest.length < k →
      Reads b (classItems k { items with classMethods := items.classMethods ++ ms }) rest rest' goal) :
    Reads a (classItems k items) (phrases.flatMap (classWord :: ·.kinds) ++ rest) rest' goal :=
  reads_methods (fun items ms => { items with classMethods := items.classMethods ++ ms }) (by simp) (by simp)
    (fun _ => Nat.succ_pos _) reads_classMethod hk next

end Parser

theorem MethodPhrase.ShownBy.mono_all {phrases : List MethodPhrase} {a b : Arena} {side : Bool} {ms : List Method}
    (hab : a.Before b) (h : List.Forall₂ (·.ShownBy a side) phrases ms) : List.Forall₂ (·.ShownBy b side) phrases ms :=
  h.imp fun _ _ hm => hm.mono hab

theorem ClassPhrase.ShownBy.mono {phrase : ClassPhrase} {a b : Arena} {c : ClassDefinition} (hab : a.Before b)
    (h : phrase.ShownBy a c) : phrase.ShownBy b c :=
  { h with
    instanceMethods := MethodPhrase.ShownBy.mono_all hab h.instanceMethods
    classMethods := MethodPhrase.ShownBy.mono_all hab h.classMethods }

namespace Parser
variable {a : Arena} {k : Nat} {rest : List TokenKind}

theorem reads_className {name : String} :
    Reads a className (.identifier name :: .mark .colon :: rest) rest fun _ d => d.name = name := by
  apply Reads.advance_bind
  intro head hhead
  rw [hhead]
  apply Reads.expect_bind
  intro colon
  exact .pure rfl

theorem reads_superclass {superName : Option String} :
    Reads a superclass (superName.elim (.reserved .nil) .identifier :: rest) rest fun _ r => r.1 = superName := by
  apply Reads.advance_bind
  intro t ht
  cases superName <;> (rw [ht]; exact .pure rfl)

theorem reads_classItems_end {items : ClassItems} {goal : Arena → ClassItems → Prop} (hk : 0 < k) (h : goal a items) :
    Reads a (classItems k items) (.mark .rightBracket :: rest) (.mark .rightBracket :: rest) goal := by
  obtain ⟨k, rfl⟩ : ∃ j, k = j + 1 := ⟨k - 1, by omega⟩
  apply Reads.peek_bind
  rw [nextKind_cons, if_pos rfl]
  exact .pure h

/-- What the items of a class have to be. -/
structure ItemsShow (phrase : ClassPhrase) (a : Arena) (items : ClassItems) : Prop where
  instanceVars : items.instanceVars.map (·.name) = phrase.instanceVars
  classVars : items.classVars.map (·.name) = phrase.classVars
  instanceMethods : List.Forall₂ (·.ShownBy a false) phrase.instanceMethods items.instanceMethods
  classMethods : List.Forall₂ (·.ShownBy a true) phrase.classMethods items.classMethods

theorem reads_classItems {phrase : ClassPhrase} (hk : (phrase.itemKinds ++ .mark .rightBracket :: rest).length < k) :
    Reads a (classItems k {}) (phrase.itemKinds ++ .mark .rightBracket :: rest) (.mark .rightBracket :: rest)
      (ItemsShow phrase) := by
  unfold ClassPhrase.itemKinds at hk ⊢
  simp only [List.append_assoc] at hk ⊢
  refine reads_instanceVars hk fun k b ivs _ hivs hk => ?_
  refine reads_classVars hk fun k c cvs _ hcvs hk => ?_
  refine reads_instanceMethods hk fun k d ims _ hims hk => ?_
  refine reads_classMethods hk fun k e cms hde hcms hk => ?_
  refine reads_classItems_end (by omega) ⟨?_, ?_, ?_, ?_⟩
  · simpa using hivs
  · simpa using hcvs
  · simpa using MethodPhrase.ShownBy.mono_all hde hims
  · simpa using hcms

theorem reads_classDefinition {phrase : ClassPhrase} :
    Reads a classDefinition (phrase.kinds ++ rest) rest fun b c => phrase.ShownBy b c := by
  have hkinds : phrase.kinds ++ rest = .identifier phrase.name :: .mark .colon ::
      phrase.superName.elim (.reserved .nil) .identifier :: .mark .leftBracket ::
      (phrase.itemKinds ++ .mark .rightBracket :: rest) := by
    simp [ClassPhrase.kinds]
  rw [hkinds]
  refine reads_className.bind fun b head _ hhead => ?_
  refine reads_superclass.bind fun c super _ hsuper => ?_
  apply Reads.expect_bind
  intro opening
  apply Reads.remaining_bind
  intro n hn
  refine (reads_classItems hn).bind fun d items _ hitems => ?_
  apply Reads.expect_bind
  intro closing
  exact .pure ⟨hhead, hsuper, hitems.instanceVars, hitems.classVars, hitems.instanceMethods, hitems.classMethods⟩

theorem reads_classes {phrases : List ClassPhrase} (hk : phrases.length < k) :
    Reads a (classes k) (phrases.flatMap (·.kinds) ++ [.endOfInput]) [.endOfInput] fun b cs =>
      List.Forall₂ (·.ShownBy b) phrases cs := by
  induction phrases generalizing a k with
  | nil =>
    obtain ⟨k, rfl⟩ : ∃ j, k = j + 1 := ⟨k - 1, by omega⟩
    apply Reads.peek_bind
    exact .pure .nil
  | cons phrase phrases ih =>
    obtain ⟨k, rfl⟩ : ∃ j, k = j + 1 := ⟨k - 1, by omega⟩
    rw [List.flatMap_cons, List.append_assoc]
    apply Reads.peek_bind
    refine reads_classDefinition.bind fun b c _ hc => ?_
    refine (ih (Nat.lt_of_succ_lt_succ hk)).bind fun d cs hbd hcs => ?_
    exact .pure (.cons (hc.mono hbd) hcs)

end Parser

/-- A run over all tokens gives a program. -/
theorem Program.ofTokens_of_runs {tokens : List Token} {cs : List ClassDefinition} {s' : ParserState}
    (h : Runs (do Parser.classes (← Parser.remaining)) (.start tokens) cs s') :
    Program.ofTokens tokens = .ok ⟨s'.arena, cs⟩ := by
  unfold Program.ofTokens
  rw [show Parser.runFrom (do Parser.classes (← Parser.remaining)) (.start tokens) = (.ok cs, s') from h]
  rfl

theorem length_le_classKinds (phrases : List ClassPhrase) : phrases.length ≤ (phrases.flatMap (·.kinds)).length := by
  induction phrases with
  | nil => exact Nat.le_refl _
  | cons phrase phrases ih =>
    have hpos : 0 < phrase.kinds.length := by simp [ClassPhrase.kinds]
    rw [List.flatMap_cons, List.length_append, List.length_cons]
    omega

/-- Tokens written from phrases, with comments among them or not, spell a program, and its classes are what the phrases
describe. There are no nodes in it but those of its methods. -/
theorem ofTokens_written (phrases : List ClassPhrase) (tokens : List Token)
    (h : (tokens.map (·.kind)).filter (!·.isComment) = phrases.flatMap (·.kinds) ++ [.endOfInput]) :
    ∃ p, Program.ofTokens tokens = .ok p ∧ p.Shows phrases ∧ p.Forest := by
  have hreads : Reads .empty (do Parser.classes (← Parser.remaining)) (phrases.flatMap (·.kinds) ++ [.endOfInput]) [.endOfInput]
      fun b cs => List.Forall₂ (·.ShownBy b) phrases cs := by
    apply Reads.remaining_bind
    intro n hn
    have hlength := length_le_classKinds phrases
    rw [List.length_append] at hn
    exact reads_classes (by omega)
  obtain ⟨cs, s', hruns, -, -, hcs⟩ := hreads (.start tokens) rfl h
  have hok := Program.ofTokens_of_runs hruns
  obtain ⟨-, -, -, hforest, -⟩ := Program.leads_ofTokens (P := fun _ => True) ⟨trivial, trivial⟩ hok
  exact ⟨⟨s'.arena, cs⟩, hok, hcs, hforest⟩

/-- A class with an instance method called `class`, a cascade whose messages are of all three kinds, and a class method. -/
theorem ofTokens_written_class : ∃ p,
    Program.ofTokens (tokenize ("A : nil [ | u | class [ ^self ] + x [ u := x foo; + 2 * x; at: (x) put: #(u. \"v\") /* all */ ] " ++
      "class new: x [ | t | [:k | | t | t := k]. ^t - x ] ]").toUTF8.toList) = .ok p ∧
    p.Shows [{
      name := "A", superName := none, instanceVars := ["u"], classVars := []
      instanceMethods := [
        ⟨.unary "class", [], .step (.ret (.plain (.tighter (.ident "self")))) .noStatement⟩,
        ⟨.binary "+" "x" (by decide), [], .step (.perform (.assign "u" (.cascade (.tighter (.ident "x")) (.unary "foo")
          (.moreMessage (.binary "+" rfl (.send (.tighter (.literal (.integer 2))) (.binary "*" rfl (.tighter (.ident "x")))))
          (.lastMessage (.keyword (.morePart "at:" (.tighter (.paren (.plain (.tighter (.ident "x")))))
            (.lastPart "put:" (.tighter (.array (.element (.plain (.tighter (.ident "u")))
              (.element (.plain (.tighter (.literal (.string "v")))) .noElement)))))))))))) .noStatement⟩]
      classMethods := [
        ⟨.keyword "new:" "x" [], ["t"], .step (.perform (.plain (.tighter (.block ["k"] ["t"]
          (.step (.perform (.assign "t" (.plain (.tighter (.ident "k"))))) .noStatement)))))
          (.step (.ret (.plain (.tighter (.send (.tighter (.ident "t")) (.binary "-" rfl (.tighter (.ident "x")))))))
          .noStatement)⟩] }] ∧ p.Forest :=
  ofTokens_written _ _ (by decide +kernel)

end BlockScope
