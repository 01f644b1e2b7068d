import BlockScope.Proofs.Program.Parsing
/-!
# What programs are read from

Variables, parameters of methods and temporaries are read as identifiers, so whatever holds of every identifier
holds of their names (`Program.Declares`). Parameters of blocks and names of classes are not among them: both can be
read from tokens of other kinds, the one with a colon in front and the other with a colon behind. The selector of a
method or a send is read from an identifier, an operator or keywords, and with it as many parameters or arguments as
these call for (`Selects`).
-/
namespace BlockScope
open BlockScope.Parser

/-- The name of every declaration has the property. -/
def AllNamed (P : String → Prop) (ds : List Declaration) : Prop := ∀ d ∈ ds, P d.name

/-- An identifier of this name has the property. -/
def AsIdentifier (K : TokenKind → Prop) (name : String) : Prop := K (.identifier name)

/-- The selector is read from tokens with the property, together with so many parameters or arguments. -/
inductive Selects (K : TokenKind → Prop) : String → Nat → Prop where
  | identifier {name : String} (h : K (.identifier name)) : Selects K name 0
  | operator {name : String} (h : K (.operator name)) : Selects K name 1
  | keywords {parts : List String} (h : ∀ part ∈ parts, K (.keyword part)) : Selects K (String.join parts) parts.length

/-- The temporaries of a block and the selector of a send are read from tokens with the property. -/
def Expr.ReadAs (K : TokenKind → Prop) : Expr → Prop
  | .block _ temps _ => AllNamed (AsIdentifier K) temps
  | .send _ selector args => Selects K selector args.length
  | _ => True

/-- Every token still to be read has the property, and so has what every node was read from. -/
structure ParserState.Declares (K : TokenKind → Prop) (s : ParserState) : Prop where
  tokens : ∀ t ∈ s.tokens, K t.kind
  ended : K .endOfInput
  nodes : ∀ id e, s.arena.expr? id = some e → e.ReadAs K

/-- The parameters and temporaries of a method have the property. -/
def Method.Declares (P : String → Prop) (m : Method) : Prop := AllNamed P (m.params ++ m.temps)

/-- What a class declares has the property. -/
structure ClassDefinition.Declares (P : String → Prop) (c : ClassDefinition) : Prop where
  vars : AllNamed P (c.instanceVars ++ c.classVars)
  methods : ∀ m ∈ c.methods, m.Declares P

/-- What a program declares has the property, the parameters of its blocks and the names of its classes apart. -/
structure Program.Declares (P : String → Prop) (p : Program) : Prop where
  classes : ∀ c ∈ p.classes, c.Declares P
  temps : ∀ id params temps body, p.arena.expr? id = some (.block params temps body) → AllNamed P temps

/-- A method is read from tokens with the property. -/
structure Method.ReadAs (K : TokenKind → Prop) (m : Method) : Prop where
  declares : m.Declares (AsIdentifier K)
  selects : Selects K m.selector m.params.length

/-- What a class declares is read from tokens with the property. -/
structure ClassDefinition.ReadAs (K : TokenKind → Prop) (c : ClassDefinition) : Prop where
  vars : AllNamed (AsIdentifier K) (c.instanceVars ++ c.classVars)
  methods : ∀ m ∈ c.methods, m.ReadAs K

namespace AllNamed
variable {P : String → Prop} {d : Declaration} {ds es : List Declaration}

theorem nil : AllNamed P [] := nofun

theorem cons (hd : P d.name) (hds : AllNamed P ds) : AllNamed P (d :: ds) := List.forall_mem_cons.2 ⟨hd, hds⟩

theorem append (hds : AllNamed P ds) (hes : AllNamed P es) : AllNamed P (ds ++ es) := List.forall_mem_append.2 ⟨hds, hes⟩

theorem imp {Q : String → Prop} (hds : AllNamed P ds) (hPQ : ∀ name, P name → Q name) : AllNamed Q ds := fun d hd => hPQ _ (hds d hd)

end AllNamed

theorem ParserState.Declares.ofTokens {K : TokenKind → Prop} {s s' : ParserState} (h : s.Declares K) (ha : s'.arena = s.arena)
    (ht : ∀ t ∈ s'.tokens, t ∈ s.tokens) : s'.Declares K := by
  refine ⟨fun t htt => h.tokens t (ht t htt), h.ended, ?_⟩
  rw [ha]
  exact h.nodes

namespace Parser
variable {K : TokenKind → Prop} {α β : Type} {Q : α → Prop} {R : β → Prop} {p : Parser α} {f : α → Parser β} {x : α}
  {expr arg : Parser NodeId} {bound : Nat} {left : NodeId}

/-- Where the property holds of what is there, a step that succeeds keeps it, and its result has a property too. -/
def Gives (K : TokenKind → Prop) (p : Parser α) (Q : α → Prop) : Prop :=
  ∀ s x s', Runs p s x s' → s.Declares K → s'.Declares K ∧ Q x

/-- A step whose result does not matter. -/
abbrev Keeps (K : TokenKind → Prop) (p : Parser α) : Prop := Gives K p fun _ => True

/-! ## Composing steps -/

namespace Gives

theorem pure (h : Q x) : Gives K (pure x) Q := by
  intro s y s' hr hs
  obtain ⟨rfl, rfl⟩ := Runs.pure_iff.1 hr
  exact ⟨hs, h⟩

theorem throw (e : ParseError) : Gives K (throw e) Q := by
  intro s y s' hr
  exact absurd hr (by simp)

theorem bind (h : Gives K p Q) (h' : ∀ x, Q x → Gives K (f x) R) : Gives K (p >>= f) R := by
  intro s y s' hr hs
  obtain ⟨x, t, hp, hf⟩ := Runs.bind_iff.1 hr
  obtain ⟨ht, hx⟩ := h s x t hp hs
  exact h' x hx t y s' hf ht

theorem after (h : Keeps K p) (h' : ∀ x, Gives K (f x) R) : Gives K (p >>= f) R := h.bind fun x _ => h' x

theorem keeps (h : Gives K p Q) : Keeps K p := fun s x s' hr hs => ⟨(h s x s' hr hs).1, trivial⟩

end Gives

theorem Keeps.get : Keeps K (get : Parser ParserState) := by
  intro s x s' hr hs
  obtain ⟨rfl, rfl⟩ := Runs.get_iff.1 hr
  exact ⟨hs, trivial⟩

/-! ## Tokens -/

namespace Keeps

theorem peek : Keeps K peek := by
  intro s x s' hr hs
  obtain ⟨-, rfl⟩ := peek_iff.1 hr
  exact ⟨hs.ofTokens rfl (mem_dropComments _ _), trivial⟩

theorem peekSpan : Keeps K peekSpan := by
  have hskip : Keeps K skipComments := by
    intro s x s' hr hs
    obtain rfl := skipComments_iff.1 hr
    exact ⟨hs.ofTokens rfl (mem_dropComments _ _), trivial⟩
  apply hskip.after
  intro _
  apply Keeps.get.after
  intro s
  split
  · exact .pure trivial
  · exact .pure trivial

theorem check (m : Mark) : Keeps K (check m) := peek.after fun _ => .pure trivial

theorem remaining : Keeps K remaining := Keeps.get.after fun _ => .pure trivial

theorem spanOf (id : NodeId) : Keeps K (spanOf id) := Keeps.get.after fun _ => .pure trivial

theorem spanAcross (first last : NodeId) : Keeps K (spanAcross first last) :=
  (spanOf first).after fun _ => (spanOf last).after fun _ => .pure trivial

end Keeps

/-- What is looked at has the property. -/
theorem gives_peek : Gives K peek K := by
  intro s kind s' hr hs
  obtain ⟨rfl, rfl⟩ := peek_iff.1 hr
  have hskipped : s.skipped.Declares K := hs.ofTokens rfl (mem_dropComments _ _)
  refine ⟨hskipped, ?_⟩
  unfold ParserState.headKind
  split
  · next t ts htokens => exact hskipped.tokens t (by simp [htokens])
  · exact hs.ended

/-- What is read has the property. -/
theorem gives_advance : Gives K advance fun t => K t.kind := by
  intro s t s' hr hs
  obtain ⟨harena, htokens, ht⟩ := tokens_advance hr
  refine ⟨hs.ofTokens harena htokens, ?_⟩
  rcases ht with ht | ht
  · exact hs.tokens t ht
  · rw [ht]
    exact hs.ended

theorem Keeps.advance : Keeps K advance := gives_advance.keeps

theorem Keeps.expect (m : Mark) : Keeps K (expect m) := by
  apply Keeps.advance.after
  intro t
  split
  · exact .pure trivial
  · exact .throw _

theorem gives_identifier (due : Expectation) : Gives K (identifier due) fun d => AsIdentifier K d.name := by
  apply gives_advance.bind
  intro t ht
  split
  · next name hname =>
    rw [hname] at ht
    exact .pure ht
  · exact .throw _

/-- A new node keeps the property if it was read from tokens with it. -/
theorem keeps_makeNode {e : Expr} {span : Span} (he : e.ReadAs K) : Keeps K (makeNode e span) := by
  intro s id s' hr hs
  obtain ⟨-, htokens, -, hnew, -⟩ := makeNode_spec hr
  refine ⟨⟨by rw [htokens]; exact hs.tokens, hs.ended, fun x e' hx => ?_⟩, trivial⟩
  by_cases hlast : x.index = s.arena.size
  · obtain rfl : x = ⟨s.arena.size⟩ := by cases x; simp_all
    rw [hnew] at hx
    exact Option.some.inj hx ▸ he
  · rw [expr?_makeNode hr hlast] at hx
    exact hs.nodes x e' hx

theorem keeps_makeSend {receiver : NodeId} {selector : String} {args : List NodeId} {span : Span}
    (h : Selects K selector args.length) : Keeps K (makeNode (.send receiver selector args) span) :=
  keeps_makeNode h

/-! ## Variables -/

theorem gives_namesToBar (n : Nat) : Gives K (namesToBar n) (AllNamed (AsIdentifier K)) := by
  induction n with
  | zero => exact .pure .nil
  | succ n ih =>
    apply (Keeps.check _).after
    intro b
    split
    · exact Keeps.advance.after fun _ => .pure .nil
    · exact (gives_identifier _).bind fun d hd => ih.bind fun ds hds => .pure (hds.cons hd)

theorem gives_variableList (bound : Nat) : Gives K (variableList bound) (AllNamed (AsIdentifier K)) := by
  apply Keeps.peek.after
  intro kind
  split
  · exact Keeps.advance.after fun _ => .pure .nil
  · exact (Keeps.expect _).after fun _ => gives_namesToBar bound

theorem gives_optionalVariables (bound : Nat) : Gives K (optionalVariables bound) (AllNamed (AsIdentifier K)) := by
  have hat : Keeps K atVariables := Keeps.peek.after fun _ => .pure trivial
  apply hat.after
  intro b
  split
  · exact gives_variableList bound
  · exact .pure .nil

/-! ## Expressions -/

theorem keeps_unaryMessages (n : Nat) (left : NodeId) : Keeps K (unaryMessages n left) := by
  induction n generalizing left with
  | zero => exact .pure trivial
  | succ n ih =>
    apply gives_peek.bind
    intro kind hkind
    split
    · exact Keeps.advance.after fun _ => (Keeps.spanOf _).after fun _ => (keeps_makeSend (.identifier hkind)).after ih
    · exact .pure trivial

theorem keeps_binaryMessages (harg : Keeps K arg) (n least : Nat) (left : NodeId) : Keeps K (binaryMessages arg n least left) := by
  induction n generalizing least left with
  | zero => exact .pure trivial
  | succ n ih =>
    apply gives_peek.bind
    intro kind hkind
    split
    · split
      · exact .pure trivial
      · exact Keeps.advance.after fun _ => harg.after fun right => (ih _ right).after fun right =>
          (Keeps.spanAcross left right).after fun _ => (keeps_makeSend (.operator hkind)).after (ih least)
    · exact .pure trivial

theorem gives_keywordParts (harg : Keeps K arg) (n : Nat) :
    Gives K (keywordParts arg n) fun parts => ∀ part ∈ parts.map (·.1), K (.keyword part) := by
  induction n with
  | zero => exact .pure nofun
  | succ n ih =>
    apply gives_peek.bind
    intro kind hkind
    split
    · exact Keeps.advance.after fun _ => harg.after fun _ => ih.bind fun parts hparts =>
        .pure (List.forall_mem_cons.2 ⟨hkind, hparts⟩)
    · exact .pure nofun

theorem keeps_optionalKeywordMessage (harg : Keeps K arg) (left : NodeId) : Keeps K (optionalKeywordMessage bound arg left) := by
  apply Keeps.peek.after
  intro kind
  split
  · apply (gives_keywordParts harg bound).bind
    intro parts hparts
    apply (Keeps.spanAcross _ _).after
    intro span
    apply keeps_makeSend
    have hlength : (parts.map (·.2)).length = (parts.map (·.1)).length := by simp
    rw [hlength]
    exact .keywords hparts
  · exact .pure trivial

theorem keeps_statement (hexpr : Keeps K expr) : Keeps K (statement expr) := by
  apply (Keeps.check _).after
  intro b
  split
  · exact Keeps.advance.after fun _ => hexpr.after fun value => (Keeps.spanOf value).after fun _ => keeps_makeNode trivial
  · exact hexpr

theorem keeps_statements (hexpr : Keeps K expr) (n : Nat) : Keeps K (statements expr n) := by
  induction n with
  | zero => exact .pure trivial
  | succ n ih =>
    apply Keeps.peek.after
    intro kind
    split
    · exact Keeps.advance.after fun _ => ih
    · exact .pure trivial
    · apply (keeps_statement hexpr).after
      intro first
      apply Keeps.peek.after
      intro kind
      split
      · exact ih.after fun _ => .pure trivial
      · exact ih.after fun _ => .pure trivial
      · exact Keeps.advance.after fun _ => .throw _

theorem keeps_blockParams (n : Nat) : Keeps K (blockParams n) := by
  induction n with
  | zero => exact .pure trivial
  | succ n ih =>
    apply Keeps.peek.after
    intro kind
    split
    · exact Keeps.advance.after fun _ => ih.after fun _ => .pure trivial
    · exact .pure trivial

theorem gives_paramsEnd : Gives K (paramsEnd bound) (AllNamed (AsIdentifier K)) := by
  apply Keeps.peek.after
  intro kind
  split
  · exact Keeps.advance.after fun _ => gives_namesToBar bound
  · exact (Keeps.expect _).after fun _ => .pure .nil

theorem gives_blockTemps (bound : Nat) (params : List Declaration) :
    Gives K (blockTemps bound params) (AllNamed (AsIdentifier K)) := by
  have hrest : ∀ early : List Declaration, AllNamed (AsIdentifier K) early →
      Gives K (if early.isEmpty then optionalVariables bound else pure early) (AllNamed (AsIdentifier K)) := by
    intro early hearly
    split
    · exact gives_optionalVariables bound
    · exact .pure hearly
  unfold blockTemps
  split
  · exact (Gives.pure .nil).bind hrest
  · exact gives_paramsEnd.bind hrest

/-- The temporaries of a block are read as identifiers; nothing is said of its parameters. -/
theorem keeps_block (hexpr : Keeps K expr) : Keeps K (block bound expr) := by
  rw [block_eq]
  apply (Keeps.expect _).after
  intro opening
  apply (keeps_blockParams bound).after
  intro params
  apply (gives_blockTemps bound params).bind
  intro temps htemps
  apply (keeps_statements hexpr bound).after
  intro body
  apply (Keeps.expect _).after
  intro closing
  exact keeps_makeNode htemps

theorem keeps_elements (hexpr : Keeps K expr) (n : Nat) : Keeps K (elements expr n) := by
  induction n with
  | zero => exact .pure trivial
  | succ n ih =>
    apply (Keeps.check _).after
    intro b
    split
    · exact .pure trivial
    · apply hexpr.after
      intro first
      apply (Keeps.check _).after
      intro b
      split
      · exact Keeps.advance.after fun _ => ih.after fun _ => .pure trivial
      · exact .pure trivial

theorem keeps_array (hexpr : Keeps K expr) : Keeps K (array bound expr) :=
  (Keeps.expect _).after fun _ => (keeps_elements hexpr bound).after fun _ => (Keeps.expect _).after fun _ => keeps_makeNode trivial

theorem keeps_paren (hexpr : Keeps K expr) : Keeps K (paren expr) :=
  Keeps.advance.after fun _ => hexpr.after fun _ => (Keeps.expect _).after fun _ => keeps_makeNode trivial

theorem keeps_primary (hexpr : Keeps K expr) : Keeps K (primary bound expr) := by
  apply Keeps.peek.after
  intro kind
  split
  · exact keeps_block hexpr
  · exact keeps_array hexpr
  · exact keeps_paren hexpr
  · apply Keeps.advance.after
    intro t
    split
    · next atom hatom =>
      apply keeps_makeNode
      rcases atom_cases hatom with ⟨_, rfl⟩ | ⟨_, rfl, -⟩
      · trivial
      · trivial
    · exact .throw _

theorem keeps_unaryLevel (hexpr : Keeps K expr) : Keeps K (unaryLevel bound expr) :=
  (keeps_primary hexpr).after (keeps_unaryMessages bound)

theorem keeps_binaryLevel (hexpr : Keeps K expr) : Keeps K (binaryLevel bound expr) :=
  (keeps_unaryLevel hexpr).after (keeps_binaryMessages (keeps_unaryLevel hexpr) bound 0)

theorem keeps_keywordLevel (hexpr : Keeps K expr) : Keeps K (keywordLevel bound expr) :=
  (keeps_binaryLevel hexpr).after (keeps_optionalKeywordMessage (keeps_binaryLevel hexpr))

theorem keeps_cascadeMessage (hexpr : Keeps K expr) (receiver : NodeId) : Keeps K (cascadeMessage bound expr receiver) := by
  have hbinary : ∀ left, Keeps K (binaryMessages (unaryLevel bound expr) bound 0 left) :=
    keeps_binaryMessages (keeps_unaryLevel hexpr) bound 0
  have hkeyword : ∀ result, Keeps K (optionalKeywordMessage bound (binaryLevel bound expr) result) :=
    keeps_optionalKeywordMessage (keeps_binaryLevel hexpr)
  apply Keeps.peek.after
  intro kind
  split
  · exact (keeps_unaryMessages bound receiver).after fun inner => (hbinary inner).after hkeyword
  · exact (hbinary receiver).after hkeyword
  · exact (Gives.pure trivial).after hkeyword
  · exact Keeps.peekSpan.after fun _ => (Gives.throw _).after hkeyword

theorem keeps_cascadeMessages {message : Parser NodeId} (hm : Keeps K message) (n : Nat) :
    Keeps K (cascadeMessages message n) := by
  induction n with
  | zero => exact .pure trivial
  | succ n ih =>
    apply (Keeps.check _).after
    intro b
    split
    · exact Keeps.advance.after fun _ => hm.after fun _ => ih.after fun _ => .pure trivial
    · exact .pure trivial

theorem keeps_cascadeLevel (hexpr : Keeps K expr) : Keeps K (cascadeLevel bound expr) := by
  apply (keeps_keywordLevel hexpr).after
  intro first
  apply (Keeps.check _).after
  intro b
  split
  · apply Keeps.get.after
    intro s
    split
    · exact (keeps_cascadeMessages (keeps_cascadeMessage hexpr _) bound).after fun _ =>
        (Keeps.spanAcross _ _).after fun _ => keeps_makeNode trivial
    · exact (Keeps.spanOf _).after fun _ => .throw _
  · exact .pure trivial

theorem keeps_assignmentTail (hexpr : Keeps K expr) (target : NodeId) : Keeps K (assignmentTail expr target) := by
  apply (Keeps.check _).after
  intro b
  split
  · apply Keeps.advance.after
    intro mark
    apply Keeps.get.after
    intro s
    split
    · exact hexpr.after fun value => (Keeps.spanAcross target value).after fun _ => keeps_makeNode trivial
    · exact (Keeps.spanOf _).after fun _ => .throw _
  · exact .pure trivial

theorem keeps_expressionWithin (n : Nat) : Keeps K (expressionWithin n) := by
  induction n with
  | zero => exact Keeps.advance.after fun _ => .throw _
  | succ n ih => exact (keeps_cascadeLevel ih).after (keeps_assignmentTail ih)

/-! ## Methods and classes -/

theorem gives_patternParts (n : Nat) : Gives K (patternParts n) fun parts =>
    AllNamed (AsIdentifier K) (parts.map (·.2)) ∧ ∀ part ∈ parts.map (·.1), K (.keyword part) := by
  induction n with
  | zero => exact .pure ⟨.nil, List.forall_mem_nil _⟩
  | succ n ih =>
    apply gives_peek.bind
    intro kind hkind
    split
    · exact Keeps.advance.after fun _ => (gives_identifier _).bind fun d hd => ih.bind fun parts hparts =>
        .pure ⟨hparts.1.cons hd, List.forall_mem_cons.2 ⟨hkind, hparts.2⟩⟩
    · exact .pure ⟨.nil, List.forall_mem_nil _⟩

theorem gives_pattern : Gives K pattern fun r => AllNamed (AsIdentifier K) r.2 ∧ Selects K r.1 r.2.length := by
  apply gives_advance.bind
  intro t ht
  split
  · next name hname =>
    rw [hname] at ht
    exact .pure ⟨.nil, .identifier ht⟩
  · next name hname =>
    rw [hname] at ht
    exact (gives_identifier _).bind fun d hd => .pure ⟨AllNamed.nil.cons hd, .operator ht⟩
  · next part hpart =>
    rw [hpart] at ht
    apply (gives_identifier _).bind
    intro d hd
    apply Keeps.remaining.after
    intro bound
    apply (gives_patternParts bound).bind
    rintro parts ⟨hparams, hparts⟩
    have hlength : (((part, d) :: parts).map (·.2)).length = (((part, d) :: parts).map (·.1)).length := by simp
    refine .pure ⟨hparams.cons hd, ?_⟩
    rw [hlength]
    exact .keywords (List.forall_mem_cons.2 ⟨ht, hparts⟩)
  · exact .throw _

theorem gives_methodBody {classSide : Bool} {selector : String} {params : List Declaration} {start : Span}
    (hparams : AllNamed (AsIdentifier K) params) (hselector : Selects K selector params.length) :
    Gives K (methodBody classSide selector params start) (·.ReadAs K) := by
  apply (Keeps.expect _).after
  intro _
  apply Keeps.remaining.after
  intro bound
  apply (gives_optionalVariables bound).bind
  intro temps htemps
  apply (keeps_statements (keeps_expressionWithin bound) bound).after
  intro body
  exact (Keeps.expect _).after fun _ => .pure ⟨hparams.append htemps, hselector⟩

theorem gives_method (classSide : Bool) (start : Span) : Gives K (method classSide start) (·.ReadAs K) :=
  gives_pattern.bind fun _ ⟨hparams, hselector⟩ => gives_methodBody hparams hselector

/-- The items of a class are read from tokens with the property. -/
structure ItemsReadAs (K : TokenKind → Prop) (items : ClassItems) : Prop where
  instanceVars : AllNamed (AsIdentifier K) items.instanceVars
  classVars : AllNamed (AsIdentifier K) items.classVars
  instanceMethods : ∀ m ∈ items.instanceMethods, m.ReadAs K
  classMethods : ∀ m ∈ items.classMethods, m.ReadAs K

theorem gives_classSideItem {items : ClassItems} (h : ItemsReadAs K items) (hclass : K (.identifier "class")) :
    Gives K (classSideItem items) (ItemsReadAs K) := by
  apply Keeps.advance.after
  intro word
  apply Keeps.peek.after
  intro kind
  split
  · apply Keeps.remaining.after
    intro bound
    apply (gives_variableList bound).bind
    intro vars hvars
    exact .pure { h with classVars := h.classVars.append hvars }
  · apply (gives_methodBody .nil (.identifier hclass)).bind
    intro m hm
    exact .pure { h with instanceMethods := List.forall_mem_append.2 ⟨h.instanceMethods, by simpa using hm⟩ }
  · split
    · exact Keeps.advance.after fun _ => .pure h
    · apply (gives_method true _).bind
      intro m hm
      exact .pure { h with classMethods := List.forall_mem_append.2 ⟨h.classMethods, by simpa using hm⟩ }

theorem gives_classItems (n : Nat) {items : ClassItems} (h : ItemsReadAs K items) :
    Gives K (classItems n items) (ItemsReadAs K) := by
  induction n generalizing items with
  | zero => exact .pure h
  | succ n ih =>
    apply gives_peek.bind
    intro kind hkind
    split
    · exact .pure h
    · split
      · apply Keeps.remaining.after
        intro bound
        apply (gives_variableList bound).bind
        intro vars hvars
        exact ih { h with instanceVars := h.instanceVars.append hvars }
      · split
        · next hclass =>
          rw [hclass] at hkind
          exact (gives_classSideItem h hkind).bind fun items hitems => ih hitems
        · apply Keeps.peekSpan.after
          intro start
          apply (gives_method false start).bind
          intro m hm
          exact ih { h with instanceMethods := List.forall_mem_append.2 ⟨h.instanceMethods, by simpa using hm⟩ }

theorem keeps_className : Keeps K className := by
  apply Keeps.advance.after
  intro head
  split
  · exact (Keeps.expect _).after fun _ => .pure trivial
  · exact .pure trivial
  · exact .throw _

theorem keeps_superclass : Keeps K superclass := by
  apply Keeps.advance.after
  intro t
  split
  · exact .pure trivial
  · exact .pure trivial
  · exact .throw _

theorem gives_classDefinition : Gives K classDefinition (·.ReadAs K) := by
  apply keeps_className.after
  intro head
  apply keeps_superclass.after
  intro super
  apply (Keeps.expect _).after
  intro _
  apply Keeps.remaining.after
  intro bound
  apply (gives_classItems bound ⟨.nil, .nil, by simp, by simp⟩).bind
  intro items h
  apply (Keeps.expect _).after
  intro closing
  exact .pure ⟨h.instanceVars.append h.classVars, List.forall_mem_append.2 ⟨h.instanceMethods, h.classMethods⟩⟩

theorem gives_classes (n : Nat) : Gives K (classes n) fun cs => ∀ c ∈ cs, c.ReadAs K := by
  induction n with
  | zero => exact .pure nofun
  | succ n ih =>
    apply Keeps.peek.after
    intro kind
    split
    · exact .pure nofun
    · exact gives_classDefinition.bind fun c hc => ih.bind fun cs hcs => .pure (List.forall_mem_cons.2 ⟨hc, hcs⟩)

end Parser

/-- Whatever holds of every token holds of what a program is read from. -/
theorem Program.readAs_ofTokens {K : TokenKind → Prop} {tokens : List Token} {p : Program} (hend : K .endOfInput)
    (hk : ∀ t ∈ tokens, K t.kind) (h : Program.ofTokens tokens = .ok p) :
    (∀ c ∈ p.classes, c.ReadAs K) ∧ ∀ id e, p.arena.expr? id = some e → e.ReadAs K := by
  obtain ⟨cs, s', hruns, rfl⟩ := Program.runs_ofTokens h
  have hstart : (ParserState.start tokens).Declares K := by
    refine ⟨hk, hend, ?_⟩
    intro id e h
    rw [ParserState.start, Arena.expr?_empty] at h
    cases h
  obtain ⟨hs, hcs⟩ := (Keeps.remaining.after gives_classes) _ _ _ hruns hstart
  exact ⟨hcs, hs.nodes⟩

/-- Whatever holds of every identifier holds of the names that a program declares. -/
theorem Program.declares_ofTokens {P : String → Prop} {tokens : List Token} {p : Program}
    (hn : ∀ t ∈ tokens, ∀ name, t.kind = .identifier name → P name) (h : Program.ofTokens tokens = .ok p) : p.Declares P := by
  obtain ⟨hclasses, hnodes⟩ := Program.readAs_ofTokens (K := fun kind => ∀ name, kind = .identifier name → P name) nofun hn h
  have hname : ∀ name, AsIdentifier (fun kind => ∀ name, kind = .identifier name → P name) name → P name := fun name h => h name rfl
  exact ⟨fun c hc => ⟨(hclasses c hc).vars.imp hname, fun m hm => ((hclasses c hc).methods m hm).declares.imp hname⟩,
    fun id params temps body he => AllNamed.imp (hnodes id _ he) hname⟩

/-- A program that a source text spells declares no reserved word, unless for a parameter of a block or for a class. -/
theorem Program.declares_ofBytes {bytes : List UInt8} {p : Program} (h : Program.ofBytes bytes = .ok p) : p.Declares IsName :=
  declares_ofTokens (fun _ ht _ hk => isName_tokenize ht hk) h

/-- Where a selector has a colon, it ends with one. -/
theorem Program.selectors_ofBytes {bytes : List UInt8} {p : Program} (h : Program.ofBytes bytes = .ok p) :
    ∀ c ∈ p.classes, ∀ m ∈ c.methods, ':' ∈ m.selector.toList → m.selector.toList.getLast? = some ':' := by
  intro c hc m hm hcolon
  have hselects := ((readAs_ofTokens trivial (fun _ ht => formed_tokenize ht) h).1 c hc).methods m hm |>.selects
  generalize m.selector = selector, m.params.length = arity at hselects hcolon
  cases hselects with
  | identifier hplain => exact absurd hcolon hplain.colon
  | operator hop => exact absurd hcolon hop.1
  | @keywords parts hparts =>
    have hne : parts ≠ [] := by
      rintro rfl
      simp at hcolon
    obtain ⟨word, hword, -⟩ := hparts _ (List.getLast_mem hne)
    rw [← List.dropLast_append_getLast hne, String.join_append, String.toList_append, List.getLast?_append]
    simp [hword]

end BlockScope
