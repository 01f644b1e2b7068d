import BlockScope.Program.Grammar.Definition
import BlockScope.Proofs.Program.Forest
/-!
# Phrases

The grammar as abstract syntax: what can be built here obeys it. `Phrase.kinds` writes a phrase as tokens, and
`Arena.Shows` says that nodes of an arena are what a phrase describes, whatever their numbers and spans.

Messages have strengths, and so have operands: 0 is for keyword messages, 1 and 2 are the precedences of the operators, 3
is for unary messages, and 4 for what needs no message. An operand of some strength holds no looser message outside of
parentheses, and a message takes receiver and arguments that are strong enough not to fall apart.
-/
namespace BlockScope
open BlockScope.Parser

/-- What a phrase is in the grammar. -/
inductive Category where
  | operand (strength : Nat)
  | message (strength : Nat)
  /-- The parts of a keyword message with their arguments. -/
  | parts
  /-- The messages of a cascade after the first. -/
  | messages
  | expression
  /-- The elements of an array. -/
  | elements
  | statement
  | statements
  deriving DecidableEq, Repr

inductive Phrase : Category → Type where
  | literal (value : Literal) : Phrase (.operand 4)
  /-- A name, `self` and `super` included. -/
  | ident (name : String) : Phrase (.operand 4)
  | paren (inner : Phrase .expression) : Phrase (.operand 4)
  | array (parts : Phrase .elements) : Phrase (.operand 4)
  | block (params temps : List String) (body : Phrase .statements) : Phrase (.operand 4)
  | unary (selector : String) : Phrase (.message 3)
  | binary {n : Nat} (operator : String) (h : precedence operator = n) (arg : Phrase (.operand (n + 1))) :
    Phrase (.message n)
  | keyword (parts : Phrase .parts) : Phrase (.message 0)
  | lastPart (part : String) (arg : Phrase (.operand 1)) : Phrase .parts
  | morePart (part : String) (arg : Phrase (.operand 1)) (rest : Phrase .parts) : Phrase .parts
  /-- A message to a receiver, which only for keywords is stronger than the message. -/
  | send {n : Nat} (receiver : Phrase (.operand (max n 1))) (message : Phrase (.message n)) : Phrase (.operand n)
  /-- A stronger operand where a weaker one may stand. -/
  | tighter {n m : Nat} (operand : Phrase (.operand m)) (h : n < m := by decide) : Phrase (.operand n)
  | plain (operand : Phrase (.operand 0)) : Phrase .expression
  /-- Several messages, each by itself, to the receiver of the first. -/
  | cascade {n : Nat} (receiver : Phrase (.operand (max n 1))) (first : Phrase (.message n)) (others : Phrase .messages) :
    Phrase .expression
  | assign (target : String) (value : Phrase .expression) : Phrase .expression
  | lastMessage {n : Nat} (message : Phrase (.message n)) : Phrase .messages
  | moreMessage {n : Nat} (message : Phrase (.message n)) (others : Phrase .messages) : Phrase .messages
  | noElement : Phrase .elements
  | element (first : Phrase .expression) (others : Phrase .elements) : Phrase .elements
  | perform (value : Phrase .expression) : Phrase .statement
  | ret (value : Phrase .expression) : Phrase .statement
  | noStatement : Phrase .statements
  | step (first : Phrase .statement) (others : Phrase .statements) : Phrase .statements

/-- A message pattern with the names of the parameters. -/
inductive PatternPhrase where
  | unary (selector : String)
  /-- Two bars in the place of a pattern would be an empty list of variables. -/
  | binary (operator param : String) (h : operator ≠ "||")
  | keyword (part param : String) (more : List (String × String))

structure MethodPhrase where
  pattern : PatternPhrase
  temps : List String
  body : Phrase .statements

structure ClassPhrase where
  name : String
  /-- None is written `nil`. -/
  superName : Option String
  instanceVars : List String
  classVars : List String
  instanceMethods : List MethodPhrase
  classMethods : List MethodPhrase

/-! ## Writing phrases -/

def Literal.kind : Literal → TokenKind
  | .integer value => .integer value
  | .float value => .float value
  | .string value => .string value
  | .symbol name => .symbol name
  | .character value => .character value
  | .nil => .reserved .nil
  | .true => .reserved .true
  | .false => .reserved .false

def nameKind (name : String) : TokenKind :=
  if name = "self" then .reserved .self else if name = "super" then .reserved .super else .identifier name

/-- A list of variables between bars, or nothing for none. -/
def variableKinds (names : List String) : List TokenKind :=
  if names = [] then [] else .mark .bar :: names.map .identifier ++ [.mark .bar]

/-- The parameters of a block with the bar behind them, or nothing for none. -/
def paramKinds (names : List String) : List TokenKind :=
  if names = [] then [] else names.map .argument ++ [.mark .bar]

namespace Phrase

/-- A list of which nothing is left. -/
def isDone : {c : Category} → Phrase c → Bool
  | _, .noElement | _, .noStatement => true
  | _, _ => false

/-- The parts of a keyword selector. -/
def selectorParts : {c : Category} → Phrase c → List String
  | _, .lastPart part _ => [part]
  | _, .morePart part _ rest => part :: rest.selectorParts
  | _, _ => []

/-- A phrase as tokens. Elements and statements have dots between them. -/
def kinds : {c : Category} → Phrase c → List TokenKind
  | _, .literal value => [value.kind]
  | _, .ident name => [nameKind name]
  | _, .paren inner => .mark .leftParen :: inner.kinds ++ [.mark .rightParen]
  | _, .array parts => .mark .hashParen :: parts.kinds ++ [.mark .rightParen]
  | _, .block params temps body =>
    .mark .leftBracket :: paramKinds params ++ variableKinds temps ++ body.kinds ++ [.mark .rightBracket]
  | _, .unary selector => [.identifier selector]
  | _, .binary operator _ arg => .operator operator :: arg.kinds
  | _, .keyword parts => parts.kinds
  | _, .lastPart part arg => .keyword part :: arg.kinds
  | _, .morePart part arg rest => .keyword part :: arg.kinds ++ rest.kinds
  | _, .send receiver message => receiver.kinds ++ message.kinds
  | _, .tighter operand _ => operand.kinds
  | _, .plain operand => operand.kinds
  | _, .cascade receiver first others => receiver.kinds ++ first.kinds ++ others.kinds
  | _, .assign target value => nameKind target :: .mark .assign :: value.kinds
  | _, .lastMessage message => .mark .semicolon :: message.kinds
  | _, .moreMessage message others => .mark .semicolon :: message.kinds ++ others.kinds
  | _, .noElement => []
  | _, .element first others => first.kinds ++ (if others.isDone then [] else .mark .dot :: others.kinds)
  | _, .perform value => value.kinds
  | _, .ret value => .mark .caret :: value.kinds
  | _, .noStatement => []
  | _, .step first others => first.kinds ++ (if others.isDone then [] else .mark .dot :: others.kinds)

end Phrase

/-- Keywords with the parameters behind them. -/
def partKinds : List (String × String) → List TokenKind
  | [] => []
  | (part, param) :: more => .keyword part :: .identifier param :: partKinds more

def PatternPhrase.kinds : PatternPhrase → List TokenKind
  | .unary selector => [.identifier selector]
  | .binary operator param _ => [.operator operator, .identifier param]
  | .keyword part param more => partKinds ((part, param) :: more)

def MethodPhrase.kinds (m : MethodPhrase) : List TokenKind :=
  m.pattern.kinds ++ .mark .leftBracket :: variableKinds m.temps ++ m.body.kinds ++ [.mark .rightBracket]

/-- The word that turns to the class side. -/
def classWord : TokenKind := .identifier "class"

/-- What a class declares: its variables first, then the methods of its instances, then its own. -/
def ClassPhrase.itemKinds (c : ClassPhrase) : List TokenKind :=
  variableKinds c.instanceVars ++ (if c.classVars = [] then [] else classWord :: variableKinds c.classVars) ++
    c.instanceMethods.flatMap (·.kinds) ++ c.classMethods.flatMap (classWord :: ·.kinds)

def ClassPhrase.kinds (c : ClassPhrase) : List TokenKind :=
  [.identifier c.name, .mark .colon, c.superName.elim (.reserved .nil) .identifier, .mark .leftBracket] ++
    c.itemKinds ++ [.mark .rightBracket]

/-! ## What nodes show -/

/-- The nodes are what the phrase describes. Messages are sent to the base of the piece. -/
inductive Arena.Shows (a : Arena) : {c : Category} → Phrase c → Piece → Prop where
  | literal {value : Literal} {id : NodeId} (h : a.expr? id = some (.literal value)) :
    a.Shows (.literal value) (.one .operand id)
  | ident {name : String} {id : NodeId} (h : a.expr? id = some (.ident name)) : a.Shows (.ident name) (.one .operand id)
  | paren {inner : Phrase .expression} {id x : NodeId} (h : a.expr? id = some (.paren x))
    (hinner : a.Shows inner (.one .operand x)) : a.Shows (.paren inner) (.one .operand id)
  | array {parts : Phrase .elements} {id : NodeId} {xs : List NodeId} (h : a.expr? id = some (.array xs))
    (hparts : a.Shows parts (.row .operand xs)) : a.Shows (.array parts) (.one .operand id)
  | block {params temps : List String} {body : Phrase .statements} {ps ts : List Declaration} {id : NodeId}
    {xs : List NodeId} (h : a.expr? id = some (.block ps ts xs)) (hparams : ps.map (·.name) = params)
    (htemps : ts.map (·.name) = temps) (hbody : a.Shows body (.row .statement xs)) :
    a.Shows (.block params temps body) (.one .operand id)
  | unary {selector : String} {base id : NodeId} (h : a.expr? id = some (.send base selector [])) :
    a.Shows (.unary selector) (.one (.message base) id)
  | binary {n : Nat} {operator : String} {hn : precedence operator = n} {arg : Phrase (.operand (n + 1))}
    {base id x : NodeId} (h : a.expr? id = some (.send base operator [x])) (harg : a.Shows arg (.one .operand x)) :
    a.Shows (.binary operator hn arg) (.one (.message base) id)
  | keyword {parts : Phrase .parts} {base id : NodeId} {xs : List NodeId}
    (h : a.expr? id = some (.send base (String.join parts.selectorParts) xs)) (hparts : a.Shows parts (.row .operand xs)) :
    a.Shows (.keyword parts) (.one (.message base) id)
  | lastPart {part : String} {arg : Phrase (.operand 1)} {x : NodeId} (h : a.Shows arg (.one .operand x)) :
    a.Shows (.lastPart part arg) (.row .operand [x])
  | morePart {part : String} {arg : Phrase (.operand 1)} {rest : Phrase .parts} {x : NodeId} {xs : List NodeId}
    (h : a.Shows arg (.one .operand x)) (hrest : a.Shows rest (.row .operand xs)) :
    a.Shows (.morePart part arg rest) (.row .operand (x :: xs))
  | send {n : Nat} {receiver : Phrase (.operand (max n 1))} {message : Phrase (.message n)} {base id : NodeId}
    (hreceiver : a.Shows receiver (.one .operand base)) (hmessage : a.Shows message (.one (.message base) id)) :
    a.Shows (.send receiver message) (.one .operand id)
  | tighter {n m : Nat} {operand : Phrase (.operand m)} {hlt : n < m} {id : NodeId} (h : a.Shows operand (.one .operand id)) :
    a.Shows (.tighter operand hlt) (.one .operand id)
  | plain {operand : Phrase (.operand 0)} {id : NodeId} (h : a.Shows operand (.one .operand id)) :
    a.Shows (.plain operand) (.one .operand id)
  | cascade {n : Nat} {receiver : Phrase (.operand (max n 1))} {first : Phrase (.message n)} {others : Phrase .messages}
    {base id x : NodeId} {xs : List NodeId} (h : a.expr? id = some (.cascade base (x :: xs)))
    (hreceiver : a.Shows receiver (.one .operand base)) (hfirst : a.Shows first (.one (.message base) x))
    (hothers : a.Shows others (.row (.message base) xs)) : a.Shows (.cascade receiver first others) (.one .operand id)
  | assign {target : String} {value : Phrase .expression} {id x y : NodeId} (h : a.expr? id = some (.assign x y))
    (htarget : a.expr? x = some (.ident target)) (hvalue : a.Shows value (.one .operand y)) :
    a.Shows (.assign target value) (.one .operand id)
  | lastMessage {n : Nat} {message : Phrase (.message n)} {base x : NodeId}
    (h : a.Shows message (.one (.message base) x)) : a.Shows (.lastMessage message) (.row (.message base) [x])
  | moreMessage {n : Nat} {message : Phrase (.message n)} {others : Phrase .messages} {base x : NodeId} {xs : List NodeId}
    (h : a.Shows message (.one (.message base) x)) (hothers : a.Shows others (.row (.message base) xs)) :
    a.Shows (.moreMessage message others) (.row (.message base) (x :: xs))
  | noElement : a.Shows .noElement (.row .operand [])
  | element {first : Phrase .expression} {others : Phrase .elements} {x : NodeId} {xs : List NodeId}
    (h : a.Shows first (.one .operand x)) (hothers : a.Shows others (.row .operand xs)) :
    a.Shows (.element first others) (.row .operand (x :: xs))
  | perform {value : Phrase .expression} {id : NodeId} (h : a.Shows value (.one .operand id)) :
    a.Shows (.perform value) (.one .statement id)
  | ret {value : Phrase .expression} {id x : NodeId} (h : a.expr? id = some (.ret x))
    (hvalue : a.Shows value (.one .operand x)) : a.Shows (.ret value) (.one .statement id)
  | noStatement : a.Shows .noStatement (.row .statement [])
  | step {first : Phrase .statement} {others : Phrase .statements} {x : NodeId} {xs : List NodeId}
    (h : a.Shows first (.one .statement x)) (hothers : a.Shows others (.row .statement xs)) :
    a.Shows (.step first others) (.row .statement (x :: xs))

/-- The selector and the names of the parameters. -/
def PatternPhrase.header : PatternPhrase → String × List String
  | .unary selector => (selector, [])
  | .binary operator param _ => (operator, [param])
  | .keyword part param more => (String.join (part :: more.map (·.1)), param :: more.map (·.2))

/-- The method is what the phrase describes. -/
structure MethodPhrase.ShownBy (phrase : MethodPhrase) (a : Arena) (classSide : Bool) (m : Method) : Prop where
  side : m.classSide = classSide
  header : (m.selector, m.params.map (·.name)) = phrase.pattern.header
  temps : m.temps.map (·.name) = phrase.temps
  body : a.Shows phrase.body (.row .statement m.body)

/-- The class is what the phrase describes. -/
structure ClassPhrase.ShownBy (phrase : ClassPhrase) (a : Arena) (c : ClassDefinition) : Prop where
  name : c.name = phrase.name
  superName : c.superName = phrase.superName
  instanceVars : c.instanceVars.map (·.name) = phrase.instanceVars
  classVars : c.classVars.map (·.name) = phrase.classVars
  instanceMethods : List.Forall₂ (·.ShownBy a false) phrase.instanceMethods c.instanceMethods
  classMethods : List.Forall₂ (·.ShownBy a true) phrase.classMethods c.classMethods

/-- The classes of the program are what the phrases describe, one by one. -/
def Program.Shows (p : Program) (phrases : List ClassPhrase) : Prop :=
  List.Forall₂ (·.ShownBy p.arena) phrases p.classes

end BlockScope
