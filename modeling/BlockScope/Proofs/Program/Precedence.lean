import BlockScope.Proofs.Program.Accepting
/-!
# How messages are taken apart

Operands and messages are told apart by the strength of their messages. What it means to read an operand of some strength
depends on it: one that needs no message is read at once; to unary or binary messages more may be added, so that reading
it comes down to going on with what follows; and at the end there is at most one keyword message. `ReadsOperand` and
`ReadsMessage` say so for tokens `text`, whatever they spell, and `meaning` says of the node that is made what it has to
be. An operand of any strength can be read as a weaker one (`ReadsOperand.tighter`), and a message can be added to an
operand of its own strength (`ReadsOperand.send`).
-/
namespace BlockScope

/-- How tightly a message binds that starts with such a token; none if no message does. -/
def TokenKind.strength? : TokenKind → Option Nat
  | .identifier _ => some 3
  | .operator name => some (Parser.precedence name)
  | .keyword _ => some 0
  | _ => none

namespace Parser

/-- If a message is ahead, it is at most so strong. -/
def Weak (n : Nat) (ahead : List TokenKind) : Prop := ∀ m, (nextKind ahead).strength? = some m → m ≤ n

/-- No message is ahead. -/
def NoMessage (ahead : List TokenKind) : Prop := (nextKind ahead).strength? = none

/-- What is said of a node stays true when nodes are added. -/
def Lasting {α : Type} (meaning : Arena → α → Prop) : Prop := ∀ {a b x}, a.Before b → meaning a x → meaning b x

/-- The operands of binary messages where expressions nest at most so deep. -/
abbrev operandWithin (depth : Nat) : Parser NodeId := unaryLevel (depth + 1) (expressionWithin depth)

/-! ## What it means to read an operand or a message -/

section Meaning
variable (text : List TokenKind) (meaning : Arena → NodeId → Prop)

def ReadsPrimary : Prop := ∀ depth rest a, (text ++ rest).length ≤ depth →
  Reads a (primary (depth + 1) (expressionWithin depth)) (text ++ rest) rest meaning

/-- After the text, reading goes on with unary messages. -/
def ReadsUnary : Prop := ∀ depth rest rest' a goal, (text ++ rest).length ≤ depth →
  (∀ k b x, a.Before b → meaning b x → rest.length < k → Reads b (unaryMessages k x) rest rest' goal) →
  Reads a (operandWithin depth) (text ++ rest) rest' goal

/-- After the text, reading goes on with binary messages. -/
def ReadsBinary (n : Nat) : Prop := ∀ depth rest rest' a goal k least, least ≤ n → (text ++ rest).length ≤ depth →
  (text ++ rest).length < k → Weak n rest →
  (∀ k b x, a.Before b → meaning b x → rest.length < k →
    Reads b (binaryMessages (operandWithin depth) k least x) rest rest' goal) →
  Reads a (operandWithin depth >>= binaryMessages (operandWithin depth) k least) (text ++ rest) rest' goal

def ReadsKeyword : Prop := ∀ depth rest a, (text ++ rest).length ≤ depth → NoMessage rest →
  Reads a (keywordLevel (depth + 1) (expressionWithin depth)) (text ++ rest) rest meaning

end Meaning

/-- The text is an operand of this strength. -/
def ReadsOperand : Nat → List TokenKind → (Arena → NodeId → Prop) → Prop
  | 0, text, meaning => ReadsKeyword text meaning
  | 1, text, meaning => ReadsBinary text meaning 1
  | 2, text, meaning => ReadsBinary text meaning 2
  | 3, text, meaning => ReadsUnary text meaning
  | 4, text, meaning => ReadsPrimary text meaning
  | _, _, _ => False

section Message
variable (text : List TokenKind) (meaning : Arena → NodeId → NodeId → Prop)

def ReadsUnaryMessage : Prop := ∀ rest rest' a goal k x, (text ++ rest).length < k →
  (∀ k b y, a.Before b → meaning b x y → rest.length < k → Reads b (unaryMessages k y) rest rest' goal) →
  Reads a (unaryMessages k x) (text ++ rest) rest' goal

def ReadsBinaryMessage (n : Nat) : Prop := ∀ depth rest rest' a goal k least x, least ≤ n →
  (text ++ rest).length ≤ depth → (text ++ rest).length < k → Weak n rest →
  (∀ k b y, a.Before b → meaning b x y → rest.length < k →
    Reads b (binaryMessages (operandWithin depth) k least y) rest rest' goal) →
  Reads a (binaryMessages (operandWithin depth) k least x) (text ++ rest) rest' goal

def ReadsKeywordMessage : Prop := ∀ depth rest a x, (text ++ rest).length ≤ depth → NoMessage rest →
  Reads a (optionalKeywordMessage (depth + 1) (binaryLevel (depth + 1) (expressionWithin depth)) x) (text ++ rest) rest
    fun b y => meaning b x y

end Message

/-- Where messages of this strength are read, the text is one. -/
def AddsMessage : Nat → List TokenKind → (Arena → NodeId → NodeId → Prop) → Prop
  | 0, text, meaning => ReadsKeywordMessage text meaning
  | 1, text, meaning => ReadsBinaryMessage text meaning 1
  | 2, text, meaning => ReadsBinaryMessage text meaning 2
  | 3, text, meaning => ReadsUnaryMessage text meaning
  | _, _, _ => False

/-- The text is a message of this strength, and starts with a token of it. -/
structure ReadsMessage (n : Nat) (text : List TokenKind) (meaning : Arena → NodeId → NodeId → Prop) : Prop where
  starts : ∀ rest, (nextKind (text ++ rest)).strength? = some n
  reads : AddsMessage n text meaning

variable {a : Arena} {x : NodeId} {n k least depth bound : Nat} {text text' rest : List TokenKind} {names : List String}
  {goal meaning : Arena → NodeId → Prop} {meaning' : Arena → NodeId → NodeId → Prop}

theorem precedence_cases (operator : String) : precedence operator = 1 ∨ precedence operator = 2 := by
  unfold precedence
  split
  · exact .inr rfl
  · exact .inl rfl

theorem Weak.mono {m : Nat} (h : Weak n rest) (hle : n ≤ m) : Weak m rest := fun j hj => Nat.le_trans (h j hj) hle

theorem Weak.of_strength {m : Nat} (h : (nextKind rest).strength? = some m) (hle : m ≤ n) : Weak n rest := by
  intro j hj
  rw [h] at hj
  cases hj
  exact hle

theorem NoMessage.weak (h : NoMessage rest) : Weak n rest := by
  intro m hm
  rw [h] at hm
  cases hm

theorem Weak.precedence_le {operator : String} (h : Weak n rest) (hop : nextKind rest = .operator operator) :
    precedence operator ≤ n := h _ (by rw [hop]; rfl)

/-! ## Where messages end -/

theorem reads_unaryMessages_end (hk : 0 < k) (hrest : Weak 2 rest) (h : goal a x) :
    Reads a (unaryMessages k x) rest rest goal := by
  obtain ⟨k, rfl⟩ : ∃ j, k = j + 1 := ⟨k - 1, by omega⟩
  apply Reads.peek_bind
  split
  · next name hname =>
    have := hrest 3 (by rw [hname]; rfl)
    omega
  · exact .pure h

theorem reads_binaryMessages_end {operand : Parser NodeId} (hk : 0 < k)
    (hrest : ∀ operator, nextKind rest = .operator operator → precedence operator < least) (h : goal a x) :
    Reads a (binaryMessages operand k least x) rest rest goal := by
  obtain ⟨k, rfl⟩ : ∃ j, k = j + 1 := ⟨k - 1, by omega⟩
  apply Reads.peek_bind
  split
  · next operator hop =>
    rw [if_pos (hrest operator hop)]
    exact .pure h
  · exact .pure h

theorem reads_optionalKeywordMessage_end {argument : Parser NodeId} (hrest : NoMessage rest) (h : goal a x) :
    Reads a (optionalKeywordMessage bound argument x) rest rest goal := by
  apply Reads.peek_bind
  split
  · next part hpart =>
    rw [NoMessage, hpart] at hrest
    cases hrest
  · exact .pure h

/-- Operators bind tighter than keywords, so none is ahead where only a keyword message may be. -/
theorem Weak.no_operator (h : Weak 0 rest) (operator : String) (hop : nextKind rest = .operator operator) :
    precedence operator < least := by
  have := h.precedence_le hop
  rcases precedence_cases operator with hp | hp <;> omega

/-! ## Operands -/

theorem ReadsUnary.unaryLevel (h : ReadsUnary text meaning) (hdepth : (text ++ rest).length ≤ depth) (hrest : Weak 2 rest) :
    Reads a (operandWithin depth) (text ++ rest) rest meaning :=
  h depth rest rest a meaning hdepth fun _ _ _ _ hx hk => reads_unaryMessages_end (by omega) hrest hx

theorem ReadsBinary.binaryLevel (h : ReadsBinary text meaning n) (hdepth : (text ++ rest).length ≤ depth)
    (hrest : Weak 0 rest) : Reads a (binaryLevel (depth + 1) (expressionWithin depth)) (text ++ rest) rest meaning :=
  h depth rest rest a meaning (depth + 1) 0 (by omega) hdepth (by omega) (hrest.mono (by omega)) fun _ _ _ _ hx hk =>
    reads_binaryMessages_end (by omega) hrest.no_operator hx

theorem ReadsOperand.loosen (h : ReadsOperand (n + 1) text meaning) (hshow : ∀ b x, meaning b x → goal b x) :
    ReadsOperand n text goal := by
  -- Each level of the grammar begins with the next stronger one, and then looks for messages of its own.
  match n, h with
  | 3, h =>
    intro depth rest rest' a goal hdepth next
    refine (h depth rest a hdepth).bind fun b x hab hx => next (depth + 1) b x hab (hshow b x hx) ?_
    rw [List.length_append] at hdepth
    omega
  | 2, h =>
    intro depth rest rest' a goal k least _ hdepth hk hrest next
    refine (ReadsUnary.unaryLevel h hdepth hrest).bind fun b x hab hx => next k b x hab (hshow b x hx) ?_
    rw [List.length_append] at hk
    omega
  | 1, h =>
    -- Both precedences are read by one loop, which goes on behind the stronger operator as well.
    intro depth rest rest' a goal k least hleast hdepth hk hrest next
    refine h depth rest rest' a goal k least (by omega) hdepth hk (hrest.mono (by omega)) fun k b x hab hx hk => ?_
    exact next k b x hab (hshow b x hx) hk
  | 0, h =>
    intro depth rest a hdepth hrest
    refine (ReadsBinary.binaryLevel h hdepth hrest.weak).bind fun b x _ hx => ?_
    exact reads_optionalKeywordMessage_end hrest (hshow b x hx)

/-- A stronger operand can stand where a weaker one may. -/
theorem ReadsOperand.tighter {m : Nat} (h : ReadsOperand m text meaning) (hlt : n < m)
    (hshow : ∀ b x, meaning b x → goal b x) : ReadsOperand n text goal := by
  induction m with
  | zero => omega
  | succ m ih =>
    by_cases hm : n = m
    · subst hm
      exact h.loosen hshow
    · exact ih (h.loosen fun _ _ hx => hx) (by omega)

/-- An operand of any strength is one for keyword messages. -/
theorem ReadsOperand.weakest (h : ReadsOperand n text meaning) : ReadsOperand 0 text meaning := by
  cases n with
  | zero => exact h
  | succ n => exact h.tighter (Nat.succ_pos n) fun _ _ hx => hx

theorem ReadsUnary.send (h : ReadsUnary text meaning) (h' : ReadsUnaryMessage text' meaning') (hlast : Lasting meaning)
    (hsend : ∀ b x y, meaning b x → meaning' b x y → goal b y) : ReadsUnary (text ++ text') goal := by
  intro depth rest rest' a goal hdepth next
  rw [List.append_assoc] at hdepth ⊢
  refine h depth (text' ++ rest) rest' a goal hdepth fun k b x hab hx hk => ?_
  refine h' rest rest' b goal k x hk fun k c y hbc hy hk => ?_
  exact next k c y (hab.trans hbc) (hsend c x y (hlast hbc hx) hy) hk

theorem ReadsBinary.send (h : ReadsBinary text meaning n) (h' : ReadsBinaryMessage text' meaning' n) (hlast : Lasting meaning)
    (hstart : ∀ rest, (nextKind (text' ++ rest)).strength? = some n)
    (hsend : ∀ b x y, meaning b x → meaning' b x y → goal b y) : ReadsBinary (text ++ text') goal n := by
  intro depth rest rest' a goal k least hleast hdepth hk hrest next
  rw [List.append_assoc] at hdepth hk ⊢
  have hweak : Weak n (text' ++ rest) := .of_strength (hstart rest) (Nat.le_refl _)
  refine h depth (text' ++ rest) rest' a goal k least hleast hdepth hk hweak fun k b x hab hx hk => ?_
  have hdepth' : (text' ++ rest).length ≤ depth := by
    rw [List.length_append] at hdepth
    omega
  refine h' depth rest rest' b goal k least x hleast hdepth' hk hrest fun k c y hbc hy hk => ?_
  exact next k c y (hab.trans hbc) (hsend c x y (hlast hbc hx) hy) hk

theorem ReadsBinary.sendKeyword (h : ReadsBinary text meaning 1) (h' : ReadsKeywordMessage text' meaning')
    (hlast : Lasting meaning) (hstart : ∀ rest, (nextKind (text' ++ rest)).strength? = some 0)
    (hsend : ∀ b x y, meaning b x → meaning' b x y → goal b y) : ReadsKeyword (text ++ text') goal := by
  intro depth rest a hdepth hrest
  rw [List.append_assoc] at hdepth ⊢
  have hweak : Weak 0 (text' ++ rest) := .of_strength (hstart rest) (Nat.le_refl _)
  refine (h.binaryLevel hdepth hweak).bind fun b x _ hx => ?_
  have hdepth' : (text' ++ rest).length ≤ depth := by
    rw [List.length_append] at hdepth
    omega
  exact (h' depth rest b x hdepth' hrest).mono fun c y hbc hy => hsend c x y (hlast hbc hx) hy

/-- A message to an operand. -/
theorem ReadsOperand.send (h : ReadsOperand (max n 1) text meaning) (h' : ReadsMessage n text' meaning') (hlast : Lasting meaning)
    (hsend : ∀ b x y, meaning b x → meaning' b x y → goal b y) : ReadsOperand n (text ++ text') goal := by
  obtain ⟨hstart, h'⟩ := h'
  match n, h, h', hstart with
  | 3, h, h', _ => exact ReadsUnary.send h h' hlast hsend
  | 2, h, h', hstart => exact ReadsBinary.send h h' hlast hstart hsend
  | 1, h, h', hstart => exact ReadsBinary.send h h' hlast hstart hsend
  | 0, h, h', hstart => exact ReadsBinary.sendKeyword h h' hlast hstart hsend

/-! ## Messages -/

theorem readsMessage_unary {selector : String} (hshow : ∀ b x y, b.expr? y = some (.send x selector []) → meaning' b x y) :
    ReadsMessage 3 [.identifier selector] meaning' := by
  refine ⟨fun _ => rfl, ?_⟩
  intro rest rest' a goal k x hk next
  obtain ⟨k, rfl⟩ : ∃ j, k = j + 1 := ⟨k - 1, by omega⟩
  apply Reads.peek_bind
  apply Reads.advance_bind
  intro t _
  apply Reads.spanOf_bind
  intro span
  apply Reads.makeNode_bind
  intro b y hab hy
  refine next k b y hab (hshow b x y hy) ?_
  simp only [List.length_append, List.length_singleton] at hk
  omega

/-- The argument of an operator, before anything that the operator does not leave to it. -/
theorem ReadsOperand.afterOperator (h : ReadsOperand (n + 1) text meaning) (hn : n = 1 ∨ n = 2)
    (hdepth : (text ++ rest).length ≤ depth) (hk : (text ++ rest).length < k) (hrest : Weak n rest) :
    Reads a (operandWithin depth >>= binaryMessages (operandWithin depth) k (n + 1)) (text ++ rest) rest meaning := by
  have hlt : ∀ operator, nextKind rest = .operator operator → precedence operator < n + 1 := fun operator hop =>
    Nat.lt_succ_of_le (hrest.precedence_le hop)
  rcases hn with rfl | rfl
  · exact h depth rest rest a meaning k 2 (Nat.le_refl _) hdepth hk (hrest.mono (by omega)) fun k b x _ hx hk =>
      reads_binaryMessages_end (by omega) hlt hx
  · exact (ReadsUnary.unaryLevel h hdepth hrest).bind fun b x _ hx => reads_binaryMessages_end (by omega) hlt hx

theorem ReadsOperand.binary {operator : String} (h : ReadsOperand (n + 1) text meaning) (hn : precedence operator = n)
    (hlast : Lasting meaning) (hshow : ∀ b x y z, b.expr? y = some (.send x operator [z]) → meaning b z → meaning' b x y) :
    ReadsMessage n (.operator operator :: text) meaning' := by
  have hcases : n = 1 ∨ n = 2 := hn ▸ precedence_cases operator
  have hmessage : ReadsBinaryMessage (.operator operator :: text) meaning' n := by
    intro depth rest rest' a goal k least x hleast hdepth hk hrest next
    obtain ⟨k, rfl⟩ : ∃ j, k = j + 1 := ⟨k - 1, by omega⟩
    rw [List.cons_append, List.length_cons] at hdepth hk
    apply Reads.peek_bind
    simp only [List.cons_append, nextKind_cons]
    rw [if_neg (by omega), hn]
    apply Reads.advance_bind
    intro t _
    refine (h.afterOperator hcases (by omega) (by omega) hrest).bind_pair fun b z hab hz => ?_
    apply Reads.spanAcross_bind
    intro span
    apply Reads.makeNode_bind
    intro c y hbc hy
    refine next k c y (hab.trans hbc) (hshow c x y z hy (hlast hbc hz)) ?_
    rw [List.length_append] at hk
    omega
  refine ⟨fun _ => congrArg some hn, ?_⟩
  rcases hcases with rfl | rfl
  · exact hmessage
  · exact hmessage

/-- The text spells keywords of these names with arguments. -/
structure ReadsParts (text : List TokenKind) (names : List String) (meaning : Arena → List NodeId → Prop) : Prop where
  starts : ∀ rest, ∃ part, nextKind (text ++ rest) = .keyword part
  reads : ∀ depth rest a k, (text ++ rest).length ≤ depth → (text ++ rest).length < k → NoMessage rest →
    Reads a (keywordParts (binaryLevel (depth + 1) (expressionWithin depth)) k) (text ++ rest) rest fun b parts =>
      parts.map (·.1) = names ∧ meaning b (parts.map (·.2))

theorem reads_keywordParts_end {argument : Parser NodeId} (hk : 0 < k) (hrest : NoMessage rest) :
    Reads a (keywordParts argument k) rest rest fun _ parts => parts = [] := by
  obtain ⟨k, rfl⟩ : ∃ j, k = j + 1 := ⟨k - 1, by omega⟩
  apply Reads.peek_bind
  split
  · next part hpart =>
    rw [NoMessage, hpart] at hrest
    cases hrest
  · exact .pure rfl

theorem ReadsOperand.lastPart {part : String} {goal : Arena → List NodeId → Prop} (h : ReadsOperand 1 text meaning)
    (hlast : Lasting meaning) (hshow : ∀ b x, meaning b x → goal b [x]) : ReadsParts (.keyword part :: text) [part] goal := by
  refine ⟨fun _ => ⟨part, rfl⟩, ?_⟩
  intro depth rest a k hdepth hk hrest
  obtain ⟨k, rfl⟩ : ∃ j, k = j + 1 := ⟨k - 1, by omega⟩
  rw [List.cons_append, List.length_cons] at hdepth hk
  apply Reads.peek_bind
  apply Reads.advance_bind
  intro t _
  refine (ReadsBinary.binaryLevel h (by omega) hrest.weak).bind fun b x _ hx => ?_
  refine (reads_keywordParts_end (by omega) hrest).bind fun c parts hbc hparts => ?_
  subst hparts
  exact .pure ⟨rfl, hshow c x (hlast hbc hx)⟩

theorem ReadsOperand.morePart {part : String} {meaning₂ goal : Arena → List NodeId → Prop} (h : ReadsOperand 1 text meaning)
    (h' : ReadsParts text' names meaning₂) (hlast : Lasting meaning)
    (hshow : ∀ b x xs, meaning b x → meaning₂ b xs → goal b (x :: xs)) :
    ReadsParts (.keyword part :: text ++ text') (part :: names) goal := by
  refine ⟨fun _ => ⟨part, rfl⟩, ?_⟩
  intro depth rest a k hdepth hk hrest
  obtain ⟨k, rfl⟩ : ∃ j, k = j + 1 := ⟨k - 1, by omega⟩
  rw [List.append_assoc, List.cons_append] at hdepth hk ⊢
  rw [List.length_cons] at hdepth hk
  apply Reads.peek_bind
  apply Reads.advance_bind
  intro t _
  obtain ⟨next, hnext⟩ := h'.starts rest
  have hweak : Weak 0 (text' ++ rest) := .of_strength (by rw [hnext]; rfl) (Nat.le_refl _)
  refine (ReadsBinary.binaryLevel h (by omega) hweak).bind fun b x _ hx => ?_
  rw [List.length_append] at hdepth hk
  refine (h'.reads depth rest b k (by omega) (by omega) hrest).bind fun c parts hbc ⟨hnames, hxs⟩ => ?_
  exact .pure ⟨congrArg (part :: ·) hnames, hshow c x _ (hlast hbc hx) hxs⟩

theorem ReadsParts.keyword {meaning₂ : Arena → List NodeId → Prop} (h : ReadsParts text names meaning₂) (hlast : Lasting meaning₂)
    (hshow : ∀ b x y xs, b.expr? y = some (.send x (String.join names) xs) → meaning₂ b xs → meaning' b x y) :
    ReadsMessage 0 text meaning' := by
  obtain ⟨hstart, h⟩ := h
  constructor
  · intro rest
    obtain ⟨part, hpart⟩ := hstart rest
    rw [hpart]
    rfl
  · intro depth rest a x hdepth hrest
    obtain ⟨part, hpart⟩ := hstart rest
    apply Reads.peek_bind
    rw [hpart]
    refine (h depth rest a (depth + 1) hdepth (by omega) hrest).bind fun b parts _ ⟨hnames, hxs⟩ => ?_
    apply Reads.spanAcross_bind
    intro span
    apply Reads.makeNode
    intro c y hbc hy
    rw [hnames] at hy
    exact hshow c x y _ hy (hlast hbc hxs)

/-! ## Cascades -/

/-- A message by itself can be one more of a cascade. -/
theorem ReadsMessage.cascadeMessage (h : ReadsMessage n text meaning') (hdepth : (text ++ rest).length ≤ depth)
    (hrest : NoMessage rest) :
    Reads a (cascadeMessage (depth + 1) (expressionWithin depth) x) (text ++ rest) rest fun b y => meaning' b x y := by
  obtain ⟨hstart, h⟩ := h
  replace hstart := hstart rest
  have hweak : Weak 0 rest := hrest.weak
  apply Reads.peek_bind
  -- The first token tells the kind of message, and nothing else is there to be read before the rest.
  split
  · next name hname =>
    rw [hname] at hstart
    cases hstart
    have hunary : Reads a (unaryMessages (depth + 1) x) (text ++ rest) rest fun b y => meaning' b x y :=
      h rest rest a _ (depth + 1) x (by omega) fun k b y _ hy hk => reads_unaryMessages_end (by omega) hrest.weak hy
    refine hunary.bind fun b y _ hy => ?_
    have hbinary : Reads b (binaryMessages (operandWithin depth) (depth + 1) 0 y) rest rest fun b y => meaning' b x y :=
      reads_binaryMessages_end (by omega) hweak.no_operator hy
    exact hbinary.bind fun c y _ hy => reads_optionalKeywordMessage_end hrest hy
  · next operator hop =>
    rw [hop] at hstart
    obtain rfl : precedence operator = n := Option.some.inj hstart
    have hmessage : ReadsBinaryMessage text meaning' (precedence operator) := by
      rcases precedence_cases operator with hp | hp <;> (rw [hp] at h ⊢; exact h)
    have hbinary : Reads a (binaryMessages (operandWithin depth) (depth + 1) 0 x) (text ++ rest) rest fun b y => meaning' b x y :=
      hmessage depth rest rest a _ (depth + 1) 0 x (by omega) hdepth (by omega) hrest.weak fun k b y _ hy hk =>
        reads_binaryMessages_end (by omega) hweak.no_operator hy
    exact hbinary.bind fun b y _ hy => reads_optionalKeywordMessage_end hrest hy
  · next part hpart =>
    rw [hpart] at hstart
    cases hstart
    rw [pure_bind]
    exact h depth rest a x hdepth hrest
  · next hname hop hpart =>
    generalize nextKind (text ++ rest) = kind at hstart hname hop hpart
    cases kind with
    | identifier name => exact absurd rfl (hname name)
    | operator operator => exact absurd rfl (hop operator)
    | keyword part => exact absurd rfl (hpart part)
    | _ => cases hstart

/-- The text spells further messages of a cascade, a semicolon before each. -/
structure ReadsMessages (text : List TokenKind) (meaning : Arena → NodeId → List NodeId → Prop) : Prop where
  starts : ∀ rest, nextKind (text ++ rest) = .mark .semicolon
  reads : ∀ depth rest a k x, (text ++ rest).length ≤ depth → (text ++ rest).length < k → NoMessage rest →
    nextKind rest ≠ .mark .semicolon →
    Reads a (cascadeMessages (cascadeMessage (depth + 1) (expressionWithin depth) x) k) (text ++ rest) rest fun b ys => meaning b x ys

theorem reads_cascadeMessages_end {message : Parser NodeId} (hk : 0 < k) (hrest : nextKind rest ≠ .mark .semicolon) :
    Reads a (cascadeMessages message k) rest rest fun _ ys => ys = [] := by
  obtain ⟨k, rfl⟩ : ∃ j, k = j + 1 := ⟨k - 1, by omega⟩
  apply Reads.check_bind
  rw [decide_eq_false hrest]
  exact .pure rfl

theorem ReadsMessage.last {goal : Arena → NodeId → List NodeId → Prop} (h : ReadsMessage n text meaning')
    (hlast : ∀ x, Lasting (meaning' · x)) (hshow : ∀ b x y, meaning' b x y → goal b x [y]) :
    ReadsMessages (.mark .semicolon :: text) goal := by
  refine ⟨fun _ => rfl, ?_⟩
  intro depth rest a k x hdepth hk hrest hend
  obtain ⟨k, rfl⟩ : ∃ j, k = j + 1 := ⟨k - 1, by omega⟩
  rw [List.cons_append, List.length_cons] at hdepth hk
  apply Reads.check_bind
  apply Reads.advance_bind
  intro t _
  refine (h.cascadeMessage (by omega) hrest).bind fun b y _ hy => ?_
  refine (reads_cascadeMessages_end (by omega) hend).bind fun c ys hbc hys => ?_
  subst hys
  exact .pure (hshow c x y (hlast x hbc hy))

theorem ReadsMessage.more {meaning₂ goal : Arena → NodeId → List NodeId → Prop} (h : ReadsMessage n text meaning')
    (h' : ReadsMessages text' meaning₂) (hlast : ∀ x, Lasting (meaning' · x))
    (hshow : ∀ b x y ys, meaning' b x y → meaning₂ b x ys → goal b x (y :: ys)) :
    ReadsMessages (.mark .semicolon :: text ++ text') goal := by
  refine ⟨fun _ => rfl, ?_⟩
  intro depth rest a k x hdepth hk hrest hend
  obtain ⟨k, rfl⟩ : ∃ j, k = j + 1 := ⟨k - 1, by omega⟩
  rw [List.append_assoc, List.cons_append] at hdepth hk ⊢
  rw [List.length_cons] at hdepth hk
  apply Reads.check_bind
  apply Reads.advance_bind
  intro t _
  have hnext : NoMessage (text' ++ rest) := by rw [NoMessage, h'.starts]; rfl
  refine (h.cascadeMessage (by omega) hnext).bind fun b y _ hy => ?_
  rw [List.length_append] at hdepth hk
  refine (h'.reads depth rest b k x (by omega) (by omega) hrest hend).bind fun c ys hbc hys => ?_
  exact .pure (hshow c x y ys (hlast x hbc hy) hys)

/-! ## Expressions -/

/-- An expression ends here. -/
def Ends (ahead : List TokenKind) : Prop :=
  nextKind ahead = .mark .dot ∨ nextKind ahead = .mark .rightParen ∨ nextKind ahead = .mark .rightBracket

theorem Ends.noMessage (h : Ends rest) : NoMessage rest := by
  rcases h with h | h | h <;> (rw [NoMessage, h]; rfl)

theorem Ends.ne_semicolon (h : Ends rest) : nextKind rest ≠ .mark .semicolon := by
  rcases h with h | h | h <;> (rw [h]; decide)

theorem Ends.ne_assign (h : Ends rest) : nextKind rest ≠ .mark .assign := by
  rcases h with h | h | h <;> (rw [h]; decide)

/-- The text is an expression. -/
def ReadsExpression (text : List TokenKind) (meaning : Arena → NodeId → Prop) : Prop :=
  ∀ bound rest a, (text ++ rest).length < bound → Ends rest → Reads a (expressionWithin bound) (text ++ rest) rest meaning

theorem reads_assignmentTail_end {expr : Parser NodeId} (hrest : nextKind rest ≠ .mark .assign) (h : goal a x) :
    Reads a (assignmentTail expr x) rest rest goal := by
  apply Reads.check_bind
  rw [decide_eq_false hrest]
  exact .pure h

theorem ReadsOperand.cascadeLevel (h : ReadsOperand 0 text meaning) (hdepth : (text ++ rest).length ≤ depth)
    (hrest : NoMessage rest) (hend : nextKind rest ≠ .mark .semicolon) :
    Reads a (cascadeLevel (depth + 1) (expressionWithin depth)) (text ++ rest) rest meaning := by
  refine (h depth rest a hdepth hrest).bind fun b x _ hx => ?_
  apply Reads.check_bind
  rw [decide_eq_false hend]
  exact .pure hx

theorem ReadsOperand.plain (h : ReadsOperand 0 text meaning) (hshow : ∀ b x, meaning b x → goal b x) :
    ReadsExpression text goal := by
  intro bound rest a hbound hrest
  obtain ⟨depth, rfl⟩ : ∃ j, bound = j + 1 := ⟨bound - 1, by omega⟩
  refine (h.cascadeLevel (by omega) hrest.noMessage hrest.ne_semicolon).bind fun b x _ hx => ?_
  exact reads_assignmentTail_end hrest.ne_assign (hshow b x hx)

/-- The first message of a cascade is read as a send to an operand; what it was sent to then gets the other messages. -/
theorem ReadsOperand.cascade {text'' : List TokenKind} {meaning₂ : Arena → NodeId → List NodeId → Prop}
    (h : ReadsOperand (max n 1) text meaning) (h' : ReadsMessage n text' meaning') (h'' : ReadsMessages text'' meaning₂)
    (hlast : Lasting meaning) (hlast' : ∀ x, Lasting (meaning' · x)) (hlast'' : ∀ x, Lasting (meaning₂ · x))
    (hsends : ∀ b x y, meaning' b x y → ∃ selector args, b.expr? y = some (.send x selector args))
    (hshow : ∀ b x y z zs, b.expr? z = some (.cascade x (y :: zs)) → meaning b x → meaning' b x y → meaning₂ b x zs → goal b z) :
    ReadsExpression (text ++ text' ++ text'') goal := by
  intro bound rest a hbound hrest
  obtain ⟨depth, rfl⟩ : ∃ j, bound = j + 1 := ⟨bound - 1, by omega⟩
  rw [List.append_assoc] at hbound ⊢
  have hfirst : ReadsOperand n (text ++ text') fun b y => ∃ x, meaning b x ∧ meaning' b x y :=
    h.send h' hlast fun b x y hx hy => ⟨x, hx, hy⟩
  have hnext : NoMessage (text'' ++ rest) := by rw [NoMessage, h''.starts]; rfl
  have hlevel : Reads a (Parser.cascadeLevel (depth + 1) (expressionWithin depth)) (text ++ text' ++ (text'' ++ rest)) rest goal := by
    refine (hfirst.weakest depth (text'' ++ rest) a (by omega) hnext).bind fun b y _ ⟨x, hx, hy⟩ => ?_
    apply Reads.check_bind
    rw [h''.starts, if_pos (decide_eq_true rfl)]
    apply Reads.get_bind
    intro s hs
    obtain ⟨selector, args, hsend⟩ := hsends b x y hy
    rw [hs, hsend]
    rw [List.length_append] at hbound
    refine (h''.reads depth rest b (depth + 1) x (by omega) (by omega) hrest.noMessage hrest.ne_semicolon).bind fun c zs hbc hzs => ?_
    apply Reads.spanAcross_bind
    intro span
    apply Reads.makeNode
    intro d z hcd hz
    have hbd := hbc.trans hcd
    exact hshow d x y z zs hz (hlast hbd hx) (hlast' x hbd hy) (hlast'' x hcd hzs)
  exact hlevel.bind fun b z _ hz => reads_assignmentTail_end hrest.ne_assign hz

theorem ReadsOperand.assign {name : String} (h : ReadsOperand n text fun b x => b.expr? x = some (.ident name))
    (h' : ReadsExpression text' meaning) (hlast : Lasting meaning)
    (hshow : ∀ b x y z, b.expr? z = some (.assign x y) → b.expr? x = some (.ident name) → meaning b y → goal b z) :
    ReadsExpression (text ++ .mark .assign :: text') goal := by
  intro bound rest a hbound hrest
  obtain ⟨depth, rfl⟩ : ∃ j, bound = j + 1 := ⟨bound - 1, by omega⟩
  rw [List.append_assoc, List.cons_append] at hbound ⊢
  have hassign : NoMessage (.mark .assign :: (text' ++ rest)) := rfl
  refine (h.weakest.cascadeLevel (by omega) hassign nofun).bind fun b x _ hx => ?_
  apply Reads.check_bind
  apply Reads.advance_bind
  intro mark _
  apply Reads.get_bind
  intro s hs
  rw [hs, hx]
  rw [List.length_append, List.length_cons] at hbound
  refine (h' depth rest b (by omega) hrest).bind fun c y hbc hy => ?_
  apply Reads.spanAcross_bind
  intro span
  apply Reads.makeNode
  intro d z hcd hz
  exact hshow d x y z hz ((hbc.trans hcd).expr hx) (hlast hcd hy)

end Parser
end BlockScope
