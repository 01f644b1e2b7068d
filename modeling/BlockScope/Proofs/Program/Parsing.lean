import BlockScope.Proofs.Program.Literals
import BlockScope.Proofs.Program.Reading
import BlockScope.Proofs.Text.Encoding
import BlockScope.Proofs.Token.Words
/-!
# Parsed programs are forests

Every production of the grammar makes the nodes of one piece of syntax and no others, in the order that
`Arena.Fills` asks for. The productions for messages get the receiver as a node made before; what they make
is then a stretch of messages on it, and becomes an operand together with the receiver.
-/
namespace BlockScope
open BlockScope.Parser

/-- Each method is on the side that it is listed under. -/
structure Sided (instanceMethods classMethods : List Method) : Prop where
  instances : ∀ m ∈ instanceMethods, m.classSide = false
  classes : ∀ m ∈ classMethods, m.classSide = true

/-- The node is the base itself, or a message on it that takes these places. -/
def Arena.Left (a : Arena) (base left : NodeId) (lo hi : Nat) : Prop :=
  (left = base ∧ lo = hi) ∨ a.Fills (.one (.message base) left) lo hi

namespace Arena
variable {a b : Arena} {base left id : NodeId} {lo mid hi n : Nat} {selector : String} {args : List NodeId}

/-- Messages on an operand make an operand of both. -/
theorem Fills.complete (h : a.Fills (.one (.message base) id) mid hi) (hb : a.Fills (.one .operand base) lo mid) :
    a.Fills (.one .operand id) lo hi := by
  generalize hp : Piece.one (.message base) id = piece at h
  induction h generalizing id with
  | direct h rest =>
    cases hp
    exact .send h hb rest
  | chain h first rest ih =>
    cases hp
    exact .send h (ih hb rfl) rest
  | _ => cases hp

/-- An operand that is a send is made of its receiver and its arguments. -/
theorem Fills.of_send (h : a.Fills (.one .operand id) lo hi) (he : a.expr? id = some (.send base selector args)) :
    ∃ mid, a.Fills (.one .operand base) lo mid ∧ a.Fills (.row .operand args) mid id.index := by
  cases h with
  | send h' first rest =>
    rw [he] at h'
    cases h'
    exact ⟨_, first, rest⟩
  | literal h' | ident h' | assign h' | cascade h' | block h' | paren h' | array h' =>
    rw [he] at h'
    cases h'

namespace Left

theorem refl (a : Arena) (base : NodeId) (lo : Nat) : a.Left base base lo lo := .inl ⟨rfl, rfl⟩

theorem mono (h : a.Left base left lo hi) (hab : a.Before b) : b.Left base left lo hi :=
  h.imp_right (·.mono hab)

theorem operand (h : a.Left base left mid hi) (hb : a.Fills (.one .operand base) lo mid) :
    a.Fills (.one .operand left) lo hi := by
  rcases h with ⟨rfl, rfl⟩ | h
  · exact hb
  · exact h.complete hb

theorem message (h : a.Left base left lo mid) (rest : a.Fills (.row .operand args) mid n)
    (he : a.expr? ⟨n⟩ = some (.send left selector args)) : a.Fills (.one (.message base) ⟨n⟩) lo (n + 1) := by
  rcases h with ⟨rfl, rfl⟩ | h
  · exact .direct he rest
  · exact .chain he h rest

/-- Where a node was made, it is a message. -/
theorem fills (h : a.Left base left lo hi) (hlt : lo < hi) : a.Fills (.one (.message base) left) lo hi := by
  rcases h with ⟨-, rfl⟩ | h
  · omega
  · exact h

end Left
end Arena

namespace Parser
variable {P : String → Prop} {α β : Type} {s s' s₀ : ParserState} {e : Expr} {span : Span} {id : NodeId}
  {expr arg : Parser NodeId} {bound : Nat}

theorem makeNode_spec (h : Runs (makeNode e span) s id s') :
    id = ⟨s.arena.size⟩ ∧ s'.tokens = s.tokens ∧ s.arena.Before s'.arena ∧ s'.arena.expr? ⟨s.arena.size⟩ = some e ∧
      s'.arena.size = s.arena.size + 1 := by
  unfold makeNode at h
  rw [Runs.modifyGet_iff] at h
  cases h
  exact ⟨rfl, rfl, .push _ _, Arena.expr?_push _ _, Arena.size_push _ _⟩

theorem expr?_makeNode (h : Runs (makeNode e span) s id s') {x : NodeId} (hx : x.index ≠ s.arena.size) :
    s'.arena.expr? x = s.arena.expr? x := by
  unfold makeNode at h
  rw [Runs.modifyGet_iff] at h
  cases h
  have hx' : x.index ≠ s.arena.nodes.size := hx
  simp [Arena.expr?, Arena.get?, Array.getElem?_push, hx']

/-- A new node carries the property if its own name does, and is a cascade only as it should be. -/
theorem leads_makeNode (h : s₀.Leads P s) (hr : Runs (makeNode e span) s id s')
    (hP : s₀.Named P → ∀ name, e = .ident name → P name)
    (hC : ∀ receiver messages, e = .cascade receiver messages → s.arena.Heads receiver messages) : s₀.Leads P s' := by
  obtain ⟨-, htokens, hbefore, he, -⟩ := makeNode_spec hr
  -- Only the last node is new.
  have hnodes : ∀ x e', s'.arena.expr? x = some e' → e' = e ∨ s.arena.expr? x = some e' := by
    intro x e' hx
    by_cases hlast : x.index = s.arena.size
    · obtain rfl : x = ⟨s.arena.size⟩ := by cases x; simp_all
      rw [he] at hx
      exact .inl (Option.some.inj hx).symm
    · rw [expr?_makeNode hr hlast] at hx
      exact .inr hx
  refine ⟨h.arena.trans hbefore, fun hn => ⟨?_, ?_⟩, ?_⟩
  · rw [htokens]
    exact (h.named hn).tokens
  · intro x name hx
    rcases hnodes x _ hx with rfl | hx
    · exact hP hn name rfl
    · exact (h.named hn).nodes x name hx
  · intro hc d receiver messages hd
    rcases hnodes d _ hd with rfl | hd
    · exact (hC receiver messages rfl).mono hbefore
    · exact (h.cascades hc d receiver messages hd).mono hbefore

/-- From a node in one state, messages lead to a node in another: whatever base the first goes back to, the
second does too. -/
structure Sends (P : String → Prop) (s : ParserState) (left : NodeId) (s' : ParserState) (x : NodeId) : Prop where
  leads : s.Leads P s'
  left : ∀ base lo, s.arena.Left base left lo s.arena.size → s'.arena.Left base x lo s'.arena.size

/-- A production of messages to a node. -/
def Extends (P : String → Prop) (p : NodeId → Parser NodeId) : Prop :=
  ∀ left s x s', Runs (p left) s x s' → Sends P s left s' x

namespace Sends
variable {t : ParserState} {left x y : NodeId}

theorem refl (P : String → Prop) (s : ParserState) (left : NodeId) : Sends P s left s left :=
  ⟨.refl _ _, fun _ _ h => h⟩

theorem trans (h : Sends P s left t y) (h' : Sends P t y s' x) : Sends P s left s' x :=
  ⟨h.leads.trans h'.leads, fun base lo hl => h'.left base lo (h.left base lo hl)⟩

/-- Reading a token changes nothing about the nodes. -/
theorem quiet (h : s.Leads P t) (ha : t.arena = s.arena) (h' : Sends P t left s' x) : Sends P s left s' x := by
  refine ⟨h.trans h'.leads, ?_⟩
  rw [← ha]
  exact h'.left

theorem operand {lo : Nat} (h : Sends P s left s' x) (ho : s.arena.Fills (.one .operand left) lo s.arena.size) :
    s'.arena.Fills (.one .operand x) lo s'.arena.size :=
  (h.left left _ (.refl _ _ _)).operand (ho.mono h.leads.arena)

/-- Messages that made a node made one of the base. -/
theorem fills (h : Sends P s left s' x) (hlt : s.arena.size < s'.arena.size) :
    s'.arena.Fills (.one (.message left) x) s.arena.size s'.arena.size :=
  (h.left left _ (.refl _ _ _)).fills hlt

/-- A send to a node with arguments made after it. -/
theorem node {selector : String} {args : List NodeId} (hl : s.Leads P t)
    (hargs : t.arena.Fills (.row .operand args) s.arena.size t.arena.size)
    (hr : Runs (makeNode (.send left selector args) span) t x s') :
    Sends P s left s' x ∧ s.arena.size < s'.arena.size := by
  obtain ⟨rfl, -, hbefore, he, hsize⟩ := makeNode_spec hr
  refine ⟨⟨leads_makeNode hl hr (by simp) (by simp), fun base lo h => ?_⟩, ?_⟩
  · rw [hsize]
    exact .inr ((h.mono (hl.arena.trans hbefore)).message (hargs.mono hbefore) he)
  · have := hl.arena.size
    omega

end Sends

/-! ## Messages -/

theorem unaryMessages_cases {n : Nat} {left x : NodeId} (h : Runs (unaryMessages (n + 1) left) s x s') :
    (x = left ∧ s' = s.skipped ∧ ∀ name, s.skipped.headKind ≠ .identifier name) ∨
    ∃ t y, Sends P s left t y ∧ s.arena.size < t.arena.size ∧ Runs (unaryMessages n y) t x s' := by
  simp only [unaryMessages, Runs.bind_iff, peek_iff] at h
  obtain ⟨_, _, ⟨rfl, rfl⟩, h⟩ := h
  split at h
  · simp only [Runs.bind_iff] at h
    obtain ⟨token, t₁, h₁, span, t₂, h₂, y, t₃, h₃, h⟩ := h
    obtain ⟨l₁, e₁⟩ := Quiet.advance _ _ _ h₁
    obtain ⟨l₂, e₂⟩ := Quiet.spanOf left _ _ _ h₂
    have e : t₂.arena = s.arena := by rw [e₂, e₁]; rfl
    obtain ⟨hs, hlt⟩ := Sends.node ((leads_skipped s).trans (l₁.trans l₂)) (by rw [e]; exact .nil) h₃
    exact .inr ⟨t₃, y, hs, hlt, h⟩
  · next hk =>
    obtain ⟨rfl, rfl⟩ := Runs.pure_iff.1 h
    exact .inl ⟨rfl, rfl, hk⟩

theorem extends_unaryMessages (n : Nat) : Extends P (unaryMessages n) := by
  induction n with
  | zero =>
    intro left s x s' h
    obtain ⟨rfl, rfl⟩ := Runs.pure_iff.1 h
    exact .refl _ _ _
  | succ n ih =>
    intro left s x s' h
    rcases unaryMessages_cases h with ⟨rfl, rfl, -⟩ | ⟨t, y, hs, -, h⟩
    · exact .quiet (leads_skipped s) rfl (.refl _ _ _)
    · exact hs.trans (ih y t x s' h)

theorem size_unaryMessages {n : Nat} {left x : NodeId} {name : String} (h : Runs (unaryMessages (n + 1) left) s x s')
    (hk : s.skipped.headKind = .identifier name) : s.arena.size < s'.arena.size := by
  rcases unaryMessages_cases (P := fun _ => True) h with ⟨-, -, hn⟩ | ⟨t, y, -, hlt, h⟩
  · exact absurd hk (hn name)
  · have := (extends_unaryMessages (P := fun _ => True) n y t x s' h).leads.arena.size
    omega

theorem binaryMessages_cases {n least : Nat} {left x : NodeId} (harg : Makes P arg (.one .operand))
    (hrec : ∀ least, Extends P (binaryMessages arg n least)) (h : Runs (binaryMessages arg (n + 1) least left) s x s') :
    (x = left ∧ s' = s.skipped ∧ ∀ name, s.skipped.headKind = .operator name → precedence name < least) ∨
    ∃ t y, Sends P s left t y ∧ s.arena.size < t.arena.size ∧ Runs (binaryMessages arg n least y) t x s' := by
  simp only [binaryMessages, Runs.bind_iff, peek_iff] at h
  obtain ⟨_, _, ⟨rfl, rfl⟩, h⟩ := h
  split at h
  · next selector hk =>
    split at h
    · next hp =>
      obtain ⟨rfl, rfl⟩ := Runs.pure_iff.1 h
      refine .inl ⟨rfl, rfl, fun name hk' => ?_⟩
      obtain rfl : selector = name := by rw [hk] at hk'; exact TokenKind.operator.inj hk'
      exact hp
    · simp only [Runs.bind_iff] at h
      obtain ⟨_, t₁, h₁, right, t₂, h₂, right', t₃, h₃, span, t₄, h₄, y, t₅, h₅, h⟩ := h
      obtain ⟨l₁, e₁⟩ := Quiet.advance _ _ _ h₁
      obtain ⟨l₂, f₂⟩ := harg _ _ _ h₂
      -- The operand takes in what binds tighter before it becomes the argument.
      have s₃ := hrec _ _ _ _ _ h₃
      obtain ⟨l₄, e₄⟩ := Quiet.spanAcross left right' _ _ _ h₄
      have e : t₁.arena = s.arena := by rw [e₁]; rfl
      rw [e] at f₂
      have hargs : t₄.arena.Fills (.row .operand [right']) s.arena.size t₄.arena.size := by
        rw [e₄]
        exact .cons (s₃.operand f₂) .nil
      obtain ⟨hs, hlt⟩ := Sends.node ((leads_skipped s).trans (l₁.trans (l₂.trans (s₃.leads.trans l₄)))) hargs h₅
      exact .inr ⟨t₅, y, hs, hlt, h⟩
  · next hk =>
    obtain ⟨rfl, rfl⟩ := Runs.pure_iff.1 h
    exact .inl ⟨rfl, rfl, fun name hk' => absurd hk' (hk name)⟩

theorem extends_binaryMessages (harg : Makes P arg (.one .operand)) (n least : Nat) :
    Extends P (binaryMessages arg n least) := by
  induction n generalizing least with
  | zero =>
    intro left s x s' h
    obtain ⟨rfl, rfl⟩ := Runs.pure_iff.1 h
    exact .refl _ _ _
  | succ n ih =>
    intro left s x s' h
    rcases binaryMessages_cases harg ih h with ⟨rfl, rfl, -⟩ | ⟨t, y, hs, -, h⟩
    · exact .quiet (leads_skipped s) rfl (.refl _ _ _)
    · exact hs.trans (ih least y t x s' h)

theorem size_binaryMessages {n : Nat} {left x : NodeId} {name : String} (harg : Makes P arg (.one .operand))
    (h : Runs (binaryMessages arg (n + 1) 0 left) s x s') (hk : s.skipped.headKind = .operator name) :
    s.arena.size < s'.arena.size := by
  rcases binaryMessages_cases harg (extends_binaryMessages harg n) h with ⟨-, -, hn⟩ | ⟨t, y, -, hlt, h⟩
  · exact absurd (hn name hk) (Nat.not_lt_zero _)
  · have := (extends_binaryMessages harg n 0 y t x s' h).leads.arena.size
    omega

theorem makes_keywordParts (harg : Makes P arg (.one .operand)) (n : Nat) :
    Makes P (keywordParts arg n) fun parts => .row .operand (parts.map (·.2)) := by
  induction n with
  | zero =>
    intro s x s' h
    obtain ⟨rfl, rfl⟩ := Runs.pure_iff.1 h
    exact ⟨.refl _ _, .nil⟩
  | succ n ih =>
    intro s x s' h
    simp only [keywordParts, Runs.bind_iff, peek_iff] at h
    obtain ⟨_, _, ⟨rfl, rfl⟩, h⟩ := h
    split at h
    · simp only [Runs.bind_iff, Runs.pure_iff] at h
      obtain ⟨_, t₁, h₁, first, t₂, h₂, rest, t₃, h₃, rfl, rfl⟩ := h
      obtain ⟨l₁, e₁⟩ := Quiet.advance _ _ _ h₁
      obtain ⟨l₂, f₂⟩ := harg _ _ _ h₂
      obtain ⟨l₃, f₃⟩ := ih _ _ _ h₃
      rw [show t₁.arena = s.arena by rw [e₁]; rfl] at f₂
      exact ⟨(leads_skipped s).trans (l₁.trans (l₂.trans l₃)), .cons (f₂.mono l₃.arena) f₃⟩
    · obtain ⟨rfl, rfl⟩ := Runs.pure_iff.1 h
      exact ⟨leads_skipped s, .nil⟩

theorem sends_keywordMessage {left x : NodeId} (harg : Makes P arg (.one .operand))
    (h : Runs (keywordMessage bound arg left) s x s') : Sends P s left s' x ∧ s.arena.size < s'.arena.size := by
  simp only [keywordMessage, Runs.bind_iff] at h
  obtain ⟨parts, t₁, h₁, span, t₂, h₂, h⟩ := h
  obtain ⟨l₁, f₁⟩ := makes_keywordParts harg bound _ _ _ h₁
  obtain ⟨l₂, e₂⟩ := Quiet.spanAcross _ _ _ _ _ h₂
  exact Sends.node (l₁.trans l₂) (by rw [e₂]; exact f₁) h

theorem extends_optionalKeywordMessage (harg : Makes P arg (.one .operand)) :
    Extends P (optionalKeywordMessage bound arg) := by
  intro left s x s' h
  simp only [optionalKeywordMessage, Runs.bind_iff, peek_iff] at h
  obtain ⟨_, _, ⟨rfl, rfl⟩, h⟩ := h
  split at h
  · exact .quiet (leads_skipped s) rfl (sends_keywordMessage harg h).1
  · obtain ⟨rfl, rfl⟩ := Runs.pure_iff.1 h
    exact .quiet (leads_skipped s) rfl (.refl _ _ _)

theorem size_optionalKeywordMessage {left x : NodeId} {part : String} (harg : Makes P arg (.one .operand))
    (h : Runs (optionalKeywordMessage bound arg left) s x s') (hk : s.skipped.headKind = .keyword part) :
    s.arena.size < s'.arena.size := by
  simp only [optionalKeywordMessage, Runs.bind_iff, peek_iff] at h
  obtain ⟨_, _, ⟨rfl, rfl⟩, h⟩ := h
  rw [hk] at h
  exact (sends_keywordMessage harg h).2

/-! ## Primaries -/

theorem makes_statement (hexpr : Makes P expr (.one .operand)) : Makes P (statement expr) (.one .statement) := by
  intro s x s' h
  simp only [statement, Runs.bind_iff] at h
  obtain ⟨_, t₁, h₁, h⟩ := h
  obtain ⟨l₁, e₁⟩ := Quiet.check _ _ _ _ h₁
  split at h
  · simp only [Runs.bind_iff] at h
    obtain ⟨caret, t₂, h₂, value, t₃, h₃, span, t₄, h₄, h⟩ := h
    obtain ⟨l₂, e₂⟩ := Quiet.advance _ _ _ h₂
    obtain ⟨l₃, f₃⟩ := hexpr _ _ _ h₃
    obtain ⟨l₄, e₄⟩ := Quiet.spanOf _ _ _ _ h₄
    obtain ⟨rfl, -, hbefore, he, hsize⟩ := makeNode_spec h
    have l : s.Leads P t₄ := l₁.trans (l₂.trans (l₃.trans l₄))
    refine ⟨leads_makeNode l h (by simp) (by simp), ?_⟩
    rw [e₂, e₁, ← e₄] at f₃
    rw [hsize]
    exact .ret he (f₃.mono hbefore)
  · obtain ⟨l₂, f₂⟩ := hexpr _ _ _ h
    rw [e₁] at f₂
    exact ⟨l₁.trans l₂, .expression f₂⟩

theorem makes_statements (hexpr : Makes P expr (.one .operand)) (n : Nat) :
    Makes P (statements expr n) (.row .statement) := by
  induction n with
  | zero =>
    intro s x s' h
    obtain ⟨rfl, rfl⟩ := Runs.pure_iff.1 h
    exact ⟨.refl _ _, .nil⟩
  | succ n ih =>
    intro s x s' h
    simp only [statements, Runs.bind_iff, peek_iff] at h
    obtain ⟨_, _, ⟨rfl, rfl⟩, h⟩ := h
    split at h
    · simp only [Runs.bind_iff] at h
      obtain ⟨_, t₁, h₁, h⟩ := h
      obtain ⟨l₁, e₁⟩ := Quiet.advance _ _ _ h₁
      obtain ⟨l₂, f₂⟩ := ih _ _ _ h
      rw [show t₁.arena = s.arena by rw [e₁]; rfl] at f₂
      exact ⟨(leads_skipped s).trans (l₁.trans l₂), f₂⟩
    · obtain ⟨rfl, rfl⟩ := Runs.pure_iff.1 h
      exact ⟨leads_skipped s, .nil⟩
    · simp only [Runs.bind_iff, peek_iff] at h
      obtain ⟨first, t₁, h₁, _, _, ⟨rfl, rfl⟩, h⟩ := h
      obtain ⟨l₁, f₁⟩ := makes_statement hexpr _ _ _ h₁
      -- Whatever follows a statement is either read by the rest or an error.
      have hrest : ∀ {m : Parser (List NodeId)}, m = (do return first :: (← statements expr n)) →
          Runs m t₁.skipped x s' → s.Leads P s' ∧ s'.arena.Fills (.row .statement x) s.arena.size s'.arena.size := by
        rintro m rfl h
        simp only [Runs.bind_iff, Runs.pure_iff] at h
        obtain ⟨rest, t₂, h₂, rfl, rfl⟩ := h
        obtain ⟨l₂, f₂⟩ := ih _ _ _ h₂
        have l₂' : t₁.Leads P s' := (leads_skipped t₁).trans l₂
        exact ⟨(leads_skipped s).trans (l₁.trans l₂'), .cons (f₁.mono l₂'.arena) f₂⟩
      split at h
      · exact hrest rfl h
      · exact hrest rfl h
      · simp at h

/-- A node made of pieces that were just made. -/
theorem makes_node {piece : Piece} {x : NodeId} (hl : s₀.Leads P s) (hne : ∀ name, e ≠ .ident name)
    (hnc : ∀ receiver messages, e ≠ .cascade receiver messages)
    (hf : s.arena.Fills piece s₀.arena.size s.arena.size) (hr : Runs (makeNode e span) s x s')
    (hnode : ∀ n, s'.arena.expr? ⟨n⟩ = some e → s'.arena.Fills piece s₀.arena.size n →
      s'.arena.Fills (.one .operand ⟨n⟩) s₀.arena.size (n + 1)) :
    s₀.Leads P s' ∧ s'.arena.Fills (.one .operand x) s₀.arena.size s'.arena.size := by
  obtain ⟨rfl, -, hbefore, he, hsize⟩ := makeNode_spec hr
  refine ⟨leads_makeNode hl hr (fun _ name h => absurd h (hne name)) fun r ms h => absurd h (hnc r ms), ?_⟩
  rw [hsize]
  exact hnode _ he (hf.mono hbefore)

/-- A block whose parameters and temporaries have been read. -/
theorem makes_blockBody {opening : Token} {params temps : List Declaration} {x : NodeId}
    (hexpr : Makes P expr (.one .operand)) (hl : s₀.Leads P s) (ha : s.arena = s₀.arena)
    (h : Runs (blockBody bound expr opening params temps) s x s') :
    s₀.Leads P s' ∧ s'.arena.Fills (.one .operand x) s₀.arena.size s'.arena.size := by
  simp only [blockBody, Runs.bind_iff] at h
  obtain ⟨body, t₁, h₁, closing, t₂, h₂, h⟩ := h
  obtain ⟨l₁, f₁⟩ := makes_statements hexpr _ _ _ _ h₁
  obtain ⟨l₂, e₂⟩ := Quiet.expect _ _ _ _ h₂
  rw [ha, ← e₂] at f₁
  exact makes_node (hl.trans (l₁.trans l₂)) (by simp) (by simp) f₁ h fun _ => .block

theorem makes_block (hexpr : Makes P expr (.one .operand)) : Makes P (block bound expr) (.one .operand) := by
  intro s x s' h
  rw [block_eq] at h
  simp only [Runs.bind_iff] at h
  obtain ⟨opening, t₁, h₁, params, t₂, h₂, temps, t₃, h₃, h⟩ := h
  obtain ⟨l₁, e₁⟩ := Quiet.expect _ _ _ _ h₁
  obtain ⟨l₂, e₂⟩ := Quiet.blockParams (P := P) _ _ _ _ h₂
  obtain ⟨l₃, e₃⟩ := Quiet.blockTemps (P := P) _ _ _ _ _ h₃
  exact makes_blockBody hexpr (l₁.trans (l₂.trans l₃)) (e₃.trans (e₂.trans e₁)) h

theorem makes_elements (hexpr : Makes P expr (.one .operand)) (n : Nat) :
    Makes P (elements expr n) (.row .operand) := by
  induction n with
  | zero =>
    intro s x s' h
    obtain ⟨rfl, rfl⟩ := Runs.pure_iff.1 h
    exact ⟨.refl _ _, .nil⟩
  | succ n ih =>
    intro s x s' h
    simp only [elements, Runs.bind_iff] at h
    obtain ⟨_, t₁, h₁, h⟩ := h
    obtain ⟨l₁, e₁⟩ := Quiet.check _ _ _ _ h₁
    split at h
    · obtain ⟨rfl, rfl⟩ := Runs.pure_iff.1 h
      exact ⟨l₁, by rw [e₁]; exact .nil⟩
    · simp only [Runs.bind_iff] at h
      obtain ⟨first, t₂, h₂, _, t₃, h₃, h⟩ := h
      obtain ⟨l₂, f₂⟩ := hexpr _ _ _ h₂
      obtain ⟨l₃, e₃⟩ := Quiet.check _ _ _ _ h₃
      have l : s.Leads P t₃ := l₁.trans (l₂.trans l₃)
      rw [e₁, ← e₃] at f₂
      split at h
      · simp only [Runs.bind_iff, Runs.pure_iff] at h
        obtain ⟨_, t₄, h₄, rest, t₅, h₅, rfl, rfl⟩ := h
        obtain ⟨l₄, e₄⟩ := Quiet.advance _ _ _ h₄
        obtain ⟨l₅, f₅⟩ := ih _ _ _ h₅
        rw [e₄] at f₅
        exact ⟨l.trans (l₄.trans l₅), .cons (f₂.mono (l₄.arena.trans l₅.arena)) f₅⟩
      · obtain ⟨rfl, rfl⟩ := Runs.pure_iff.1 h
        exact ⟨l, .cons f₂ .nil⟩

theorem makes_array (hexpr : Makes P expr (.one .operand)) : Makes P (array bound expr) (.one .operand) := by
  intro s x s' h
  simp only [array, Runs.bind_iff] at h
  obtain ⟨opening, t₁, h₁, parts, t₂, h₂, closing, t₃, h₃, h⟩ := h
  obtain ⟨l₁, e₁⟩ := Quiet.expect _ _ _ _ h₁
  obtain ⟨l₂, f₂⟩ := makes_elements hexpr _ _ _ _ h₂
  obtain ⟨l₃, e₃⟩ := Quiet.expect _ _ _ _ h₃
  rw [e₁, ← e₃] at f₂
  exact makes_node (l₁.trans (l₂.trans l₃)) (by simp) (by simp) f₂ h fun _ => .array

theorem makes_paren (hexpr : Makes P expr (.one .operand)) : Makes P (paren expr) (.one .operand) := by
  intro s x s' h
  simp only [paren, Runs.bind_iff] at h
  obtain ⟨opening, t₁, h₁, inner, t₂, h₂, closing, t₃, h₃, h⟩ := h
  obtain ⟨l₁, e₁⟩ := Quiet.advance _ _ _ h₁
  obtain ⟨l₂, f₂⟩ := hexpr _ _ _ h₂
  obtain ⟨l₃, e₃⟩ := Quiet.expect _ _ _ _ h₃
  rw [e₁, ← e₃] at f₂
  exact makes_node (l₁.trans (l₂.trans l₃)) (by simp) (by simp) f₂ h fun _ => .paren

/-- The two receivers have the property too. -/
structure Receivers (P : String → Prop) : Prop where
  self : P "self"
  super : P "super"

/-- A token is a constant or a name: one of the receivers, or its own. -/
theorem atom_cases {kind : TokenKind} (h : atom? kind = some e) :
    (∃ value, e = .literal value) ∨
      ∃ name, e = .ident name ∧ (name = "self" ∨ name = "super" ∨ kind = .identifier name) := by
  cases kind with
  | integer | float | string | symbol | character =>
    cases h
    exact .inl ⟨_, rfl⟩
  | identifier name =>
    cases h
    exact .inr ⟨name, rfl, .inr (.inr rfl)⟩
  | reserved word =>
    cases word with
    | self =>
      cases h
      exact .inr ⟨_, rfl, .inl rfl⟩
    | super =>
      cases h
      exact .inr ⟨_, rfl, .inr (.inl rfl)⟩
    | nil | true | false =>
      cases h
      exact .inl ⟨_, rfl⟩
  | keyword | argument | operator | mark | lineComment | blockComment | endOfInput | error => cases h

theorem makes_primary (hP : Receivers P) (hexpr : Makes P expr (.one .operand)) :
    Makes P (primary bound expr) (.one .operand) := by
  intro s x s' h
  simp only [primary, Runs.bind_iff, peek_iff] at h
  obtain ⟨_, _, ⟨rfl, rfl⟩, h⟩ := h
  have hskip : ∀ {p : Parser NodeId}, Makes P p (.one .operand) → Runs p s.skipped x s' →
      s.Leads P s' ∧ s'.arena.Fills (.one .operand x) s.arena.size s'.arena.size := by
    intro p hp h
    obtain ⟨l, f⟩ := hp _ _ _ h
    exact ⟨(leads_skipped s).trans l, f⟩
  split at h
  · exact hskip (makes_block hexpr) h
  · exact hskip (makes_array hexpr) h
  · exact hskip (makes_paren hexpr) h
  · simp only [Runs.bind_iff] at h
    obtain ⟨token, t₁, h₁, h⟩ := h
    obtain ⟨l₁, e₁, htoken⟩ := advance_cases (P := P) h₁
    split at h
    · next atom hatom =>
      obtain ⟨rfl, -, hbefore, he, hsize⟩ := makeNode_spec h
      -- A name comes from the token just read, or it is one of the two for the receiver.
      have hname : s.skipped.Named P → ∀ name, atom = .ident name → P name := by
        rintro hn name rfl
        rcases atom_cases hatom with ⟨_, h⟩ | ⟨_, h, h'⟩
        · cases h
        · cases h
          rcases h' with rfl | rfl | hk
          · exact hP.self
          · exact hP.super
          · rcases htoken with ht | ht
            · exact hn.tokens token ht _ hk
            · rw [hk] at ht
              cases ht
      have hcascade : ∀ r ms, atom = .cascade r ms → t₁.arena.Heads r ms := by
        rintro r ms rfl
        rcases atom_cases hatom with ⟨_, h⟩ | ⟨_, h, -⟩ <;> cases h
      refine ⟨(leads_skipped s).trans (leads_makeNode l₁ h hname hcascade), ?_⟩
      rw [hsize, show t₁.arena.size = s.arena.size by rw [e₁]; rfl] at *
      rcases atom_cases hatom with ⟨_, rfl⟩ | ⟨_, rfl, -⟩
      · exact .literal he
      · exact .ident he
    · simp at h

/-! ## Expressions -/

theorem makes_unaryLevel (hP : Receivers P) (hexpr : Makes P expr (.one .operand)) :
    Makes P (unaryLevel bound expr) (.one .operand) := by
  intro s x s' h
  simp only [unaryLevel, Runs.bind_iff] at h
  obtain ⟨receiver, t, h₁, h₂⟩ := h
  obtain ⟨l₁, f₁⟩ := makes_primary hP hexpr _ _ _ h₁
  have s₂ := extends_unaryMessages (P := P) bound _ _ _ _ h₂
  exact ⟨l₁.trans s₂.leads, s₂.operand f₁⟩

theorem makes_binaryLevel (hP : Receivers P) (hexpr : Makes P expr (.one .operand)) :
    Makes P (binaryLevel bound expr) (.one .operand) := by
  intro s x s' h
  simp only [binaryLevel, Runs.bind_iff] at h
  obtain ⟨left, t, h₁, h₂⟩ := h
  obtain ⟨l₁, f₁⟩ := makes_unaryLevel hP hexpr _ _ _ h₁
  have s₂ := extends_binaryMessages (makes_unaryLevel hP hexpr) bound 0 _ _ _ _ h₂
  exact ⟨l₁.trans s₂.leads, s₂.operand f₁⟩

theorem makes_keywordLevel (hP : Receivers P) (hexpr : Makes P expr (.one .operand)) :
    Makes P (keywordLevel bound expr) (.one .operand) := by
  intro s x s' h
  simp only [keywordLevel, Runs.bind_iff] at h
  obtain ⟨receiver, t, h₁, h₂⟩ := h
  obtain ⟨l₁, f₁⟩ := makes_binaryLevel hP hexpr _ _ _ h₁
  have s₂ := extends_optionalKeywordMessage (makes_binaryLevel hP hexpr) _ _ _ _ h₂
  exact ⟨l₁.trans s₂.leads, s₂.operand f₁⟩

/-- A further message of a cascade makes a node, since the token that it starts with is one of a message. -/
theorem makes_cascadeMessage {n : Nat} {receiver : NodeId} (hP : Receivers P) (hexpr : Makes P expr (.one .operand)) :
    Makes P (cascadeMessage (n + 1) expr receiver) (.one (.message receiver)) := by
  intro s x s' h
  have hunary : Makes P (unaryLevel (n + 1) expr) (.one .operand) := makes_unaryLevel hP hexpr
  have hbinary : Makes P (binaryLevel (n + 1) expr) (.one .operand) := makes_binaryLevel hP hexpr
  simp only [cascadeMessage, Runs.bind_iff, peek_iff] at h
  obtain ⟨_, _, ⟨rfl, rfl⟩, h⟩ := h
  -- The first token says which kind of message comes first, and that one makes a node.
  suffices hs : Sends P s.skipped receiver s' x ∧ s.skipped.arena.size < s'.arena.size from
    ⟨(leads_skipped s).trans hs.1.leads, hs.1.fills hs.2⟩
  split at h
  · next hk =>
    simp only [Runs.bind_iff] at h
    obtain ⟨inner, t₁, h₁, result, t₂, h₂, h⟩ := h
    have s₁ := extends_unaryMessages (P := P) _ _ _ _ _ h₁
    have s₂ := extends_binaryMessages hunary _ _ _ _ _ _ h₂
    have s₃ := extends_optionalKeywordMessage hbinary _ _ _ _ h
    have := size_unaryMessages h₁ (by rw [skipped_skipped]; exact hk)
    have := s₂.leads.arena.size
    have := s₃.leads.arena.size
    exact ⟨(s₁.trans s₂).trans s₃, by omega⟩
  · next hk =>
    simp only [Runs.bind_iff] at h
    obtain ⟨result, t₁, h₁, h⟩ := h
    have s₁ := extends_binaryMessages hunary _ _ _ _ _ _ h₁
    have s₂ := extends_optionalKeywordMessage hbinary _ _ _ _ h
    have := size_binaryMessages hunary h₁ (by rw [skipped_skipped]; exact hk)
    have := s₂.leads.arena.size
    exact ⟨s₁.trans s₂, by omega⟩
  · next hk =>
    simp only [Runs.bind_iff, Runs.pure_iff] at h
    obtain ⟨result, t₁, ⟨rfl, rfl⟩, h⟩ := h
    exact ⟨extends_optionalKeywordMessage hbinary _ _ _ _ h,
      size_optionalKeywordMessage hbinary h (by rw [skipped_skipped]; exact hk)⟩
  · simp at h

theorem makes_cascadeMessages {message : Parser NodeId} {st : Standing} (hm : Makes P message (.one st)) (n : Nat) :
    Makes P (cascadeMessages message n) (.row st) := by
  induction n with
  | zero =>
    intro s x s' h
    obtain ⟨rfl, rfl⟩ := Runs.pure_iff.1 h
    exact ⟨.refl _ _, .nil⟩
  | succ n ih =>
    intro s x s' h
    simp only [cascadeMessages, Runs.bind_iff] at h
    obtain ⟨_, t₁, h₁, h⟩ := h
    obtain ⟨l₁, e₁⟩ := Quiet.check _ _ _ _ h₁
    split at h
    · simp only [Runs.bind_iff, Runs.pure_iff] at h
      obtain ⟨_, t₂, h₂, first, t₃, h₃, rest, t₄, h₄, rfl, rfl⟩ := h
      obtain ⟨l₂, e₂⟩ := Quiet.advance _ _ _ h₂
      obtain ⟨l₃, f₃⟩ := hm _ _ _ h₃
      obtain ⟨l₄, f₄⟩ := ih _ _ _ h₄
      rw [e₂, e₁] at f₃
      exact ⟨l₁.trans (l₂.trans (l₃.trans l₄)), .cons (f₃.mono l₄.arena) f₄⟩
    · obtain ⟨rfl, rfl⟩ := Runs.pure_iff.1 h
      exact ⟨l₁, by rw [e₁]; exact .nil⟩

theorem cascadeMessages_ne_nil {n : Nat} {message : Parser NodeId} {ids : List NodeId}
    (h : Runs (cascadeMessages message (n + 1)) s ids s') (hk : s.skipped.headKind = .mark .semicolon) : ids ≠ [] := by
  simp only [cascadeMessages, Runs.bind_iff, check_iff] at h
  obtain ⟨_, _, ⟨rfl, rfl⟩, h⟩ := h
  rw [hk, decide_eq_true rfl, if_pos rfl] at h
  simp only [Runs.bind_iff, Runs.pure_iff] at h
  obtain ⟨_, _, -, _, _, -, _, _, -, rfl, -⟩ := h
  exact List.cons_ne_nil _ _

theorem makes_cascadeLevel {n : Nat} (hP : Receivers P) (hexpr : Makes P expr (.one .operand)) :
    Makes P (cascadeLevel (n + 1) expr) (.one .operand) := by
  intro s x s' h
  simp only [cascadeLevel, Runs.bind_iff] at h
  obtain ⟨first, t₁, h₁, _, t₂, h₂, h⟩ := h
  obtain ⟨l₁, f₁⟩ := makes_keywordLevel hP hexpr _ _ _ h₁
  obtain ⟨l₂, e₂⟩ := Quiet.check _ _ _ _ h₂
  rw [← e₂] at f₁
  split at h
  · next hsemicolon =>
    rw [Runs.get_bind_iff] at h
    split at h
    · next receiver selector args hfirst =>
      simp only [Runs.bind_iff] at h
      obtain ⟨others, t₃, h₃, span, t₄, h₄, h⟩ := h
      obtain ⟨l₃, f₃⟩ := makes_cascadeMessages (makes_cascadeMessage hP hexpr) _ _ _ _ h₃
      obtain ⟨l₄, e₄⟩ := Quiet.spanAcross _ _ _ _ _ h₄
      obtain ⟨rfl, -, hbefore, he, hsize⟩ := makeNode_spec h
      have l : s.Leads P t₄ := l₁.trans (l₂.trans (l₃.trans l₄))
      -- A semicolon is ahead, so a message follows the first, which is a send to the receiver.
      have hheads : t₄.arena.Heads receiver (first :: others) := by
        obtain ⟨hk, rfl⟩ := check_iff.1 h₂
        have hne := cascadeMessages_ne_nil h₃ (by rw [skipped_skipped]; exact of_decide_eq_true (hk ▸ hsemicolon))
        obtain ⟨second, others, rfl⟩ := List.exists_cons_of_ne_nil hne
        exact ⟨selector, args, (l₃.arena.trans l₄.arena).expr hfirst⟩
      refine ⟨leads_makeNode l h (by simp) ?_, ?_⟩
      · rintro r ms ⟨⟩
        exact hheads
      rw [hsize]
      -- The first message was read as an operand; its receiver now stands for the whole cascade.
      obtain ⟨mid, base, rest⟩ := f₁.of_send hfirst
      have hb : t₂.arena.Before s'.arena := l₃.arena.trans (l₄.arena.trans hbefore)
      refine .cascade he (base.mono hb) (.cons (.direct (hb.expr hfirst) (rest.mono hb)) ?_)
      rw [← e₄, f₁.last.2] at f₃
      exact f₃.mono hbefore
    · simp at h
  · obtain ⟨rfl, rfl⟩ := Runs.pure_iff.1 h
    exact ⟨l₁.trans l₂, f₁⟩

theorem makes_expressionWithin (hP : Receivers P) (n : Nat) : Makes P (expressionWithin n) (.one .operand) := by
  induction n with
  | zero =>
    intro s x s' h
    simp [expressionWithin] at h
  | succ n ih =>
    intro s x s' h
    simp only [expressionWithin, assignmentTail, Runs.bind_iff] at h
    obtain ⟨target, t₁, h₁, _, t₂, h₂, h⟩ := h
    obtain ⟨l₁, f₁⟩ := makes_cascadeLevel hP ih _ _ _ h₁
    obtain ⟨l₂, e₂⟩ := Quiet.check _ _ _ _ h₂
    rw [← e₂] at f₁
    split at h
    · obtain ⟨mark, t₃, h₃, h⟩ := Runs.bind_iff.1 h
      rw [Runs.get_bind_iff] at h
      obtain ⟨l₃, e₃⟩ := Quiet.advance _ _ _ h₃
      -- What is assigned to was read as an expression, and is accepted if it came out as a name.
      split at h
      · next name htarget =>
        simp only [Runs.bind_iff] at h
        obtain ⟨value, t₄, h₄, span, t₅, h₅, h⟩ := h
        obtain ⟨l₄, f₄⟩ := ih _ _ _ h₄
        obtain ⟨l₅, e₅⟩ := Quiet.spanAcross _ _ _ _ _ h₅
        obtain ⟨rfl, -, hbefore, he, hsize⟩ := makeNode_spec h
        have l : s.Leads P t₅ := l₁.trans (l₂.trans (l₃.trans (l₄.trans l₅)))
        refine ⟨leads_makeNode l h (by simp) (by simp), ?_⟩
        have hb : t₃.arena.Before s'.arena := l₄.arena.trans (l₅.arena.trans hbefore)
        rw [← e₃] at f₁
        rw [← e₅] at f₄
        rw [hsize]
        exact .assign he (hb.expr htarget) (f₁.mono hb) (f₄.mono hbefore)
      · simp at h
    · obtain ⟨rfl, rfl⟩ := Runs.pure_iff.1 h
      exact ⟨l₁.trans l₂, f₁⟩

/-! ## Methods and classes -/

theorem Quiet.patternParts (n : Nat) : Quiet P (patternParts n) := by
  induction n with
  | zero => exact .pure _
  | succ n ih =>
    apply Quiet.peek.bind
    intro k
    split
    · exact Quiet.advance.bind fun _ => (Quiet.identifier _).bind fun _ => ih.bind fun _ => .pure _
    · exact .pure _

theorem Quiet.pattern : Quiet P pattern := by
  apply Quiet.advance.bind
  intro t
  split
  · exact .pure _
  · exact (Quiet.identifier _).bind fun _ => .pure _
  · exact (Quiet.identifier _).bind fun _ => Quiet.remaining.bind fun _ => (Quiet.patternParts _).bind fun _ => .pure _
  · exact .throw _

theorem Quiet.className : Quiet P className := by
  apply Quiet.advance.bind
  intro t
  split
  · exact (Quiet.expect _).bind fun _ => .pure _
  · exact .pure _
  · exact .throw _

theorem Quiet.superclass : Quiet P superclass := by
  apply Quiet.advance.bind
  intro t
  split
  · exact .pure _
  · exact .pure _
  · exact .throw _

theorem makes_methodBody (hP : Receivers P) {classSide : Bool} {selector : String} {params : List Declaration}
    {start : Span} : Makes P (methodBody classSide selector params start) fun m => .row .statement m.body := by
  intro s m s' h
  simp only [methodBody, Runs.bind_iff, Runs.pure_iff] at h
  obtain ⟨_, t₁, h₁, bound, t₂, h₂, temps, t₃, h₃, body, t₄, h₄, closing, t₅, h₅, rfl, rfl⟩ := h
  obtain ⟨l₁, e₁⟩ := Quiet.expect _ _ _ _ h₁
  obtain ⟨l₂, e₂⟩ := Quiet.remaining _ _ _ h₂
  obtain ⟨l₃, e₃⟩ := Quiet.optionalVariables _ _ _ _ h₃
  obtain ⟨l₄, f₄⟩ := makes_statements (makes_expressionWithin hP bound) _ _ _ _ h₄
  obtain ⟨l₅, e₅⟩ := Quiet.expect _ _ _ _ h₅
  rw [e₃, e₂, e₁, ← e₅] at f₄
  exact ⟨l₁.trans (l₂.trans (l₃.trans (l₄.trans l₅))), f₄⟩

theorem methodBody_side {classSide : Bool} {selector : String} {params : List Declaration} {start : Span} {m : Method}
    (h : Runs (methodBody classSide selector params start) s m s') : m.classSide = classSide := by
  simp only [methodBody, Runs.bind_iff, Runs.pure_iff] at h
  obtain ⟨_, _, -, _, _, -, _, _, -, _, _, -, _, _, -, rfl, -⟩ := h
  rfl

/-- Reading items adds methods whose bodies fill the places made, each on its own side. -/
structure Adds (P : String → Prop) (s : ParserState) (items : ClassItems) (s' : ParserState) (items' : ClassItems) :
    Prop where
  leads : s.Leads P s'
  bodies : ∃ ms, s'.arena.Bodies s.arena.size ms s'.arena.size ∧
    (items'.instanceMethods ++ items'.classMethods).Perm (ms ++ (items.instanceMethods ++ items.classMethods))
  sided : Sided items.instanceMethods items.classMethods → Sided items'.instanceMethods items'.classMethods

namespace Adds
variable {t : ParserState} {items items' items'' : ClassItems} {m : Method}

theorem trans (h : Adds P s items t items') (h' : Adds P t items' s' items'') : Adds P s items s' items'' := by
  obtain ⟨ms, hb, hp⟩ := h.bodies
  obtain ⟨ms', hb', hp'⟩ := h'.bodies
  refine ⟨h.leads.trans h'.leads, ⟨ms ++ ms', (hb.mono h'.leads.arena).append hb', ?_⟩, fun hs => h'.sided (h.sided hs)⟩
  calc items''.instanceMethods ++ items''.classMethods
    _ |>.Perm (ms' ++ (items'.instanceMethods ++ items'.classMethods)) := hp'
    _ |>.Perm (ms' ++ (ms ++ (items.instanceMethods ++ items.classMethods))) := hp.append_left ms'
    _ = ms' ++ ms ++ (items.instanceMethods ++ items.classMethods) := (List.append_assoc ..).symm
    _ |>.Perm (ms ++ ms' ++ (items.instanceMethods ++ items.classMethods)) := List.perm_append_comm.append_right _

/-- Variables bring no methods. -/
theorem quiet (hl : s.Leads P s') (ha : s'.arena = s.arena) (hi : items'.instanceMethods = items.instanceMethods)
    (hc : items'.classMethods = items.classMethods) : Adds P s items s' items' := by
  refine ⟨hl, ⟨[], ?_, ?_⟩, ?_⟩
  · rw [ha]
    rfl
  · rw [hi, hc, List.nil_append]
  · rw [hi, hc]
    exact fun h => h

theorem instanceMethod (hl : s.Leads P s') (hf : s'.arena.Fills (.row .statement m.body) s.arena.size s'.arena.size)
    (hm : m.classSide = false) : Adds P s items s' { items with instanceMethods := items.instanceMethods ++ [m] } := by
  refine ⟨hl, ⟨[m], ⟨_, hf, rfl⟩, ?_⟩, fun hs => ⟨?_, hs.classes⟩⟩
  · rw [← List.append_assoc]
    exact List.perm_append_comm.append_right _
  · intro m' hm'
    rcases List.mem_append.1 hm' with hm' | hm'
    · exact hs.instances m' hm'
    · rw [List.mem_singleton.1 hm']
      exact hm

theorem classMethod (hl : s.Leads P s') (hf : s'.arena.Fills (.row .statement m.body) s.arena.size s'.arena.size)
    (hm : m.classSide = true) : Adds P s items s' { items with classMethods := items.classMethods ++ [m] } := by
  refine ⟨hl, ⟨[m], ⟨_, hf, rfl⟩, ?_⟩, fun hs => ⟨hs.instances, ?_⟩⟩
  · rw [← List.append_assoc]
    exact List.perm_append_comm
  · intro m' hm'
    rcases List.mem_append.1 hm' with hm' | hm'
    · exact hs.classes m' hm'
    · rw [List.mem_singleton.1 hm']
      exact hm

end Adds

/-- A method with its pattern. -/
theorem makes_method (hP : Receivers P) {classSide : Bool} {start : Span} {m : Method}
    (h : Runs (method classSide start) s m s') :
    s.Leads P s' ∧ s'.arena.Fills (.row .statement m.body) s.arena.size s'.arena.size ∧ m.classSide = classSide := by
  simp only [method, Runs.bind_iff] at h
  obtain ⟨⟨selector, params⟩, t, h₁, h₂⟩ := h
  obtain ⟨l₁, e₁⟩ := Quiet.pattern _ _ _ h₁
  obtain ⟨l₂, f₂⟩ := makes_methodBody hP _ _ _ h₂
  rw [e₁] at f₂
  exact ⟨l₁.trans l₂, f₂, methodBody_side h₂⟩

theorem adds_classSideItem (hP : Receivers P) {items items' : ClassItems} (h : Runs (classSideItem items) s items' s') :
    Adds P s items s' items' := by
  simp only [classSideItem, Runs.bind_iff, peek_iff] at h
  obtain ⟨word, t₁, h₁, _, _, ⟨rfl, rfl⟩, h⟩ := h
  obtain ⟨l₁, e₁⟩ := Quiet.advance (P := P) _ _ _ h₁
  have l : s.Leads P t₁.skipped := l₁.trans (leads_skipped t₁)
  have e : t₁.skipped.arena = s.arena := e₁
  split at h
  · simp only [Runs.bind_iff, Runs.pure_iff] at h
    obtain ⟨_, t₂, h₂, vars, t₃, h₃, rfl, rfl⟩ := h
    obtain ⟨l₂, e₂⟩ := Quiet.remaining _ _ _ h₂
    obtain ⟨l₃, e₃⟩ := Quiet.variableList _ _ _ _ h₃
    exact .quiet (l.trans (l₂.trans l₃)) (by rw [e₃, e₂, e]) rfl rfl
  · simp only [Runs.bind_iff, Runs.pure_iff] at h
    obtain ⟨m, t₂, h₂, rfl, rfl⟩ := h
    obtain ⟨l₂, f₂⟩ := makes_methodBody hP _ _ _ h₂
    rw [e] at f₂
    exact .instanceMethod (l.trans l₂) f₂ (methodBody_side h₂)
  · split at h
    · simp only [Runs.bind_iff, Runs.pure_iff] at h
      obtain ⟨_, t₂, h₂, rfl, rfl⟩ := h
      obtain ⟨l₂, e₂⟩ := Quiet.advance _ _ _ h₂
      exact .quiet (l.trans l₂) (by rw [e₂, e]) rfl rfl
    · simp only [Runs.bind_iff, Runs.pure_iff] at h
      obtain ⟨m, t₂, h₂, rfl, rfl⟩ := h
      obtain ⟨l₂, f₂, hm⟩ := makes_method hP h₂
      rw [e] at f₂
      exact .classMethod (l.trans l₂) f₂ hm

theorem adds_classItems (hP : Receivers P) {n : Nat} {items items' : ClassItems}
    (h : Runs (classItems n items) s items' s') : Adds P s items s' items' := by
  induction n generalizing s items with
  | zero =>
    obtain ⟨rfl, rfl⟩ := Runs.pure_iff.1 h
    exact .quiet (.refl _ _) rfl rfl rfl
  | succ n ih =>
    simp only [classItems, Runs.bind_iff, peek_iff] at h
    obtain ⟨_, _, ⟨rfl, rfl⟩, h⟩ := h
    have skip : ∀ items, Adds P s items s.skipped items := fun _ => .quiet (leads_skipped s) rfl rfl rfl
    split at h
    · obtain ⟨rfl, rfl⟩ := Runs.pure_iff.1 h
      exact skip _
    · split at h
      · simp only [Runs.bind_iff] at h
        obtain ⟨_, t₁, h₁, vars, t₂, h₂, h⟩ := h
        obtain ⟨l₁, e₁⟩ := Quiet.remaining _ _ _ h₁
        obtain ⟨l₂, e₂⟩ := Quiet.variableList _ _ _ _ h₂
        have quiet : Adds P s.skipped items t₂ { items with instanceVars := items.instanceVars ++ vars } :=
          .quiet (l₁.trans l₂) (by rw [e₂, e₁]) rfl rfl
        exact (skip _).trans (quiet.trans (ih h))
      · split at h
        · obtain ⟨items₁, t₁, h₁, h⟩ := Runs.bind_iff.1 h
          exact (skip _).trans ((adds_classSideItem hP h₁).trans (ih h))
        · simp only [Runs.bind_iff] at h
          obtain ⟨start, t₁, h₁, m, t₂, h₂, h⟩ := h
          obtain ⟨l₁, e₁⟩ := Quiet.peekSpan _ _ _ h₁
          obtain ⟨l₂, f₂, hm⟩ := makes_method hP h₂
          rw [e₁] at f₂
          exact (skip _).trans (.trans (.instanceMethod (l₁.trans l₂) f₂ hm) (ih h))

/-- A class is made of its methods, in some order. -/
theorem adds_classDefinition (hP : Receivers P) {c : ClassDefinition} (h : Runs classDefinition s c s') :
    s.Leads P s' ∧ (∃ ms, s'.arena.Bodies s.arena.size ms s'.arena.size ∧ c.methods.Perm ms) ∧
      Sided c.instanceMethods c.classMethods := by
  simp only [classDefinition, Runs.bind_iff, Runs.pure_iff] at h
  obtain ⟨head, t₁, h₁, ⟨superName, superSpan⟩, t₂, h₂, _, t₃, h₃, bound, t₄, h₄, items, t₅, h₅, closing, t₆, h₆, rfl, rfl⟩ := h
  obtain ⟨l₁, e₁⟩ := Quiet.className _ _ _ h₁
  obtain ⟨l₂, e₂⟩ := Quiet.superclass _ _ _ h₂
  obtain ⟨l₃, e₃⟩ := Quiet.expect _ _ _ _ h₃
  obtain ⟨l₄, e₄⟩ := Quiet.remaining _ _ _ h₄
  have h := adds_classItems hP h₅
  obtain ⟨l₆, e₆⟩ := Quiet.expect _ _ _ _ h₆
  obtain ⟨ms, hb, hp⟩ := h.bodies
  rw [e₄, e₃, e₂, e₁, ← e₆] at hb
  refine ⟨l₁.trans (l₂.trans (l₃.trans (l₄.trans (h.leads.trans l₆)))), ⟨ms, hb, ?_⟩, h.sided ⟨by simp, by simp⟩⟩
  simpa [ClassDefinition.methods] using hp

theorem adds_classes (hP : Receivers P) {n : Nat} {cs : List ClassDefinition} (h : Runs (classes n) s cs s') :
    s.Leads P s' ∧ (∃ ms, s'.arena.Bodies s.arena.size ms s'.arena.size ∧ ms.Perm (cs.flatMap (·.methods))) ∧
      ∀ c ∈ cs, Sided c.instanceMethods c.classMethods := by
  induction n generalizing s cs with
  | zero =>
    obtain ⟨rfl, rfl⟩ := Runs.pure_iff.1 h
    exact ⟨.refl _ _, ⟨[], rfl, .refl _⟩, by simp⟩
  | succ n ih =>
    simp only [classes, Runs.bind_iff, peek_iff] at h
    obtain ⟨_, _, ⟨rfl, rfl⟩, h⟩ := h
    split at h
    · obtain ⟨rfl, rfl⟩ := Runs.pure_iff.1 h
      exact ⟨leads_skipped s, ⟨[], rfl, .refl _⟩, by simp⟩
    · simp only [Runs.bind_iff, Runs.pure_iff] at h
      obtain ⟨c, t, h₁, cs, t', h₂, rfl, rfl⟩ := h
      obtain ⟨l₁, ⟨ms₁, b₁, p₁⟩, s₁⟩ := adds_classDefinition hP h₁
      obtain ⟨l₂, ⟨ms₂, b₂, p₂⟩, s₂⟩ := ih h₂
      refine ⟨(leads_skipped s).trans (l₁.trans l₂), ⟨ms₁ ++ ms₂, (b₁.mono l₂.arena).append b₂, ?_⟩, ?_⟩
      · rw [List.flatMap_cons]
        exact p₁.symm.append p₂
      · intro c' hc'
        rcases List.mem_cons.1 hc' with rfl | hc'
        · exact s₁
        · exact s₂ c' hc'

end Parser

/-! ## Programs -/

/-- What holds of every program that a parser made. -/
structure Program.Parsed (P : String → Prop) (p : Program) : Prop where
  forest : p.Forest
  sided : ∀ c ∈ p.classes, Sided c.instanceMethods c.classMethods
  named : ∀ id name, p.arena.expr? id = some (.ident name) → P name

/-- A program that tokens spell is what a successful run made of them. -/
theorem Program.runs_ofTokens {tokens : List Token} {p : Program} (h : Program.ofTokens tokens = .ok p) :
    ∃ cs s', Runs (do Parser.classes (← Parser.remaining)) (.start tokens) cs s' ∧ p = ⟨s'.arena, cs⟩ := by
  unfold Program.ofTokens at h
  rcases hr : runFrom (do Parser.classes (← Parser.remaining)) (.start tokens) with ⟨r, s'⟩
  rw [hr] at h
  cases r with
  | error e => cases h
  | ok cs =>
    cases h
    exact ⟨cs, s', hr, rfl⟩

theorem Program.leads_ofTokens {P : String → Prop} {tokens : List Token} {p : Program} (hP : Receivers P)
    (h : Program.ofTokens tokens = .ok p) :
    ∃ s', (ParserState.start tokens).Leads P s' ∧ p.arena = s'.arena ∧ p.Forest ∧
      ∀ c ∈ p.classes, Sided c.instanceMethods c.classMethods := by
  obtain ⟨cs, s', hruns, rfl⟩ := runs_ofTokens h
  obtain ⟨n, t, h₁, h₂⟩ := Runs.bind_iff.1 hruns
  obtain ⟨l₁, e₁⟩ := Quiet.remaining (P := P) _ _ _ h₁
  obtain ⟨l₂, ⟨ms, hb, hp⟩, hs⟩ := adds_classes hP h₂
  rw [e₁] at hb
  exact ⟨s', l₁.trans l₂, rfl, ⟨ms, hp, hb⟩, hs⟩

theorem Arena.expr?_empty (id : NodeId) : Arena.empty.expr? id = none := by simp [Arena.empty, Arena.expr?, Arena.get?]

theorem Program.parsed_ofTokens {P : String → Prop} {tokens : List Token} {p : Program} (hP : Receivers P)
    (hn : ∀ t ∈ tokens, ∀ name, t.kind = .identifier name → P name) (h : Program.ofTokens tokens = .ok p) :
    p.Parsed P := by
  obtain ⟨s', hl, ha, hf, hs⟩ := leads_ofTokens hP h
  have hstart : (ParserState.start tokens).Named P := by
    refine ⟨hn, fun id name h => ?_⟩
    rw [ParserState.start, Arena.expr?_empty] at h
    cases h
  refine ⟨hf, hs, ?_⟩
  rw [ha]
  exact (hl.named hstart).nodes

/-- The messages of a cascade begin with one to the receiver itself, and another follows. -/
theorem Program.cascading_ofTokens {tokens : List Token} {p : Program} (h : Program.ofTokens tokens = .ok p) :
    p.arena.Cascading := by
  obtain ⟨s', hl, ha, -⟩ := leads_ofTokens (P := fun _ => True) ⟨trivial, trivial⟩ h
  rw [ha]
  refine hl.cascades fun d receiver messages hd => ?_
  rw [ParserState.start, Arena.expr?_empty] at hd
  cases hd

/-- A program that a source text spells is a forest, and its names are ones that a text can spell. -/
theorem Program.parsed_ofBytes {bytes : List UInt8} {p : Program} (h : Program.ofBytes bytes = .ok p) :
    p.Parsed Spelled :=
  parsed_ofTokens ⟨spelled_self, spelled_super⟩ (fun _ ht _ hk => (isName_tokenize ht hk).spelled) h

/-- A check of the program that a source text spells finds a program to hold of. -/
theorem Program.exists_ofBytes (bytes : ByteArray) (check : Program → Bool)
    (h : (Program.ofBytes bytes.data.toList).toOption.any check = true) :
    ∃ p, Program.ofBytes bytes.toList = .ok p ∧ check p = true := by
  rw [Text.toList_eq]
  cases hp : Program.ofBytes bytes.data.toList with
  | error e => simp [hp, Except.toOption] at h
  | ok p => exact ⟨p, rfl, by simpa [hp, Except.toOption] using h⟩

end BlockScope
