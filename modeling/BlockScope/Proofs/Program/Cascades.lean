import BlockScope.Proofs.Program.Parsing
import BlockScope.Proofs.Program.Reached
/-!
# Where the messages of a cascade go

A cascade has two messages or more, and all of them are sends that lead down to its receiver. The first is sent to the
receiver itself. A later one need not be: messages that follow it before the next semicolon are sent to its result, and
it is the last of them that the cascade names. `Arena.HiddenBy` finds out: a message is sent to the receiver itself if and
only if the cascade does not hide what the message is sent to.
-/
namespace BlockScope
namespace Arena
variable {a : Arena} {lo hi : Nat} {base m target : NodeId} {messages : List NodeId}

/-- The second node is a send to the first. -/
def SentTo (a : Arena) (target m : NodeId) : Prop := ∃ selector args, a.expr? m = some (.send target selector args)

/-- From what one send is sent to, on to what that is sent to, until the base is reached. -/
def LeadsTo (a : Arena) (base m : NodeId) : Prop := Relation.TransGen (fun m target => a.SentTo target m) m base

theorem SentTo.unique {target' : NodeId} (h : a.SentTo target m) (h' : a.SentTo target' m) : target = target' := by
  obtain ⟨_, _, h⟩ := h
  obtain ⟨_, _, h'⟩ := h'
  rw [h] at h'
  cases h'
  rfl

theorem Fills.leadsTo (h : a.Fills (.one (.message base) m) lo hi) : a.LeadsTo base m := by
  generalize hp : Piece.one (.message base) m = piece at h
  induction h generalizing m with
  | direct h rest =>
    cases hp
    exact .single ⟨_, _, h⟩
  | chain h first rest ih =>
    cases hp
    exact .head ⟨_, _, h⟩ (ih rfl)
  | _ => cases hp

/-- A message is sent to the base or to a message before it. -/
theorem Fills.message_target (h : a.Fills (.one (.message base) m) lo hi) (ht : a.SentTo target m) : target = base ∨ lo ≤ target.index := by
  obtain ⟨selector, args, ht⟩ := ht
  cases h with
  | direct h rest =>
    rw [ht] at h
    cases h
    exact .inl rfl
  | chain h first rest =>
    rw [ht] at h
    cases h
    have := first.last
    exact .inr (by omega)

/-- Every message of a row is one by itself, at or behind the first place of the row. -/
theorem Fills.mem_row {st : Standing} {ids : List NodeId} (h : a.Fills (.row st ids) lo hi) (hm : m ∈ ids) :
    ∃ lo' hi', lo ≤ lo' ∧ a.Fills (.one st m) lo' hi' := by
  induction ids generalizing lo with
  | nil => cases hm
  | cons id ids ih =>
    cases h with
    | cons first rest =>
      rcases List.mem_cons.1 hm with rfl | hm
      · exact ⟨_, _, Nat.le_refl _, first⟩
      · obtain ⟨lo', hi', hle, h⟩ := ih rest hm
        exact ⟨lo', hi', Nat.le_trans first.le hle, h⟩

theorem Heads.length {receiver : NodeId} (h : a.Heads receiver messages) : 2 ≤ messages.length := by
  match messages, h with
  | _ :: _ :: _, _ => simp

theorem Heads.first {receiver : NodeId} (h : a.Heads receiver messages) : ∀ first ∈ messages.head?, a.SentTo receiver first := by
  match messages, h with
  | first :: _ :: _, h =>
    rintro _ ⟨⟩
    exact h

end Arena

/-- A cascade has two messages at least, the first of which is sent to the receiver itself. All of them lead down to the
receiver; one is sent to the receiver itself just when what it is sent to is not hidden by the cascade. -/
theorem cascade_messages {tokens : List Token} {p : Program} {d receiver : NodeId} {messages : List NodeId}
    (h : Program.ofTokens tokens = .ok p) (hd : p.arena.expr? d = some (.cascade receiver messages)) :
    2 ≤ messages.length ∧ (∀ first ∈ messages.head?, p.arena.SentTo receiver first) ∧
      ∀ m ∈ messages, p.arena.LeadsTo receiver m ∧
        ∃ target, p.arena.SentTo target m ∧ (target = receiver ↔ ¬ p.arena.HiddenBy d target) := by
  have hheads := Program.cascading_ofTokens h d receiver messages hd
  refine ⟨hheads.length, hheads.first, fun m hm => ?_⟩
  obtain ⟨-, -, -, hf, -⟩ := Program.leads_ofTokens (P := fun _ => True) ⟨trivial, trivial⟩ h
  obtain ⟨target, selector, args, hsend⟩ := hf.message_send hd hm
  -- The places of the cascade: its receiver, then its messages.
  obtain ⟨order, -, hbodies⟩ := id hf
  obtain ⟨st, lo, hfills⟩ := hbodies.at_node (Nat.zero_le _) (Arena.lt_size_of_expr hd)
  obtain ⟨mid, hreceiver, hmessages⟩ := hfills.of_cascade hd
  obtain ⟨lo', hi', hle, hmessage⟩ := hmessages.mem_row hm
  refine ⟨hmessage.leadsTo, target, ⟨selector, args, hsend⟩, ?_⟩
  rw [Arena.hiddenBy_iff hd]
  constructor
  · rintro rfl ⟨-, hno⟩
    exact hno .refl
  · intro hhidden
    by_contra hne
    -- Another target stands behind the receiver, which therefore does not contain it.
    refine hhidden ⟨⟨m, hm, target, selector, args, hsend, .refl⟩, fun hcontains => ?_⟩
    have := hf.ordered.contains_le hcontains
    have := hreceiver.last
    rcases hmessage.message_target ⟨selector, args, hsend⟩ with heq | hlt
    · exact hne heq
    · omega

/-- Here the second message goes to the result of another one, which the cascade hides. -/
theorem cascade_messages_chained : ∃ p : Program,
    Program.ofTokens (tokenize "A : nil [ m [ self foo; bar baz ] ]".toUTF8.toList) = .ok p ∧
      p.arena.expr? ⟨4⟩ = some (.cascade ⟨0⟩ [⟨1⟩, ⟨3⟩]) ∧ ¬ p.arena.SentTo ⟨0⟩ ⟨3⟩ ∧ p.arena.HiddenBy ⟨4⟩ ⟨2⟩ := by
  obtain ⟨p, hp, hcheck⟩ := Program.exists_ofBytes "A : nil [ m [ self foo; bar baz ] ]".toUTF8
    (fun p => p.arena.expr? ⟨4⟩ = some (.cascade ⟨0⟩ [⟨1⟩, ⟨3⟩]) ∧ p.arena.expr? ⟨3⟩ = some (.send ⟨2⟩ "baz" [])) (by decide +kernel)
  obtain ⟨hcascade, hsend⟩ := of_decide_eq_true hcheck
  have hchained : p.arena.SentTo ⟨2⟩ ⟨3⟩ := ⟨_, _, hsend⟩
  obtain ⟨-, -, hmessages⟩ := cascade_messages hp hcascade
  obtain ⟨-, target, htarget, hiff⟩ := hmessages ⟨3⟩ (by simp)
  obtain rfl := htarget.unique hchained
  have hne : (⟨2⟩ : NodeId) ≠ ⟨0⟩ := by decide
  exact ⟨p, hp, hcascade, fun h => hne (hchained.unique h), not_not.1 fun h => hne (hiff.2 h)⟩

end BlockScope
