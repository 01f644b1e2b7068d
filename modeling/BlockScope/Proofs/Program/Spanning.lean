import BlockScope.Proofs.Program.Placing
/-!
# Where expressions stand

Every production merges the spans of different pieces into that of its node. These spans nest since an expression begins behind the
offset that its production was entered at and ends at the one it is left at (`Spanned`). Messages to a node begin where that node does
and end as far as they were read (`Continues`), so all messages of a cascade begin with its receiver and none reaches behind the last.
-/
namespace BlockScope
open BlockScope.Parser

/-! ## Results -/

/-- An expression was read from an offset on, after the nodes of an arena, and up to where the parser stands now. -/
structure Spanned (all : List Token) (n : Nat) (a : Arena) (x : NodeId) (s : ParserState) : Prop where
  arena : a.Before s.arena
  there : x.index < s.arena.size
  start : n ≤ (s.arena.span x).start.offset
  reached : s.At all (s.arena.span x).stop.offset

/-- Messages to a node led to another that begins with it. If one `passes` the offset, the last of them ends where the parser stands
now. -/
structure Continues (all : List Token) (n : Nat) (a : Arena) (left : NodeId) (passes : Prop) (x : NodeId) (s : ParserState) : Prop where
  arena : a.Before s.arena
  there : x.index < s.arena.size
  start : (s.arena.span x).start = (a.span left).start
  stop : (a.span left).stop.offset ≤ (s.arena.span x).stop.offset
  reached : s.At all (max n (s.arena.span x).stop.offset)
  passed : passes → n ≤ (s.arena.span x).stop.offset

/-- Nodes were made that begin behind `low`, and the parser stands at `m`. -/
structure Rowed (all : List Token) (low m : Nat) (a : Arena) (ids : List NodeId) (s : ParserState) : Prop where
  arena : a.Before s.arena
  reached : s.At all m
  each : ∀ x ∈ ids, x.index < s.arena.size ∧ low ≤ (s.arena.span x).start.offset

/-- The parser for expressions: each is read from where it is entered to where it is left. -/
def Parser.Places (all : List Token) (p : Parser NodeId) : Prop := ∀ ⦃s n⦄, s.At all n → p.Ensures s (Spanned all n s.arena)

section
variable {all : List Token} {n m low low' : Nat} {a : Arena} {s t : ParserState} {left x y : NodeId} {ids : List NodeId}
  {passes passes' : Prop}

theorem Spanned.lt (h : Spanned all n a x s) : n < (s.arena.span x).stop.offset :=
  Nat.lt_of_le_of_lt h.start (h.reached.among h.there).lt

namespace Continues

theorem refl (hs : s.At all n) (hleft : left.index < s.arena.size) (hno : ¬ passes) : Continues all n s.arena left passes left s := by
  refine ⟨.refl _, hleft, rfl, Nat.le_refl _, ?_, fun h => absurd h hno⟩
  rw [Nat.max_eq_left (hs.ends left hleft)]
  exact hs

theorem trans (h : Continues all n a left passes x t) (h' : Continues all (max n (t.arena.span x).stop.offset) t.arena x passes' y s) :
    Continues all n a left passes y s := by
  have hstop := h'.stop
  have hreached := h'.reached
  rw [Nat.max_assoc, Nat.max_eq_right hstop] at hreached
  exact ⟨h.arena.trans h'.arena, h'.there, h'.start.trans h.start, Nat.le_trans h.stop hstop, hreached,
    fun hp => Nat.le_trans (h.passed hp) hstop⟩

theorem imp (h : Continues all n a left passes x s) (himp : passes' → passes) : Continues all n a left passes' x s :=
  ⟨h.arena, h.there, h.start, h.stop, h.reached, fun hp => h.passed (himp hp)⟩

/-- Messages to an expression that was just read extend it. -/
theorem spanned (h' : Continues all (t.arena.span x).stop.offset t.arena x passes y s) (h : Spanned all n a x t) :
    Spanned all n a y s := by
  have hreached := h'.reached
  rw [Nat.max_eq_right h'.stop] at hreached
  refine ⟨h.arena.trans h'.arena, h'.there, ?_, hreached⟩
  rw [h'.start]
  exact h.start

end Continues

namespace Rowed

theorem nil (hs : s.At all m) : Rowed all low m s.arena [] s := ⟨.refl _, hs, nofun⟩

theorem mono (h : Rowed all low m a ids s) (hle : low' ≤ low) : Rowed all low' m a ids s :=
  ⟨h.arena, h.reached, fun x hx => ⟨(h.each x hx).1, Nat.le_trans hle (h.each x hx).2⟩⟩

theorem cons (hab : a.Before t.arena) (hx : x.index < t.arena.size) (hlow : low ≤ (t.arena.span x).start.offset)
    (h : Rowed all low m t.arena ids s) : Rowed all low m a (x :: ids) s := by
  refine ⟨hab.trans h.arena, h.reached, List.forall_mem_cons.2 ⟨⟨Nat.lt_of_lt_of_le hx h.arena.size, ?_⟩, h.each⟩⟩
  rw [h.arena.span hx]
  exact hlow

/-- The offset that the rest of a row was read from is the end of its first node. -/
theorem cons_endOf (hab : a.Before t.arena) (hx : x.index < t.arena.size) (hlow : low ≤ (t.arena.span x).start.offset)
    (h : Rowed all low (s.arena.endOf (t.arena.span x).stop.offset ids) t.arena ids s) :
    Rowed all low (s.arena.endOf n (x :: ids)) a (x :: ids) s := by
  rw [Arena.endOf_cons, h.arena.span hx]
  exact .cons hab hx hlow h

end Rowed
end

namespace Parser
variable {all : List Token} {n m k bound : Nat} {a : Arena} {s : ParserState} {e : Expr} {span last : Span} {left receiver : NodeId}
  {arg expr : Parser NodeId}

/-- A node from parts that were just read, the last of which ends where it does. -/
theorem ensures_node (hs : s.At all span.stop.offset) (hamong : span.Among all)
    (hparts : ∀ x ∈ e.children, x.index < s.arena.size ∧ span.start.offset ≤ (s.arena.span x).start.offset)
    (hkeeps : Node.Keeps all s.arena ⟨e, span⟩) : (makeNode e span).Ensures s fun x s' =>
      x.index < s'.arena.size ∧ s'.arena.span x = span ∧ s.arena.Before s'.arena ∧ s'.At all span.stop.offset := by
  have hlaid : Node.Laid all s.arena ⟨e, span⟩ :=
    ⟨hamong, fun x hx => ⟨(hparts x hx).1, (hparts x hx).2, hs.ends x (hparts x hx).1⟩, hkeeps⟩
  refine .makeNode ⟨?_, Arena.span_push _ _, .push _ _, hs.push hlaid (Nat.le_refl _)⟩
  rw [ParserState.push, Arena.size_push]
  exact Nat.lt_succ_self _

theorem spanned_node (hs : s.At all span.stop.offset) (hab : a.Before s.arena) (hamong : span.Among all) (hn : n ≤ span.start.offset)
    (hparts : ∀ x ∈ e.children, x.index < s.arena.size ∧ span.start.offset ≤ (s.arena.span x).start.offset)
    (hkeeps : Node.Keeps all s.arena ⟨e, span⟩) : (makeNode e span).Ensures s (Spanned all n a) := by
  refine (ensures_node hs hamong hparts hkeeps).mono fun x s' ⟨hx, hspan, hbefore, hs'⟩ => ?_
  refine ⟨hab.trans hbefore, hx, ?_, ?_⟩
  · rw [hspan]
    exact hn
  · rw [hspan]
    exact hs'

/-- The node reaches from the first of its parts to the last. -/
theorem spanned_across {first : Span} (hs : s.At all last.stop.offset) (hab : a.Before s.arena) (hfirst : first.Among all)
    (hlast : last.Among all) (hn : n ≤ first.start.offset) (hstart : first.start.offset ≤ last.start.offset)
    (hstop : first.stop.offset ≤ last.stop.offset)
    (hparts : ∀ x ∈ e.children, x.index < s.arena.size ∧ first.start.offset ≤ (s.arena.span x).start.offset)
    (hkeeps : Node.Keeps all s.arena ⟨e, first.merge last⟩) : (makeNode e (first.merge last)).Ensures s (Spanned all n a) := by
  have hmin : (first.merge last).start.offset = first.start.offset := by rw [Span.offset_start_merge, Nat.min_eq_left hstart]
  have hmax : (first.merge last).stop.offset = last.stop.offset := by rw [Span.offset_stop_merge, Nat.max_eq_right hstop]
  exact spanned_node (hmax ▸ hs) hab (hfirst.merge hlast) (hmin ▸ hn) (hmin ▸ hparts) hkeeps

/-- A send to a node that ends before the offset, with arguments that begin behind it. -/
theorem continues_send (selector : String) (args : List NodeId) (hs : s.At all last.stop.offset) (hab : a.Before s.arena)
    (hleft : left.index < a.size) (hn : (a.span left).stop.offset ≤ n) (hlast : last.Among all) (hle : n ≤ last.start.offset)
    (hargs : ∀ x ∈ args, x.index < s.arena.size ∧ n ≤ (s.arena.span x).start.offset) :
    (makeNode (.send left selector args) ((s.arena.span left).merge last)).Ensures s (Continues all n a left True) := by
  have hthere : left.index < s.arena.size := Nat.lt_of_lt_of_le hleft hab.size
  have hamong := hs.among hthere
  have hlt := hamong.lt
  have hlast' := hlast.lt
  rw [← hab.span hleft] at hn
  have hstart : ((s.arena.span left).merge last).start = (s.arena.span left).start := Span.start_merge (by omega)
  have hstop : ((s.arena.span left).merge last).stop.offset = last.stop.offset := by
    rw [Span.offset_stop_merge]
    omega
  have hparts : ∀ x ∈ (Expr.send left selector args).children,
      x.index < s.arena.size ∧ ((s.arena.span left).merge last).start.offset ≤ (s.arena.span x).start.offset := by
    rw [hstart]
    refine List.forall_mem_cons.2 ⟨⟨hthere, Nat.le_refl _⟩, fun x hx => ⟨(hargs x hx).1, ?_⟩⟩
    have := (hargs x hx).2
    omega
  refine (ensures_node (hstop ▸ hs) (hamong.merge hlast) hparts hstart).mono fun x s' ⟨hx, hspan, hbefore, hs'⟩ => ?_
  rw [← hspan] at hs' hstop hstart
  have hpassed : n ≤ (s'.arena.span x).stop.offset := by omega
  refine ⟨hab.trans hbefore, hx, ?_, ?_, ?_, fun _ => hpassed⟩
  · rw [hstart, hab.span hleft]
  · rw [← hab.span hleft]
    omega
  · rw [Nat.max_eq_right hpassed]
    exact hs'

/-! ## Messages -/

theorem continues_unaryMessages (k : Nat) (hs : s.At all n) (hleft : left.index < s.arena.size) :
    (unaryMessages k left).Ensures s (Continues all n s.arena left (0 < k ∧ ∃ name, s.skipped.headKind = .identifier name)) := by
  induction k generalizing s n left with
  | zero => exact .pure (.refl hs hleft (by simp))
  | succ k ih =>
    refine .peek_bind ?_
    split
    · next name hkind =>
      refine .advance_bind_of hs hkind (by simp) fun t s₁ _ hread hs₁ e₁ => .spanOf_bind ?_
      have hsend := continues_send name [] hs₁ (e₁ ▸ .refl _) hleft (hs.ends left hleft) hread.among hread.le (by simp)
      refine hsend.bind fun y s₂ hy => (ih hy.reached hy.there).mono fun x s' hx => ?_
      exact (hy.trans hx).imp fun _ => trivial
    · next hkind => exact .pure (.refl hs.skipped hleft fun h => h.2.elim hkind)

theorem continues_binaryMessages (harg : Places all arg) (k least : Nat) (hs : s.At all n) (hleft : left.index < s.arena.size) :
    (binaryMessages arg k least left).Ensures s
      (Continues all n s.arena left (0 < k ∧ least = 0 ∧ ∃ name, s.skipped.headKind = .operator name)) := by
  induction k generalizing s n least left with
  | zero => exact .pure (.refl hs hleft (by simp))
  | succ k ih =>
    refine .peek_bind ?_
    split
    · next name hkind =>
      split
      · next hlt =>
        refine .pure (.refl hs.skipped hleft fun h => ?_)
        have := h.2.1
        omega
      · refine .advance_bind_of hs hkind (by simp) fun t s₁ _ hread hs₁ e₁ => ?_
        refine (harg hs₁).bind fun right s₂ hright => (ih _ hright.reached hright.there).bind fun right' s₃ hright' => ?_
        -- The operand with what binds tighter is the argument.
        have hargument := hright'.spanned hright
        have hle : n ≤ (s₃.arena.span right').start.offset := by
          have := hread.le
          have := hread.lt
          have := hargument.start
          omega
        refine .spanAcross_bind ?_
        have hsend := continues_send name [right'] hargument.reached (e₁ ▸ hargument.arena) hleft (hs.ends left hleft)
          (hargument.reached.among hargument.there) hle (List.forall_mem_singleton.2 ⟨hargument.there, hle⟩)
        refine hsend.bind fun y s₄ hy => (ih _ hy.reached hy.there).mono fun x s' hx => ?_
        exact (hy.trans hx).imp fun _ => trivial
    · next hkind => exact .pure (.refl hs.skipped hleft fun h => h.2.2.elim hkind)

theorem rowed_keywordParts (harg : Places all arg) (k : Nat) (hs : s.At all n) :
    (keywordParts arg k).Ensures s fun parts s' =>
      Rowed all n (s'.arena.endOf n (parts.map (·.2))) s.arena (parts.map (·.2)) s' ∧
        ((0 < k ∧ ∃ part, s.skipped.headKind = .keyword part) → parts ≠ []) := by
  induction k generalizing s n with
  | zero => exact .pure ⟨.nil hs, by simp⟩
  | succ k ih =>
    refine .peek_bind ?_
    split
    · next part hkind =>
      refine .advance_bind_of hs hkind (by simp) fun t s₁ _ hread hs₁ e₁ => (harg hs₁).bind fun x s₂ hx => ?_
      refine (ih hx.reached).bind fun parts s₃ hrest => .pure ⟨?_, fun _ => List.cons_ne_nil _ _⟩
      have hle : n ≤ (s₂.arena.span x).start.offset := Nat.le_trans hread.le_stop hx.start
      have := hx.lt
      exact .cons_endOf (e₁ ▸ hx.arena) hx.there hle (hrest.1.mono (by have := hread.le_stop; omega))
    · next hkind => exact .pure ⟨.nil hs.skipped, fun h => (h.2.elim hkind).elim⟩

theorem continues_optionalKeywordMessage (harg : Places all arg) (k : Nat) (hs : s.At all n) (hleft : left.index < s.arena.size) :
    (optionalKeywordMessage (k + 1) arg left).Ensures s
      (Continues all n s.arena left (∃ part, s.skipped.headKind = .keyword part)) := by
  refine .peek_bind ?_
  split
  · next part hkind =>
    refine (rowed_keywordParts harg (k + 1) hs.skipped).bind fun parts s₁ h => ?_
    obtain ⟨hparts, hne⟩ := h
    have hsome := hne ⟨Nat.succ_pos _, part, by rw [skipped_skipped]; exact hkind⟩
    obtain ⟨y, hy⟩ := Option.ne_none_iff_exists'.1 fun hnone => hsome (List.map_eq_nil_iff.1 (List.getLast?_eq_none_iff.1 hnone))
    have hlast := hparts.each y (List.mem_of_getLast? hy)
    have hreached := hparts.reached
    rw [Arena.endOf, hy] at hreached
    refine .spanAcross_bind ?_
    rw [hy]
    refine (continues_send _ _ hreached hparts.arena hleft (hs.ends left hleft) (hreached.among hlast.1) hlast.2 hparts.each).mono ?_
    exact fun x s' hx => hx.imp fun _ => trivial
  · next hkind => exact .pure (.refl hs.skipped hleft fun h => h.elim hkind)

/-! ## Primaries -/

/-- Nodes were made one after the other from an offset on. -/
def Lays (all : List Token) (n : Nat) (a : Arena) (ids : List NodeId) (s : ParserState) : Prop := ∃ m, n ≤ m ∧ Rowed all n m a ids s

theorem Lays.cons {x : NodeId} {ids : List NodeId} {s t t' : ParserState} (hx : Spanned all n a x t) (ht : t'.arena = t.arena)
    (hm : (t.arena.span x).stop.offset ≤ m) (h : Lays all m t'.arena ids s) : Lays all n a (x :: ids) s := by
  obtain ⟨m', hle, hrow⟩ := h
  have := hx.lt
  rw [ht] at hrow
  exact ⟨m', by omega, .cons hx.arena hx.there hx.start (hrow.mono (by omega))⟩

theorem places_statement (hexpr : Places all expr) : Places all (statement expr) := by
  intro s n hs
  refine .check_bind fun b hb => ?_
  split
  · next hcaret =>
    refine .advance_bind_of hs (hb hcaret) nofun fun t s₁ _ hread hs₁ e₁ => (hexpr hs₁).bind fun value s₂ hvalue => .spanOf_bind ?_
    have := hread.lt
    have := hvalue.start
    have := hvalue.lt
    exact spanned_across hvalue.reached (e₁ ▸ hvalue.arena) hread.among (hvalue.reached.among hvalue.there) hread.le (by omega)
      (by omega)
      (List.forall_mem_singleton.2 ⟨hvalue.there, by omega⟩) trivial
  · exact hexpr hs.skipped

theorem lays_statements (hexpr : Places all expr) (k : Nat) (hs : s.At all n) : (statements expr k).Ensures s (Lays all n s.arena) := by
  induction k generalizing s n with
  | zero => exact .pure ⟨n, Nat.le_refl _, .nil hs⟩
  | succ k ih =>
    refine .peek_bind ?_
    split
    · next hkind =>
      refine .advance_bind_of hs hkind (by simp) fun t s₁ _ hread hs₁ e₁ => (ih hs₁).mono fun ids s' hids => ?_
      obtain ⟨m, hm, hrow⟩ := hids
      exact ⟨m, Nat.le_trans hread.le_stop hm, e₁ ▸ hrow.mono hread.le_stop⟩
    · exact .pure ⟨n, Nat.le_refl _, .nil hs.skipped⟩
    · refine (places_statement hexpr hs.skipped).bind fun x s₁ hx => .peek_bind ?_
      -- A dot or the closing bracket is left to the rest.
      have hrest := (ih hx.reached.skipped).bind (f := fun rest => pure (x :: rest)) fun ids s' hids =>
        .pure (Lays.cons hx rfl (Nat.le_refl _) hids)
      split
      · exact hrest
      · exact hrest
      · exact .after fun _ _ => .throw _

/-- An opening and a closing token, and a node of what was read between them. -/
theorem spanned_between {opening closing : Token} (hopening : opening.From all n) (hle : opening.span.stop.offset ≤ m)
    (hclosing : closing.From all m) (hs : s.At all closing.span.stop.offset) (hab : a.Before s.arena)
    (hparts : ∀ x ∈ e.children, x.index < s.arena.size ∧ opening.span.stop.offset ≤ (s.arena.span x).start.offset)
    (hkeeps : ∀ span : Span, span.start.offset ≤ opening.span.stop.offset → m ≤ span.stop.offset → Node.Keeps all s.arena ⟨e, span⟩) :
    (makeNode e (opening.span.merge closing.span)).Ensures s (Spanned all n a) := by
  have hlt := hopening.lt
  have hm := hclosing.le
  have hlt' := hclosing.lt
  refine spanned_across hs hab hopening.among hclosing.among hopening.le (by omega) (by omega) (fun x hx => ⟨(hparts x hx).1, ?_⟩)
    (hkeeps _ ?_ ?_)
  · have := (hparts x hx).2
    omega
  · rw [Span.offset_start_merge]
    omega
  · rw [Span.offset_stop_merge]
    omega

theorem spanned_blockBody {opening : Token} {params temps : List Declaration} {m' : Nat} (hexpr : Places all expr)
    (hopening : opening.From all n) (hle : opening.span.stop.offset ≤ m) (hparams : ∀ d ∈ params, d.Stands all .argument opening.span.stop.offset m)
    (hle' : m ≤ m') (htemps : ∀ d ∈ temps, d.Stands all .identifier m m') (hs : s.At all m') :
    Ensures (blockBody bound expr opening params temps) s (Spanned all n s.arena) := by
  refine (lays_statements hexpr bound hs).bind fun body s₁ ⟨l, hl, hbody⟩ => ?_
  refine .expect_bind hbody.reached fun closing s₂ hclosing hs₂ e₂ => ?_
  refine spanned_between hopening (by omega) hclosing hs₂ (e₂ ▸ hbody.arena) (fun x hx => ?_) fun span hstart hstop =>
    ⟨fun d hd => ?_, fun d hd => ?_⟩
  · rw [e₂]
    exact ⟨(hbody.each x hx).1, by have := (hbody.each x hx).2; omega⟩
  · exact (hparams d hd).mono hstart (by change m ≤ span.stop.offset; omega)
  · exact (htemps d hd).mono (by change span.start.offset ≤ m; omega) (by change m' ≤ span.stop.offset; omega)

theorem places_block (hexpr : Places all expr) : Places all (block bound expr) := by
  intro s n hs
  rw [block_eq]
  refine .expect_bind hs fun opening s₁ hopening hs₁ e₁ => ?_
  refine (declares_blockParams bound hs₁).bind fun params s₂ ⟨m, hm, hs₂, e₂, hparams⟩ => ?_
  refine (declares_blockTemps bound params hs₂).bind fun temps s₃ ⟨l, hl, hs₃, e₃, htemps⟩ => ?_
  rw [← e₁, ← e₂, ← e₃]
  exact spanned_blockBody hexpr hopening hm hparams hl htemps hs₃

theorem lays_elements (hexpr : Places all expr) (k : Nat) (hs : s.At all n) : (elements expr k).Ensures s (Lays all n s.arena) := by
  induction k generalizing s n with
  | zero => exact .pure ⟨n, Nat.le_refl _, .nil hs⟩
  | succ k ih =>
    refine .check_bind fun b _ => ?_
    split
    · exact .pure ⟨n, Nat.le_refl _, .nil hs.skipped⟩
    · refine (hexpr hs.skipped).bind fun x s₁ hx => .check_bind fun b hb => ?_
      split
      · next hdot =>
        refine .advance_bind_of hx.reached (hb hdot) nofun fun t s₂ _ hread hs₂ e₂ => (ih hs₂).bind fun ids s' hids => .pure ?_
        exact .cons hx e₂ hread.le_stop hids
      · exact .pure (.cons hx rfl (Nat.le_refl _) ⟨_, Nat.le_refl _, .nil hx.reached.skipped⟩)

theorem places_array (hexpr : Places all expr) : Places all (array bound expr) := by
  intro s n hs
  refine .expect_bind hs fun opening s₁ hopening hs₁ e₁ => (lays_elements hexpr bound hs₁).bind fun ids s₂ ⟨m, hm, hrow⟩ => ?_
  refine .expect_bind hrow.reached fun closing s₃ hclosing hs₃ e₃ => ?_
  rw [← e₁]
  refine spanned_between hopening hm hclosing hs₃ (e₃ ▸ hrow.arena) ?_ fun _ _ _ => trivial
  rw [e₃]
  exact hrow.each

theorem places_paren (hexpr : Places all expr) {s : ParserState} {n : Nat} (hs : s.At all n)
    (hkind : s.skipped.headKind = .mark .leftParen) : (paren expr).Ensures s.skipped (Spanned all n s.arena) := by
  refine .advance_bind_of hs hkind nofun fun opening s₁ _ hopening hs₁ e₁ => (hexpr hs₁).bind fun inner s₂ hinner => ?_
  refine .expect_bind hinner.reached fun closing s₃ hclosing hs₃ e₃ => ?_
  rw [← e₁]
  refine spanned_between hopening ?_ hclosing hs₃ (e₃ ▸ hinner.arena) ?_ fun _ _ _ => trivial
  · exact Nat.le_of_lt hinner.lt
  · rw [e₃]
    exact List.forall_mem_singleton.2 ⟨hinner.there, hinner.start⟩

theorem places_primary (hexpr : Places all expr) : Places all (primary bound expr) := by
  intro s n hs
  refine .peek_bind ?_
  split
  · exact places_block hexpr hs.skipped
  · exact places_array hexpr hs.skipped
  · next hkind => exact places_paren hexpr hs hkind
  · refine .advance_bind hs.skipped (fun t s₁ hk _ => ?_) fun t s₁ _ hread hs₁ e₁ => ?_
    · rw [hk]
      exact .throw _
    · split
      · next atom hatom =>
        have hnode : atom.children = [] ∧ Node.Keeps all s₁.arena ⟨atom, t.span⟩ := by
          rcases atom_cases hatom with ⟨value, rfl⟩ | ⟨name, rfl, -⟩
          · exact ⟨rfl, t, hread.mem, rfl, hatom⟩
          · exact ⟨rfl, t, hread.mem, rfl, hatom⟩
        refine spanned_node hs₁ (e₁ ▸ .refl _) hread.among hread.le ?_ hnode.2
        simp [hnode.1]
      · exact .throw _

/-! ## Expressions -/

theorem places_unaryLevel (hexpr : Places all expr) : Places all (unaryLevel bound expr) := fun _ _ hs =>
  (places_primary hexpr hs).bind fun _ _ hx => (continues_unaryMessages bound hx.reached hx.there).mono fun _ _ hy => hy.spanned hx

theorem places_binaryLevel (hexpr : Places all expr) : Places all (binaryLevel bound expr) := fun _ _ hs =>
  (places_unaryLevel hexpr hs).bind fun _ _ hx =>
    (continues_binaryMessages (places_unaryLevel hexpr) bound 0 hx.reached hx.there).mono fun _ _ hy => hy.spanned hx

theorem places_keywordLevel (hexpr : Places all expr) : Places all (keywordLevel (k + 1) expr) := fun _ _ hs =>
  (places_binaryLevel hexpr hs).bind fun _ _ hx =>
    (continues_optionalKeywordMessage (places_binaryLevel hexpr) k hx.reached hx.there).mono fun _ _ hy => hy.spanned hx

/-- A further message of a cascade ends where the parser stands after it: the token it begins with is one of a message. -/
theorem continues_cascadeMessage (hexpr : Places all expr) (hs : s.At all n) (hreceiver : receiver.index < s.arena.size) :
    (cascadeMessage (k + 1) expr receiver).Ensures s (Continues all n s.arena receiver True) := by
  have hunary : Places all (unaryLevel (k + 1) expr) := places_unaryLevel hexpr
  have hbinary : Places all (binaryLevel (k + 1) expr) := places_binaryLevel hexpr
  refine .peek_bind ?_
  split
  · next name hkind =>
    refine (continues_unaryMessages (k + 1) hs.skipped hreceiver).bind fun y s₁ hy => ?_
    refine (continues_binaryMessages hunary (k + 1) 0 hy.reached hy.there).bind fun z s₂ hz => ?_
    have hyz := hy.trans hz
    refine (continues_optionalKeywordMessage hbinary k hyz.reached hyz.there).mono fun x s' hx => (hyz.trans hx).imp fun _ => ?_
    exact ⟨Nat.succ_pos _, name, by rw [skipped_skipped]; exact hkind⟩
  · next name hkind =>
    refine (continues_binaryMessages hunary (k + 1) 0 hs.skipped hreceiver).bind fun y s₁ hy => ?_
    refine (continues_optionalKeywordMessage hbinary k hy.reached hy.there).mono fun x s' hx => (hy.trans hx).imp fun _ => ?_
    exact ⟨Nat.succ_pos _, rfl, name, by rw [skipped_skipped]; exact hkind⟩
  · next part hkind =>
    rw [pure_bind]
    refine (continues_optionalKeywordMessage hbinary k hs.skipped hreceiver).mono fun x s' hx => hx.imp fun _ => ?_
    exact ⟨part, by rw [skipped_skipped]; exact hkind⟩
  · exact .after fun _ _ => .throw_bind _

theorem rowed_cascadeMessages (hexpr : Places all expr) (bound : Nat) (hs : s.At all n) (hreceiver : receiver.index < s.arena.size) :
    (cascadeMessages (cascadeMessage (k + 1) expr receiver) bound).Ensures s fun ids s' =>
      Rowed all (s.arena.span receiver).start.offset (s'.arena.endOf n ids) s.arena ids s' := by
  induction bound generalizing s n with
  | zero => exact .pure (.nil hs)
  | succ bound ih =>
    refine .check_bind fun b hb => ?_
    split
    · next hsemicolon =>
      refine .advance_bind_of hs (hb hsemicolon) nofun fun t s₁ _ hread hs₁ e₁ => ?_
      have hthere : receiver.index < s₁.arena.size := e₁ ▸ hreceiver
      refine (continues_cascadeMessage hexpr hs₁ hthere).bind fun x s₂ hx => ?_
      have hreached := hx.reached
      rw [Nat.max_eq_right (hx.passed trivial)] at hreached
      refine (ih hreached (Nat.lt_of_lt_of_le hthere hx.arena.size)).bind fun ids s₃ hids => .pure ?_
      have hstart := congrArg Position.offset hx.start
      rw [hx.arena.span hthere] at hids
      rw [e₁] at hstart hids
      exact .cons_endOf (e₁ ▸ hx.arena) hx.there (Nat.le_of_eq hstart.symm) hids
    · exact .pure (.nil hs.skipped)

theorem places_cascadeLevel (hexpr : Places all expr) : Places all (cascadeLevel (k + 1) expr) := by
  intro s n hs
  refine (places_keywordLevel hexpr hs).bind fun first s₁ hfirst => .check_bind fun b _ => ?_
  split
  · refine .get_bind ?_
    split
    · next receiver selector args hsend =>
      -- The first message has its receiver before it, and begins with it.
      obtain ⟨⟨_, span⟩, hget, rfl⟩ := Option.map_eq_some_iff.1 hsend
      have hlaid := hfirst.reached.nodes first _ hget
      have hspan : s₁.arena.span first = span := by rw [Arena.span, show s₁.arena.get? first = _ from hget]; rfl
      obtain ⟨hthere, hwithin⟩ := hlaid.parts receiver (List.mem_cons_self ..)
      have hstart : span.start = (s₁.arena.span receiver).start := hlaid.keeps
      refine (rowed_cascadeMessages hexpr (k + 1) hfirst.reached.skipped hthere).bind fun others s₂ hothers => .spanAcross_bind ?_
      have hbefore : s₁.arena.Before s₂.arena := hothers.arena
      have hthere' : receiver.index < s₂.arena.size := Nat.lt_of_lt_of_le hthere hbefore.size
      rw [← hspan] at hstart
      have hrow := hothers.cons hfirst.arena hfirst.there (Nat.le_of_eq (congrArg Position.offset hstart).symm)
      -- No message ends behind the last.
      have hreached := hrow.reached
      have hlast := hrow.each (others.getLast?.getD first) (List.mem_of_getLast? List.getLast?_cons)
      rw [← hbefore.span hfirst.there, Arena.endOf_getD] at hreached
      have hend := hreached.ends receiver hthere'
      have hn := hfirst.start
      rw [hstart] at hn
      rw [← hbefore.span hthere] at hrow hlast hn
      exact spanned_across hreached hrow.arena (hreached.among hthere') (hreached.among hlast.1) hn hlast.2 hend
        (List.forall_mem_cons.2 ⟨⟨hthere', Nat.le_refl _⟩, hrow.each⟩) trivial
    · exact .after fun _ _ => .throw _
  · refine .pure ?_
    exact ⟨hfirst.arena, hfirst.there, hfirst.start, hfirst.reached.skipped⟩

theorem spanned_assignmentTail {target : NodeId} {t : ParserState} (hexpr : Places all expr) (htarget : Spanned all n a target t) :
    (assignmentTail expr target).Ensures t (Spanned all n a) := by
  refine .check_bind fun b hb => ?_
  split
  · next hassign =>
    refine .advance_bind_of htarget.reached (hb hassign) nofun fun mark s₁ _ hread hs₁ e₁ => .get_bind ?_
    split
    · refine (hexpr hs₁).bind fun value s₂ hvalue => .spanAcross_bind ?_
      have hbefore : t.arena.Before s₂.arena := e₁ ▸ hvalue.arena
      have hthere : target.index < s₂.arena.size := Nat.lt_of_lt_of_le htarget.there hbefore.size
      have hstart := htarget.start
      have hamong := hvalue.reached.among hthere
      have hend := hread.le
      rw [← hbefore.span htarget.there] at hstart hend
      have := hamong.lt
      have := hread.lt
      have := hvalue.start
      have := hvalue.lt
      exact spanned_across hvalue.reached (htarget.arena.trans hbefore) hamong (hvalue.reached.among hvalue.there) hstart (by omega)
        (by omega)
        (List.forall_mem_cons.2 ⟨⟨hthere, Nat.le_refl _⟩, List.forall_mem_singleton.2 ⟨hvalue.there, by omega⟩⟩) trivial
    · exact .after fun _ _ => .throw _
  · exact .pure ⟨htarget.arena, htarget.there, htarget.start, htarget.reached.skipped⟩

theorem places_expressionWithin (k : Nat) : Places all (expressionWithin k) := by
  induction k with
  | zero => exact fun _ _ _ => .after fun _ _ => .throw _
  | succ k ih => exact fun _ _ hs => (places_cascadeLevel ih hs).bind fun _ _ hx => spanned_assignmentTail ih hx

end Parser
end BlockScope
