import BlockScope.Proofs.Analysis.Blame
import BlockScope.Proofs.Analysis.Ownership
import BlockScope.Proofs.Layout.SlotNames
import BlockScope.Proofs.Scope.Preorder
import BlockScope.Proofs.Text.Lines
/-!
# The scopes of a program as text

A dump has one line for every scope of the program (`dump_lists_scopes`). The depth it looks to is enough since every scope lies
within the root, and no scope is met twice since each has one outer scope. That a scope is one line of the text needs its names
to be without newlines: names are read from words, a word has none, and the slots of inlined blocks only add a number.
-/
namespace BlockScope
open Text

/-! ## Names on one line -/

theorem newline_not_wordChar : isWordChar '\n' = false := by decide +kernel

/-- If the token carries a word, no newline is in it. -/
def TokenKind.OneLine : TokenKind → Prop
  | .identifier word | .keyword word | .argument word => Text.OneLine word
  | _ => True

theorem oneLine_charRun (bytes : List UInt8) : OneLine (String.ofList (charRun isWordChar bytes).1) :=
  not_mem_charRun newline_not_wordChar bytes

theorem oneLine_scanWord (bytes : List UInt8) : (scanWord bytes).kind.OneLine := by
  simp only [scanWord]
  split
  · exact oneLine_append.2 ⟨oneLine_charRun bytes, by simp [OneLine]⟩
  · simp only
    split
    · trivial
    · exact oneLine_charRun bytes

theorem oneLine_scan (afterOperand : Bool) (first : UInt8) (rest : List UInt8) : (scan afterOperand first rest).kind.OneLine := by
  have hscanned := scanned afterOperand first rest
  cases hkind : (scan afterOperand first rest).kind with
  | identifier word =>
    obtain ⟨-, hword⟩ := hscanned.of_identifier hkind
    rw [← hkind, hword]
    exact oneLine_scanWord _
  | keyword word =>
    rcases scan_cases afterOperand first rest with hno | hword | ⟨-, hop⟩
    · exact absurd hkind (hno word).2.1
    · rw [← hkind, hword]
      exact oneLine_scanWord _
    · rw [hop] at hkind
      cases hkind
  | argument word =>
    have hcolon := hscanned.of_argument hkind
    rw [hcolon] at hkind
    unfold scanColon at hkind
    split at hkind
    · cases hkind
    · split at hkind
      · cases hkind
        exact oneLine_charRun rest
      · cases hkind
  | _ => trivial

theorem oneLine_tokenize {bytes : List UInt8} {t : Token} (ht : t ∈ tokenize bytes) : t.kind.OneLine :=
  forall_run trivial oneLine_scan _ ht

theorem oneLine_withoutColons {part : String} (h : OneLine part) : OneLine (Parser.withoutColons part) := by
  rw [OneLine, Parser.withoutColons, String.toList_ofList, List.mem_reverse]
  intro hmem
  exact h (List.mem_reverse.1 ((List.dropWhile_sublist _).subset hmem))

/-- The names of classes and of their variables. -/
theorem Program.oneLine_classes {bytes : List UInt8} {p : Program} (hp : Program.ofBytes bytes = .ok p) {c : ClassDefinition}
    (hc : c ∈ p.classes) : OneLine c.name ∧ ∀ d ∈ c.instanceVars ++ c.classVars, OneLine d.name := by
  have hlaid := (Program.laid_ofBytes hp).classes c hc
  have hword : ∀ {t : Token} {kind : TokenKind}, t ∈ tokenize bytes → t.kind = kind → kind.OneLine := by
    rintro t _ ht rfl
    exact oneLine_tokenize ht
  constructor
  · obtain ⟨t, ht, -, -, hkind | ⟨part, hkind, hname⟩⟩ := hlaid.head
    · exact hword ht hkind
    · rw [hname]
      exact oneLine_withoutColons (hword ht hkind)
  · intro d hd
    obtain ⟨t, ht, hkind, -⟩ := (hlaid.vars d hd).read
    exact hword ht.mem hkind

namespace ScopeTree
variable {P : String → Prop} {t t' : ScopeTree} {v : Variable} {id : ScopeId} {d : Declaration} {isParameter : Bool} {x : VarId}

/-- All variables have names with the property. -/
def Named (P : String → Prop) (t : ScopeTree) : Prop := ∀ x v, t.var? x = some v → P v.name

theorem Named.addListed (h : t.Named P) (hv : P v.name) (list : VarId → Frame → Frame) : (t.addListed v list).2.Named P := by
  intro x w hw
  rw [var?_addListed] at hw
  split at hw
  · cases hw
    exact hv
  · exact h x w hw

/-- Resolving names makes no other names than those declared, but for numbers behind them. -/
theorem kept_named (hslot : ∀ name n, P name → P (slotName name n)) : Kept (fun d => P d.name) (Named P) where
  opened _ _ h := h
  declared _ _ hname hd h := by
    rcases declare_cases hd with ⟨-, rfl⟩ | ⟨-, -, rfl⟩ | ⟨-, -, rfl⟩
    · exact (h.addListed (v := slotFor _ _ _) (hslot _ _ hname) listLocal).addListed hname listInlined
    · exact h.addListed hname listArgument
    · exact h.addListed hname listLocal
  marked found forWrite h := by
    intro x v hv
    obtain ⟨v₀, level, hv₀, rfl⟩ := var_of_markFound hv
    exact h x v₀ hv₀

end ScopeTree

theorem oneLine_slotName (name : String) (n : Nat) (h : OneLine name) : OneLine (ScopeTree.slotName name n) := by
  rw [ScopeTree.slotName, oneLine_append, oneLine_append]
  exact ⟨⟨h, by decide⟩, oneLine_toString n⟩

section
variable {p : Program} {a b : Analysis} {bytes : List UInt8}

/-- Before the bodies there are names of classes, of their variables, and the receivers. -/
theorem Ready.named (h : Ready p a) (hp : Program.ofBytes bytes = .ok p) : a.scopes.Named OneLine := by
  have hvars : ∀ i side, ∀ d ∈ p.laidOut a i side, OneLine d.name := by
    intro i side d hd
    obtain ⟨c, hc, hd⟩ := mem_inherited hd
    refine (Program.oneLine_classes hp hc).2 d ?_
    cases side
    · exact List.mem_append_left _ hd
    · exact List.mem_append_right _ hd
  intro x v hv
  obtain ⟨s, hs, hx⟩ := h.listed x v hv
  rcases h.outline.only _ s hs with hroot | ⟨i, info, side, hi, hside⟩
  · rw [hroot, h.outline.members] at hs
    cases hs
    obtain ⟨info, hinfo, rfl⟩ := List.mem_map.1 (Scope.mem_listed_root.1 hx)
    obtain ⟨i, hi⟩ := List.getElem?_of_mem hinfo
    rw [Array.getElem?_toList] at hi
    obtain ⟨c, hc, -, -, -, hv'⟩ := h.outline.classes i info hi
    rw [hv] at hv'
    cases hv'
    exact (Program.oneLine_classes hp (List.mem_of_getElem? hc)).1
  · obtain ⟨receiver, hs', hreceiver, hlaid⟩ := h.outline.sides i info hi side
    rw [hside, hs'] at hs
    cases hs
    rcases Scope.mem_listed_side.1 hx with rfl | hx
    · rw [hv] at hreceiver
      cases hreceiver
      exact (by decide : OneLine "self")
    · obtain ⟨j, hj⟩ := List.getElem?_of_mem hx
      have hlt := (List.getElem?_eq_some_iff.1 hj).1
      rw [hlaid.length] at hlt
      have hd := List.getElem?_eq_getElem hlt
      have hslot := hlaid.var j _ x hd hj
      rw [hv] at hslot
      cases hslot
      exact hvars i side _ (List.getElem_mem hlt)

theorem Resolved.named (h : Resolved p a) (hp : Program.ofBytes bytes = .ok p) : a.scopes.Named OneLine := by
  have hdeclares : p.DeclaresOnly fun d => OneLine d.name := by
    refine Program.declaresOnly_ofBytes hp (fun t ht name hkind => ?_) fun t ht name hkind => ?_ <;>
    · have hline := oneLine_tokenize ht
      rwa [hkind] at hline
  exact h.kept (ScopeTree.kept_named oneLine_slotName) hdeclares fun a₀ hready => hready.named hp

/-- A class is known by the name that it is declared with. -/
theorem Resolved.name_of_class (h : Resolved p a) {i : Nat} {info : ClassInfo} (hi : a.classes[i]? = some info) :
    ∃ c ∈ p.classes, info.name = c.name := by
  obtain ⟨a₀, hready, hsteps⟩ := h.run
  have hlt : i < a₀.classes.size := by
    rw [hready.size, ← h.size_classes]
    exact (Array.getElem?_eq_some_iff.1 hi).1
  have hi₀ := Array.getElem?_eq_getElem hlt
  obtain ⟨info', hi', hsame⟩ := hsteps.classes_eq hi₀
  rw [hi] at hi'
  cases hi'
  obtain ⟨c, hc, hname, -⟩ := hready.outline.classes i _ hi₀
  refine ⟨c, List.mem_of_getElem? hc, ?_⟩
  rw [hsame, ← hname]

theorem Analyzed.named (h : Analyzed p a b) (hp : Program.ofBytes bytes = .ok p) : b.scopes.Named OneLine := by
  intro x v hv
  obtain ⟨v₀, hv₀, kind, rfl⟩ := h.var_of_var hv
  exact h.resolved.named hp x v₀ hv₀

/-- Every scope lies within the root. -/
theorem Analyzed.within_root (h : Analyzed p a b) {id : ScopeId} (hid : (b.scopes.scope? id).isSome) : b.scopes.Within id ⟨0⟩ := by
  have hn : b.scopes.Nested := h.converts.shape.nested h.resolved.wf.nested
  induction id using hn.induction with
  | step id ih =>
    by_cases hne : id = ⟨0⟩
    · rw [hne]
      exact .refl _
    · obtain ⟨s, hs⟩ := Option.isSome_iff_exists.1 hid
      obtain ⟨outer, houter, -⟩ := h.standsUnder hs hne
      have ho : b.scopes.outer? id = some outer := by rw [ScopeTree.outer?_of_scope hs, houter]
      obtain ⟨s', hs'⟩ := hn.scope_outer ho
      exact .outer ho (ih outer ho (by simp [hs']))

end

/-! ## Entries on one line -/

section
variable {t : ScopeTree} {className : Nat → String}

theorem oneLine_text (id : ScopeId) : OneLine id.text := oneLine_append.2 ⟨by decide, oneLine_toString id.index⟩

theorem Variable.oneLine_summary {v : Variable} (h : OneLine v.name) : OneLine v.summary := by
  unfold summary
  split
  · exact oneLine_append.2 ⟨oneLine_append.2 ⟨h, by decide⟩, oneLine_toString _⟩
  · refine oneLine_append.2 ⟨h, ?_⟩
    cases v.remote <;> decide

namespace ScopeTree

theorem Named.oneLine_summaries (h : t.Named OneLine) (ids : List VarId) : OneLine (t.summaries ids) := by
  refine oneLine_intercalate (by decide) fun text htext => ?_
  obtain ⟨x, -, hx⟩ := List.mem_filterMap.1 htext
  obtain ⟨v, hv, rfl⟩ := Option.map_eq_some_iff.1 hx
  exact v.oneLine_summary (h x v hv)

theorem oneLine_listRemark {title : String} {items : List String} (htitle : OneLine title) (hitems : ∀ text ∈ items, OneLine text) :
    OneLine (listRemark title items) := by
  unfold listRemark
  split
  · decide
  · simp only [oneLine_append]
    exact ⟨⟨⟨htitle, by decide⟩, oneLine_intercalate (by decide) hitems⟩, by decide⟩

theorem Named.oneLine_frameText (h : t.Named OneLine) (f : Frame) : OneLine (t.frameText f) := by
  have hlist : ∀ ids, OneLine (t.summaries ids) := h.oneLine_summaries
  have hfrom : OneLine (listRemark " using heapvars from" (f.usingHeapvarsFrom.map (·.text))) := by
    refine oneLine_listRemark (by decide) fun text htext => ?_
    obtain ⟨id, -, rfl⟩ := List.mem_map.1 htext
    exact oneLine_text id
  have hhead : OneLine s!": args [{t.summaries f.arguments}] locals [{t.summaries f.locals}] heapvars [{t.summaries f.heapvars}]" := by
    simp only [oneLine_append]
    exact ⟨⟨⟨⟨⟨⟨by decide, hlist _⟩, by decide⟩, hlist _⟩, by decide⟩, hlist _⟩, by decide⟩
  have hbracketed : ∀ title (ids : List VarId), OneLine title →
      OneLine (if ids.isEmpty then "" else title ++ t.summaries ids ++ "]") := by
    intro title ids htitle
    cases ids.isEmpty
    · exact oneLine_append.2 ⟨oneLine_append.2 ⟨htitle, hlist ids⟩, by decide⟩
    · exact (by decide : OneLine "")
  have hcontext : OneLine (if f.needsHeapContext then " needs heap context" else "") := by
    cases f.needsHeapContext <;> decide
  have hinlined := hbracketed " inlined [" f.inlined (by decide)
  have hcopying := hbracketed " copying [" f.copyingVars (by decide)
  exact oneLine_append.2 ⟨oneLine_append.2 ⟨oneLine_append.2 ⟨oneLine_append.2 ⟨hhead, hinlined⟩, hfrom⟩, hcopying⟩, hcontext⟩

theorem Named.oneLine_bodyText (h : t.Named OneLine) (hclass : ∀ i, OneLine (className i)) (body : ScopeBody) :
    OneLine (t.bodyText className body) := by
  cases body with
  | root members => exact oneLine_append.2 ⟨by decide, h.oneLine_summaries members⟩
  | side i classSide receiver slots =>
    simp only [bodyText, oneLine_append]
    refine ⟨⟨⟨by decide, hclass i⟩, ?_⟩, h.oneLine_summaries slots⟩
    cases classSide <;> decide
  | code kind f => exact h.oneLine_frameText f

theorem Named.oneLine_line (h : t.Named OneLine) (hclass : ∀ i, OneLine (className i)) (id : ScopeId) :
    OneLine (t.line className id) := by
  refine oneLine_append.2 ⟨oneLine_replicate _, ?_⟩
  unfold entry
  split
  · next s hs =>
    simp only [oneLine_append]
    refine ⟨⟨⟨oneLine_text id, by decide⟩, ?_⟩, h.oneLine_bodyText hclass s.body⟩
    unfold Scope.describe
    repeat' split
    all_goals decide
  · decide

end ScopeTree
end

/-- The name of a class by its place. -/
def Analysis.className (a : Analysis) (index : Nat) : String := ((a.classes[index]?).map (·.name)).getD ""

/-- The line of a scope, without its newline. -/
def Analysis.line (a : Analysis) (id : ScopeId) : String := a.scopes.line a.className id

theorem Analyzed.oneLine_className {p : Program} {a b : Analysis} {bytes : List UInt8} (h : Analyzed p a b)
    (hp : Program.ofBytes bytes = .ok p) (i : Nat) : OneLine (b.className i) := by
  unfold Analysis.className
  cases hi : b.classes[i]? with
  | none => exact (by decide : OneLine "")
  | some info =>
    rw [h.rest] at hi
    obtain ⟨c, hc, hname⟩ := h.resolved.name_of_class hi
    rw [Option.map_some, Option.getD_some, hname]
    exact (Program.oneLine_classes hp hc).1

/-- For every accepted program a dump is cut at its newlines into one line for each scope of the tree, and nothing behind the
last. No scope is left out or listed twice. They come in pre-order, where branches of one scope come as they were made, and the
line of a scope begins with two blanks for every scope around it. -/
theorem dump_lists_scopes {bytes : List UInt8} {p : Program} {a : Analysis} (hp : Program.ofBytes bytes = .ok p)
    (ha : p.analyze = .ok a) : ∃ ids : List ScopeId,
    Text.lines a.dump = ids.map a.line ++ [""] ∧
    (∀ id, id ∈ ids ↔ (a.scopes.scope? id).isSome) ∧ ids.Nodup ∧ ids.Pairwise a.scopes.Precedes ∧
    ∀ id s, a.scopes.scope? id = some s → ∃ around : List ScopeId, around.Nodup ∧
      (∀ x, x ∈ around ↔ a.scopes.Within id x ∧ x ≠ id) ∧
      a.line id = String.ofList (List.replicate (2 * around.length) ' ') ++
        (id.text ++ " " ++ s.describe ++ a.scopes.bodyText a.className s.body) := by
  obtain ⟨a₀, h⟩ := analyzed_of_ok hp ha
  have hn : a.scopes.Nested := h.converts.shape.nested h.resolved.wf.nested
  have hroot : a.root = ⟨0⟩ := by rw [h.rest, h.resolved.root_eq]
  have hnone : a.scopes.outer? a.root = none := by
    rw [hroot]
    exact ScopeTree.outer?_of_scope (h.converts.shape.scope_eq h.resolved.root_scope nofun)
  have hdump : a.dump = String.join (((a.scopes.subtree (a.scopes.scopes.size + 1) a.root).map a.line).map (· ++ "\n")) :=
    hn.dump_eq a.className hnone
  refine ⟨a.scopes.subtree (a.scopes.scopes.size + 1) a.root, ?_, fun id => ?_, hn.nodup_subtree _ _, hn.pairwise_subtree _ _,
    fun id s hs => ⟨_, hn.nodup_ancestors id, fun x => hn.mem_ancestors, ScopeTree.line_of_scope hs⟩⟩
  · rw [hdump, Text.lines_join]
    intro text htext
    obtain ⟨id, -, rfl⟩ := List.mem_map.1 htext
    exact (h.named hp).oneLine_line (h.oneLine_className hp) id
  · rw [hn.mem_subtree (by omega), hroot]
    exact ⟨And.left, fun hid => ⟨hid, h.within_root hid⟩⟩

/-- Both sides of a class are made before its methods, and the scope of the method is listed between them. -/
theorem dump_lists_scopes_method : ∃ (p : Program) (a : Analysis) (ids : List ScopeId),
    Program.ofBytes "A : nil [ m [ ] ]".toUTF8.toList = .ok p ∧ p.analyze = .ok a ∧
    a.dump =
      "s0 namespace: A\n" ++
      "  s1 class A (instance side): \n" ++
      "    s3 method: args [] locals [] heapvars []\n" ++
      "  s2 class A (class side): \n" ∧
    Text.lines a.dump = ids.map a.line ++ [""] ∧ (∀ id, id ∈ ids ↔ (a.scopes.scope? id).isSome) ∧ ids.Nodup ∧
    ids.Pairwise a.scopes.Precedes := by
  obtain ⟨p, a, hp, ha, hcheck⟩ := exists_of_accepted "A : nil [ m [ ] ]".toUTF8
    (fun _ a => a.dump =
      "s0 namespace: A\n" ++
      "  s1 class A (instance side): \n" ++
      "    s3 method: args [] locals [] heapvars []\n" ++
      "  s2 class A (class side): \n") (by decide +kernel)
  obtain ⟨ids, hlines, hmem, hnodup, horder, -⟩ := dump_lists_scopes hp ha
  exact ⟨p, a, ids, hp, ha, of_decide_eq_true hcheck, hlines, hmem, hnodup, horder⟩

end BlockScope
