import BlockScope.Proofs.Layout.Frames
import BlockScope.Proofs.Analysis.InlinedSlots
import BlockScope.Proofs.Program.Nesting
import BlockScope.Proofs.Text.Splitting
import BlockScope.Proofs.Token.Scanned
/-!
# Names within a frame

No two variables of a frame have the same name. What is declared twice in one scope is refused. The slot of a name of an
inlined block gets the number of variables its frame has by then, so every slot has a larger number than those before it,
and a name with a number is never one that a source text spells. `Distinct` says so of a tree while names are resolved; moving
variables to the heap then changes no name.
-/
namespace BlockScope

/-! ## Declared names can be spelled -/

theorem spelled_argument {bytes : List UInt8} {t : Token} {name : String} (ht : t ∈ tokenize bytes) (hkind : t.kind = .argument name) :
    Spelled name := by
  rcases scanned_of_mem ht with hend | ⟨first, rest, found, hscanned, hfound, -⟩
  · rw [hend] at hkind
    cases hkind
  · rw [hfound] at hkind
    rw [hscanned.of_argument hkind] at hkind
    unfold scanColon at hkind
    split at hkind
    · cases hkind
    · split at hkind
      · cases hkind
        exact not_mem_charRun hash_not_wordChar rest
      · cases hkind

/-- Whatever a method or block declares is read from an identifier or a parameter of a block. -/
theorem Program.declaresOnly_ofBytes {bytes : List UInt8} {p : Program} {P : String → Prop} (hp : Program.ofBytes bytes = .ok p)
    (hidentifier : ∀ t ∈ tokenize bytes, ∀ name, t.kind = .identifier name → P name)
    (hargument : ∀ t ∈ tokenize bytes, ∀ name, t.kind = .argument name → P name) : p.DeclaresOnly fun d => P d.name := by
  have hlaid := Program.laid_ofBytes hp
  have hread : ∀ {d : Declaration} {n m}, d.Stands (tokenize bytes) .identifier n m → P d.name := by
    intro d n m hd
    obtain ⟨t, ht, hkind, -⟩ := hd.read
    exact hidentifier t ht.mem _ hkind
  intro o code hcode d hd
  cases o with
  | method cls place =>
    obtain ⟨m, hm, rfl⟩ := Option.map_eq_some_iff.1 hcode
    obtain ⟨c, hc, hm⟩ := Option.bind_eq_some_iff.1 hm
    exact hread (((hlaid.classes c (List.mem_of_getElem? hc)).methods m (List.mem_of_getElem? hm)).declares d hd)
  | block id =>
    obtain ⟨node, hnode, he⟩ := Option.map_eq_some_iff.1 (Arena.blockCode?_eq_some.1 hcode)
    have hkeeps := (hlaid.arena id node hnode).keeps
    rw [Node.Keeps, he] at hkeeps
    rcases List.mem_append.1 hd with hd | hd
    · obtain ⟨t, ht, hkind, -⟩ := (hkeeps.1 d hd).read
      exact hargument t ht.mem _ hkind
    · exact hread (hkeeps.2 d hd)

theorem Program.spelled_ofBytes {bytes : List UInt8} {p : Program} (hp : Program.ofBytes bytes = .ok p) :
    p.DeclaresOnly fun d => Spelled d.name :=
  declaresOnly_ofBytes hp (fun _ ht _ hkind => (isName_tokenize ht hkind).spelled) fun _ ht _ => spelled_argument ht

/-- What a frame keeps on the stack before anything is moved. -/
def Frame.stack (f : Frame) : List VarId := f.arguments ++ f.locals

namespace ScopeTree
variable {t t' : ScopeTree} {s : ScopeId} {f f' : Frame} {x : VarId} {v : Variable} {d : Declaration} {isParameter : Bool}

/-- A slot tells the name it was made for and its number. -/
theorem slotName_inj {name name' : String} {n n' : Nat} (h : slotName name n = slotName name' n') : name = name' ∧ n = n' := by
  have hchars : ∀ name n, (slotName name n).toList = (name.toList ++ ['#']) ++ Nat.toDigits 10 n := by
    intro name n
    simp [slotName, toString, Nat.repr]
  have hhash : ∀ (l : List Char) c, (l ++ ['#']).getLast? = some c → c.isDigit = false := by
    intro l c hc
    rw [List.getLast?_concat] at hc
    cases hc
    decide
  have hlist := congrArg String.toList h
  rw [hchars, hchars] at hlist
  obtain ⟨hname, hnumber⟩ := append_toDigits_inj (hhash _) (hhash _) hlist
  exact ⟨String.toList_inj.1 (List.append_cancel_right hname), hnumber⟩

theorem perm_stack_listArgument (x : VarId) (f : Frame) : (listArgument x f).stack.Perm (x :: f.stack) := by
  simp only [Frame.stack, listArgument, List.append_assoc, List.singleton_append]
  exact List.perm_middle

theorem perm_stack_listLocal (x : VarId) (f : Frame) : (listLocal x f).stack.Perm (x :: f.stack) := by
  simp only [Frame.stack, listLocal, ← List.append_assoc]
  exact List.perm_append_singleton x _

/-- The variables of a frame have different names, and a number in a name is less than the number of variables. -/
structure Apart (t : ScopeTree) (f : Frame) : Prop where
  made : ∀ x ∈ f.stack, (t.var? x).isSome
  nodup : (f.stack.map t.nameOf).Nodup
  below : ∀ x ∈ f.stack, ∀ name n, t.nameOf x = slotName name n → n < f.stack.length

/-- The variables of every frame have different names. -/
def Distinct (t : ScopeTree) : Prop := ∀ id f, t.frame? id = some f → t.Apart f

namespace Apart

/-- Names stay while levels change. -/
theorem nameOf_eq (h : t.Apart f) (hk : ∀ x v, t.var? x = some v → ∃ level, t'.var? x = some { v with remote := level })
    (hx : x ∈ f.stack) : (t'.var? x).isSome ∧ t'.nameOf x = t.nameOf x := by
  obtain ⟨v, hv⟩ := Option.isSome_iff_exists.1 (h.made x hx)
  obtain ⟨level, hv'⟩ := hk x v hv
  simp [nameOf, hv, hv']

theorem keep (h : t.Apart f) (hk : ∀ x v, t.var? x = some v → ∃ level, t'.var? x = some { v with remote := level }) :
    t'.Apart f := by
  refine ⟨fun x hx => (h.nameOf_eq hk hx).1, ?_, fun x hx => ?_⟩
  · rw [List.map_congr_left fun x hx => (h.nameOf_eq hk hx).2]
    exact h.nodup
  · rw [(h.nameOf_eq hk hx).2]
    exact h.below x hx

/-- One more variable, under a name that is not there yet and whose number, if it has one, is not too large. -/
theorem add (h : t.Apart f) (hlist : f'.stack.Perm (x :: f.stack)) (hx : t.var? x = some v) (hnew : v.name ∉ f.stack.map t.nameOf)
    (hnumber : ∀ name n, v.name = slotName name n → n ≤ f.stack.length) : t.Apart f' := by
  have hname : t.nameOf x = v.name := by simp [nameOf, hx]
  have hlength : f'.stack.length = f.stack.length + 1 := hlist.length_eq
  refine ⟨fun y hy => ?_, ?_, fun y hy name n hyn => ?_⟩
  · rcases List.mem_cons.1 (hlist.subset hy) with rfl | hy
    · rw [hx]
      rfl
    · exact h.made y hy
  · rw [(hlist.map t.nameOf).nodup_iff, List.map_cons, hname]
    exact List.nodup_cons.2 ⟨hnew, h.nodup⟩
  · rw [hlength, Nat.lt_succ_iff]
    rcases List.mem_cons.1 (hlist.subset hy) with rfl | hy
    · exact hnumber name n (hname ▸ hyn)
    · exact Nat.le_of_lt (h.below y hy name n hyn)

/-- A name that can be spelled has no number. -/
theorem add_spelled (h : t.Apart f) (hlist : f'.stack.Perm (x :: f.stack)) (hx : t.var? x = some v)
    (hnew : v.name ∉ f.stack.map t.nameOf) (hname : Spelled v.name) : t.Apart f' :=
  h.add hlist hx hnew fun name n heq => absurd (heq ▸ hname) (not_spelled_slotName name n)

/-- The next number is in no name of the frame. -/
theorem add_slot {name : String} (h : t.Apart f) (hlist : f'.stack.Perm (x :: f.stack)) (hx : t.var? x = some v)
    (hname : v.name = slotName name f.stack.length) : t.Apart f' := by
  refine h.add hlist hx (fun hmem => ?_) fun other n heq => ?_
  · obtain ⟨y, hy, heq⟩ := List.mem_map.1 hmem
    exact Nat.lt_irrefl _ (h.below y hy name _ (heq.trans hname))
  · exact Nat.le_of_eq (slotName_inj (hname.symm.trans heq)).2.symm

end Apart

/-- A name is declared in a scope of its own only if no variable there has it. -/
theorem not_mem_of_declare (hd : Runs (Scoping.declare s d isParameter) t x t') (hno : ¬ t.scopeIs (·.isInlined) s) (hf : t.frame? s = some f)
    (hmade : ∀ y ∈ f.stack, (t.var? y).isSome) : d.name ∉ f.stack.map t.nameOf := by
  rw [Scoping.runs_declare_iff, if_neg hno, hf] at hd
  obtain ⟨_, hf', hnone, -⟩ := hd
  cases hf'
  intro hmem
  obtain ⟨y, hy, heq⟩ := List.mem_map.1 hmem
  obtain ⟨w, hw⟩ := Option.isSome_iff_exists.1 (hmade y hy)
  rw [nameOf, hw] at heq
  exact findNamed_eq_none.1 hnone y hy w hw heq

namespace Distinct

/-- Listing a variable changes the frame of its scope and no other. -/
theorem addListed {list : VarId → Frame → Frame} (h : t.Distinct)
    (hframe : ∀ f, t.frame? v.scope = some f → (t.addListed v list).2.Apart f →
      f.stack.map (t.addListed v list).2.nameOf = f.stack.map t.nameOf → (t.addListed v list).2.Apart (list ⟨t.vars.size⟩ f)) :
    (t.addListed v list).2.Distinct := by
  have hold : ∀ x w, t.var? x = some w → ∃ level, (t.addListed v list).2.var? x = some { w with remote := level } :=
    fun x w hw => ⟨w.remote, var?_addListed_of_var? v list hw⟩
  intro id f hf
  rw [frame?_addListed] at hf
  split at hf
  · next hid =>
    obtain ⟨f₀, hf₀, rfl⟩ := Option.map_eq_some_iff.1 hf
    have hapart := h id f₀ hf₀
    exact hframe f₀ (hid ▸ hf₀) (hapart.keep hold) (List.map_congr_left fun x hx => (hapart.nameOf_eq hold hx).2)
  · exact (h id f hf).keep hold

/-- A variable under a name that is declared nowhere in its scope. -/
theorem addSpelled {list : VarId → Frame → Frame} (h : t.Distinct) (hlist : ∀ x f, (list x f).stack.Perm (x :: f.stack))
    (hname : Spelled v.name) (hnew : ∀ f, t.frame? v.scope = some f → v.name ∉ f.stack.map t.nameOf) :
    (t.addListed v list).2.Distinct := by
  refine h.addListed fun f hf hapart hnames => ?_
  exact hapart.add_spelled (hlist _ f) (var?_new t v list) (hnames ▸ hnew f hf) hname

theorem declare (h : t.Distinct) (hname : Spelled d.name) (hd : Runs (Scoping.declare s d isParameter) t x t') : t'.Distinct := by
  have hnew : ¬ t.scopeIs (·.isInlined) s → ∀ f, t.frame? s = some f → d.name ∉ f.stack.map t.nameOf :=
    fun hno f hf => not_mem_of_declare hd hno hf (h s f hf).made
  rcases declare_cases hd with ⟨-, rfl⟩ | ⟨hno, -, rfl⟩ | ⟨hno, -, rfl⟩
  · -- The slot has the next number of its frame, and the name for it is on no stack.
    have hslot : (t.addListed (slotFor d (t.realScope s) (t.slotNumber s)) listLocal).2.Distinct := by
      refine h.addListed fun f hf hapart _ => ?_
      have hf : t.frame? (t.realScope s) = some f := hf
      have hname : (slotFor d (t.realScope s) (t.slotNumber s)).name = slotName d.name f.stack.length := by
        simp [slotFor, Variable.new, slotNumber, hf, Frame.stack]
      exact hapart.add_slot (perm_stack_listLocal _ f) (var?_new t _ _) hname
    exact hslot.addListed fun f _ hapart _ => ⟨hapart.made, hapart.nodup, hapart.below⟩
  · exact h.addSpelled perm_stack_listArgument hname (hnew hno)
  · exact h.addSpelled perm_stack_listLocal hname (hnew hno)

end Distinct

theorem kept_distinct : Kept (fun d => Spelled d.name) Distinct where
  opened outer k h := by
    intro id f hf
    rw [frame?, scope?_addScope] at hf
    split at hf
    · cases hf
      refine ⟨fun x hx => ?_, List.nodup_nil, fun x hx => ?_⟩ <;> cases hx
    · exact (h id f hf).keep fun x v hv => ⟨v.remote, hv⟩
  declared _ _ hname hd h := h.declare hname hd
  marked found forWrite h := by
    intro id f hf
    rw [frame?, scope?_markFound] at hf
    exact (h id f hf).keep (grows_markFound _ found forWrite).vars

end ScopeTree

theorem Resolved.distinct {p : Program} {a : Analysis} (h : Resolved p a) (hp : p.DeclaresOnly fun d => Spelled d.name) :
    a.scopes.Distinct := by
  refine h.kept ScopeTree.kept_distinct hp fun a₀ hready id f hf => ?_
  obtain ⟨o, k, hs⟩ := ScopeTree.scope_of_frame hf
  exact absurd hs hready.outline.no_code

namespace Analyzed
variable {p : Program} {a b : Analysis} {s o : ScopeId} {f g : Frame} {x : VarId}

theorem nameOf_eq (h : Analyzed p a b) (x : VarId) : b.scopes.nameOf x = a.scopes.nameOf x := by
  cases hx : a.scopes.var? x with
  | none => rw [ScopeTree.nameOf, ScopeTree.nameOf, hx, h.converts.noVar x hx]
  | some v =>
    obtain ⟨kind, hv⟩ := h.converts.var_of_var hx
    rw [ScopeTree.nameOf, ScopeTree.nameOf, hx, hv]
    rfl

/-- What is on the stack and what is on the heap have different names. -/
theorem nodup_names (h : Analyzed p a b) (hp : p.DeclaresOnly fun d => Spelled d.name) (hf : b.scopes.frame? s = some f) :
    ((f.arguments ++ f.locals ++ f.heapvars).map b.scopes.nameOf).Nodup := by
  obtain ⟨f₀, hf₀, hargs, hlocals, hheap⟩ := h.frame_eq hf
  have hperm : (f.arguments ++ f.locals ++ f.heapvars).Perm f₀.stack := by
    rw [hargs, hlocals, hheap, List.append_assoc]
    exact (List.perm_append_comm.trans (List.filter_append_perm _ _)).append_left _
  rw [(hperm.map _).nodup_iff, List.map_congr_left fun x _ => h.nameOf_eq x]
  exact (h.resolved.distinct hp s f₀ hf₀).nodup

/-- The slot of a name of an inlined block is in the frame of its host. -/
theorem slot_mem (h : Analyzed p a b) (hg : b.scopes.frame? o = some g) (hx : x ∈ g.inlined) :
    ∃ f, b.scopes.frame? (b.scopes.realScope o) = some f ∧ b.scopes.realVar x ∈ f.locals ++ f.heapvars := by
  obtain ⟨g₀, hg₀, -⟩ := h.frame_of_frame hg
  obtain ⟨-, -, -, hinlined⟩ := h.lists_eq hg₀ hg
  rw [hinlined] at hx
  obtain ⟨outer, k, hs⟩ := ScopeTree.scope_of_frame hg₀
  have halias := (h.resolved.wf.code o outer k g₀ hs).inlined x hx
  have hdirect := h.resolved.wf.direct_of_aliases halias
  obtain ⟨v, slot, host, fh, hv, -, -, hslot, hhost, hfh, hmem⟩ := halias
  obtain ⟨f, hf, hcount⟩ := h.count_local hfh hmem
  refine ⟨f, by rw [h.realScope_eq, hhost.realScope_eq h.resolved.wf.nested, hf], ?_⟩
  rw [h.realVar_eq, hdirect.realVar_eq hv hslot]
  exact List.count_pos_iff.1 (by omega)

end Analyzed

/-- A frame of a layout is that of some scope, under whatever names. -/
theorem exists_frameLayout {p : Program} {a : Analysis} {c : ClassLayout} {f : FrameLayout} (hc : c ∈ (p.layout a).classes)
    (hf : f ∈ c.frames) : ∃ names s, f = frameLayout a.scopes names s := by
  obtain ⟨⟨d, info⟩, -, rfl⟩ := List.mem_map.1 hc
  rw [classLayout_frames] at hf
  obtain ⟨⟨m, scope⟩, -, hf⟩ := List.mem_flatMap.1 hf
  obtain ⟨s, -, rfl⟩ := List.mem_map.1 hf
  exact ⟨_, s, rfl⟩

/-- In an accepted program the arguments, locals and heap variables of a frame have names that are all different. Among them are
the slots of all inlined blocks that the frame hosts, at whatever depth. -/
theorem slot_names_distinct {bytes : List UInt8} {p : Program} {a : Analysis} (hp : Program.ofBytes bytes = .ok p)
    (ha : p.analyze = .ok a) {c : ClassLayout} (hc : c ∈ (p.layout a).classes) {f : FrameLayout} (hf : f ∈ c.frames) :
    (f.arguments ++ f.locals ++ f.heapvars).Nodup ∧
    ∀ o g, a.scopes.frame? o = some g → a.scopes.realScope o = f.scope → ∀ x ∈ g.inlined,
      a.scopes.nameOf (a.scopes.realVar x) ∈ f.locals ++ f.heapvars := by
  obtain ⟨a₀, h⟩ := analyzed_of_ok hp ha
  obtain ⟨names, s, rfl⟩ := exists_frameLayout hc hf
  constructor
  · cases hs : a.scopes.frame? s with
    | none => simp [frameLayout, hs, Frame.empty]
    | some f =>
      have hnodup := h.nodup_names (Program.spelled_ofBytes hp) hs
      simpa [frameLayout, hs] using hnodup
  · intro o g hg hreal x hx
    obtain ⟨f, hframe, hmem⟩ := h.slot_mem hg hx
    have hreal : a.scopes.realScope o = s := hreal
    rw [hreal] at hframe
    simp only [frameLayout, hframe, Option.getD_some, ← List.map_append]
    exact List.mem_map_of_mem hmem

/-- A loop in a loop, both with the name of the parameter of the method around them; what a closure writes is on the heap. -/
theorem slot_names_distinct_nested : ∃ p a c f, Program.ofBytes
      "A : nil [ m: i [ 1 to: 2 do: [ :i | 1 to: 3 do: [ :i | |c| [ c := i ] ] ] ] ]".toUTF8.toList = .ok p ∧
    p.analyze = .ok a ∧ c ∈ (p.layout a).classes ∧ f ∈ c.frames ∧ f.arguments = ["i"] ∧ f.locals = ["i#1", "i#2"] ∧
    f.heapvars = ["c#3"] ∧ (f.arguments ++ f.locals ++ f.heapvars).Nodup := by
  obtain ⟨p, a, hp, ha, hcheck⟩ := exists_of_accepted
    "A : nil [ m: i [ 1 to: 2 do: [ :i | 1 to: 3 do: [ :i | |c| [ c := i ] ] ] ] ]".toUTF8
    (fun p a => (p.layout a).classes.head?.any fun c => c.frames.head?.any fun f =>
      f.arguments = ["i"] ∧ f.locals = ["i#1", "i#2"] ∧ f.heapvars = ["c#3"]) (by decide +kernel)
  obtain ⟨c, hc, hcheck⟩ := (Option.any_eq_true _ _).1 hcheck
  obtain ⟨f, hf, hcheck⟩ := (Option.any_eq_true _ _).1 hcheck
  obtain ⟨hargs, hlocals, hheap⟩ := of_decide_eq_true hcheck
  have hclass := List.mem_of_head? hc
  have hframe := List.mem_of_head? hf
  exact ⟨p, a, c, f, hp, ha, hclass, hframe, hargs, hlocals, hheap, (slot_names_distinct hp ha hclass hframe).1⟩

end BlockScope
