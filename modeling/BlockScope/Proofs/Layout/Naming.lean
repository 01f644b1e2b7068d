import BlockScope.Proofs.Analysis.Acceptance
import BlockScope.Proofs.Layout.References
import BlockScope.Proofs.Program.Declaring
import BlockScope.Proofs.Text.Splitting
/-!
# Names of frames

A closure is named for its method with the letters of its scopes and its number behind. That part can be told from the rest,
so two closures share a name only if their methods do (`Analyzed.numbered_inj`), and the names of all frames are distinct if the
entry points are and none of them reads like the name of a closure. Entry points put underscores for colons and between class
and selector, so they can clash where class names or selectors have underscores of their own, and nowhere else.
-/
namespace BlockScope

/-- The entry points of all methods, in the order of the program. -/
def Program.entryPoints (p : Program) : List String := p.classes.flatMap fun c => c.methods.map (·.entryPoint c.name)

/-! ## The end of a name -/

/-- What stands behind the name of a method in that of a closure: its letters and its number. -/
def closureMark (depth number : Nat) : List Char := '_' :: 'M' :: (List.replicate depth 'B' ++ Nat.toDigits 10 number)

/-- The number stands at the end. -/
theorem append_closureMark (l : List Char) (d n : Nat) :
    l ++ closureMark d n = (l ++ '_' :: 'M' :: List.replicate d 'B') ++ Nat.toDigits 10 n := by simp [closureMark]

theorem closureMark_inj {l l' : List Char} {d d' n n' : Nat} (h : l ++ closureMark d n = l' ++ closureMark d' n') : l = l' ∧ n = n' := by
  have hletter : ∀ (l : List Char) (d : Nat) c, (l ++ '_' :: 'M' :: List.replicate d 'B').getLast? = some c → c.isDigit = false := by
    intro l d c hc
    have hmem : c ∈ 'M' :: List.replicate d 'B' := by
      rw [List.getLast?_append_of_ne_nil _ (by simp), List.getLast?_cons_cons] at hc
      exact List.mem_of_getLast? hc
    rcases List.mem_cons.1 hmem with rfl | hmem
    · decide
    · rw [List.eq_of_mem_replicate hmem]
      decide
  rw [append_closureMark, append_closureMark] at h
  obtain ⟨hrest, hnumber⟩ := append_toDigits_inj (hletter l d) (hletter l' d') h
  -- Read backwards, the letters end at the first one that is no `B`.
  have hreverse : ∀ l d, (l ++ '_' :: 'M' :: List.replicate d 'B').reverse = List.replicate d 'B' ++ 'M' :: '_' :: l.reverse := by simp
  have hsame := congrArg List.reverse hrest
  rw [hreverse, hreverse] at hsame
  obtain ⟨-, hsame⟩ := append_inj_of_all (q := (· = 'B')) (by simp) (by simp) (by simp) (by simp) hsame
  exact ⟨List.reverse_inj.1 (by simpa using hsame), hnumber⟩

/-- A number has a last digit. -/
theorem getLast?_closureMark (l : List Char) (d n : Nat) : ∃ c, (l ++ closureMark d n).getLast? = some c ∧ c.isDigit := by
  have hne : Nat.toDigits 10 n ≠ [] := Nat.toDigits_ne_nil
  refine ⟨(Nat.toDigits 10 n).getLast hne, ?_, isDigit_of_mem_toDigits (List.getLast_mem hne)⟩
  rw [append_closureMark, List.getLast?_append, List.getLast?_eq_some_getLast hne]
  rfl

/-! ## Letters -/

/-- The letters of the scopes from one outwards. -/
def ScopeTree.letters (t : ScopeTree) (id : ScopeId) : List Char := (t.chain id).filterMap fun s => (t.scope? s).bind (·.letter?)

theorem ScopeTree.SameShape.letters_eq {t t' : ScopeTree} (h : t.SameShape t') (hn : t.Nested) (id : ScopeId) :
    t'.letters id = t.letters id := by
  unfold ScopeTree.letters
  rw [h.chain hn]
  refine List.filterMap_congr fun s _ => ?_
  cases hs : t.scope? s with
  | none => rw [h.none s hs]
  | some sc =>
    obtain ⟨f, hf⟩ := h.scope s sc hs
    simp [hf, Scope.letter?]

namespace Resolved
variable {p : Program} {a : Analysis} {openers : List Opener} {U : ScopeId}

/-- Up to the method there are letters for closures only, and none beyond. -/
theorem letters_of_placed (h : Resolved p a) (hplaced : Placed p a openers U) : ∃ d, a.scopes.letters U = List.replicate d 'B' ++ ['M'] := by
  have hn := h.wf.nested
  have hcons : ∀ {U S : ScopeId}, a.scopes.outer? U = some S →
      a.scopes.letters U = ((a.scopes.scope? U).bind (·.letter?)).toList ++ a.scopes.letters S := by
    intro U S ho
    rw [ScopeTree.letters, hn.chain_of_outer ho, List.filterMap_cons]
    cases (a.scopes.scope? U).bind (·.letter?) <;> rfl
  have hletter : ∀ {U S k params temps}, a.scopes.Entered U S k params temps →
      ∃ f, (a.scopes.scope? U).bind (·.letter?) = Scope.letter? ⟨some S, .code k f⟩ := by
    rintro U S k params temps ⟨xs, ys, slots, hs, -⟩
    exact ⟨_, by rw [hs, Option.bind_some]⟩
  induction hplaced with
  | @method cls place m info U hm hi hU hentered =>
    refine ⟨0, ?_⟩
    obtain ⟨f, hf⟩ := hletter hentered
    have hnone : a.scopes.letters (info.side m.classSide) = [] := by
      refine List.filterMap_eq_nil_iff.2 fun y hy => ?_
      have hwithin := (hn.mem_chain _).1 hy
      cases hs : a.scopes.scope? y with
      | none => rfl
      | some sc =>
        obtain ⟨o, body⟩ := sc
        cases body with
        | root | side => rfl
        | code k f =>
          -- Code around a method would be the method itself.
          have hmethod : a.scopes.scopeIs (·.isMethod) U := hentered.scopeIs (· = some .method)
          obtain rfl := h.eq_of_around_method hmethod (.outer hentered.outer?_eq hwithin) ⟨o, k, f, hs⟩
          have := hn _ _ hentered.outer?_eq
          have := hwithin.le hn
          omega
    rw [hcons hentered.outer?_eq, hf, hnone]
    rfl
  | @block b code role U S outer hb hU hentered _ ih =>
    obtain ⟨d, hd⟩ := ih
    obtain ⟨f, hf⟩ := hletter hentered
    rw [hcons hentered.outer?_eq, hf, hd]
    cases role with
    | plain | target => exact ⟨d + 1, rfl⟩
    | inlined => exact ⟨d, rfl⟩

end Resolved

theorem toList_closureName {t : ScopeTree} {x : ScopeId} {d : Nat} (hd : t.letters x = List.replicate d 'B' ++ ['M'])
    (entryPoint : String) (n : Nat) : (closureName t entryPoint (x, n)).toList = entryPoint.toList ++ closureMark d n := by
  have hpath : t.path x = String.ofList ('M' :: List.replicate d 'B') := by
    rw [ScopeTree.path, ← ScopeTree.letters, hd]
    simp
  simp [closureName, hpath, closureMark, toString, Nat.repr]

/-! ## Entry points -/

theorem toList_entryPoint (className : String) (m : Method) : (m.entryPoint className).toList =
    '_' :: (if m.classSide then 'c' else 'i') :: '_' :: (className.toList ++ '_' :: '_' ::
      m.selector.toList.map fun c => if c = ':' then '_' else c) := by
  unfold Method.entryPoint
  cases m.classSide <;> simp

/-- A class name without underscores ends at the first one. -/
theorem entryPoint_append_inj {c c' : String} {m m' : Method} (l l' : List Char) (hc : '_' ∉ c.toList) (hc' : '_' ∉ c'.toList)
    (h : (m.entryPoint c).toList ++ l = (m'.entryPoint c').toList ++ l') : m.classSide = m'.classSide ∧ c = c' ∧
      (m.selector.toList.map fun c => if c = ':' then '_' else c) ++ l =
        (m'.selector.toList.map fun c => if c = ':' then '_' else c) ++ l' := by
  rw [toList_entryPoint, toList_entryPoint] at h
  simp only [List.cons_append, List.cons.injEq, List.append_assoc, true_and] at h
  obtain ⟨hside, hrest⟩ := h
  have hplain : ∀ {name : String}, '_' ∉ name.toList → ∀ x ∈ name.toList, decide (x ≠ '_') := by
    intro name hname x hx
    exact decide_eq_true fun he => hname (he ▸ hx)
  obtain ⟨hname, hrest⟩ := append_inj_of_all (hplain hc) (hplain hc') (by simp) (by simp) hrest
  refine ⟨?_, String.toList_injective hname, by simpa using hrest⟩
  cases hm : m.classSide <;> cases hm' : m'.classSide <;> simp [hm, hm'] at hside ⊢

/-- Where there are no underscores, a colon can be told from the underscore that it becomes. -/
theorem map_underscore_inj {l l' : List Char} (hl : '_' ∉ l) (hl' : '_' ∉ l')
    (h : (l.map fun c => if c = ':' then '_' else c) = l'.map fun c => if c = ':' then '_' else c) : l = l' := by
  have hback : ∀ {l : List Char}, '_' ∉ l →
      ((l.map fun c => if c = ':' then '_' else c).map fun c => if c = '_' then ':' else c) = l := by
    intro l hl
    rw [List.map_map]
    refine (List.map_congr_left fun c hc => ?_).trans (List.map_id l)
    have hne : c ≠ '_' := fun he => hl (he ▸ hc)
    by_cases hcolon : c = ':' <;> simp [hcolon, hne]
  rw [← hback hl, h, hback hl']

/-! ## All names -/

/-- Names built from one name each and numbered names behind it, where the numbered ones tell both. -/
theorem nodup_numbered {α : Type} {name : String → α × Nat → String} {L : List (String × List α)}
    (hinj : ∀ y ∈ L, ∀ x ∈ y.2.zipIdx, ∀ y' ∈ L, ∀ x' ∈ y'.2.zipIdx, name y.1 x = name y'.1 x' → y.1 = y'.1 ∧ x.2 = x'.2) :
    (L.flatMap fun y => y.1 :: y.2.zipIdx.map (name y.1)).Nodup ↔
      (L.map (·.1)).Nodup ∧ ∀ y ∈ L, ∀ x ∈ y.2.zipIdx, name y.1 x ∉ L.map (·.1) := by
  constructor
  · intro h
    obtain ⟨hown, hother⟩ := List.nodup_flatMap.1 h
    have : Std.Symm (Function.onFun List.Disjoint fun y : String × List α => y.1 :: y.2.zipIdx.map (name y.1)) :=
      ⟨fun _ _ h _ hx hy => h hy hx⟩
    have hfirst : (L.map (·.1)).Nodup := by
      refine List.pairwise_map.2 (hother.imp fun {y y'} hdisjoint heq => ?_)
      exact hdisjoint (a := y.1) List.mem_cons_self (by simp [heq])
    refine ⟨hfirst, fun y hy x hx hmem => ?_⟩
    obtain ⟨z, hz, heq⟩ := List.mem_map.1 hmem
    have hnumbered : z.1 ∈ y.2.zipIdx.map (name y.1) := List.mem_map.2 ⟨x, hx, heq.symm⟩
    by_cases hyz : y = z
    · rw [← hyz] at hnumbered
      exact (List.nodup_cons.1 (hown y hy)).1 hnumbered
    · exact hother.forall hy hz hyz (List.mem_cons_of_mem _ hnumbered) List.mem_cons_self
  · rintro ⟨hfirst, hnone⟩
    refine List.nodup_flatMap.2 ⟨fun y hy => List.nodup_cons.2 ⟨fun hmem => ?_, ?_⟩, ?_⟩
    · obtain ⟨x, hx, heq⟩ := List.mem_map.1 hmem
      exact hnone y hy x hx (List.mem_map.2 ⟨y, hy, heq.symm⟩)
    · refine List.Nodup.map_on (fun x hx x' hx' heq => ?_) (List.Nodup.of_map (·.2) (by simp [List.zipIdx_map_snd, List.nodup_range']))
      have hnumber := (hinj y hy x hx y hy x' hx' heq).2
      have hx := List.mem_zipIdx_iff_getElem?.1 hx
      rw [hnumber, List.mem_zipIdx_iff_getElem?.1 hx'] at hx
      exact Prod.ext (Option.some.inj hx).symm hnumber
    · refine (List.pairwise_map.1 hfirst).imp_of_mem fun {y y'} hy hy' hne n hn hn' => ?_
      rcases List.mem_cons.1 hn with rfl | hn
      · rcases List.mem_cons.1 hn' with heq | hn'
        · exact hne heq
        · obtain ⟨x, hx, heq⟩ := List.mem_map.1 hn'
          exact hnone y' hy' x hx (List.mem_map.2 ⟨y, hy, heq.symm⟩)
      · obtain ⟨x, hx, rfl⟩ := List.mem_map.1 hn
        rcases List.mem_cons.1 hn' with heq | hn'
        · exact hnone y hy x hx (List.mem_map.2 ⟨y', hy', heq.symm⟩)
        · obtain ⟨x', hx', heq⟩ := List.mem_map.1 hn'
          exact hne (hinj y hy x hx y' hy' x' hx' heq.symm).1

/-- The methods with the closures in their bodies, each method by its entry point. -/
def Program.namedMethods (p : Program) (b : Analysis) : List (String × List ScopeId) :=
  (p.classes.zip b.classes.toList).flatMap fun (c, info) => (c.methods.zip info.methods).map fun (m, _) =>
    (m.entryPoint c.name, p.closures b m)

namespace Analyzed
variable {p : Program} {a b : Analysis}

theorem map_namedMethods (h : Analyzed p a b) : (p.namedMethods b).map (·.1) = p.entryPoints := by
  unfold Program.namedMethods Program.entryPoints
  rw [List.map_flatMap, h.classes_eq]
  have hclass : ∀ y ∈ p.classes.zip a.classes.toList,
      ((y.1.methods.zip y.2.methods).map fun x => (x.1.entryPoint y.1.name, p.closures b x.1)).map (·.1) =
        y.1.methods.map (·.entryPoint y.1.name) := by
    intro y hy
    obtain ⟨i, hi⟩ := List.mem_iff_getElem?.1 hy
    obtain ⟨hc, hinfo⟩ := List.getElem?_zip_eq_some.1 hi
    obtain ⟨hinstance, hclassSide⟩ := h.resolved.parallel hc (by rw [← Array.getElem?_toList, hinfo])
    have hlength : y.1.methods.length = y.2.methods.length := (List.rel_append hinstance hclassSide).length_eq
    calc _ = ((y.1.methods.zip y.2.methods).map (·.1)).map (·.entryPoint y.1.name) := by simp [List.map_map, Function.comp_def]
      _ = _ := by rw [List.map_fst_zip (Nat.le_of_eq hlength)]
  calc _ = (p.classes.zip a.classes.toList).flatMap fun y => y.1.methods.map (·.entryPoint y.1.name) := List.flatMap_congr hclass
    _ = ((p.classes.zip a.classes.toList).map (·.1)).flatMap fun c => c.methods.map (·.entryPoint c.name) := by
      rw [List.flatMap_map]
    _ = _ := by rw [List.map_fst_zip (by simp [h.resolved.size_classes])]

/-- The kinds and names of all frames. -/
theorem map_kind_name (h : Analyzed p a b) : ((p.layout b).classes.flatMap (·.frames)).map (fun f => (f.kind, f.name)) =
    (p.namedMethods b).flatMap fun y => (.method, y.1) :: y.2.zipIdx.map fun x => (.block, closureName b.scopes y.1 x) := by
  simp only [Program.layout, Program.namedMethods, List.flatMap_map, classLayout_frames, List.map_flatMap, List.flatMap_assoc]
  apply List.flatMap_congr
  rintro ⟨c, info⟩ hc
  apply List.flatMap_congr
  rintro ⟨m, s⟩ hm
  obtain ⟨i, hi⟩ := List.mem_iff_getElem?.1 hc
  obtain ⟨hc, hinfo⟩ := List.getElem?_zip_eq_some.1 hi
  obtain ⟨hinstance, hclassSide⟩ := h.resolved.parallel hc (by rw [← h.classes_eq, ← Array.getElem?_toList, hinfo])
  have hscope : p.IsMethodScope a i m s := (List.forall₂_iff_zip.1 (List.rel_append hinstance hclassSide)).2 hm
  have hmethod : b.scopes.scopeIs (·.isMethod) s := by
    obtain ⟨place, hplace, hs⟩ := hscope
    rw [h.converts.shape.isMethod]
    exact h.resolved.isMethod_of_scope hplace hs
  have hblock : ∀ x ∈ p.closures b m, b.scopes.scopeIs (·.isMethod) x = false := by
    intro x hx
    rw [h.closures_eq, h.resolved.mem_closures hscope] at hx
    rw [h.converts.shape.isMethod]
    exact ScopeTree.not_method_of_block (.inl hx.1)
  have hnodup : (s :: p.closures b m).Nodup := by
    rw [h.closures_eq]
    exact h.resolved.nodup_framed hscope
  have hnames := map_nameOf b.scopes (m.entryPoint c.name) hnodup
  rw [List.map_cons, List.cons.injEq] at hnames
  have hmem : m ∈ p.methods := by
    obtain ⟨place, hplace, -⟩ := hscope
    exact Program.Forest.mem_methods hplace
  rw [h.frames_of_method hmem, List.map_map, List.map_cons]
  simp only [Function.comp_apply, frameLayout, hmethod, if_true, hnames.1, List.cons.injEq, true_and]
  calc _ = (p.closures b m).map fun x => (FrameKind.block, (frameNames b.scopes (m.entryPoint c.name) s (p.closures b m)).nameOf x) := by
        refine List.map_congr_left fun x hx => ?_
        simp [frameLayout, hblock x hx]
    _ = ((p.closures b m).map (frameNames b.scopes (m.entryPoint c.name) s (p.closures b m)).nameOf).map (FrameKind.block, ·) := by
        rw [List.map_map]
        rfl
    _ = _ := by
        rw [hnames.2, List.map_map]
        rfl

theorem map_name (h : Analyzed p a b) : ((p.layout b).classes.flatMap (·.frames)).map (·.name) =
    (p.namedMethods b).flatMap fun y => y.1 :: y.2.zipIdx.map (closureName b.scopes y.1) := by
  have hpairs := congrArg (List.map Prod.snd) h.map_kind_name
  simpa [List.map_flatMap, List.map_map, Function.comp_def] using hpairs

theorem toList_closureName (h : Analyzed p a b) {y : String × List ScopeId} (hy : y ∈ p.namedMethods b) {x : ScopeId × Nat}
    (hx : x ∈ y.2.zipIdx) : ∃ d, (closureName b.scopes y.1 x).toList = y.1.toList ++ closureMark d x.2 := by
  obtain ⟨⟨c, info⟩, -, hy⟩ := List.mem_flatMap.1 hy
  obtain ⟨⟨m, s⟩, -, rfl⟩ := List.mem_map.1 hy
  obtain ⟨n, -, hx⟩ := List.mem_filterMap.1 (List.mem_of_getElem? (List.mem_zipIdx_iff_getElem?.1 hx))
  obtain ⟨-, htrue⟩ := Option.filter_eq_some_iff.1 hx
  rw [h.isTrueBlock_eq] at htrue
  obtain ⟨openers, hplaced⟩ := h.resolved.placed_of_code (ScopeTree.isCode_of_hasFrame (s := x.1) (by simp [ScopeTree.hasFrame, htrue]))
  obtain ⟨d, hd⟩ := h.resolved.letters_of_placed hplaced
  rw [← h.converts.shape.letters_eq h.resolved.wf.nested] at hd
  exact ⟨d, BlockScope.toList_closureName hd _ _⟩

/-- A closure has its method and its number in its name. -/
theorem numbered_inj (h : Analyzed p a b) : ∀ y ∈ p.namedMethods b, ∀ x ∈ y.2.zipIdx, ∀ y' ∈ p.namedMethods b, ∀ x' ∈ y'.2.zipIdx,
    closureName b.scopes y.1 x = closureName b.scopes y'.1 x' → y.1 = y'.1 ∧ x.2 = x'.2 := by
  intro y hy x hx y' hy' x' hx' heq
  obtain ⟨d, hd⟩ := h.toList_closureName hy hx
  obtain ⟨d', hd'⟩ := h.toList_closureName hy' hx'
  obtain ⟨hname, hnumber⟩ := closureMark_inj (hd.symm.trans ((congrArg String.toList heq).trans hd'))
  exact ⟨String.toList_injective hname, hnumber⟩

/-- The names of all frames are distinct as soon as those of the methods are, and none of these reads like that of a closure. -/
theorem nodup_names_iff (h : Analyzed p a b) : (((p.layout b).classes.flatMap (·.frames)).map (·.name)).Nodup ↔
    p.entryPoints.Nodup ∧ ∀ f ∈ (p.layout b).classes.flatMap (·.frames), f.kind = .block → f.name ∉ p.entryPoints := by
  have hblocks : (∀ f ∈ (p.layout b).classes.flatMap (·.frames), f.kind = .block → f.name ∉ p.entryPoints) ↔
      ∀ y ∈ p.namedMethods b, ∀ x ∈ y.2.zipIdx, closureName b.scopes y.1 x ∉ p.entryPoints := by
    have hpair : ∀ {name}, (∃ f ∈ (p.layout b).classes.flatMap (·.frames), f.kind = .block ∧ f.name = name) ↔
        ∃ y ∈ p.namedMethods b, ∃ x ∈ y.2.zipIdx, closureName b.scopes y.1 x = name := by
      intro name
      have hmem := congrArg ((FrameKind.block, name) ∈ ·) h.map_kind_name
      simpa [Prod.ext_iff] using hmem
    constructor
    · intro hall y hy x hx
      obtain ⟨f, hf, hkind, hname⟩ := hpair.2 ⟨y, hy, x, hx, rfl⟩
      exact hname ▸ hall f hf hkind
    · intro hall f hf hkind
      obtain ⟨y, hy, x, hx, hname⟩ := hpair.1 ⟨f, hf, hkind, rfl⟩
      exact hname ▸ hall y hy x hx
  rw [hblocks, h.map_name, nodup_numbered h.numbered_inj, h.map_namedMethods]

end Analyzed

/-! ## Without underscores -/

/-- No class name and no selector has an underscore. -/
def Program.Underscoreless (p : Program) : Prop := ∀ c ∈ p.classes, '_' ∉ c.name.toList ∧ ∀ m ∈ c.methods, '_' ∉ m.selector.toList

namespace Program.Underscoreless
variable {p : Program}

theorem nodup_entryPoints (h : p.Underscoreless) (hclasses : (p.classes.map (·.name)).Nodup)
    (hmethods : ∀ c ∈ p.classes, (c.methods.map fun m => (m.classSide, m.selector)).Nodup) : p.entryPoints.Nodup := by
  have hinj : ∀ c ∈ p.classes, ∀ m ∈ c.methods, ∀ c' ∈ p.classes, ∀ m' ∈ c'.methods, m.entryPoint c.name = m'.entryPoint c'.name →
      c.name = c'.name ∧ (m.classSide, m.selector) = (m'.classSide, m'.selector) := by
    intro c hc m hm c' hc' m' hm' heq
    obtain ⟨hside, hname, hselector⟩ := entryPoint_append_inj [] [] (h c hc).1 (h c' hc').1 (by rw [heq])
    rw [List.append_nil, List.append_nil] at hselector
    have hsame := map_underscore_inj ((h c hc).2 m hm) ((h c' hc').2 m' hm') hselector
    rw [hside, String.toList_injective hsame]
    exact ⟨hname, rfl⟩
  refine List.nodup_flatMap.2 ⟨fun c hc => ?_, ?_⟩
  · refine List.pairwise_map.2 ((List.pairwise_map.1 (hmethods c hc)).imp_of_mem fun {m m'} hm hm' hne heq => ?_)
    exact hne (hinj c hc m hm c hc m' hm' heq).2
  · refine (List.pairwise_map.1 hclasses).imp_of_mem fun {c c'} hc hc' hne e he he' => ?_
    obtain ⟨m, hm, rfl⟩ := List.mem_map.1 he
    obtain ⟨m', hm', heq⟩ := List.mem_map.1 he'
    exact hne (hinj c hc m hm c' hc' m' hm' heq.symm).1

/-- A selector with an underscore from a colon ends with one, and the name of a closure does not. -/
theorem closure_not_entryPoint (h : p.Underscoreless)
    (hcolons : ∀ c ∈ p.classes, ∀ m ∈ c.methods, ':' ∈ m.selector.toList → m.selector.toList.getLast? = some ':')
    {e name : String} {d n : Nat} (he : e ∈ p.entryPoints) (hname : name.toList = e.toList ++ closureMark d n) : name ∉ p.entryPoints := by
  intro hmem
  obtain ⟨c, hc, he⟩ := List.mem_flatMap.1 he
  obtain ⟨m, hm, rfl⟩ := List.mem_map.1 he
  obtain ⟨c', hc', hmem⟩ := List.mem_flatMap.1 hmem
  obtain ⟨m', hm', rfl⟩ := List.mem_map.1 hmem
  obtain ⟨-, -, hselector⟩ := entryPoint_append_inj [] _ (h c' hc').1 (h c hc).1 (by rw [List.append_nil, hname])
  rw [List.append_nil] at hselector
  have hcolon : ':' ∈ m'.selector.toList := by
    have hunderscore : '_' ∈ m'.selector.toList.map fun c => if c = ':' then '_' else c := by
      rw [hselector]
      simp [closureMark]
    obtain ⟨x, hx, hx'⟩ := List.mem_map.1 hunderscore
    split at hx'
    · next heq => exact heq ▸ hx
    · exact absurd (hx' ▸ hx) ((h c' hc').2 m' hm')
  obtain ⟨x, hx, hdigit⟩ := getLast?_closureMark (m.selector.toList.map fun c => if c = ':' then '_' else c) d n
  rw [← hselector, List.getLast?_map, hcolons c' hc' m' hm' hcolon] at hx
  cases hx
  revert hdigit
  decide

end Program.Underscoreless

/-- In an accepted program the names of all frames are distinct if and only if the entry points of its methods are, and no
closure goes by one of them. Where no class repeats a selector on one side, they are distinct unless a class name or a
selector has an underscore. -/
theorem frame_names_unless_underscore {bytes : List UInt8} {p : Program} {a : Analysis} (hp : Program.ofBytes bytes = .ok p)
    (ha : p.analyze = .ok a) (hmethods : ∀ c ∈ p.classes, (c.methods.map fun m => (m.classSide, m.selector)).Nodup) :
    ((((p.layout a).classes.flatMap (·.frames)).map (·.name)).Nodup ↔ p.entryPoints.Nodup ∧
      ∀ f ∈ (p.layout a).classes.flatMap (·.frames), f.kind = .block → f.name ∉ p.entryPoints) ∧
    (p.Underscoreless → (((p.layout a).classes.flatMap (·.frames)).map (·.name)).Nodup) := by
  obtain ⟨a₀, h⟩ := analyzed_of_ok hp ha
  refine ⟨h.nodup_names_iff, fun hplain => ?_⟩
  rw [h.map_name, nodup_numbered h.numbered_inj, h.map_namedMethods]
  refine ⟨hplain.nodup_entryPoints h.resolved.valid.classes hmethods, fun y hy x hx => ?_⟩
  obtain ⟨d, hd⟩ := h.toList_closureName hy hx
  refine hplain.closure_not_entryPoint (Program.selectors_ofBytes hp) ?_ hd
  rw [← h.map_namedMethods]
  exact List.mem_map_of_mem hy

/-- Methods of the same selector on both sides and in a subclass, with closures in them. -/
theorem frame_names_unless_underscore_sides : ∃ p a, Program.ofBytes
      "A : nil [ at: x [ [ [ x ] ] ] class at: x [ ^ [ x ] ] ] B : A [ at: x [ [ x ]. [ x ] ] ]".toUTF8.toList = .ok p ∧
    p.analyze = .ok a ∧ ((p.layout a).classes.flatMap (·.frames)).map (·.name) =
      ["_i_A__at_", "_i_A__at__MB0", "_i_A__at__MBB1", "_c_A__at_", "_c_A__at__MB0", "_i_B__at_", "_i_B__at__MB0", "_i_B__at__MB1"] ∧
    (((p.layout a).classes.flatMap (·.frames)).map (·.name)).Nodup := by
  obtain ⟨p, a, hp, ha, hcheck⟩ := exists_of_accepted
    "A : nil [ at: x [ [ [ x ] ] ] class at: x [ ^ [ x ] ] ] B : A [ at: x [ [ x ]. [ x ] ] ]".toUTF8
    (fun p a => (∀ c ∈ p.classes, (c.methods.map fun m => (m.classSide, m.selector)).Nodup) ∧
      (∀ c ∈ p.classes, '_' ∉ c.name.toList ∧ ∀ m ∈ c.methods, '_' ∉ m.selector.toList) ∧
      ((p.layout a).classes.flatMap (·.frames)).map (·.name) =
        ["_i_A__at_", "_i_A__at__MB0", "_i_A__at__MBB1", "_c_A__at_", "_c_A__at__MB0", "_i_B__at_", "_i_B__at__MB0", "_i_B__at__MB1"])
    (by decide +kernel)
  obtain ⟨hmethods, hplain, hnames⟩ := of_decide_eq_true hcheck
  exact ⟨p, a, hp, ha, hnames, (frame_names_unless_underscore hp ha hmethods).2 hplain⟩

end BlockScope
