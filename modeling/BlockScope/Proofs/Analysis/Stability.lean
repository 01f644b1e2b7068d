import BlockScope.Proofs.Analysis.Ownership
/-!
# Names are found again

Between the moment when a name is resolved and the end, scopes gain slots and variables move from list to list. The
name is found as before all the same: in one scope no two variables share a name that can be spelled, so the order of the
lists does not matter (`Analyzed.findInFrame_eq`), and nothing else that a search looks at changes (`Analyzed.find_eq`).
The use is recorded already, so recording it once more changes nothing.
-/
namespace BlockScope

/-! ## Names in one scope -/

namespace ScopeTree
variable {t u : ScopeTree} {ids ids' : List VarId} {name : String} {x y : VarId} {v w : Variable}

theorem findNamed_congr (h : ∀ x, (u.var? x).map (·.name) = (t.var? x).map (·.name)) (ids : List VarId) (name : String) :
    u.findNamed ids name = t.findNamed ids name := by
  unfold findNamed
  congr 1
  funext x
  have hx := h x
  cases hu : u.var? x <;> cases ht : t.var? x <;> simp_all

/-- Where only one variable has a name, the order of the variables does not matter. -/
theorem findNamed_eq_of_unique (hmem : ∀ x, x ∈ ids ↔ x ∈ ids')
    (hone : ∀ x ∈ ids, ∀ y ∈ ids, ∀ v w, t.var? x = some v → t.var? y = some w → v.name = name → w.name = name → x = y) :
    t.findNamed ids name = t.findNamed ids' name := by
  cases h : t.findNamed ids name with
  | none =>
    rw [eq_comm, findNamed_eq_none]
    intro x hx
    exact findNamed_eq_none.1 h x ((hmem x).2 hx)
  | some x =>
    obtain ⟨hx, v, hv, hvn⟩ := findNamed_eq_some h
    cases h' : t.findNamed ids' name with
    | none => exact absurd hvn (findNamed_eq_none.1 h' x ((hmem x).1 hx) v hv)
    | some y =>
      obtain ⟨hy, w, hw, hwn⟩ := findNamed_eq_some h'
      rw [hone x hx y ((hmem y).2 hy) v w hv hw hvn hwn]

/-- No two variables of a scope share a name that can be spelled. -/
theorem Entered.eq_of_name {s outer : ScopeId} {k k' : CodeKind} {params temps : List Declaration} {o : Option ScopeId} {f : Frame}
    (h : t.Entered s outer k params temps) (hname : Spelled name) (hs : t.scope? s = some ⟨o, .code k' f⟩)
    (hx : x ∈ f.heapvars ++ f.arguments ++ f.locals ++ f.inlined) (hy : y ∈ f.heapvars ++ f.arguments ++ f.locals ++ f.inlined)
    (hv : t.var? x = some v) (hw : t.var? y = some w) (hvn : v.name = name) (hwn : w.name = name) : x = y := by
  obtain ⟨xs, ys, slots, hs', hxs, hys, hslots, hnodup⟩ := h
  rw [hs] at hs'
  cases hs'
  have hdeclared : ∀ z u, z ∈ xs ∨ z ∈ ys ∨ z ∈ slots → t.var? z = some u → u.name = name → z ∈ xs ++ ys := by
    rintro z u (hz | hz | hz) hu hun
    · exact List.mem_append_left _ hz
    · exact List.mem_append_right _ hz
    · obtain ⟨u', hu', hmade⟩ := hslots z hz
      rw [hu] at hu'
      cases hu'
      exact absurd hname (hun ▸ hmade)
  have hnames : ((xs ++ ys).map t.nameOf).Nodup := by
    rw [List.map_append, Entered.map_nameOf hxs, Entered.map_nameOf hys, ← List.map_append]
    exact hnodup
  apply List.inj_on_of_nodup_map hnames (hdeclared x v ((mem_frameOf rfl).1 hx) hv hvn)
    (hdeclared y w ((mem_frameOf rfl).1 hy) hw hwn)
  simp [nameOf, hv, hw, hvn, hwn]

/-! ## Recording a use twice -/

/-- A use whose level is reached changes nothing. -/
theorem markFound_eq_self {found : Found} {forWrite : Bool}
    (h : ∀ x v, t.Hits found x → t.var? x = some v → v.remote.Reaches (.ofUse forWrite)) : t.markFound found forWrite = t := by
  unfold markFound
  split
  · next D hplace =>
    apply modifyVar_eq_self
    intro v hv
    have hreached : v.remote.max (.ofUse forWrite) = v.remote := h _ v ⟨⟨D, hplace⟩, rfl⟩ hv
    unfold Variable.mark
    rw [← RemoteAccess.ofUse, hreached]
  · rfl

end ScopeTree

/-! ## In the end -/

namespace Analyzed
variable {p : Program} {a b : Analysis} {s U : ScopeId} {o : Option ScopeId} {k : CodeKind} {f₀ : Frame} {name : String} {r : Bool}
  {sc : Scope}

/-- Conversion changes no name. -/
theorem names_eq (h : Analyzed p a b) (x : VarId) : (b.scopes.var? x).map (·.name) = (a.scopes.var? x).map (·.name) := by
  cases hx : a.scopes.var? x with
  | none => rw [h.converts.noVar x hx]
  | some v =>
    obtain ⟨kind, hk⟩ := h.converts.var_of_var hx
    rw [hk]
    rfl

theorem findInFrame_eq (h : Analyzed p a b) (hname : Spelled name) (hs : a.scopes.scope? s = some ⟨o, .code k f₀⟩) :
    ∃ f, b.scopes.scope? s = some ⟨o, .code k f⟩ ∧ b.scopes.findInFrame f name = a.scopes.findInFrame f₀ name := by
  obtain ⟨g, hg⟩ := h.converts.shape.scope s _ hs
  rw [Scope.mapFrame_of_code] at hg
  refine ⟨g f₀, hg, ?_⟩
  obtain ⟨hargs, hlocals, hheap, hinlined⟩ := h.lists_eq (ScopeTree.frame?_of_scope hs) (ScopeTree.frame?_of_scope hg)
  obtain ⟨-, code, outer, k', -, -, hentered⟩ := h.resolved.opener_of_code ⟨o, k, f₀, hs⟩
  unfold ScopeTree.findInFrame
  rw [ScopeTree.findNamed_congr h.names_eq, eq_comm]
  apply ScopeTree.findNamed_eq_of_unique
  · -- Both list the same variables: those moved to the heap are the locals that are missing.
    intro x
    have hidle := (h.resolved.wf.code s o k f₀ hs).idle.1
    simp only [hargs, hlocals, hheap, hinlined, hidle, List.mem_append, List.mem_filter]
    cases a.scopes.isWrittenRemotely x <;> simp [or_comm]
  · intro x hx y hy v w hv hw hvn hwn
    exact hentered.eq_of_name hname hs hx hy hv hw hvn hwn

theorem findIn_eq (h : Analyzed p a b) (hname : Spelled name) (hs : a.scopes.scope? s = some sc) (r : Bool) :
    ∃ sc', b.scopes.scope? s = some sc' ∧ b.scopes.findIn s sc' name r = a.scopes.findIn s sc name r ∧ sc'.outer = sc.outer ∧
      sc'.isTrueBlock = sc.isTrueBlock := by
  obtain ⟨o, body⟩ := sc
  cases body with
  | root members =>
    refine ⟨_, h.converts.shape.scope_eq hs (by simp), ?_, rfl, rfl⟩
    simp only [ScopeTree.findIn, ScopeTree.findNamed_congr h.names_eq]
  | side c side receiver slots =>
    refine ⟨_, h.converts.shape.scope_eq hs (by simp), ?_, rfl, rfl⟩
    simp only [ScopeTree.findIn, ScopeTree.findNamed_congr h.names_eq]
  | code k f₀ =>
    obtain ⟨f, hs', hfind⟩ := h.findInFrame_eq hname hs
    refine ⟨_, hs', ?_, rfl, rfl⟩
    simp only [ScopeTree.findIn, hfind]

/-- A name is found in the end as it was when names were resolved. -/
theorem find_eq (h : Analyzed p a b) (hname : Spelled name) (hs : a.scopes.scope? U = some sc) (r : Bool) :
    b.scopes.find U name r = a.scopes.find U name r := by
  have hn := h.resolved.wf.nested
  induction U using hn.induction generalizing sc r with
  | step U ih =>
    obtain ⟨sc', hs', hfind, ho, hblock⟩ := h.findIn_eq hname hs r
    rw [hn.find_eq hs, (h.converts.shape.nested hn).find_eq hs', hfind, ho, hblock]
    congr 1
    cases ho' : sc.outer with
    | none => rfl
    | some o =>
      have ho'' : a.scopes.outer? U = some o := by rw [ScopeTree.outer?_of_scope hs, ho']
      obtain ⟨so, hso⟩ := hn.scope_outer ho''
      exact ih o ho'' hso _

/-- Every use has left its mark. -/
theorem markFound_eq {e : NodeId} {opener : Opener} {role : Role} {found : Found} (h : Analyzed p a b)
    (hb : Bound p a e opener role name U found) : b.scopes.markFound found (role = .target) = b.scopes := by
  apply ScopeTree.markFound_eq_self
  intro x v ⟨hplace, hreal⟩ hv
  obtain ⟨v₀, hv₀, kind, rfl⟩ := h.var_of_var hv
  have hhits : a.scopes.Hits found x := ⟨hplace, by rw [← h.realVar_eq, hreal]⟩
  have hlevel : RemoteAccess.ofUse (role = .target) ≠ .none := by
    unfold RemoteAccess.ofUse
    split <;> simp
  have huses : (Event.node opener role e).Uses p a.scopeOf? a.scopes (role = .target) x :=
    ⟨opener, role, e, name, U, found, rfl, rfl, hb.ident, hb.scope, hb.find, hhits⟩
  refine (h.resolved.reaches_iff_uses hlevel hv₀).2 ⟨_, hb.event, _, huses, ?_⟩
  unfold RemoteAccess.Reaches
  cases RemoteAccess.ofUse (role = .target) <;> rfl

end Analyzed

/-- Looking a bound name up once more, from the scope it stands in and for the same use, gives the variable it is bound to
and leaves the tree as it is. -/
theorem lookup_stable {bytes : List UInt8} {p : Program} {a : Analysis} (hp : Program.ofBytes bytes = .ok p)
    (ha : p.analyze = .ok a) {e : NodeId} {x : VarId} (hx : a.bindings.get? e = some x) :
    ∃ n U, p.arena.expr? e = some (.ident n) ∧ (∀ U', p.UseSite a e U' ↔ U' = U) ∧
      ∀ forWrite : Bool, (forWrite = true ↔ p.arena.IsTarget e) →
        ∃ found, Runs (Scoping.lookup U n forWrite false) a.scopes found a.scopes ∧ found.var = x := by
  obtain ⟨a₀, h⟩ := analyzed_of_ok hp ha
  rw [h.bindings_eq] at hx
  obtain ⟨o, role, n, U, found, hb, rfl⟩ := h.resolved.bound hx
  refine ⟨n, U, hb.ident, fun U' => h.useSite_iff.trans (h.resolved.useSite_iff hb), fun forWrite hw => ⟨found, ?_, rfl⟩⟩
  obtain ⟨outer, k, f, hs⟩ := hb.code
  have hrole : forWrite = decide (role = .target) := by
    rw [Bool.eq_iff_iff, hw, decide_eq_true_iff]
    exact (h.resolved.parsed.forest.fits_of_event hb.event).symm
  have hfind := h.find_eq (h.resolved.parsed.named e n hb.ident) hs false
  exact Scoping.runs_lookup_iff.2 ⟨hfind.trans hb.find, by rw [hrole, h.markFound_eq hb]⟩

/-- A name of an inlined block that a closure assigns to: by the end its slot is on the heap. -/
theorem lookup_stable_moved : ∃ p a n U found, Program.ofBytes
      "A : nil [ m: x [ |a| x ifTrue: [ |c| [ c := a ] ] ifFalse: [ a ] ] ]".toUTF8.toList = .ok p ∧ p.analyze = .ok a ∧
    a.bindings.get? ⟨1⟩ = some ⟨6⟩ ∧ p.arena.IsTarget ⟨1⟩ ∧ p.UseSite a ⟨1⟩ U ∧
    Runs (Scoping.lookup U n true false) a.scopes found a.scopes ∧ found.var = ⟨6⟩ := by
  obtain ⟨p, a, hp, ha, hcheck⟩ := exists_of_accepted
    "A : nil [ m: x [ |a| x ifTrue: [ |c| [ c := a ] ] ifFalse: [ a ] ] ]".toUTF8
    (fun p a => a.bindings.get? ⟨1⟩ = some ⟨6⟩ ∧ p.arena.expr? ⟨3⟩ = some (.assign ⟨1⟩ ⟨2⟩)) (by decide +kernel)
  obtain ⟨hx, hassign⟩ := of_decide_eq_true hcheck
  have htarget : p.arena.IsTarget ⟨1⟩ := ⟨⟨3⟩, ⟨2⟩, hassign⟩
  obtain ⟨n, U, -, hU, hlookup⟩ := lookup_stable hp ha hx
  obtain ⟨found, hfound, hvar⟩ := hlookup true (by simp [htarget])
  exact ⟨p, a, n, U, found, hp, ha, hx, htarget, (hU U).2 rfl, hfound, hvar⟩

end BlockScope
