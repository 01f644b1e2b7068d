import BlockScope.Proofs.Analysis.Captures
import BlockScope.Proofs.Analysis.Returns
/-!
# Converting twice

A second conversion finds everything done. Nothing that is written remotely is left to move (`Converts.promote_eq_self`), all
that a use asks for has been handed over (`Converts.capture_eq_self`), and the table has the kind of every return. So no site
changes the analysis (`Analyzed.atSite_eq`), and the pass over all of them changes nothing.
-/
namespace BlockScope

/-! ## Tables in order -/

namespace Table
variable {α : Type} {t : Table α} {id key : NodeId} {value old : α} {rest : List (NodeId × α)}

/-- The entries ascend by node. -/
def Ascending (t : Table α) : Prop := t.entries.Pairwise fun e e' => e.1.index < e'.1.index

theorem mem_insertEntry {e : NodeId × α} {l : List (NodeId × α)} (h : e ∈ insertEntry id value l) : e = (id, value) ∨ e ∈ l := by
  induction l with
  | nil => exact .inl (List.mem_singleton.1 h)
  | cons other l ih =>
    rw [insertEntry] at h
    split at h
    · exact List.mem_cons.1 h
    · split at h
      · exact (List.mem_cons.1 h).imp_right (List.mem_cons_of_mem _)
      · rcases List.mem_cons.1 h with rfl | h
        · exact .inr List.mem_cons_self
        · exact (ih h).imp_right (List.mem_cons_of_mem _)

theorem Ascending.insert (h : t.Ascending) (id : NodeId) (value : α) : (t.insert id value).Ascending := by
  obtain ⟨l⟩ := t
  unfold Ascending Table.insert at *
  simp only at h ⊢
  induction l with
  | nil => exact List.pairwise_singleton _ _
  | cons e l ih =>
    obtain ⟨hhead, htail⟩ := List.pairwise_cons.1 h
    rw [insertEntry]
    split
    · next hlt =>
      refine List.pairwise_cons.2 ⟨fun e' he' => ?_, h⟩
      rcases List.mem_cons.1 he' with rfl | he'
      · exact hlt
      · exact Nat.lt_trans hlt (hhead e' he')
    · next hle =>
      split
      · next heq =>
        refine List.pairwise_cons.2 ⟨fun e' he' => ?_, htail⟩
        rw [heq]
        exact hhead e' he'
      · next hne =>
        refine List.pairwise_cons.2 ⟨fun e' he' => ?_, ih htail⟩
        rcases mem_insertEntry he' with rfl | he'
        · have : id.index ≠ e.1.index := fun heq => hne (congrArg NodeId.mk heq)
          simp only
          omega
        · exact hhead e' he'

/-- Entering what is there already changes nothing. -/
theorem Ascending.insert_eq_self (h : t.Ascending) (hget : t.get? id = some value) : t.insert id value = t := by
  obtain ⟨l⟩ := t
  unfold Ascending get? Table.insert at *
  simp only [mk.injEq] at h hget ⊢
  induction l with
  | nil => cases hget
  | cons e l ih =>
    obtain ⟨key, old⟩ := e
    obtain ⟨hhead, htail⟩ := List.pairwise_cons.1 h
    by_cases hkey : key = id
    · simp only [List.find?_cons, hkey, decide_true, Option.map_some, Option.some.injEq] at hget
      simp [insertEntry, hkey, hget]
    · rw [List.find?_cons_of_neg (by simpa using hkey)] at hget
      obtain ⟨⟨id', value'⟩, hfind, rfl⟩ := Option.map_eq_some_iff.1 hget
      obtain rfl : id' = id := by simpa using List.find?_some hfind
      have hlt : key.index < id'.index := hhead _ (List.mem_of_find?_eq_some hfind)
      rw [insertEntry, if_neg (by omega), if_neg (Ne.symm hkey), ih htail hget]

end Table

/-! ## Sites that are done -/

namespace ScopeTree
variable {t u : ScopeTree} {bindings : Table VarId} {done : List Site} {s U : ScopeId} {e : NodeId} {name : String} {found : Found}

theorem foldl_modifyFrame_eq_self {g : Frame → Frame} {ids : List ScopeId} (h : ∀ s ∈ ids, ∀ f, t.frame? s = some f → g f = f) :
    ids.foldl (fun t s => t.modifyFrame s g) t = t := by
  induction ids with
  | nil => rfl
  | cons s ids ih =>
    rw [List.foldl_cons, modifyFrame_eq_self (h s List.mem_cons_self)]
    exact ih fun s' hs' => h s' (List.mem_cons_of_mem _ hs')

namespace Converts

/-- A frame of the converted tree, and what it has been handed. -/
theorem handed_of_frame {f : Frame} (h : t.Converts bindings done u) (hf : u.frame? s = some f) : t.Handed bindings done s f := by
  cases hf₀ : t.frame? s with
  | none =>
    rw [h.shape.frame?_eq_none hf₀] at hf
    cases hf
  | some f₀ =>
    obtain ⟨f', hf', -, hh⟩ := h.frames s f₀ hf₀
    rw [hf] at hf'
    cases hf'
    exact hh

/-- A scope that was entered has nothing left to move. -/
theorem promote_eq_self (h : t.Converts bindings done u) (hs : .enter s ∈ done) : (u.promote s).2 = u := by
  cases hf : t.frame? s with
  | none => exact promote_of_no_frame (h.shape.frame?_eq_none hf)
  | some f =>
    obtain ⟨f', hf', hst, -⟩ := h.frames s f hf
    have hnone : (f'.arguments ++ f'.locals).filter u.isWrittenRemotely = [] := by
      have := h.toMove hst
      rwa [if_pos hs] at this
    unfold promote
    rw [hf']
    simp only [hnone, List.foldl_nil, List.isEmpty_nil, if_true]

/-- What a use asks for has been handed over when it was seen. -/
theorem capture_eq_self (h : t.Converts bindings done u) (hw : t.Wf) (hfind : t.find U name false = some found)
    (hy : bindings.get? e = some found.var) (hs : .use U e ∈ done)
    (hentered : ∀ v, t.var? (t.realVar found.var) = some v → t.IsCode v.scope → .enter v.scope ∈ done) :
    u.capture U found.var = u := by
  obtain ⟨v, hv, hU, hl⟩ := hw.find_spec hfind
  have hids : ∀ s, s ∈ u.trueBlocksUntil U v.scope ↔ t.Between U s v.scope ∧ t.scopeIs (·.isTrueBlock) s :=
    fun s => h.mem_trueBlocksUntil hw.nested hU
  unfold ScopeTree.capture
  simp only [h.realVar]
  cases hl with
  | fixed _ hkind _ =>
    rw [h.kept _ v hv (not_moved_of_fixed hw hv hkind)]
    rcases hkind with hk | hk | hk <;> simp only [hk]
  | stored _ hholds hkind _ =>
    have hseen : ∀ {s}, t.Between U s v.scope → t.Seen bindings done s (t.realVar found.var) v :=
      fun hb => ⟨U, e, found.var, hs, hy, rfl, hv, hholds, hb⟩
    by_cases hwritten : v.remote = .written
    · have ⟨f, hf, hmem⟩ := hholds
      have ⟨o, k, hscope⟩ := scope_of_frame hf
      have hmove : t.realVar found.var ∈ t.toMove f :=
        List.mem_filter.2 ⟨hmem, by simp [ScopeTree.isWrittenRemotely, hv, hwritten]⟩
      rw [h.moved _ v hv ⟨v.scope, f, hentered v hv ⟨o, k, f, hscope⟩, hf, hmove⟩]
      apply foldl_modifyFrame_eq_self
      intro s hmem f hf
      obtain ⟨hb, ht⟩ := (hids s).1 hmem
      have hrecord : v.scope ∈ f.usingHeapvarsFrom := ((h.handed_of_frame hf).records _).2 ⟨ht, _, v, hseen hb, hwritten, rfl⟩
      rw [appendNew_singleton_of_mem hrecord]
    · rw [h.kept _ v hv (not_moved_of_remote hv hwritten)]
      cases hr : v.remote with
      | written => exact absurd hr hwritten
      | none => rcases hkind with hk | hk <;> simp only [hk, hr]
      | read =>
        have hcopied : (u.trueBlocksUntil U v.scope).foldl (·.addCopying · (t.realVar found.var)) u = u := by
          apply foldl_modifyFrame_eq_self
          intro s hmem f hf
          obtain ⟨hb, ht⟩ := (hids s).1 hmem
          have hvalue : t.realVar found.var ∈ f.copyingVars := ((h.handed_of_frame hf).values _).2 ⟨ht, _, v, hseen hb, hr, rfl⟩
          rw [appendNew_singleton_of_mem hvalue]
        rcases hkind with hk | hk <;> simp only [hk, hr, hcopied]

end Converts
end ScopeTree

/-! ## The table of returns -/

namespace Work
variable {arena : Arena} {w : Work}

theorem ascending_atSite (h : w.analysis.returns.Ascending) (site : Site) : (w.atSite arena site).analysis.returns.Ascending := by
  cases site with
  | enter s => exact h
  | use s id =>
    simp only [atSite, use]
    split <;> exact h
  | ret s id =>
    unfold atSite
    rw [analysis_returnFrom]
    exact h.insert _ _

theorem ascending_convertClass (h : w.analysis.returns.Ascending) (entry : ClassDefinition × Nat) :
    (w.convertClass arena entry).analysis.returns.Ascending := by
  unfold convertClass
  simp only
  generalize List.flatMap _ _ = sites
  have htold : (w.tell [.converting entry.1.name]).analysis.returns.Ascending := h
  generalize w.tell [.converting entry.1.name] = w' at htold
  induction sites generalizing w' with
  | nil => exact htold
  | cons site sites ih => exact ih _ (ascending_atSite htold site)

theorem ascending_convert (h : w.analysis.returns.Ascending) (entries : List (ClassDefinition × Nat)) :
    (entries.foldl (convertClass arena) w).analysis.returns.Ascending := by
  induction entries generalizing w with
  | nil => exact h
  | cons entry entries ih => exact ih (ascending_convertClass h entry)

end Work

/-! ## In the end -/

namespace Analyzed
variable {p : Program} {a b : Analysis} {site : Site} {w : Work}

/-- No site changes an analysis that is done. -/
theorem atSite_eq (h : Analyzed p a b) (hreturns : b.returns.Ascending)
    (hsite : site ∈ p.events.flatMap (Event.sites p.arena a.scopeOf?)) (hw : w.analysis = b) :
    (w.atSite p.arena site).analysis = b := by
  subst hw
  cases site with
  | enter s =>
    have hscopes := h.converts.promote_eq_self hsite
    unfold Work.atSite Work.enter
    simp only [Work.tell, Work.withScopes, Work.mapAnalysis, hscopes]
  | use U e =>
    obtain ⟨ev, hev, hmem⟩ := List.mem_flatMap.1 hsite
    obtain ⟨o, role, name, rfl, he, hU⟩ := Event.use_mem_sites.1 hmem
    obtain ⟨U', found, hb⟩ := h.resolved.bound_of_event hev he
    obtain rfl : U' = U := Option.some.inj (hb.scope.symm.trans hU)
    have hscopes := h.converts.capture_eq_self h.resolved.wf hb.find hb.binding hsite fun v _ hcode => h.enters hcode
    simp only [Work.atSite, Work.use, h.bindings_eq, hb.binding]
    simp only [Work.withScopes, Work.mapAnalysis, hscopes]
  | ret U r =>
    have hleaves := h.converts.shape.leaves_eq h.resolved.wf.nested U
    have hkind : w.analysis.returns.get? r = some (w.analysis.scopes.returnKind U) := by
      obtain ⟨kind, hkind⟩ := Option.isSome_iff_exists.1 ((h.returns r).2 ⟨U, hsite⟩)
      obtain ⟨U', M', -, hr', hk⟩ := h.return_of_kind hkind
      obtain ⟨M, hr⟩ := h.resolved.returnIn hsite
      obtain rfl : U' = U := (hr.useSite U').1 ((hr'.useSite U').2 rfl)
      rw [hkind, hk, ScopeTree.returnKind, ScopeTree.returnKind, hleaves]
    unfold Work.atSite
    rw [Work.analysis_returnFrom, hreturns.insert_eq_self hkind]
    cases hm : w.analysis.scopes.leaves U with
    | none => rfl
    | some m =>
      have hkept : w.analysis.scopes.keepsContext m := (h.contexts m).2 (.inr ⟨U, r, hsite, by rw [← hleaves, hm]⟩)
      have hscopes : w.analysis.scopes.modifyFrame m ({ · with needsHeapContext := true }) = w.analysis.scopes := by
        apply ScopeTree.modifyFrame_eq_self
        intro f hf
        have : f.needsHeapContext = true := by simpa [ScopeTree.keepsContext, hf] using hkept
        rw [← this]
      simp only [hscopes]

theorem convertClass_eq {c : ClassDefinition} {cls : Nat} (h : Analyzed p a b) (hreturns : b.returns.Ascending)
    (hc : p.classes[cls]? = some c) (hw : w.analysis = b) : (w.convertClass p.arena (c, cls)).analysis = b := by
  have hclasses : w.analysis.classes = a.classes := by rw [hw, h.rest]
  have hblocks : w.analysis.blockScopes = a.blockScopes := by rw [hw, h.rest]
  unfold Work.convertClass
  simp only [hclasses, hblocks]
  rw [h.resolved.classSites_eq hc]
  have hsites : ∀ site ∈ (p.classEvents cls c).flatMap (Event.sites p.arena a.scopeOf?),
      site ∈ p.events.flatMap (Event.sites p.arena a.scopeOf?) := by
    intro site hsite
    obtain ⟨ev, hev, hmem⟩ := List.mem_flatMap.1 hsite
    exact List.mem_flatMap.2 ⟨ev, List.mem_flatMap.2 ⟨(c, cls), List.mem_zipIdx_iff_getElem?.2 hc, hev⟩, hmem⟩
  exact List.foldlRecOn (motive := fun w : Work => w.analysis = b) _ _ hw fun w hw site hsite => h.atSite_eq hreturns (hsites site hsite) hw

/-- The whole pass changes nothing. -/
theorem convert_eq (h : Analyzed p a b) (hreturns : b.returns.Ascending) (hw : w.analysis = b) :
    (p.classes.zipIdx.foldl (Work.convertClass p.arena) w).analysis = b :=
  List.foldlRecOn (motive := fun w : Work => w.analysis = b) _ _ hw fun _ hw _ hentry =>
    h.convertClass_eq hreturns (List.mem_zipIdx_iff_getElem?.1 hentry) hw

end Analyzed

/-- Conversion on the analysis of an accepted program succeeds and leaves the analysis as it is. -/
theorem conversion_idempotent {bytes : List UInt8} {p : Program} {a : Analysis} (hp : Program.ofBytes bytes = .ok p)
    (ha : p.analyze = .ok a) : ∃ w, (convert p).runOn a = (.ok (), w) ∧ w.analysis = a := by
  obtain ⟨a₀, h⟩ := analyzed_of_ok hp ha
  have hreturns : a.returns.Ascending := by
    obtain ⟨w, -, hnone, rfl⟩ := (Program.parsed_ofBytes hp).converted ha
    apply Work.ascending_convert
    rw [hnone]
    exact List.Pairwise.nil
  exact ⟨_, rfl, h.convert_eq hreturns rfl⟩

/-- A variable on the heap, a value handed over and a return out of a closure. -/
theorem conversion_idempotent_captured : ∃ p a w,
    Program.ofBytes "A : nil [ m: x [ |a| [ |b| [ a := x. ^ b ] ] ] ]".toUTF8.toList = .ok p ∧ p.analyze = .ok a ∧
    a.scopes.recordsOf ⟨4⟩ = [⟨3⟩] ∧ a.scopes.valuesOf ⟨4⟩ = [⟨3⟩] ∧ a.scopes.keepsContext ⟨3⟩ ∧
    (convert p).runOn a = (.ok (), w) ∧ w.analysis = a := by
  obtain ⟨p, a, hp, ha, hcheck⟩ := exists_of_accepted "A : nil [ m: x [ |a| [ |b| [ a := x. ^ b ] ] ] ]".toUTF8
    (fun _ a => a.scopes.recordsOf ⟨4⟩ = [⟨3⟩] ∧ a.scopes.valuesOf ⟨4⟩ = [⟨3⟩] ∧ a.scopes.keepsContext ⟨3⟩) (by decide +kernel)
  obtain ⟨hrecords, hvalues, hkept⟩ := of_decide_eq_true hcheck
  obtain ⟨w, hw, hsame⟩ := conversion_idempotent hp ha
  exact ⟨p, a, w, hp, ha, hrecords, hvalues, hkept, hw, hsame⟩

end BlockScope
