import BlockScope.Proofs.Analysis.RemoteAccess
import BlockScope.Proofs.Scope.Listing
/-!
# What is moved to the heap

The heap record of a method or closure holds exactly the variables it owns that are written remotely. These are all
temporaries, since nothing assigns to a parameter, so the parameters stay what is declared. Moving keeps the order in
which the variables were made, and neither loses nor repeats one.
-/
namespace BlockScope

/-! ## All variables are listed when names are resolved -/

theorem ScopeTree.Listing.markFound {t : ScopeTree} (h : t.Listing) (found : Found) (forWrite : Bool) :
    (t.markFound found forWrite).Listing := by
  have hold : ∀ x v, (t.markFound found forWrite).var? x = some v → ∃ v₀, t.var? x = some v₀ ∧ v₀.scope = v.scope := by
    intro x v hv
    by_cases hh : t.Hits found x
    · rw [ScopeTree.var?_markFound_of_hits hh] at hv
      obtain ⟨v₀, hv₀, rfl⟩ := Option.map_eq_some_iff.1 hv
      exact ⟨v₀, hv₀, rfl⟩
    · rw [ScopeTree.var?_markFound_of_not_hits hh] at hv
      exact ⟨v, hv, rfl⟩
  have hframe : ∀ id, (t.markFound found forWrite).frame? id = t.frame? id := by
    intro id
    simp [ScopeTree.frame?]
  constructor
  case housed =>
    intro x v hv
    obtain ⟨v₀, hv₀, hscope⟩ := hold x v hv
    rw [ScopeTree.scope?_markFound, ← hscope]
    exact h.housed x v₀ hv₀
  case listed =>
    intro x v f hv hf
    obtain ⟨v₀, hv₀, hscope⟩ := hold x v hv
    rw [hframe, ← hscope] at hf
    exact h.listed x v₀ f hv₀ hf
  case arranged =>
    intro id f hf
    rw [hframe] at hf
    exact (h.arranged id f hf).keep (ScopeTree.grows_markFound t found forWrite).vars

section
variable {p : Program} {scopeOf : Opener → Option ScopeId} {a b : Analysis} {ev : Event} {evs : List Event}

theorem Step.listing (h : Step p scopeOf a ev b) (hw : a.scopes.Wf) (hl : a.scopes.Listing) : b.scopes.Listing := by
  cases h with
  | method hm hinfo hscope hside hopens => exact hl.opens hopens hw hside nofun
  | block hb hscope ho hcode hopens =>
    obtain ⟨o', k', f', hs⟩ := hcode
    exact hl.opens hopens hw hs fun _ => ⟨k', f', rfl⟩
  | use => exact hl.markFound _ _
  | other => exact hl

theorem Steps.listing (h : Steps p scopeOf a evs b) (hw : a.scopes.Wf) (hl : a.scopes.Listing) : b.scopes.Listing := by
  induction h with
  | nil => exact hl
  | cons h _ ih => exact ih (h.wf_grows hw).1 (h.listing hw hl)

theorem Outline.listing {laid : Nat → Bool → List Declaration} (h : Outline p laid a) : a.scopes.Listing := by
  have hnone : ∀ {id f}, a.scopes.frame? id ≠ some f := by
    intro id f hf
    obtain ⟨o, k, hs⟩ := ScopeTree.scope_of_frame hf
    exact h.no_code hs
  exact ⟨fun x v hv => (h.vars x v hv).2.2, fun x v f _ hf => absurd hf hnone, fun id f hf => absurd hf hnone⟩

theorem Resolved.listing (h : Resolved p a) : a.scopes.Listing := by
  obtain ⟨a₀, hready, hsteps⟩ := h.run
  exact hsteps.listing hready.outline.wf hready.outline.listing

end

/-! ## Parameters are never written remotely -/

namespace ScopeTree
variable {t : ScopeTree} {U : ScopeId} {name : String} {r : Bool} {found : Found} {v : Variable}

/-- A name that stands for a parameter is that parameter: names of inlined blocks stand for temporaries. -/
theorem Wf.argument_of_find (hw : t.Wf) (h : t.find U name r = some found) (hv : t.var? (t.realVar found.var) = some v)
    (hk : v.kind = .argument) : t.realVar found.var = found.var := by
  rcases hw.owns_or_aliases h with ⟨id, kind, w, hw', -, -, ha⟩ | ⟨id, haliases⟩
  · exact realVar_of_no_alias hw' ha
  · have hdirect := hw.direct_of_aliases haliases
    obtain ⟨w, slot, host, fh, hw', -, -, ha, -, hfh, hslot⟩ := haliases
    obtain ⟨oh, kh, hsh⟩ := scope_of_frame hfh
    obtain ⟨v', hv', -, hk', -⟩ := (hw.code host oh kh fh hsh).locals slot hslot
    simp only [hdirect.realVar_eq hw' ha, hv', Option.some.injEq] at hv
    subst hv
    rw [hk] at hk'
    cases hk'

end ScopeTree

namespace Resolved
variable {p : Program} {a : Analysis} {s : ScopeId} {f : Frame} {x : VarId}

theorem not_written_of_argument (h : Resolved p a) (hf : a.scopes.frame? s = some f) (hx : x ∈ f.arguments) :
    ¬ a.scopes.isWrittenRemotely x := by
  obtain ⟨o, k, hs⟩ := ScopeTree.scope_of_frame hf
  obtain ⟨v, hv, rfl, hk, -⟩ := (h.wf.code s o k f hs).arguments x hx
  intro hwritten
  have hholds : a.scopes.Holds x v := ⟨f, hf, List.mem_append_left _ hx⟩
  have hremote : v.remote = .written := by simpa [ScopeTree.isWrittenRemotely, hv] using hwritten
  obtain ⟨e, htarget, s', hpass, -⟩ := (h.written_iff hv hholds).1 hremote
  obtain ⟨y, hy, rfl⟩ := hpass.refers
  obtain ⟨o', role, name, U, found, hb, rfl⟩ := h.bound hy
  -- The assignment would be to the parameter itself, and that is refused.
  obtain rfl : role = .target := (h.parsed.forest.fits_of_event hb.event).2 htarget
  obtain ⟨w, hw, hwritable⟩ := h.writable hb
  rw [h.wf.argument_of_find hb.find hv hk, hw] at hv
  cases hv
  simp [Variable.writable, hk] at hwritable

theorem toMove_eq (h : Resolved p a) (hf : a.scopes.frame? s = some f) :
    a.scopes.toMove f = f.locals.filter a.scopes.isWrittenRemotely := by
  have hnil : f.arguments.filter a.scopes.isWrittenRemotely = [] := by
    rw [List.filter_eq_nil_iff]
    intro x hx
    exact h.not_written_of_argument hf hx
  rw [ScopeTree.toMove, List.filter_append, hnil, List.nil_append]

end Resolved

/-! ## Frames in the end -/

theorem appendNew_nil_of_nodup {α : Type} [DecidableEq α] {new : List α} (h : new.Nodup) : appendNew [] new = new := by
  have happend : ∀ xs : List α, (xs ++ new).Nodup → appendNew xs new = xs ++ new := by
    unfold appendNew
    clear h
    induction new with
    | nil => simp
    | cons x new ih =>
      intro xs hn
      have hx : x ∉ xs := by
        intro hx
        rw [List.nodup_append] at hn
        exact hn.2.2 x hx x (by simp) rfl
      rw [List.foldl_cons, if_neg hx, ih _ (by simpa using hn)]
      simp
  exact happend [] (by simpa using h)

namespace Analyzed
variable {p : Program} {a b : Analysis} {s : ScopeId} {f : Frame} {x : VarId} {v : Variable}

/-- A frame keeps its parameters, and its temporaries are parted by whether they are written remotely. -/
theorem frame_eq (h : Analyzed p a b) (hf : b.scopes.frame? s = some f) : ∃ f₀, a.scopes.frame? s = some f₀ ∧
    f.arguments = f₀.arguments ∧ f.locals = f₀.locals.filter (fun x => !a.scopes.isWrittenRemotely x) ∧
    f.heapvars = f₀.locals.filter a.scopes.isWrittenRemotely := by
  obtain ⟨f₀, hf₀, hst, -⟩ := h.frame_of_frame hf
  obtain ⟨o, k, hs⟩ := ScopeTree.scope_of_frame hf₀
  have hheap : f₀.heapvars = [] := (h.resolved.wf.code s o k f₀ hs).idle.1
  have harranged := h.resolved.listing.arranged s f₀ hf₀
  rw [h.resolved.toMove_eq hf₀] at hst
  have hargs : f.arguments = f₀.arguments.filter (· ∉ f₀.locals.filter a.scopes.isWrittenRemotely) :=
    congrArg Frame.arguments hst
  have hlocals : f.locals = f₀.locals.filter (· ∉ f₀.locals.filter a.scopes.isWrittenRemotely) := congrArg Frame.locals hst
  have hvars : f.heapvars = appendNew f₀.heapvars (f₀.locals.filter a.scopes.isWrittenRemotely) := congrArg Frame.heapvars hst
  refine ⟨f₀, hf₀, ?_, ?_, ?_⟩
  · rw [hargs, List.filter_eq_self]
    intro x hx
    simp [h.resolved.not_written_of_argument hf₀ hx]
  · rw [hlocals]
    apply List.filter_congr
    intro x hx
    simp [hx]
  · rw [hvars, hheap, appendNew_nil_of_nodup (harranged.locals.filter _).nodup]

/-- Parameters are left as they were. -/
theorem var_of_argument (h : Analyzed p a b) (hv : a.scopes.var? x = some v) (hk : v.kind = .argument) :
    b.scopes.var? x = some v := by
  refine (h.var_eq hv v).2 (.inr ⟨rfl, ?_⟩)
  rintro ⟨⟨f, hf, hx⟩, hwritten⟩
  obtain ⟨o, k, hs⟩ := ScopeTree.scope_of_frame hf
  rcases List.mem_append.1 hx with hx | hx
  · exact h.resolved.not_written_of_argument hf hx (by simp [ScopeTree.isWrittenRemotely, hv, hwritten])
  · obtain ⟨w, hw, -, hk', -⟩ := (h.resolved.wf.code _ o k f hs).locals x hx
    rw [hv] at hw
    cases hw
    rw [hk] at hk'
    cases hk'

end Analyzed

/-- The variable is the parameter of the scope that is made for this declaration. -/
def ScopeTree.IsParameter (t : ScopeTree) (s : ScopeId) (d : Declaration) (x : VarId) : Prop :=
  ∃ v, t.var? x = some v ∧ v.name = d.name ∧ v.span = some d.span ∧ v.scope = s ∧ v.kind = .argument ∧ v.declaredAs = .argument

/-- The frame of a scope after its variables that are written remotely were moved to the heap. -/
structure Program.Promoted (p : Program) (a : Analysis) (s : ScopeId) (f : Frame) : Prop where
  heapvars : ∀ x, x ∈ f.heapvars ↔ ∃ v, a.scopes.var? x = some v ∧ v.scope = s ∧ v.remote = .written
  moved : ∀ x ∈ f.heapvars, ∃ v, a.scopes.var? x = some v ∧ v.kind = .heap ∧ v.declaredAs = .temporary
  stays : ∀ x ∈ f.arguments ++ f.locals, ∃ v, a.scopes.var? x = some v ∧ v.remote ≠ .written
  parameters : ∃ o code, a.scopeOf? o = some s ∧ p.code? o = some code ∧
    List.Forall₂ (a.scopes.IsParameter s) code.params f.arguments
  localsInOrder : InOrder f.locals
  heapvarsInOrder : InOrder f.heapvars
  owned : ∀ x, x ∈ f.arguments ++ f.locals ++ f.heapvars ↔ ∃ v, a.scopes.var? x = some v ∧ v.scope = s
  nodup : (f.arguments ++ f.locals ++ f.heapvars).Nodup

/-- The storage of a method or closure is all that it owns. -/
theorem Resolved.mem_storage_iff {p : Program} {a : Analysis} {s : ScopeId} {o : Option ScopeId} {k : CodeKind} {f : Frame}
    (h : Resolved p a) (hs : a.scopes.scope? s = some ⟨o, .code k f⟩) (hk : k ≠ .inlinedBlock) (x : VarId) :
    x ∈ f.arguments ++ f.locals ↔ ∃ v, a.scopes.var? x = some v ∧ v.scope = s := by
  have hf : a.scopes.frame? s = some f := ScopeTree.frame?_of_scope hs
  have hcode := h.wf.code s o k f hs
  constructor
  · intro hx
    rcases List.mem_append.1 hx with hx | hx
    · obtain ⟨v, hv, hscope, -⟩ := hcode.arguments x hx
      exact ⟨v, hv, hscope⟩
    · obtain ⟨v, hv, hscope, -⟩ := hcode.locals x hx
      exact ⟨v, hv, hscope⟩
  · rintro ⟨v, hv, rfl⟩
    have hx := h.listing.listed x v f hv hf
    rwa [Frame.listed, hcode.plain hk, List.append_nil] at hx

theorem Resolved.nodup_storage {p : Program} {a : Analysis} {s : ScopeId} {o : Option ScopeId} {k : CodeKind} {f : Frame}
    (h : Resolved p a) (hs : a.scopes.scope? s = some ⟨o, .code k f⟩) : (f.arguments ++ f.locals).Nodup := by
  have harranged := h.listing.arranged s f (ScopeTree.frame?_of_scope hs)
  have hcode := h.wf.code s o k f hs
  refine List.nodup_append.2 ⟨harranged.arguments.nodup, harranged.locals.nodup, ?_⟩
  -- What is both would be of two kinds.
  rintro x hx _ hy rfl
  obtain ⟨v, hv, -, hk, -⟩ := hcode.arguments x hx
  obtain ⟨w, hw, -, hk', -⟩ := hcode.locals x hy
  rw [hv] at hw
  cases hw
  rw [hk] at hk'
  cases hk'

namespace Analyzed
variable {p : Program} {a b : Analysis} {s : ScopeId} {o : Option ScopeId} {k : CodeKind} {f f₀ : Frame} {x : VarId} {v : Variable}

/-- Who owns a variable and how it is used remotely is known before conversion. -/
theorem exists_var_iff (h : Analyzed p a b) (P : ScopeId → RemoteAccess → Prop) :
    (∃ v, b.scopes.var? x = some v ∧ P v.scope v.remote) ↔ ∃ v, a.scopes.var? x = some v ∧ P v.scope v.remote := by
  constructor
  · rintro ⟨v, hv, hP⟩
    obtain ⟨v₀, hv₀, kind, rfl⟩ := h.var_of_var hv
    exact ⟨v₀, hv₀, hP⟩
  · rintro ⟨v, hv, hP⟩
    obtain ⟨kind, hk⟩ := h.converts.var_of_var hv
    exact ⟨_, hk, hP⟩

theorem parameters (h : Analyzed p a b) (hs : a.scopes.scope? s = some ⟨o, .code k f₀⟩) (hk : k ≠ .inlinedBlock) :
    ∃ o code, b.scopeOf? o = some s ∧ p.code? o = some code ∧
      List.Forall₂ (b.scopes.IsParameter s) code.params f₀.arguments := by
  obtain ⟨o, code, outer, k', ho, hcode, xs, ys, slots, hs', hxs, -⟩ := h.resolved.opener_of_code ⟨_, _, _, hs⟩
  rw [hs] at hs'
  cases hs'
  refine ⟨o, code, by rw [h.scopeOf?_eq, ho], hcode, ?_⟩
  have hargs : ((ScopeTree.frameOf k xs ys).withSlots slots).arguments = xs := by simp [ScopeTree.frameOf, hk, Frame.withSlots]
  rw [hargs]
  refine hxs.imp ?_
  rintro d x ⟨v, hv, hname, hspan, hscope, has, hkind⟩
  rw [if_neg hk] at hkind
  exact ⟨v, h.var_of_argument hv hkind.1, hname, hspan, hscope, hkind.1, has⟩

theorem promoted (h : Analyzed p a b) (hf : b.scopes.frame? s = some f) (hs : a.scopes.scope? s = some ⟨o, .code k f₀⟩)
    (hk : k ≠ .inlinedBlock) : p.Promoted b s f := by
  obtain ⟨f₁, hf₁, hargs, hlocals, hheap⟩ := h.frame_eq hf
  rw [ScopeTree.frame?_of_scope hs] at hf₁
  cases hf₁
  have hf₀ : a.scopes.frame? s = some f₀ := ScopeTree.frame?_of_scope hs
  have harranged := h.resolved.listing.arranged s f₀ hf₀
  have howned := h.resolved.mem_storage_iff hs hk
  have hwritten : ∀ x, a.scopes.isWrittenRemotely x ↔ ∃ v, a.scopes.var? x = some v ∧ v.remote = .written := by
    intro x
    simp [ScopeTree.isWrittenRemotely, Option.any_eq_true]
  have hperm : (f.arguments ++ f.locals ++ f.heapvars).Perm (f₀.arguments ++ f₀.locals) := by
    rw [hargs, hlocals, hheap, List.append_assoc]
    refine List.Perm.append_left _ (List.perm_append_comm.trans ?_)
    exact List.filter_append_perm _ _
  constructor
  case heapvars =>
    intro x
    rw [h.exists_var_iff fun scope remote => scope = s ∧ remote = .written, hheap, List.mem_filter, hwritten]
    constructor
    · rintro ⟨hx, v, hv, hr⟩
      obtain ⟨v', hv', hscope⟩ := (howned x).1 (List.mem_append_right _ hx)
      rw [hv] at hv'
      cases hv'
      exact ⟨v, hv, hscope, hr⟩
    · rintro ⟨v, hv, hscope, hr⟩
      have hw := (hwritten x).2 ⟨v, hv, hr⟩
      rcases List.mem_append.1 ((howned x).2 ⟨v, hv, hscope⟩) with hx | hx
      · exact absurd hw (h.resolved.not_written_of_argument hf₀ hx)
      · exact ⟨hx, v, hv, hr⟩
  case moved =>
    intro x hx
    rw [hheap, List.mem_filter] at hx
    obtain ⟨v, hv, hd⟩ := harranged.temporaries x hx.1
    obtain ⟨v', hv', hr⟩ := (hwritten x).1 hx.2
    obtain ⟨v'', hv'', hscope⟩ := (howned x).1 (List.mem_append_right _ hx.1)
    rw [hv] at hv' hv''
    cases hv'
    cases hv''
    subst hscope
    exact ⟨_, (h.var_eq hv _).2 (.inl ⟨rfl, ⟨f₀, hf₀, List.mem_append_right _ hx.1⟩, hr⟩), rfl, hd⟩
  case stays =>
    intro x hx
    rw [h.exists_var_iff fun _ remote => remote ≠ .written]
    have hno : x ∈ f₀.arguments ++ f₀.locals ∧ ¬ a.scopes.isWrittenRemotely x := by
      rw [hargs, hlocals, List.mem_append, List.mem_filter] at hx
      rcases hx with hx | ⟨hx, hw⟩
      · exact ⟨List.mem_append_left _ hx, h.resolved.not_written_of_argument hf₀ hx⟩
      · exact ⟨List.mem_append_right _ hx, by simpa using hw⟩
    obtain ⟨v, hv, -⟩ := (howned x).1 hno.1
    exact ⟨v, hv, fun hr => hno.2 ((hwritten x).2 ⟨v, hv, hr⟩)⟩
  case parameters =>
    rw [hargs]
    exact h.parameters hs hk
  case localsInOrder =>
    rw [hlocals]
    exact harranged.locals.filter _
  case heapvarsInOrder =>
    rw [hheap]
    exact harranged.locals.filter _
  case owned =>
    intro x
    rw [hperm.mem_iff, howned, h.exists_var_iff fun scope _ => scope = s]
  case nodup => exact hperm.nodup_iff.2 (h.resolved.nodup_storage hs)

end Analyzed

/-- In an accepted program every method and closure has on the heap exactly the variables it owns that are written
remotely. They were declared as temporaries; its parameters are those it declares, and all it owns is in one of its
lists, in the order of creation. -/
theorem promotion_exact {bytes : List UInt8} {p : Program} {a : Analysis} (hp : Program.ofBytes bytes = .ok p)
    (ha : p.analyze = .ok a) {s : ScopeId} (hs : a.scopes.scopeIs (·.isMethod) s ∨ a.scopes.scopeIs (·.isTrueBlock) s) :
    ∃ f, a.scopes.frame? s = some f ∧ p.Promoted a s f := by
  obtain ⟨a₀, h⟩ := analyzed_of_ok hp ha
  have hcode : ∃ o k f, a.scopes.scope? s = some ⟨o, .code k f⟩ ∧ k ≠ .inlinedBlock := by
    rw [ScopeTree.scopeIs, ScopeTree.scopeIs] at hs
    cases hscope : a.scopes.scope? s with
    | none => simp [hscope] at hs
    | some sc =>
      obtain ⟨o, body⟩ := sc
      cases body with
      | root | side => simp [hscope, Scope.isMethod, Scope.isTrueBlock, Scope.codeKind?] at hs
      | code k f =>
        refine ⟨o, k, f, rfl, ?_⟩
        rintro rfl
        simp [hscope, Scope.isMethod, Scope.isTrueBlock, Scope.codeKind?] at hs
  obtain ⟨o, k, f, hscope, hk⟩ := hcode
  obtain ⟨f₀, hs₀⟩ := h.converts.shape.code_of_code hscope
  have hf : a.scopes.frame? s = some f := ScopeTree.frame?_of_scope hscope
  exact ⟨f, hf, h.promoted hf hs₀ hk⟩

/-- Of two temporaries of a method and one slot of an inlined block, a closure writes the first and the slot. -/
theorem promotion_exact_mixed : ∃ p a f,
    Program.ofBytes "A : nil [ m: x [ |a b| x ifTrue: [ |c| [ a := x. c := b ] ] ifFalse: [ b ] ] ]".toUTF8.toList = .ok p ∧
    p.analyze = .ok a ∧ a.scopes.frame? ⟨3⟩ = some f ∧ f.heapvars = [⟨4⟩, ⟨6⟩] ∧ f.locals = [⟨5⟩] ∧ f.arguments = [⟨3⟩] ∧
    p.Promoted a ⟨3⟩ f := by
  obtain ⟨p, a, hp, ha, hcheck⟩ := exists_of_accepted
    "A : nil [ m: x [ |a b| x ifTrue: [ |c| [ a := x. c := b ] ] ifFalse: [ b ] ] ]".toUTF8
    (fun _ a => a.scopes.scopeIs (·.isMethod) ⟨3⟩ ∧ (a.scopes.frame? ⟨3⟩).any fun f =>
      f.heapvars = [⟨4⟩, ⟨6⟩] ∧ f.locals = [⟨5⟩] ∧ f.arguments = [⟨3⟩]) (by decide +kernel)
  obtain ⟨hmethod, hcheck⟩ := of_decide_eq_true hcheck
  obtain ⟨f, hf, hlists⟩ := (Option.any_eq_true _ _).1 hcheck
  obtain ⟨hheap, hlocals, hargs⟩ := of_decide_eq_true hlists
  obtain ⟨f', hf', hpromoted⟩ := promotion_exact hp ha (.inl hmethod)
  rw [hf] at hf'
  cases hf'
  exact ⟨p, a, f, hp, ha, hf, hheap, hlocals, hargs, hpromoted⟩

end BlockScope
