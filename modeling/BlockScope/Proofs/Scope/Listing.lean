import BlockScope.Proofs.Scope.Handing
import BlockScope.Proofs.Scope.Opening
/-!
# Every variable is listed

While names are resolved, a variable is listed in the frame of its scope as soon as it is made. So the lists of a
frame hold all that the frame owns, each list in the order in which its variables were made. `Listing` says this of
a tree; declaring a name and opening a scope keep it (`Listing.declare`, `Listing.opens`).
-/
namespace BlockScope

/-- The variables stand in the order in which they were made, each of them once. -/
def InOrder (xs : List VarId) : Prop := xs.Pairwise (·.index < ·.index)

namespace InOrder
variable {xs : List VarId} {x : VarId}

theorem concat (h : InOrder xs) (hx : ∀ y ∈ xs, y.index < x.index) : InOrder (xs ++ [x]) := by
  refine List.pairwise_append.2 ⟨h, List.pairwise_singleton _ _, ?_⟩
  intro y hy z hz
  rw [List.mem_singleton.1 hz]
  exact hx y hy

theorem filter (h : InOrder xs) (p : VarId → Bool) : InOrder (xs.filter p) := List.Pairwise.filter p h

theorem nodup (h : InOrder xs) : xs.Nodup := by
  refine List.Pairwise.imp ?_ h
  rintro y z hlt rfl
  exact Nat.lt_irrefl _ hlt

end InOrder

/-- All that a frame lists before anything is moved to the heap. -/
def Frame.listed (f : Frame) : List VarId := f.arguments ++ f.locals ++ f.inlined

namespace ScopeTree

theorem mem_listed_listArgument (x : VarId) (f : Frame) (y : VarId) : y ∈ (listArgument x f).listed ↔ y = x ∨ y ∈ f.listed := by
  simp only [Frame.listed, listArgument, List.mem_append, List.mem_singleton]
  tauto

theorem mem_listed_listLocal (x : VarId) (f : Frame) (y : VarId) : y ∈ (listLocal x f).listed ↔ y = x ∨ y ∈ f.listed := by
  simp only [Frame.listed, listLocal, List.mem_append, List.mem_singleton]
  tauto

theorem mem_listed_listInlined (x : VarId) (f : Frame) (y : VarId) : y ∈ (listInlined x f).listed ↔ y = x ∨ y ∈ f.listed := by
  simp only [Frame.listed, listInlined, List.mem_append, List.mem_singleton]
  tauto

/-- The parameters and the locals of a frame stand in order, and the locals were declared as temporaries. -/
structure Arranged (t : ScopeTree) (f : Frame) : Prop where
  arguments : InOrder f.arguments
  locals : InOrder f.locals
  made : ∀ x ∈ f.arguments, (t.var? x).isSome
  temporaries : ∀ x ∈ f.locals, ∃ v, t.var? x = some v ∧ v.declaredAs = .temporary

/-- Every variable has its scope, which lists it if it has a frame, and all frames are arranged. -/
structure Listing (t : ScopeTree) : Prop where
  housed : ∀ x v, t.var? x = some v → (t.scope? v.scope).isSome
  listed : ∀ x v f, t.var? x = some v → t.frame? v.scope = some f → x ∈ f.listed
  arranged : ∀ id f, t.frame? id = some f → t.Arranged f

variable {t t' t₀ : ScopeTree} {s outer : ScopeId} {k : CodeKind} {f : Frame} {x : VarId} {v : Variable} {d : Declaration}
  {isParameter : Bool} {params temps : List Declaration} {o : Option ScopeId}

theorem frame?_addListed (t : ScopeTree) (v : Variable) (list : VarId → Frame → Frame) (id : ScopeId) :
    (t.addListed v list).2.frame? id = if id = v.scope then (t.frame? id).map (list ⟨t.vars.size⟩) else t.frame? id :=
  frame?_modifyFrame _ _ _ id

theorem isSome_frame?_addListed {id : ScopeId} (t : ScopeTree) (v : Variable) (list : VarId → Frame → Frame)
    (h : (t.frame? id).isSome) : ((t.addListed v list).2.frame? id).isSome := by
  rw [frame?_addListed]
  split
  · rw [Option.isSome_map]
    exact h
  · exact h

theorem isSome_scope?_addListed {id : ScopeId} (v : Variable) (list : VarId → Frame → Frame) (h : (t.scope? id).isSome) :
    ((t.addListed v list).2.scope? id).isSome := by
  rw [scope?_addListed]
  split <;> simpa using h

namespace Arranged

theorem keep (h : t.Arranged f) (hk : ∀ x v, t.var? x = some v → ∃ level, t'.var? x = some { v with remote := level }) :
    t'.Arranged f := by
  refine ⟨h.arguments, h.locals, fun x hx => ?_, fun x hx => ?_⟩
  · obtain ⟨v, hv⟩ := Option.isSome_iff_exists.1 (h.made x hx)
    obtain ⟨level, hv'⟩ := hk x v hv
    rw [hv']
    rfl
  · obtain ⟨v, hv, hd⟩ := h.temporaries x hx
    obtain ⟨level, hv'⟩ := hk x v hv
    exact ⟨_, hv', hd⟩

/-- A new parameter comes after those that are there. -/
theorem addArgument (h : (t.addListed v listArgument).2.Arranged f) (hf : t.Arranged f) :
    (t.addListed v listArgument).2.Arranged (listArgument ⟨t.vars.size⟩ f) := by
  refine ⟨h.arguments.concat fun y hy => ?_, h.locals, fun y hy => ?_, h.temporaries⟩
  · obtain ⟨w, hw⟩ := Option.isSome_iff_exists.1 (hf.made y hy)
    exact var?_lt hw
  · rcases List.mem_append.1 hy with hy | hy
    · exact h.made y hy
    · rw [List.mem_singleton.1 hy, var?_new]
      rfl

/-- A new local comes after those that are there. -/
theorem addLocal (h : (t.addListed v listLocal).2.Arranged f) (hf : t.Arranged f) (hv : v.declaredAs = .temporary) :
    (t.addListed v listLocal).2.Arranged (listLocal ⟨t.vars.size⟩ f) := by
  refine ⟨h.arguments, h.locals.concat fun y hy => ?_, h.made, fun y hy => ?_⟩
  · obtain ⟨w, hw, -⟩ := hf.temporaries y hy
    exact var?_lt hw
  · rcases List.mem_append.1 hy with hy | hy
    · exact h.temporaries y hy
    · exact ⟨v, by rw [List.mem_singleton.1 hy, var?_new], hv⟩

end Arranged

namespace Listing

/-- Adds a variable to the frame of its scope. -/
theorem addListed {list : VarId → Frame → Frame} (h : t.Listing) (hs : (t.scope? v.scope).isSome)
    (hlist : ∀ x f y, y ∈ (list x f).listed ↔ y = x ∨ y ∈ f.listed)
    (hframe : ∀ f, t.Arranged f → (t.addListed v list).2.Arranged f → (t.addListed v list).2.Arranged (list ⟨t.vars.size⟩ f)) :
    (t.addListed v list).2.Listing := by
  have hold : ∀ x w, t.var? x = some w → ∃ level, (t.addListed v list).2.var? x = some { w with remote := level } :=
    fun x w hw => ⟨w.remote, var?_addListed_of_var? v list hw⟩
  constructor
  case housed =>
    intro x w hw
    apply isSome_scope?_addListed
    rw [var?_addListed] at hw
    split at hw
    · cases hw
      exact hs
    · exact h.housed x w hw
  case listed =>
    intro x w f hw hf
    rw [var?_addListed] at hw
    rw [frame?_addListed] at hf
    split at hw
    · next hx =>
      cases hw
      rw [if_pos rfl] at hf
      obtain ⟨f₀, -, rfl⟩ := Option.map_eq_some_iff.1 hf
      refine (hlist _ _ _).2 (.inl ?_)
      cases x
      cases hx
      rfl
    · split at hf
      · obtain ⟨f₀, hf₀, rfl⟩ := Option.map_eq_some_iff.1 hf
        exact (hlist _ _ _).2 (.inr (h.listed x w f₀ hw hf₀))
      · exact h.listed x w f hw hf
  case arranged =>
    intro id f hf
    rw [frame?_addListed] at hf
    split at hf
    · obtain ⟨f₀, hf₀, rfl⟩ := Option.map_eq_some_iff.1 hf
      have harranged := h.arranged id f₀ hf₀
      exact hframe f₀ harranged (harranged.keep hold)
    · exact (h.arranged id f hf).keep hold

/-- Adds a scope whose frame is still empty; no variable can be in it yet. -/
theorem addScope (h : t.Listing) (outer : ScopeId) (k : CodeKind) :
    (t.addScope (some outer) (.code k .empty)).2.Listing := by
  have hne : ∀ id, (t.scope? id).isSome → id.index ≠ t.scopes.size := by
    intro id hid
    obtain ⟨s, hs⟩ := Option.isSome_iff_exists.1 hid
    have := scope?_lt hs
    omega
  constructor
  case housed =>
    intro x v hv
    have hs := h.housed x v hv
    rw [scope?_addScope, if_neg (hne _ hs)]
    exact hs
  case listed =>
    intro x v f hv hf
    rw [frame?, scope?_addScope, if_neg (hne _ (h.housed x v hv))] at hf
    exact h.listed x v f hv hf
  case arranged =>
    intro id f hf
    rw [frame?, scope?_addScope] at hf
    split at hf
    · cases hf
      refine ⟨.nil, .nil, fun x hx => ?_, fun x hx => ?_⟩
      · cases hx
      · cases hx
    · exact (h.arranged id f hf).keep fun x v hv => ⟨v.remote, hv⟩

end Listing

/-! ## Declaring -/

/-- What declaring a name does. -/
theorem declare_cases (h : Runs (Scoping.declare s d isParameter) t x t') :
    (t.scopeIs (·.isInlined) s ∧ t' = ((t.addListed (slotFor d (t.realScope s) (t.slotNumber s)) listLocal).2.addListed
      (inlinedName d s (if isParameter then .argument else .temporary) ⟨t.vars.size⟩) listInlined).2) ∨
    (¬ t.scopeIs (·.isInlined) s ∧ isParameter = true ∧
      t' = (t.addListed (.new d.name s .argument (some d.span) none) listArgument).2) ∨
    (¬ t.scopeIs (·.isInlined) s ∧ isParameter = false ∧
      t' = (t.addListed (.new d.name s .temporary (some d.span) none) listLocal).2) := by
  rw [Scoping.runs_declare_iff] at h
  split at h
  · next hinlined =>
    obtain ⟨f, -, -, hmade⟩ := Scoping.runs_addInlined_iff.1 h
    cases hmade
    exact .inl ⟨hinlined, rfl⟩
  · next hinlined =>
    obtain ⟨f, -, -, hmade⟩ := h
    cases isParameter with
    | true =>
      cases hmade
      exact .inr (.inl ⟨hinlined, rfl, rfl⟩)
    | false =>
      cases hmade
      exact .inr (.inr ⟨hinlined, rfl, rfl⟩)

namespace Listing

theorem declare (h : t.Listing) (hw : t.Wf) (hs : t.scope? s = some ⟨o, .code k f⟩)
    (hd : Runs (Scoping.declare s d isParameter) t x t') : t'.Listing := by
  have hscope : (t.scope? s).isSome := by
    rw [hs]
    rfl
  rcases declare_cases hd with ⟨-, rfl⟩ | ⟨-, -, rfl⟩ | ⟨-, -, rfl⟩
  · -- First the slot in the host, then the name that stands for it.
    obtain ⟨host, fh, hhost, hfh⟩ := hw.hosted s o k f hs
    obtain ⟨oh, kh, hsh⟩ := scope_of_frame hfh
    have hslot : (t.scope? (slotFor d (t.realScope s) (t.slotNumber s)).scope).isSome := by
      show (t.scope? (t.realScope s)).isSome
      rw [hhost.realScope_eq hw.nested, hsh]
      rfl
    have hfirst := h.addListed hslot mem_listed_listLocal fun _ hf hf' => hf'.addLocal hf rfl
    exact hfirst.addListed (isSome_scope?_addListed _ _ hscope) mem_listed_listInlined fun _ _ hf =>
      ⟨hf.arguments, hf.locals, hf.made, hf.temporaries⟩
  · exact h.addListed hscope mem_listed_listArgument fun _ hf hf' => hf'.addArgument hf
  · exact h.addListed hscope mem_listed_listLocal fun _ hf hf' => hf'.addLocal hf rfl

theorem declares {ds : List Declaration} (hd : Declares s isParameter t ds t') (h : t.Listing)
    (hh : Halfway t₀ s outer k params temps t) (hphase : isParameter = true → temps = []) : t'.Listing := by
  induction hd generalizing params temps with
  | nil => exact h
  | cons hd _ ih =>
    obtain ⟨xs, ys, hs, -⟩ := hh.frame
    refine ih (h.declare hh.wf hs hd) (hh.declare hd hphase) fun hp => ?_
    rw [if_pos hp]
    exact hphase hp

theorem opens {c : Code} {so : Scope} (h : t.Listing) (hopens : t.Opens outer k c s t') (hw : t.Wf)
    (hout : t.scope? outer = some so) (hcode : k = .inlinedBlock → ∃ k' f, so.body = .code k' f) : t'.Listing := by
  obtain ⟨rfl, mid, hparams, htemps⟩ := hopens
  have hstart := hw.halfway hout hcode
  have hmid : mid.Listing := declares hparams (h.addScope outer k) hstart fun _ => rfl
  exact declares htemps hmid (hstart.allParams hparams) nofun

end Listing
end ScopeTree
end BlockScope
