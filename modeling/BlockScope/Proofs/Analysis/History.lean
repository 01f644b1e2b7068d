import BlockScope.Proofs.Analysis.Levels
import BlockScope.Proofs.Scope.Listing
/-!
# Histories of a tree

A tree is built, used and converted by a few operations, called in any order. A call that fails is one more call of the history, and
what it left stays: that this is the tree it found is proved of each operation (`Operation.atomic`). No operation takes back what is
there: `Advances` says what a call leaves of a tree, there is one lemma for each operation, and so it holds over a whole history
(`ScopeTree.advances_history`). Only a promotion changes a kind, and only of what the promoted scope lists as a parameter or a local.
Where operations name only what is there, such variables are parameters and temporaries, and every name stands for a slot that stands
for itself (`Coherent`).
-/
namespace BlockScope

/-- A call that changes a tree. -/
inductive Operation where
  | addScope (outer : Option ScopeId) (body : ScopeBody)
  | addSide (outer : ScopeId) (classIndex : Nat) (classSide : Bool)
  | addVar (v : Variable)
  /-- Adds a parameter, or a local. -/
  | declare (scope : ScopeId) (d : Declaration) (isParameter : Bool)
  | addInlined (scope : ScopeId) (d : Declaration) (isParameter : Bool)
  | lookup (scope : ScopeId) (name : String) (forWrite remote : Bool)
  | promote (scope : ScopeId)
  | addUsing (scope source : ScopeId)
  | addCopying (scope : ScopeId) (var : VarId)

namespace Operation

/-- The call, without its result. -/
def call : Operation → Scoping Unit
  | .addScope outer body => modify fun t => (t.addScope outer body).2
  | .addSide outer classIndex classSide => modify fun t => (t.addSide outer classIndex classSide).2
  | .addVar v => modify fun t => (t.addVar v).2
  | .declare scope d isParameter => discard (Scoping.declare scope d isParameter)
  | .addInlined scope d isParameter => discard (Scoping.addInlined scope d isParameter)
  | .lookup scope name forWrite remote => discard (Scoping.lookup scope name forWrite remote)
  | .promote scope => modify fun t => (t.promote scope).2
  | .addUsing scope source => modify (·.addUsing scope source)
  | .addCopying scope var => modify (·.addCopying scope var)

/-- The tree after the call, whatever came of it. -/
def after (op : Operation) (t : ScopeTree) : ScopeTree := (op.call.runOn t).2

/-- Promotes a scope that lists the variable as a parameter or a local. -/
def Moves (op : Operation) (t : ScopeTree) (x : VarId) : Prop :=
  ∃ s f, op = .promote s ∧ t.frame? s = some f ∧ x ∈ f.arguments ++ f.locals

/-- What the operation adds names only what is there: aliases of variables, and frames that list as parameters and locals only what is
stored so. -/
def Sound (t : ScopeTree) : Operation → Prop
  | .addScope _ (.code _ f) => ∀ x ∈ f.arguments ++ f.locals, ∃ v, t.var? x = some v ∧ v.kind.IsStored
  | .addVar v => ∀ slot, v.aliasOf = some slot → (t.var? slot).isSome
  | _ => True

/-- An operation that fails has changed nothing. -/
theorem atomic (op : Operation) : Atomic op.call := by
  intro t e t' h
  cases op with
  | declare scope d isParameter => exact Scoping.atomic_declare _ _ _ (Fails.discard_iff.1 h)
  | addInlined scope d isParameter => exact Scoping.atomic_addInlined _ _ _ (Fails.discard_iff.1 h)
  | lookup scope name forWrite remote => exact Scoping.atomic_lookup _ _ _ (Fails.discard_iff.1 h)
  | addScope | addSide | addVar | promote | addUsing | addCopying => exact (Fails.modify_iff.1 h).elim

theorem after_of_runs {op : Operation} {t t' : ScopeTree} (h : Runs op.call t ⟨⟩ t') : op.after t = t' := congrArg Prod.snd h

theorem after_of_fails {op : Operation} {t t' : ScopeTree} {e : AnalysisError} (h : Fails op.call t e t') : op.after t = t :=
  (congrArg Prod.snd h).trans (op.atomic t e t' h)

end Operation

namespace ScopeTree

/-- The tree after some operations, each called whatever came of those before it. -/
def history (t : ScopeTree) (ops : List Operation) : ScopeTree := ops.foldl (fun t op => op.after t) t

/-- One of the operations promotes a scope that lists the variable then. -/
inductive Moves (x : VarId) : ScopeTree → List Operation → Prop where
  | here {t : ScopeTree} {op : Operation} {ops : List Operation} (h : op.Moves t x) : Moves x t (op :: ops)
  | later {t : ScopeTree} {op : Operation} {ops : List Operation} (h : Moves x (op.after t) ops) : Moves x t (op :: ops)

/-- Each of the operations is sound when its turn comes. -/
def Sound : ScopeTree → List Operation → Prop
  | _, [] => True
  | t, op :: ops => op.Sound t ∧ Sound (op.after t) ops

end ScopeTree

/-! ## What stays of variables and scopes -/

/-- The second variable is the first after some time: only its kind may differ, and its level may be higher. -/
structure Variable.Ages (v v' : Variable) : Prop where
  name : v'.name = v.name
  scope : v'.scope = v.scope
  declaredAs : v'.declaredAs = v.declaredAs
  aliasOf : v'.aliasOf = v.aliasOf
  index : v'.index = v.index
  span : v'.span = v.span
  remote : v'.remote.Reaches v.remote

/-- Of two scopes with the same link and kind, only the contents of a frame may differ. -/
inductive Scope.Like : Scope → Scope → Prop where
  | same (s : Scope) : Like s s
  | code (outer : Option ScopeId) (k : CodeKind) (f f' : Frame) : Like ⟨outer, .code k f⟩ ⟨outer, .code k f'⟩

theorem RemoteAccess.Reaches.refl (r : RemoteAccess) : r.Reaches r := by
  cases r <;> rfl

theorem RemoteAccess.Reaches.trans {r s u : RemoteAccess} (h : r.Reaches s) (h' : s.Reaches u) : r.Reaches u := by
  unfold RemoteAccess.Reaches at *
  cases r <;> cases s <;> cases u <;> simp_all [RemoteAccess.max]

namespace Variable.Ages
variable {v v' v'' : Variable}

theorem refl (v : Variable) : v.Ages v := ⟨rfl, rfl, rfl, rfl, rfl, rfl, .refl _⟩

theorem trans (h : v.Ages v') (h' : v'.Ages v'') : v.Ages v'' where
  name := h'.name.trans h.name
  scope := h'.scope.trans h.scope
  declaredAs := h'.declaredAs.trans h.declaredAs
  aliasOf := h'.aliasOf.trans h.aliasOf
  index := h'.index.trans h.index
  span := h'.span.trans h.span
  remote := h'.remote.trans h.remote

theorem mark (v : Variable) (forWrite : Bool) : v.Ages (v.mark forWrite) :=
  ⟨rfl, rfl, rfl, rfl, rfl, rfl, (reaches_mark v forWrite).2 (.inl (.refl _))⟩

theorem toHeap (v : Variable) : v.Ages { v with kind := .heap } := ⟨rfl, rfl, rfl, rfl, rfl, rfl, .refl _⟩

end Variable.Ages

namespace Scope.Like

theorem trans {s s' s'' : Scope} (h : s.Like s') (h' : s'.Like s'') : s.Like s'' := by
  cases h with
  | same => exact h'
  | code outer k f f' =>
    cases h' with
    | same => exact .code outer k f f'
    | code _ _ _ f'' => exact .code outer k f f''

theorem mapFrame (s : Scope) (g : Frame → Frame) : s.Like (s.mapFrame g) := by
  obtain ⟨outer, body⟩ := s
  cases body with
  | root | side => exact .same _
  | code k f => exact .code outer k f (g f)

end Scope.Like

/-! ## What stays of a tree -/

namespace ScopeTree

/-- All variables and scopes of the first tree are in the second, and none but `moved` variables got another kind, which is the heap. -/
structure Advances (moved : VarId → Prop) (t t' : ScopeTree) : Prop where
  vars : ∀ x v, t.var? x = some v → ∃ v', t'.var? x = some v' ∧ v.Ages v' ∧ (v'.kind = v.kind ∨ v'.kind = .heap ∧ moved x)
  scopes : ∀ id s, t.scope? id = some s → ∃ s', t'.scope? id = some s' ∧ s.Like s'

namespace Advances
variable {p q : VarId → Prop} {t t' t'' : ScopeTree}

theorem refl (t : ScopeTree) : Advances p t t :=
  ⟨fun _ v hv => ⟨v, hv, .refl v, .inl rfl⟩, fun _ s hs => ⟨s, hs, .same s⟩⟩

theorem mono (h : Advances p t t') (hpq : ∀ x, p x → q x) : Advances q t t' := by
  refine ⟨fun x v hv => ?_, h.scopes⟩
  obtain ⟨v', hv', hages, hkind⟩ := h.vars x v hv
  exact ⟨v', hv', hages, hkind.imp_right fun ⟨hheap, hp⟩ => ⟨hheap, hpq x hp⟩⟩

theorem trans (h : Advances p t t') (h' : Advances p t' t'') : Advances p t t'' := by
  constructor
  · intro x v hv
    obtain ⟨v', hv', hages, hkind⟩ := h.vars x v hv
    obtain ⟨v'', hv'', hages', hkind'⟩ := h'.vars x v' hv'
    refine ⟨v'', hv'', hages.trans hages', ?_⟩
    rcases hkind' with hsame | hmoved
    · rw [hsame]
      exact hkind
    · exact .inr hmoved
  · intro id s hs
    obtain ⟨s', hs', hlike⟩ := h.scopes id s hs
    obtain ⟨s'', hs'', hlike'⟩ := h'.scopes id s' hs'
    exact ⟨s'', hs'', hlike.trans hlike'⟩

theorem addScope (t : ScopeTree) (outer : Option ScopeId) (body : ScopeBody) : Advances p t (t.addScope outer body).2 := by
  refine ⟨(refl t).vars, fun id s hs => ⟨s, ?_, .same s⟩⟩
  have := scope?_lt hs
  rw [scope?_addScope, if_neg (by omega), hs]

theorem addVar (t : ScopeTree) (v : Variable) : Advances p t (t.addVar v).2 := by
  refine ⟨fun x w hw => ⟨w, ?_, .refl w, .inl rfl⟩, (refl (p := p) t).scopes⟩
  have := var?_lt hw
  rw [var?_addVar, if_neg (by omega), hw]

theorem modifyFrame (t : ScopeTree) (id : ScopeId) (g : Frame → Frame) : Advances p t (t.modifyFrame id g) := by
  refine ⟨(refl t).vars, fun id' s hs => ?_⟩
  rw [scope?_modifyFrame, hs]
  by_cases h : id' = id
  · exact ⟨_, if_pos h, .mapFrame s g⟩
  · exact ⟨s, if_neg h, .same s⟩

theorem modifyVar (t : ScopeTree) (x : VarId) {g : Variable → Variable} (hages : ∀ v, Variable.Ages v (g v))
    (hkind : ∀ v, (g v).kind = v.kind ∨ (g v).kind = .heap ∧ p x) : Advances p t (t.modifyVar x g) := by
  refine ⟨fun y v hv => ?_, (refl (p := p) t).scopes⟩
  rw [var?_modifyVar, hv]
  by_cases h : y = x
  · subst h
    exact ⟨g v, if_pos rfl, hages v, hkind v⟩
  · exact ⟨v, if_neg h, .refl v, .inl rfl⟩

theorem addListed (t : ScopeTree) (v : Variable) (list : VarId → Frame → Frame) : Advances p t (t.addListed v list).2 :=
  (addVar t v).trans (modifyFrame _ _ _)

theorem addInlined {scope : ScopeId} {d : Declaration} {isParameter : Bool} {x : VarId}
    (h : Runs (Scoping.addInlined scope d isParameter) t x t') : Advances p t t' :=
  Scoping.leaves_of_addInlined trans addListed h

theorem declare {scope : ScopeId} {d : Declaration} {isParameter : Bool} {x : VarId}
    (h : Runs (Scoping.declare scope d isParameter) t x t') : Advances p t t' :=
  Scoping.leaves_of_declare trans addListed h

theorem markFound (t : ScopeTree) (found : Found) (forWrite : Bool) : Advances p t (t.markFound found forWrite) := by
  unfold ScopeTree.markFound
  split
  · exact modifyVar t _ (fun v => .mark v forWrite) fun _ => .inl rfl
  · exact refl t

/-- A promotion moves parameters and locals of its scope, and no others. -/
theorem promote (t : ScopeTree) (scope : ScopeId) : Advances ((Operation.promote scope).Moves t) t (t.promote scope).2 := by
  cases hf : t.frame? scope with
  | none =>
    rw [promote_of_no_frame hf]
    exact refl t
  | some f =>
    constructor
    · intro x v hv
      rw [var?_promote hf, hv]
      by_cases hx : x ∈ t.toMove f
      · exact ⟨_, if_pos hx, .toHeap v, .inr ⟨rfl, scope, f, rfl, hf, List.mem_of_mem_filter hx⟩⟩
      · exact ⟨v, if_neg hx, .refl v, .inl rfl⟩
    · intro id s hs
      rw [scope?_promote hf, hs]
      by_cases hid : id = scope
      · exact ⟨_, if_pos hid, .mapFrame s _⟩
      · exact ⟨s, if_neg hid, .same s⟩

end Advances
end ScopeTree

theorem Operation.advances {op : Operation} {t t' : ScopeTree} (h : Runs op.call t ⟨⟩ t') : ScopeTree.Advances (op.Moves t) t t' := by
  cases op with
  | addScope outer body =>
    obtain rfl := Runs.modify_iff.1 h
    exact .addScope t outer body
  | addSide outer classIndex classSide =>
    obtain rfl := Runs.modify_iff.1 h
    exact (ScopeTree.Advances.addVar t _).trans (.addScope _ _ _)
  | addVar v =>
    obtain rfl := Runs.modify_iff.1 h
    exact .addVar t v
  | declare scope d isParameter =>
    obtain ⟨x, hd⟩ := Runs.discard_iff.1 h
    exact .declare hd
  | addInlined scope d isParameter =>
    obtain ⟨x, hd⟩ := Runs.discard_iff.1 h
    exact .addInlined hd
  | lookup scope name forWrite remote =>
    obtain ⟨found, hl⟩ := Runs.discard_iff.1 h
    obtain ⟨-, rfl⟩ := Scoping.runs_lookup_iff.1 hl
    exact .markFound t found forWrite
  | promote scope =>
    obtain rfl := Runs.modify_iff.1 h
    exact .promote t scope
  | addUsing scope source =>
    obtain rfl := Runs.modify_iff.1 h
    exact .modifyFrame t scope _
  | addCopying scope var =>
    obtain rfl := Runs.modify_iff.1 h
    exact .modifyFrame t scope _

/-! ## Histories -/

namespace ScopeTree
variable {t : ScopeTree} {ops later : List Operation}

/-- A call that succeeds advances the tree, and one that fails leaves it. -/
theorem advances_after (t : ScopeTree) (op : Operation) : Advances (op.Moves t) t (op.after t) := by
  rcases Fails.or_runs op.call t with ⟨⟨⟩, t', h⟩ | ⟨e, t', h⟩
  · rw [Operation.after_of_runs h]
    exact Operation.advances h
  · rw [Operation.after_of_fails h]
    exact .refl t

theorem advances_history (t : ScopeTree) (ops : List Operation) : Advances (Moves · t ops) t (t.history ops) := by
  induction ops generalizing t with
  | nil => exact .refl t
  | cons op ops ih => exact ((t.advances_after op).mono fun _ => .here).trans ((ih _).mono fun _ => .later)

theorem sound_append : t.Sound (ops ++ later) ↔ t.Sound ops ∧ (t.history ops).Sound later := by
  induction ops generalizing t with
  | nil => exact ⟨fun h => ⟨trivial, h⟩, And.right⟩
  | cons op ops ih =>
    rw [List.cons_append, Sound, Sound, ih, and_assoc]
    rfl

end ScopeTree

/-! ## Sound histories -/

namespace ScopeTree

/-- Frames list as parameters and locals what is stored so, and a variable stands only for one made before it. -/
structure Coherent (t : ScopeTree) : Prop where
  stored : ∀ id f, t.frame? id = some f → ∀ x ∈ f.arguments ++ f.locals, ∃ v, t.var? x = some v ∧ v.kind.IsStored
  rooted : ∀ x v slot, t.var? x = some v → v.aliasOf = some slot → slot.index < x.index

namespace Coherent
variable {t t' : ScopeTree} {p : VarId → Prop}

theorem empty : ScopeTree.empty.Coherent := by
  refine ⟨fun id f hf => ?_, fun x v slot hv => ?_⟩
  · simp [frame?, scope?, ScopeTree.empty] at hf
  · simp [var?, ScopeTree.empty] at hv

/-- The walk along the aliases ends at a variable that stands for itself. -/
theorem realVar_stands (h : t.Coherent) (x : VarId) : (t.var? (t.realVar x)).bind (·.aliasOf) = none := by
  fun_induction t.realVar x with
  | case1 x slot ha hlt ih => exact ih
  | case2 x slot ha hlt =>
    obtain ⟨v, hv, ha'⟩ := Option.bind_eq_some_iff.1 ha
    exact absurd (h.rooted x v slot hv ha') hlt
  | case3 x ha => exact ha

/-- What is stored stays so, since it is on the heap if its kind is another. -/
theorem isStored_of_advances (ha : Advances p t t') {x : VarId} {v : Variable} (hv : t.var? x = some v) (hs : v.kind.IsStored) :
    ∃ v', t'.var? x = some v' ∧ v'.kind.IsStored := by
  obtain ⟨v', hv', -, hkind⟩ := ha.vars x v hv
  refine ⟨v', hv', ?_⟩
  rcases hkind with h | ⟨h, -⟩
  · rw [h]
    exact hs
  · exact .inr (.inr h)

/-- A change to no variables but levels and kinds, and to no frames but for what they list otherwise. -/
theorem update (h : t.Coherent) (ha : Advances p t t')
    (hframes : ∀ id f', t'.frame? id = some f' → ∀ x ∈ f'.arguments ++ f'.locals,
      ∃ f, t.frame? id = some f ∧ x ∈ f.arguments ++ f.locals)
    (hvars : ∀ x v', t'.var? x = some v' → ∃ v, t.var? x = some v ∧ v'.aliasOf = v.aliasOf) : t'.Coherent := by
  refine ⟨fun id f' hf' x hx => ?_, fun x v' slot hv' hslot => ?_⟩
  · obtain ⟨f, hf, hmem⟩ := hframes id f' hf' x hx
    obtain ⟨v, hv, hs⟩ := h.stored id f hf x hmem
    exact isStored_of_advances ha hv hs
  · obtain ⟨v, hv, halias⟩ := hvars x v' hv'
    exact h.rooted x v slot hv (by rw [← halias, hslot])

theorem addScope (h : t.Coherent) (outer : Option ScopeId) {body : ScopeBody} (hs : (Operation.addScope outer body).Sound t) :
    (t.addScope outer body).2.Coherent := by
  refine ⟨fun id f hf x hx => ?_, h.rooted⟩
  rw [frame?, scope?_addScope] at hf
  split at hf
  · cases body with
    | root | side => cases hf
    | code k f₀ =>
      cases hf
      exact hs x hx
  · exact h.stored id f hf x hx

theorem addVar (h : t.Coherent) {v : Variable} (hs : ∀ slot, v.aliasOf = some slot → slot.index < t.vars.size) :
    (t.addVar v).2.Coherent := by
  refine ⟨fun id f hf x hx => ?_, fun x w slot hw hslot => ?_⟩
  · obtain ⟨w, hw, hstored⟩ := h.stored id f hf x hx
    exact isStored_of_advances (.addVar (p := fun _ => False) t v) hw hstored
  · rw [var?_addVar] at hw
    split at hw
    · next hx =>
      cases hw
      rw [hx]
      exact hs slot hslot
    · exact h.rooted x w slot hw hslot

theorem addListed (h : t.Coherent) {v : Variable} {list : VarId → Frame → Frame}
    (hs : ∀ slot, v.aliasOf = some slot → slot.index < t.vars.size)
    (hlist : ∀ id f x, x ∈ (list id f).arguments ++ (list id f).locals → x ∈ f.arguments ++ f.locals ∨ x = id ∧ v.kind.IsStored) :
    (t.addListed v list).2.Coherent := by
  have hadded : (t.addVar v).2.Coherent := h.addVar hs
  refine ⟨fun id f hf x hx => ?_, hadded.rooted⟩
  rw [frame?_addListed] at hf
  split at hf
  · obtain ⟨f₀, hf₀, rfl⟩ := Option.map_eq_some_iff.1 hf
    rcases hlist _ f₀ x hx with hx | ⟨rfl, hstored⟩
    · exact hadded.stored id f₀ hf₀ x hx
    · exact ⟨v, var?_new t v list, hstored⟩
  · exact hadded.stored id f hf x hx

theorem modifyFrame (h : t.Coherent) (id : ScopeId) {g : Frame → Frame}
    (hg : ∀ f, (g f).arguments = f.arguments ∧ (g f).locals = f.locals) : (t.modifyFrame id g).Coherent := by
  refine ⟨fun id' f hf x hx => ?_, h.rooted⟩
  rw [frame?_modifyFrame] at hf
  split at hf
  · obtain ⟨f₀, hf₀, rfl⟩ := Option.map_eq_some_iff.1 hf
    rw [(hg f₀).1, (hg f₀).2] at hx
    exact h.stored id' f₀ hf₀ x hx
  · exact h.stored id' f hf x hx

theorem addSlotAndName (h : t.Coherent) {slot name : Variable} (hk : slot.kind = .temporary) (hself : slot.aliasOf = none)
    (hname : name.aliasOf = some ⟨t.vars.size⟩) : ((t.addListed slot listLocal).2.addListed name listInlined).2.Coherent := by
  have hslot : (t.addListed slot listLocal).2.Coherent := by
    refine h.addListed (fun s hs => ?_) fun id f x hx => ?_
    · rw [hself] at hs
      cases hs
    · simp only [listLocal, List.mem_append, List.mem_singleton] at hx ⊢
      rcases hx with hx | hx | hx
      · exact .inl (.inl hx)
      · exact .inl (.inr hx)
      · exact .inr ⟨hx, .inr (.inl hk)⟩
  refine hslot.addListed (fun s hs => ?_) fun id f x hx => .inl hx
  rw [hname] at hs
  cases hs
  exact var?_lt (var?_new t slot listLocal)

theorem addInlined {scope : ScopeId} {d : Declaration} {isParameter : Bool} {x : VarId} (h : t.Coherent)
    (hd : Runs (Scoping.addInlined scope d isParameter) t x t') : t'.Coherent := by
  obtain ⟨f, -, -, hmade⟩ := Scoping.runs_addInlined_iff.1 hd
  cases hmade
  exact h.addSlotAndName rfl rfl rfl

theorem declare {scope : ScopeId} {d : Declaration} {isParameter : Bool} {x : VarId} (h : t.Coherent)
    (hd : Runs (Scoping.declare scope d isParameter) t x t') : t'.Coherent := by
  rcases declare_cases hd with ⟨-, rfl⟩ | ⟨-, -, rfl⟩ | ⟨-, -, rfl⟩
  · exact h.addSlotAndName rfl rfl rfl
  · refine h.addListed (by simp [Variable.new]) fun id f y hy => ?_
    simp only [listArgument, List.mem_append, List.mem_singleton] at hy ⊢
    rcases hy with (hy | hy) | hy
    · exact .inl (.inl hy)
    · exact .inr ⟨hy, .inl rfl⟩
    · exact .inl (.inr hy)
  · refine h.addListed (by simp [Variable.new]) fun id f y hy => ?_
    simp only [listLocal, List.mem_append, List.mem_singleton] at hy ⊢
    rcases hy with hy | hy | hy
    · exact .inl (.inl hy)
    · exact .inl (.inr hy)
    · exact .inr ⟨hy, .inr (.inl rfl)⟩

theorem markFound (h : t.Coherent) (found : Found) (forWrite : Bool) : (t.markFound found forWrite).Coherent := by
  refine h.update (Advances.markFound (p := fun _ => False) t found forWrite) (fun id f hf x hx => ⟨f, ?_, hx⟩) fun x v' hv' => ?_
  · rw [frame?, scope?_markFound] at hf
    exact hf
  · by_cases hx : t.Hits found x
    · rw [var?_markFound_of_hits hx] at hv'
      obtain ⟨v, hv, rfl⟩ := Option.map_eq_some_iff.1 hv'
      exact ⟨v, hv, rfl⟩
    · rw [var?_markFound_of_not_hits hx] at hv'
      exact ⟨v', hv', rfl⟩

theorem promote (h : t.Coherent) (scope : ScopeId) : (t.promote scope).2.Coherent := by
  cases hf : t.frame? scope with
  | none =>
    rw [promote_of_no_frame hf]
    exact h
  | some f =>
    refine h.update (Advances.promote t scope) (fun id f' hf' x hx => ?_) fun x v' hv' => ?_
    · rw [frame?_promote hf] at hf'
      split at hf'
      · next hid =>
        cases hf'
        subst hid
        refine ⟨f, hf, ?_⟩
        rcases List.mem_append.1 hx with hx | hx
        · exact List.mem_append_left _ (List.mem_of_mem_filter hx)
        · exact List.mem_append_right _ (List.mem_of_mem_filter hx)
      · exact ⟨f', hf', hx⟩
    · rw [var?_promote hf] at hv'
      split at hv'
      · obtain ⟨v, hv, rfl⟩ := Option.map_eq_some_iff.1 hv'
        exact ⟨v, hv, rfl⟩
      · exact ⟨v', hv', rfl⟩

theorem call {op : Operation} (h : t.Coherent) (hs : op.Sound t) (hc : Runs op.call t ⟨⟩ t') : t'.Coherent := by
  cases op with
  | addScope outer body =>
    obtain rfl := Runs.modify_iff.1 hc
    exact h.addScope outer hs
  | addSide outer classIndex classSide =>
    obtain rfl := Runs.modify_iff.1 hc
    have hreceiver : (t.addVar (.new "self" ⟨t.scopes.size⟩ .receiver none none)).2.Coherent := h.addVar (by simp [Variable.new])
    exact hreceiver.addScope (some outer) trivial
  | addVar v =>
    obtain rfl := Runs.modify_iff.1 hc
    refine h.addVar fun slot hslot => ?_
    obtain ⟨u, hu⟩ := Option.isSome_iff_exists.1 (hs slot hslot)
    exact var?_lt hu
  | declare scope d isParameter =>
    obtain ⟨x, hd⟩ := Runs.discard_iff.1 hc
    exact h.declare hd
  | addInlined scope d isParameter =>
    obtain ⟨x, hd⟩ := Runs.discard_iff.1 hc
    exact h.addInlined hd
  | lookup scope name forWrite remote =>
    obtain ⟨found, hl⟩ := Runs.discard_iff.1 hc
    obtain ⟨-, rfl⟩ := Scoping.runs_lookup_iff.1 hl
    exact h.markFound found forWrite
  | promote scope =>
    obtain rfl := Runs.modify_iff.1 hc
    exact h.promote scope
  | addUsing scope source =>
    obtain rfl := Runs.modify_iff.1 hc
    exact h.modifyFrame scope fun _ => ⟨rfl, rfl⟩
  | addCopying scope var =>
    obtain rfl := Runs.modify_iff.1 hc
    exact h.modifyFrame scope fun _ => ⟨rfl, rfl⟩

theorem after {op : Operation} (h : t.Coherent) (hs : op.Sound t) : (op.after t).Coherent := by
  rcases Fails.or_runs op.call t with ⟨⟨⟩, t', hr⟩ | ⟨e, t', hf⟩
  · rw [Operation.after_of_runs hr]
    exact h.call hs hr
  · rw [Operation.after_of_fails hf]
    exact h

theorem history {ops : List Operation} (h : t.Coherent) (hs : t.Sound ops) : (t.history ops).Coherent := by
  induction ops generalizing t with
  | nil => exact h
  | cons op ops ih => exact ih (h.after hs.1) hs.2

end Coherent

theorem isStored_of_operation {t : ScopeTree} {op : Operation} {x : VarId} {v : Variable} (h : t.Coherent) (hm : op.Moves t x)
    (hv : t.var? x = some v) : v.kind.IsStored := by
  obtain ⟨s, f, -, hf, hx⟩ := hm
  obtain ⟨v', hv', hstored⟩ := h.stored s f hf x hx
  rw [hv] at hv'
  cases hv'
  exact hstored

/-- What is moved to the heap at some time was stored all the time before. -/
theorem Moves.isStored {t : ScopeTree} {ops : List Operation} {x : VarId} {v : Variable} (hm : Moves x t ops) (h : t.Coherent)
    (hs : t.Sound ops) (hv : t.var? x = some v) : v.kind.IsStored := by
  induction hm generalizing v with
  | here hm => exact isStored_of_operation h hm hv
  | @later t op ops _ ih =>
    -- This operation keeps the kind, or it is already one that moves the variable.
    obtain ⟨v', hv', -, hkind⟩ := (t.advances_after op).vars x v hv
    rcases hkind with hsame | ⟨-, hm⟩
    · rw [← hsame]
      exact ih (h.after hs.1) hs.2 hv'
    · exact isStored_of_operation h hm hv

/-! ## Monotone and atomic -/

variable {t t' : ScopeTree} {x : VarId} {found : Found}

theorem modifyVar_congr {g g' : Variable → Variable} (h : ∀ v, t.var? x = some v → g v = g' v) :
    t.modifyVar x g = t.modifyVar x g' := by
  rw [modifyVar, modifyVar, modify_congr h]

/-- Recording a use sets at most the level of the slot behind what was found. -/
theorem exists_level_markFound (t : ScopeTree) (found : Found) (forWrite : Bool) :
    ∃ level, t.markFound found forWrite = t.modifyVar (t.realVar found.var) ({ · with remote := level }) := by
  unfold markFound
  cases hv : t.var? (t.realVar found.var) with
  | none =>
    have hnone : ∀ g, t.modifyVar (t.realVar found.var) g = t := by
      intro g
      refine modifyVar_eq_self fun v hv' => ?_
      rw [hv] at hv'
      cases hv'
    refine ⟨.none, ?_⟩
    rw [hnone, hnone]
    split <;> rfl
  | some v =>
    split
    · refine ⟨(v.mark forWrite).remote, modifyVar_congr fun v' hv' => ?_⟩
      rw [hv] at hv'
      cases hv'
      rfl
    -- Nothing is recorded of a use that crosses no closure.
    · refine ⟨v.remote, (modifyVar_eq_self fun v' hv' => ?_).symm⟩
      rw [hv] at hv'
      cases hv'
      rfl

/-- What later operations leave of a tree, and what a single one does to it that fails or finds a name. -/
structure Lasts (t : ScopeTree) (later : List Operation) : Prop where
  kept : Advances (Moves · t later) t (t.history later)
  atomic : ∀ (op : Operation) e t', Fails op.call t e t' → t' = t
  marks : ∀ scope name forWrite remote found t', Runs (Scoping.lookup scope name forWrite remote) t found t' →
    ∃ level, t' = t.modifyVar (t.realVar found.var) ({ · with remote := level })

/-- What holds besides where the operations are sound. -/
structure LastsSoundly (t : ScopeTree) (later : List Operation) : Prop where
  kinds : ∀ x v v', t.var? x = some v → (t.history later).var? x = some v' → v'.kind ≠ v.kind →
    v.kind = .argument ∨ v.kind = .temporary
  slots : ∀ x, (t.var? (t.realVar x)).bind (·.aliasOf) = none

theorem lasts (t : ScopeTree) (later : List Operation) : t.Lasts later where
  kept := t.advances_history later
  atomic op := op.atomic t
  marks scope name forWrite remote found t' hr := by
    obtain ⟨-, rfl⟩ := Scoping.runs_lookup_iff.1 hr
    exact t.exists_level_markFound found forWrite

theorem Coherent.lastsSoundly {later : List Operation} (h : t.Coherent) (hs : t.Sound later) : t.LastsSoundly later where
  kinds x v v' hv hv' hkind := by
    obtain ⟨v₁, hv₁, -, hkind₁⟩ := (t.advances_history later).vars x v hv
    rw [hv'] at hv₁
    cases hv₁
    rcases hkind₁ with hsame | ⟨hheap, hmoves⟩
    · exact absurd hsame hkind
    · rcases hmoves.isStored h hs hv with h | h | h
      · exact .inl h
      · exact .inr h
      · exact absurd (hheap.trans h.symm) hkind
  slots x := h.realVar_stands x

end ScopeTree

/-- After every history of a fresh tree, what is there lasts. A variable keeps all but its level, which never falls, and its kind, which
becomes the heap where a scope that lists the variable as a parameter or a local is promoted; a scope keeps its link and its kind. An
operation that fails changes nothing, and one that finds a name changes at most the level of the slot behind it. Where all operations name
only what is there, a variable whose kind changes was a parameter or a temporary, and the slot behind a name stands for itself. -/
theorem scope_history_monotone (ops later : List Operation) :
    (ScopeTree.empty.history ops).Lasts later ∧
      (ScopeTree.empty.Sound (ops ++ later) → (ScopeTree.empty.history ops).LastsSoundly later) := by
  refine ⟨ScopeTree.lasts _ later, fun hsound => ?_⟩
  obtain ⟨hbefore, hafter⟩ := ScopeTree.sound_append.1 hsound
  exact (ScopeTree.Coherent.empty.history hbefore).lastsSoundly hafter

/-- A name of an inlined block is declared twice and assigned to from a closure, an undeclared name is looked up, and the scope around is
promoted: the slot of the name goes to the heap. -/
theorem scope_history_monotone_promoted :
    let ops : List Operation := [.addScope none (.root []), .addSide ⟨0⟩ 0 false, .addScope (some ⟨1⟩) (.code .method .empty),
      .addScope (some ⟨2⟩) (.code .inlinedBlock .empty), .addScope (some ⟨3⟩) (.code .block .empty), .declare ⟨3⟩ ⟨"x", default⟩ false]
    let later : List Operation := [.declare ⟨3⟩ ⟨"x", default⟩ true, .lookup ⟨4⟩ "x" true false, .lookup ⟨4⟩ "y" true false, .promote ⟨2⟩]
    ScopeTree.empty.Sound (ops ++ later) ∧ (ScopeTree.empty.history ops).Lasts later ∧ (ScopeTree.empty.history ops).LastsSoundly later ∧
      (ScopeTree.empty.history ops).vars.map (fun v => (v.name, v.kind, v.remote)) =
        #[("self", .receiver, .none), ("x#0", .temporary, .none), ("x", .inlined, .none)] ∧
      ((ScopeTree.empty.history ops).history later).vars.map (fun v => (v.name, v.kind, v.remote)) =
        #[("self", .receiver, .none), ("x#0", .heap, .written), ("x", .inlined, .none)] := by
  intro ops later
  have hsound : ScopeTree.empty.Sound (ops ++ later) := by
    simp [ops, later, ScopeTree.Sound, Operation.Sound, Frame.empty]
  obtain ⟨hlasts, hsoundly⟩ := scope_history_monotone ops later
  exact ⟨hsound, hlasts, hsoundly hsound, by decide +kernel, by decide +kernel⟩

end BlockScope
