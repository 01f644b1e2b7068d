import BlockScope.Proofs.Scope.Listing
/-!
# Who owns a variable

A scope lists variables, and each of its lists is for one kind of them. `AllListed` says that every variable is in
a list of its own scope. It holds of the first tree and is kept by everything that makes a scope or a variable, so
with lists that hold what they are for and nothing twice (`Owned`), every variable stands in exactly one place
(`Owned.filter_owners`).
-/
namespace BlockScope

/-- All that a scope lists, each variable under the kind that its list is for. -/
def Scope.owned (s : Scope) : List (VarKind × VarId) :=
  match s.body with
  | .root members => members.map (.member, ·)
  | .side _ _ receiver slots => (.receiver, receiver) :: slots.map (.slot, ·)
  | .code _ f => f.arguments.map (.argument, ·) ++ f.locals.map (.temporary, ·) ++ f.heapvars.map (.heap, ·) ++
      f.inlined.map (.inlined, ·)

/-- All that a scope lists. -/
def Scope.listed (s : Scope) : List VarId := s.owned.map (·.2)

namespace Scope
variable {o : Option ScopeId} {x : VarId}

@[simp] theorem mem_listed_root {members : List VarId} : x ∈ (⟨o, .root members⟩ : Scope).listed ↔ x ∈ members := by
  simp [listed, owned]

@[simp] theorem mem_listed_side {i : Nat} {side : Bool} {receiver : VarId} {slots : List VarId} :
    x ∈ (⟨o, .side i side receiver slots⟩ : Scope).listed ↔ x = receiver ∨ x ∈ slots := by
  simp [listed, owned]

@[simp] theorem mem_listed_code {k : CodeKind} {f : Frame} :
    x ∈ (⟨o, .code k f⟩ : Scope).listed ↔ x ∈ f.listed ∨ x ∈ f.heapvars := by
  simp only [listed, owned, Frame.listed, List.map_append, List.map_map, Function.comp_def, List.map_id', List.mem_append]
  tauto

/-- Lists for different kinds have no entry in common. -/
theorem nodup_owned_code {k : CodeKind} {f : Frame} (ha : f.arguments.Nodup) (hl : f.locals.Nodup) (hh : f.heapvars.Nodup)
    (hi : f.inlined.Nodup) : (⟨o, .code k f⟩ : Scope).owned.Nodup := by
  have hmap : ∀ (kind : VarKind) {xs : List VarId}, xs.Nodup → (xs.map (kind, ·)).Nodup := fun kind xs hxs =>
    hxs.map fun x y h => (Prod.mk.inj h).2
  simp only [owned, List.nodup_append, hmap, ha, hl, hh, hi, true_and, List.mem_append, List.mem_map]
  refine ⟨⟨?_, ?_⟩, ?_⟩
  · rintro _ ⟨x, -, rfl⟩ _ ⟨y, -, rfl⟩
    simp
  · rintro _ (⟨x, -, rfl⟩ | ⟨x, -, rfl⟩) _ ⟨y, -, rfl⟩ <;> simp
  · rintro _ ((⟨x, -, rfl⟩ | ⟨x, -, rfl⟩) | ⟨x, -, rfl⟩) _ ⟨y, -, rfl⟩ <;> simp

end Scope

namespace ScopeTree

/-- Every scope of a tree, in the order in which they were made. -/
def ids (t : ScopeTree) : List ScopeId := (List.range t.scopes.size).map ScopeId.mk

/-- Every place where a variable is listed: the scope, the kind that the list is for, and the variable. -/
def owners (t : ScopeTree) : List (ScopeId × VarKind × VarId) :=
  t.ids.flatMap fun id => (((t.scope? id).map Scope.owned).getD []).map (id, ·)

/-- Every variable is in a list of its scope. -/
def AllListed (t : ScopeTree) : Prop := ∀ x v, t.var? x = some v → ∃ s, t.scope? v.scope = some s ∧ x ∈ s.listed

/-- The lists of a tree hold every variable, in its scope, under its kind and nowhere twice. -/
structure Owned (t : ScopeTree) : Prop where
  kinds : ∀ id s k x, t.scope? id = some s → (k, x) ∈ s.owned → ∃ v, t.var? x = some v ∧ v.scope = id ∧ v.kind = k
  listed : t.AllListed
  nodup : ∀ id s, t.scope? id = some s → s.owned.Nodup

variable {t t' : ScopeTree} {id s : ScopeId} {x : VarId} {v : Variable} {k : VarKind} {d : Declaration} {isParameter : Bool}

theorem mem_ids : id ∈ t.ids ↔ id.index < t.scopes.size := by
  cases id
  simp [ids]

theorem nodup_ids (t : ScopeTree) : t.ids.Nodup := by
  refine List.Nodup.map (fun i j h => ?_) List.nodup_range
  cases h
  rfl

/-- Variables that are numbered by their places are different. -/
theorem nodup_of_index (t : ScopeTree) {xs : List VarId}
    (h : ∀ (j : Nat) x, xs[j]? = some x → ∃ v, t.var? x = some v ∧ v.index = some j) : xs.Nodup := by
  rw [List.nodup_iff_getElem?_ne_getElem?]
  intro i j hij hj heq
  obtain ⟨v, hv, hi⟩ := h i _ (List.getElem?_eq_getElem (Nat.lt_trans hij hj))
  obtain ⟨w, hw, hj'⟩ := h j _ (heq ▸ List.getElem?_eq_getElem (Nat.lt_trans hij hj))
  rw [hv] at hw
  cases hw
  rw [hi] at hj'
  cases hj'
  exact Nat.lt_irrefl _ hij

/-! ## One place for every variable -/

theorem mem_owners : (id, k, x) ∈ t.owners ↔ ∃ s, t.scope? id = some s ∧ (k, x) ∈ s.owned := by
  simp only [owners, List.mem_flatMap, List.mem_map, mem_ids]
  constructor
  · rintro ⟨id', -, e, he, heq⟩
    cases heq
    cases hs : t.scope? id with
    | none => simp [hs] at he
    | some s => exact ⟨s, rfl, by simpa [hs] using he⟩
  · rintro ⟨s, hs, he⟩
    exact ⟨id, scope?_lt hs, (k, x), by simpa [hs] using he, rfl⟩

theorem nodup_owners (h : ∀ id s, t.scope? id = some s → s.owned.Nodup) : t.owners.Nodup := by
  refine List.nodup_flatMap.2 ⟨fun id _ => ?_, t.nodup_ids.imp fun {id id'} hne => ?_⟩
  · refine List.Nodup.map (fun e e' he => (Prod.mk.inj he).2) ?_
    cases hs : t.scope? id with
    | none => simp
    | some s => exact h id s hs
  · rintro e he he'
    obtain ⟨_, -, rfl⟩ := List.mem_map.1 he
    obtain ⟨_, -, heq⟩ := List.mem_map.1 he'
    exact hne (Prod.mk.inj heq).1.symm

namespace Owned

theorem mem_owners_iff (h : t.Owned) (hv : t.var? x = some v) : (id, k, x) ∈ t.owners ↔ id = v.scope ∧ k = v.kind := by
  rw [mem_owners]
  constructor
  · rintro ⟨s, hs, he⟩
    obtain ⟨w, hw, rfl, rfl⟩ := h.kinds id s k x hs he
    rw [hv] at hw
    cases hw
    exact ⟨rfl, rfl⟩
  · rintro ⟨rfl, rfl⟩
    obtain ⟨s, hs, hx⟩ := h.listed x v hv
    obtain ⟨⟨k, _⟩, he, rfl⟩ := List.mem_map.1 hx
    obtain ⟨w, hw, -, hk⟩ := h.kinds v.scope s k _ hs he
    rw [hv] at hw
    cases hw
    exact ⟨s, hs, by rw [hk]; exact he⟩

/-- A variable is listed once, by its scope and under its kind. -/
theorem filter_owners (h : t.Owned) (hv : t.var? x = some v) : t.owners.filter (·.2.2 = x) = [(v.scope, v.kind, x)] := by
  have hperm : (t.owners.filter (·.2.2 = x)).Perm [(v.scope, v.kind, x)] := by
    refine (List.perm_ext_iff_of_nodup ((nodup_owners h.nodup).filter _) (List.nodup_singleton _)).2 ?_
    rintro ⟨id, k, y⟩
    simp only [List.mem_filter, decide_eq_true_eq, List.mem_singleton, Prod.mk.injEq]
    constructor
    · rintro ⟨he, rfl⟩
      obtain ⟨rfl, rfl⟩ := (h.mem_owners_iff hv).1 he
      exact ⟨rfl, rfl, rfl⟩
    · rintro ⟨rfl, rfl, rfl⟩
      exact ⟨(h.mem_owners_iff hv).2 ⟨rfl, rfl⟩, rfl⟩
  exact List.perm_singleton.1 hperm

theorem var_of_owners (h : t.Owned) (he : (id, k, x) ∈ t.owners) : (t.var? x).isSome := by
  obtain ⟨s, hs, he⟩ := mem_owners.1 he
  obtain ⟨v, hv, -⟩ := h.kinds id s k x hs he
  rw [hv]
  rfl

end Owned

/-! ## What keeps all variables listed -/

namespace AllListed

/-- No list loses a variable, and every new variable is in a list. -/
theorem update (h : t.AllListed)
    (hscopes : ∀ id s, t.scope? id = some s → ∃ s', t'.scope? id = some s' ∧ s.listed ⊆ s'.listed)
    (hvars : ∀ x v, t'.var? x = some v → (∃ v₀, t.var? x = some v₀ ∧ v₀.scope = v.scope) ∨
      ∃ s, t'.scope? v.scope = some s ∧ x ∈ s.listed) : t'.AllListed := by
  intro x v hv
  rcases hvars x v hv with ⟨v₀, hv₀, hscope⟩ | hnew
  · obtain ⟨s, hs, hx⟩ := h x v₀ hv₀
    rw [hscope] at hs
    obtain ⟨s', hs', hsub⟩ := hscopes v.scope s hs
    exact ⟨s', hs', hsub hx⟩
  · exact hnew

theorem addScope (h : t.AllListed) (outer : Option ScopeId) (body : ScopeBody) : (t.addScope outer body).2.AllListed := by
  refine h.update (fun id s hs => ⟨s, ?_, fun _ hx => hx⟩) fun x v hv => .inl ⟨v, hv, rfl⟩
  have := scope?_lt hs
  rw [scope?_addScope, if_neg (by omega), hs]

/-- A new variable that a frame lists. -/
theorem addListed {f : Frame} {list : VarId → Frame → Frame} (h : t.AllListed) (hf : t.frame? v.scope = some f)
    (hlist : ∀ x f y, y ∈ (list x f).listed ↔ y = x ∨ y ∈ f.listed) (hheap : ∀ x f, (list x f).heapvars = f.heapvars) :
    (t.addListed v list).2.AllListed := by
  obtain ⟨o, k, hs⟩ := scope_of_frame hf
  have hself : (t.addListed v list).2.scope? v.scope = _ := scope?_addListed_self rfl hs
  refine h.update (fun id s hid => ?_) fun x w hw => ?_
  · by_cases hne : id = v.scope
    · subst hne
      rw [hs] at hid
      cases hid
      refine ⟨_, hself, fun y hy => ?_⟩
      simp only [Scope.mem_listed_code, hlist, hheap] at hy ⊢
      tauto
    · exact ⟨s, by rw [scope?_addListed_ne hne, hid], fun _ hy => hy⟩
  · rw [var?_addListed] at hw
    split at hw
    · next hx =>
      cases hw
      obtain rfl : x = ⟨t.vars.size⟩ := by
        cases x
        cases hx
        rfl
      exact .inr ⟨_, hself, by simp [hlist]⟩
    · exact .inl ⟨w, hw, rfl⟩

theorem declare {o : Option ScopeId} {c : CodeKind} {f : Frame} (h : t.AllListed) (hw : t.Wf)
    (hs : t.scope? s = some ⟨o, .code c f⟩) (hd : Runs (Scoping.declare s d isParameter) t x t') : t'.AllListed := by
  have hf : t.frame? s = some f := frame?_of_scope hs
  rcases declare_cases hd with ⟨-, rfl⟩ | ⟨-, -, rfl⟩ | ⟨-, -, rfl⟩
  · obtain ⟨host, fh, hhost, hfh⟩ := hw.hosted s o c f hs
    rw [hhost.realScope_eq hw.nested]
    have hfirst := h.addListed (v := slotFor d host (t.slotNumber s)) hfh mem_listed_listLocal fun _ _ => rfl
    have hframe : ((t.addListed (slotFor d host (t.slotNumber s)) listLocal).2.frame? s).isSome :=
      isSome_frame?_addListed _ _ _ (by rw [hf]; rfl)
    obtain ⟨f', hf'⟩ := Option.isSome_iff_exists.1 hframe
    exact hfirst.addListed hf' mem_listed_listInlined fun _ _ => rfl
  · exact h.addListed (v := .new d.name s .argument (some d.span) none) hf mem_listed_listArgument fun _ _ => rfl
  · exact h.addListed (v := .new d.name s .temporary (some d.span) none) hf mem_listed_listLocal fun _ _ => rfl

end AllListed
end ScopeTree
end BlockScope
