import BlockScope.Proofs.Scope.Opening
import BlockScope.Proofs.Scope.Leaving
/-!
# Twin trees

The same code opened in two trees gets other scopes and other variables, but corresponding ones. A `Pairing` says which
correspond, and `Twins` that the methods and blocks it pairs agree in all but the pairing: their kinds, what they lie in,
their frames entry by entry and the variables in them. So a name is found in twins at paired places (`Twins.find`), and the
way out of a scope passes paired closures (`Twins.trueBlocksUntil`) up to paired methods (`Twins.leaves`).
-/
namespace BlockScope

/-! ## Lists entry by entry -/

section
variable {α β : Type} {R : α → β → Prop} {xs : List α} {ys : List β} {p : α → Bool} {q : β → Bool}

theorem rel_find? (h : List.Forall₂ R xs ys) (hpq : ∀ x y, R x y → p x = q y) : Option.Rel R (xs.find? p) (ys.find? q) := by
  induction h with
  | nil => exact .none
  | @cons x y xs ys hxy _ ih =>
    rw [List.find?_cons, List.find?_cons, ← hpq x y hxy]
    cases p x with
    | true => exact .some hxy
    | false => exact ih

theorem rel_takeWhile (h : List.Forall₂ R xs ys) (hpq : ∀ x y, R x y → p x = q y) :
    List.Forall₂ R (xs.takeWhile p) (ys.takeWhile q) := by
  induction h with
  | nil => exact .nil
  | @cons x y xs ys hxy _ ih =>
    rw [List.takeWhile_cons, List.takeWhile_cons, ← hpq x y hxy]
    cases p x with
    | true => exact .cons hxy ih
    | false => exact .nil

theorem rel_filter (h : List.Forall₂ R xs ys) (hpq : ∀ x y, R x y → p x = q y) :
    List.Forall₂ R (xs.filter p) (ys.filter q) :=
  List.rel_filter (fun x y hxy => Bool.eq_iff_iff.1 (hpq x y hxy)) h

theorem rel_appendNew [DecidableEq α] [DecidableEq β] {new : List α} {new' : List β} (hR : Relator.BiUnique R)
    (h : List.Forall₂ R xs ys) (hnew : List.Forall₂ R new new') : List.Forall₂ R (appendNew xs new) (appendNew ys new') := by
  unfold appendNew
  induction hnew generalizing xs ys with
  | nil => exact h
  | @cons x y new new' hxy _ ih =>
    rw [List.foldl_cons, List.foldl_cons]
    apply ih
    have hmem : x ∈ xs ↔ y ∈ ys := List.rel_mem hR hxy h
    by_cases hx : x ∈ xs
    · rw [if_pos hx, if_pos (hmem.1 hx)]
      exact h
    · rw [if_neg hx, if_neg (fun hy => hx (hmem.2 hy))]
      exact ScopeTree.forall₂_concat h hxy

end

/-! ## Pairings -/

/-- Some scopes of one tree against scopes of another, and variables against variables. -/
structure Pairing where
  scope : ScopeId → ScopeId → Prop
  var : VarId → VarId → Prop

namespace Pairing

/-- Nothing is paired. -/
def empty : Pairing := ⟨fun _ _ => False, fun _ _ => False⟩

def addScope (r : Pairing) (s s' : ScopeId) : Pairing := { r with scope := fun u u' => r.scope u u' ∨ u = s ∧ u' = s' }

def addVar (r : Pairing) (x x' : VarId) : Pairing := { r with var := fun y y' => r.var y y' ∨ y = x ∧ y' = x' }

/-- What is paired stays paired. -/
structure Le (r r' : Pairing) : Prop where
  scope : ∀ s s', r.scope s s' → r'.scope s s'
  var : ∀ x x', r.var x x' → r'.var x x'

/-- Two variables that differ at most in the places of their scope and of the slot that they stand for. -/
structure Variables (r : Pairing) (v v' : Variable) : Prop where
  same : v' = { v with scope := v'.scope, aliasOf := v'.aliasOf }
  scope : r.scope v.scope v'.scope
  aliasOf : Option.Rel r.var v.aliasOf v'.aliasOf

/-- Two frames with the same lists. -/
structure Frames (r : Pairing) (f f' : Frame) : Prop where
  arguments : List.Forall₂ r.var f.arguments f'.arguments
  locals : List.Forall₂ r.var f.locals f'.locals
  heapvars : List.Forall₂ r.var f.heapvars f'.heapvars
  inlined : List.Forall₂ r.var f.inlined f'.inlined
  context : f.needsHeapContext = f'.needsHeapContext
  records : List.Forall₂ r.scope f.usingHeapvarsFrom f'.usingHeapvarsFrom
  values : List.Forall₂ r.var f.copyingVars f'.copyingVars

variable {r r' r'' : Pairing} {v v' : Variable} {f f' : Frame}

theorem Le.refl (r : Pairing) : r.Le r := ⟨fun _ _ h => h, fun _ _ h => h⟩

theorem Le.trans (h : r.Le r') (h' : r'.Le r'') : r.Le r'' :=
  ⟨fun s s' hs => h'.scope s s' (h.scope s s' hs), fun x x' hx => h'.var x x' (h.var x x' hx)⟩

theorem le_addScope (r : Pairing) (s s' : ScopeId) : r.Le (r.addScope s s') := ⟨fun _ _ h => .inl h, fun _ _ h => h⟩

theorem le_addVar (r : Pairing) (x x' : VarId) : r.Le (r.addVar x x') := ⟨fun _ _ h => h, fun _ _ h => .inl h⟩

theorem rel_mono {α β : Type} {R S : α → β → Prop} {x : Option α} {y : Option β} (h : Option.Rel R x y)
    (hRS : ∀ x y, R x y → S x y) : Option.Rel S x y := by
  cases h with
  | none => exact .none
  | some hxy => exact .some (hRS _ _ hxy)

theorem Variables.mono (h : r.Variables v v') (hle : r.Le r') : r'.Variables v v' :=
  ⟨h.same, hle.scope _ _ h.scope, rel_mono h.aliasOf hle.var⟩

theorem Frames.mono (h : r.Frames f f') (hle : r.Le r') : r'.Frames f f' where
  arguments := h.arguments.imp hle.var
  locals := h.locals.imp hle.var
  heapvars := h.heapvars.imp hle.var
  inlined := h.inlined.imp hle.var
  context := h.context
  records := h.records.imp hle.scope
  values := h.values.imp hle.var

end Pairing

/-! ## Twins -/

/-- What is paired of the first tree is, in the second, the same up to the pairing. What a method lies in is left open. -/
structure Twins (r : Pairing) (t t' : ScopeTree) : Prop where
  uniqueScope : Relator.BiUnique r.scope
  uniqueVar : Relator.BiUnique r.var
  scope : ∀ s s', r.scope s s' → ∃ o o' k f f', t.scope? s = some ⟨o, .code k f⟩ ∧ t'.scope? s' = some ⟨o', .code k f'⟩ ∧
    (k ≠ .method → Option.Rel r.scope o o') ∧ r.Frames f f'
  var : ∀ x x', r.var x x' → ∃ v v', t.var? x = some v ∧ t'.var? x' = some v' ∧ r.Variables v v'

/-- There is no code around a method. -/
def ScopeTree.Outermost (t : ScopeTree) : Prop := ∀ m o f, t.scope? m = some ⟨some o, .code .method f⟩ →
  ∀ x k g o', t.Within o x → t.scope? x ≠ some ⟨o', .code k g⟩

namespace Twins
variable {r : Pairing} {t t' : ScopeTree} {s s' U U' D D' : ScopeId} {x x' : VarId} {n : String} {xs xs' : List VarId}

theorem empty (t t' : ScopeTree) : Twins .empty t t' := by
  refine ⟨⟨?_, ?_⟩, ⟨?_, ?_⟩, ?_, ?_⟩ <;> intro _ _ <;> intros <;> contradiction

theorem scope_eq_iff (h : Twins r t t') (hs : r.scope s s') (hU : r.scope U U') : s = U ↔ s' = U' := by
  constructor
  · rintro rfl
    exact h.uniqueScope.2 hs hU
  · rintro rfl
    exact h.uniqueScope.1 hs hU

theorem frame (h : Twins r t t') (hs : r.scope s s') : ∃ f f', t.frame? s = some f ∧ t'.frame? s' = some f' ∧ r.Frames f f' := by
  obtain ⟨o, o', k, f, f', ht, ht', -, hf⟩ := h.scope s s' hs
  exact ⟨f, f', ScopeTree.frame?_of_scope ht, ScopeTree.frame?_of_scope ht', hf⟩

/-- What depends on the kind alone is the same of both. -/
theorem scopeIs (h : Twins r t t') (hs : r.scope s s') (p : Option CodeKind → Bool) :
    t.scopeIs (fun sc => p sc.codeKind?) s = t'.scopeIs (fun sc => p sc.codeKind?) s' := by
  obtain ⟨o, o', k, f, f', ht, ht', -⟩ := h.scope s s' hs
  rw [ScopeTree.scopeIs_of_scope ht, ScopeTree.scopeIs_of_scope ht']
  rfl

/-- What stands for a slot directly is paired with what does so. -/
theorem direct (h : Twins r t t') (hx : r.var x x') (hd : t.Direct x) : t'.Direct x' := by
  obtain ⟨v, v', hv, hv', hvs⟩ := h.var x x' hx
  intro u' slot' w' hu' ha' hw'
  rw [hv'] at hu'
  cases hu'
  have halias := hvs.aliasOf
  rw [ha'] at halias
  generalize ha : v.aliasOf = slot at halias
  cases halias with
  | some hslot =>
    obtain ⟨w, w₁, hw, hw₁, hws⟩ := h.var _ _ hslot
    rw [hw'] at hw₁
    cases hw₁
    have hnone := hws.aliasOf
    rw [hd v _ w hv ha hw] at hnone
    generalize w'.aliasOf = slot₁ at hnone
    cases hnone
    rfl

theorem realVar (h : Twins r t t') (hx : r.var x x') (hd : t.Direct x) : r.var (t.realVar x) (t'.realVar x') := by
  have hd' := h.direct hx hd
  obtain ⟨v, v', hv, hv', hvs⟩ := h.var x x' hx
  have halias := hvs.aliasOf
  generalize ha : v.aliasOf = slot at halias
  generalize ha' : v'.aliasOf = slot' at halias
  cases halias with
  | none =>
    rw [ScopeTree.realVar_of_no_alias hv ha, ScopeTree.realVar_of_no_alias hv' ha']
    exact hx
  | some hslot =>
    rw [hd.realVar_eq hv ha, hd'.realVar_eq hv' ha']
    exact hslot

theorem nameOf (h : Twins r t t') (hx : r.var x x') : t.nameOf x = t'.nameOf x' := by
  obtain ⟨v, v', hv, hv', hvs⟩ := h.var x x' hx
  rw [ScopeTree.nameOf, ScopeTree.nameOf, hv, hv', hvs.same]
  rfl

theorem findNamed (h : Twins r t t') (hxs : List.Forall₂ r.var xs xs') :
    Option.Rel r.var (t.findNamed xs n) (t'.findNamed xs' n) := by
  apply rel_find? hxs
  intro x x' hx
  obtain ⟨v, v', hv, hv', hvs⟩ := h.var x x' hx
  rw [hv, hv', hvs.same]
  rfl

theorem findInFrame {f f' : Frame} (h : Twins r t t') (hf : r.Frames f f') :
    Option.Rel r.var (t.findInFrame f n) (t'.findInFrame f' n) :=
  h.findNamed (List.rel_append (List.rel_append (List.rel_append hf.heapvars hf.arguments) hf.locals) hf.inlined)

/-- Hosts of inlined blocks are paired. -/
theorem hostedBy {host : ScopeId} (h : Twins r t t') (hs : r.scope s s') (hh : t.HostedBy s host) :
    ∃ host', r.scope host host' ∧ t'.HostedBy s' host' := by
  induction hh generalizing s' with
  | @here s hi =>
    refine ⟨s', hs, .here ?_⟩
    rw [← hi]
    exact (h.scopeIs hs (· = some .inlinedBlock)).symm
  | @outer s o host hi ho _ ih =>
    obtain ⟨so, so', k, f, f', ht, ht', hout, -⟩ := h.scope s s' hs
    have hk : k = .inlinedBlock := by
      rw [ScopeTree.scopeIs_of_scope ht] at hi
      simpa [Scope.isInlined, Scope.codeKind?] using hi
    rw [ScopeTree.outer?_of_scope ht] at ho
    obtain rfl : so = some o := ho
    cases hout (by simp [hk]) with
    | @some _ o' hoo =>
      obtain ⟨host', hhost, hh'⟩ := ih hoo
      refine ⟨host', hhost, .outer ?_ (by rw [ScopeTree.outer?_of_scope ht']) hh'⟩
      rw [← hi]
      exact (h.scopeIs hs (· = some .inlinedBlock)).symm

theorem realScope (h : Twins r t t') (hw : t.Wf) (hn' : t'.Nested) (hs : r.scope s s') :
    r.scope (t.realScope s) (t'.realScope s') := by
  obtain ⟨o, o', k, f, f', ht, -⟩ := h.scope s s' hs
  obtain ⟨host, fh, hhost, -⟩ := hw.hosted s o k f ht
  obtain ⟨host', hpair, hhost'⟩ := h.hostedBy hs hhost
  rw [hhost.realScope_eq hw.nested, hhost'.realScope_eq hn']
  exact hpair

end Twins

/-! ## Finding a name -/

/-- What is found is not stored in a method or block. -/
def Found.Fixed (found : Found) : Prop := ∀ D remote, found.place ≠ .frame D remote

/-- Found at paired places of methods or blocks, or elsewhere in both trees. -/
inductive Pairing.Found (r : Pairing) : Option Found → Option Found → Prop where
  | stored {x x' : VarId} {D D' : ScopeId} (remote : Bool) (hx : r.var x x') (hD : r.scope D D') :
    r.Found (some ⟨x, .frame D remote⟩) (some ⟨x', .frame D' remote⟩)
  | fixed {found found' : Option BlockScope.Found} (h : ∀ f, found = some f → f.Fixed) (h' : ∀ f, found' = some f → f.Fixed) :
    r.Found found found'

/-- From outside a method nothing is found that is stored in code. -/
theorem ScopeTree.Outermost.find_fixed {t : ScopeTree} {m o : ScopeId} {f : Frame} {n : String} {remote : Bool} {found : Found}
    (h : t.Outermost) (hn : t.Nested) (hm : t.scope? m = some ⟨some o, .code .method f⟩)
    (hf : t.find o n remote = some found) : found.Fixed := by
  obtain ⟨D, ⟨so, body⟩, remote', hw, hs, hin, -⟩ := hn.find_cases hf
  intro D' remote'' hplace
  cases foundIn_of_findIn hin with
  | code => exact h m o f hm D _ _ so hw hs
  | member | receiver | slot => cases hplace

namespace Twins
variable {r : Pairing} {t t' : ScopeTree} {s s' U U' D D' : ScopeId} {x x' : VarId} {n : String} {xs xs' : List VarId}

theorem find (h : Twins r t t') (hn : t.Nested) (hn' : t'.Nested) (ho : t.Outermost) (ho' : t'.Outermost)
    (hU : r.scope U U') (remote : Bool) : r.Found (t.find U n remote) (t'.find U' n remote) := by
  induction U using hn.induction generalizing U' remote with
  | step U ih =>
    obtain ⟨o, o', k, f, f', ht, ht', hout, hf⟩ := h.scope U U' hU
    rw [hn.find_eq ht, hn'.find_eq ht']
    simp only [ScopeTree.findIn]
    have hin := h.findInFrame (n := n) hf
    generalize t.findInFrame f n = y at hin
    generalize t'.findInFrame f' n = y' at hin
    cases hin with
    | some hx => exact .stored remote hx hU
    | none =>
      simp only [Option.map_none, Option.none_or]
      by_cases hk : k = .method
      · subst hk
        refine .fixed (fun found hfound => ?_) fun found hfound => ?_
        · obtain ⟨u, rfl, hfound⟩ := Option.bind_eq_some_iff.1 hfound
          exact ho.find_fixed hn ht hfound
        · obtain ⟨u, rfl, hfound⟩ := Option.bind_eq_some_iff.1 hfound
          exact ho'.find_fixed hn' ht' hfound
      · cases hout hk with
        | none => exact .fixed (by simp) (by simp)
        | some hu => exact ih _ (by rw [ScopeTree.outer?_of_scope ht]) hu _

/-! ## Outwards -/

/-- From paired scopes outwards there are paired scopes, and then none with code. -/
theorem chain (h : Twins r t t') (hn : t.Nested) (hn' : t'.Nested) (ho : t.Outermost) (ho' : t'.Outermost) (hU : r.scope U U') :
    ∃ l l' rest rest', t.chain U = l ++ rest ∧ t'.chain U' = l' ++ rest' ∧ List.Forall₂ r.scope l l' ∧
      (∀ s ∈ rest, t.frame? s = none) ∧ ∀ s ∈ rest', t'.frame? s = none := by
  have houtside : ∀ {t : ScopeTree} {m o : ScopeId} {f : Frame}, t.Nested → t.Outermost →
      t.scope? m = some ⟨some o, .code .method f⟩ → ∀ s ∈ t.chain o, t.frame? s = none := by
    intro t m o f hn ho hm s hs
    rw [Option.eq_none_iff_forall_ne_some]
    intro g hg
    obtain ⟨o', k, hs'⟩ := ScopeTree.scope_of_frame hg
    exact ho m o f hm s k g o' ((hn.mem_chain o).1 hs) hs'
  induction U using hn.induction generalizing U' with
  | step U ih =>
    obtain ⟨o, o', k, f, f', ht, ht', hout, hf⟩ := h.scope U U' hU
    have hsplit : ∀ {t : ScopeTree} {U : ScopeId} {o : Option ScopeId} {k : CodeKind} {f : Frame}, t.Nested →
        t.scope? U = some ⟨o, .code k f⟩ → t.chain U = [U] ++ (o.map t.chain).getD [] := by
      intro t U o k f hn ht
      cases o with
      | none => exact ScopeTree.chain_of_no_outer (by rw [ScopeTree.outer?_of_scope ht])
      | some o => exact hn.chain_of_outer (by rw [ScopeTree.outer?_of_scope ht])
    by_cases hk : k = .method
    · subst hk
      refine ⟨[U], [U'], _, _, hsplit hn ht, hsplit hn' ht', .cons hU .nil, ?_, ?_⟩
      · cases o with
        | none => simp
        | some o => exact houtside hn ho ht
      · cases o' with
        | none => simp
        | some o' => exact houtside hn' ho' ht'
    · cases hout hk with
      | none => exact ⟨[U], [U'], [], [], hsplit hn ht, hsplit hn' ht', .cons hU .nil, by simp, by simp⟩
      | @some u u' hu =>
        obtain ⟨l, l', rest, rest', hl, hl', hpairs, hrest, hrest'⟩ := ih u (by rw [ScopeTree.outer?_of_scope ht]) hu
        refine ⟨U :: l, U' :: l', rest, rest', ?_, ?_, .cons hU hpairs, hrest, hrest'⟩
        · rw [hsplit hn ht, Option.map_some, Option.getD_some, hl]
          rfl
        · rw [hsplit hn' ht', Option.map_some, Option.getD_some, hl']
          rfl

theorem methodOf (h : Twins r t t') (hn : t.Nested) (hn' : t'.Nested) (ho : t.Outermost) (ho' : t'.Outermost)
    (hU : r.scope U U') : Option.Rel r.scope (t.methodOf U) (t'.methodOf U') := by
  obtain ⟨l, l', rest, rest', hl, hl', hpairs, hrest, hrest'⟩ := h.chain hn hn' ho ho' hU
  have hnone : ∀ {t : ScopeTree} {rest : List ScopeId}, (∀ s ∈ rest, t.frame? s = none) →
      rest.find? (t.scopeIs (·.isMethod)) = none := by
    intro t rest hrest
    rw [List.find?_eq_none]
    intro s hs hm
    obtain ⟨f, hf⟩ := ScopeTree.frame_of_method hm
    rw [hrest s hs] at hf
    cases hf
  unfold ScopeTree.methodOf
  rw [hl, hl', List.find?_append, List.find?_append, hnone hrest, hnone hrest', Option.or_none, Option.or_none]
  exact rel_find? hpairs fun s s' hs => h.scopeIs hs (· = some .method)

theorem trueBlocksUntil (h : Twins r t t') (hn : t.Nested) (hn' : t'.Nested) (ho : t.Outermost) (ho' : t'.Outermost)
    (hU : r.scope U U') (hD : r.scope D D') : List.Forall₂ r.scope (t.trueBlocksUntil U D) (t'.trueBlocksUntil U' D') := by
  obtain ⟨l, l', rest, rest', hl, hl', hpairs, hrest, hrest'⟩ := h.chain hn hn' ho ho' hU
  -- Beyond the paired scopes there is no closure, whether or not the way ends before.
  have hinside : ∀ {t : ScopeTree} {l rest : List ScopeId} {D : ScopeId}, (∀ s ∈ rest, t.frame? s = none) →
      ((l ++ rest).takeWhile (· ≠ D)).filter (t.scopeIs (·.isTrueBlock)) =
        (l.takeWhile (· ≠ D)).filter (t.scopeIs (·.isTrueBlock)) := by
    intro t l rest D hrest
    have hnil : (rest.takeWhile (· ≠ D)).filter (t.scopeIs (·.isTrueBlock)) = [] := by
      rw [List.filter_eq_nil_iff]
      intro s hs htrue
      obtain ⟨f, hf⟩ := ScopeTree.frame_of_trueBlock htrue
      rw [hrest s (List.takeWhile_subset _ hs)] at hf
      cases hf
    rw [List.takeWhile_append]
    split
    · next hall => rw [List.filter_append, hnil, List.append_nil, (List.takeWhile_prefix _).eq_of_length hall]
    · rfl
  unfold ScopeTree.trueBlocksUntil ScopeTree.chainUntil
  rw [hl, hl', hinside hrest, hinside hrest']
  refine rel_filter (rel_takeWhile hpairs fun s s' hs => ?_) fun s s' hs => h.scopeIs hs (· = some .block)
  simp [h.scope_eq_iff hs hD]

theorem leaves (h : Twins r t t') (hn : t.Nested) (hn' : t'.Nested) (ho : t.Outermost) (ho' : t'.Outermost)
    (hU : r.scope U U') : Option.Rel r.scope (t.leaves U) (t'.leaves U') := by
  have hm := h.methodOf hn hn' ho ho' hU
  unfold ScopeTree.leaves
  generalize t.methodOf U = m at hm
  generalize t'.methodOf U' = m' at hm
  cases hm with
  | none => exact .none
  | @some m m' hmm =>
    have hblocks := h.trueBlocksUntil hn hn' ho ho' hU hmm
    have hempty : (t.trueBlocksUntil U m).isEmpty = (t'.trueBlocksUntil U' m').isEmpty := by
      rw [Bool.eq_iff_iff, List.isEmpty_iff_length_eq_zero, List.isEmpty_iff_length_eq_zero, hblocks.length_eq]
    rw [Option.filter_some, Option.filter_some, hempty]
    split
    · exact .some hmm
    · exact .none

end Twins
end BlockScope
