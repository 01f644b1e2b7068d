import BlockScope.Proofs.Scope.TwinUpdates
import BlockScope.Proofs.Analysis.Ownership
/-!
# The same method in two runs

A method does not depend on where it stands among the classes: resolved in two runs, it makes corresponding scopes and
variables, whatever the trees had before (`abreast_of_method`). Events go in step: each finds the two trees twins and leaves
them twins (`InStep.cons`), so a node with all its parts does (`InStep.events`), and so does a method. Taken with itself, this
says that a method leaves all that was there before it as it was (`Steps.intact`).
-/
namespace BlockScope

/-! ## Around a method there is no code -/

namespace ScopeTree
variable {t t' : ScopeTree} {id x : ScopeId}

theorem Grows.within (hg : t.Grows t') (h : t.Within id x) : t'.Within id x := by
  induction h with
  | refl => exact .refl _
  | outer ho _ ih =>
    obtain ⟨s, hs, hso⟩ := scope_of_outer ho
    obtain ⟨slots, -, hs'⟩ := hg.scopes _ s hs
    exact .outer (by rw [outer?_of_scope hs', Scope.outer_mapFrame, hso]) ih

theorem Outermost.of_grows (h : t'.Outermost) (hg : t.Grows t') : t.Outermost := by
  intro m o f hm x k g o' hw hx
  obtain ⟨slots, -, hm'⟩ := hg.scopes m _ hm
  obtain ⟨slots', -, hx'⟩ := hg.scopes x _ hx
  exact h m o _ hm' x k _ o' (hg.within hw) hx'

end ScopeTree

theorem Resolved.outermost {p : Program} {a : Analysis} (h : Resolved p a) : a.scopes.Outermost := by
  intro m o f hm x k g o' hw hx
  have ho : a.scopes.outer? m = some o := ScopeTree.outer?_of_scope hm
  have hmethod : a.scopes.scopeIs (·.isMethod) m := by
    rw [ScopeTree.scopeIs_of_scope hm]
    rfl
  obtain rfl := h.eq_of_around_method hmethod (.outer ho hw) ⟨o', k, g, hx⟩
  have := h.wf.nested x o ho
  have := hw.le h.wf.nested
  omega

/-! ## What a step does to the scopes -/

namespace Step
variable {p : Program} {scopeOf : Opener → Option ScopeId} {a b : Analysis} {o : Opener} {role : Role} {id : NodeId}

theorem method_scopes {cls place : Nat} {m : Method} (h : Step p scopeOf a (.method cls place) b)
    (hm : p.method? cls place = some m) : ∃ side so s, scopeOf (.method cls place) = some s ∧
      a.scopes.scope? side = some so ∧ a.scopes.Opens side .method m.code s b.scopes := by
  cases h with
  | method hm' hinfo hscope hside hopens =>
    rw [hm] at hm'
    cases hm'
    exact ⟨_, _, _, hscope, hside, hopens⟩

theorem block_scopes {code : Code} (h : Step p scopeOf a (.node o role id) b) (hb : p.arena.blockCode? id = some code) :
    ∃ U s, scopeOf o = some U ∧ scopeOf (.block id) = some s ∧ a.scopes.IsCode U ∧
      a.scopes.Opens U role.blockKind code s b.scopes := by
  cases h with
  | block hb' hscope ho hcode hopens =>
    rw [hb] at hb'
    cases hb'
    exact ⟨_, _, ho, hscope, hcode, hopens⟩
  | use he => simp [Arena.blockCode?, he] at hb
  | other _ hno => simp [hno] at hb

theorem use_scopes {name : String} (h : Step p scopeOf a (.node o role id) b) (he : p.arena.expr? id = some (.ident name)) :
    ∃ U found, scopeOf o = some U ∧ a.scopes.find U name false = some found ∧
      b.scopes = a.scopes.markFound found (role = .target) := by
  cases h with
  | block hb => simp [Arena.blockCode?, he] at hb
  | use he' ho _ hf =>
    rw [he] at he'
    cases he'
    exact ⟨_, _, ho, hf, rfl⟩
  | other hi => exact absurd he (hi name)

theorem other_scopes (h : Step p scopeOf a (.node o role id) b) (hi : ∀ name, p.arena.expr? id ≠ some (.ident name))
    (hb : p.arena.blockCode? id = none) : b.scopes = a.scopes := by
  cases h with
  | block hb' => simp [hb] at hb'
  | use he => exact absurd he (hi _)
  | other => rfl

end Step

/-! ## Abreast -/

namespace Pairing

/-- Two trees that have grown from others, twins in what is paired of the new. -/
structure Abreast (r : Pairing) (t₀ t₀' t t' : ScopeTree) : Prop where
  twins : Twins r t t'
  new : r.New t₀ t₀' t t'
  wf : t.Wf
  wf' : t'.Wf

/-- Both openers have their scopes, which are paired. -/
def Openers (r : Pairing) (scopeOf scopeOf' : Opener → Option ScopeId) (o o' : Opener) : Prop :=
  ∃ s s', scopeOf o = some s ∧ scopeOf' o' = some s' ∧ r.scope s s'

/-- The same event in two runs: all openers that it is about have paired scopes. -/
inductive Event (r : Pairing) (arena : Arena) (scopeOf scopeOf' : Opener → Option ScopeId) :
    BlockScope.Event → BlockScope.Event → Prop where
  | method {i place j place' : Nat} (h : r.Openers scopeOf scopeOf' (.method i place) (.method j place')) :
    r.Event arena scopeOf scopeOf' (.method i place) (.method j place')
  | node {o o' : Opener} {role : Role} {id : NodeId} (h : r.Openers scopeOf scopeOf' o o')
    (hblock : (arena.blockCode? id).isSome → r.Openers scopeOf scopeOf' (.block id) (.block id)) :
    r.Event arena scopeOf scopeOf' (.node o role id) (.node o' role id)

variable {r r' : Pairing} {arena : Arena} {scopeOf scopeOf' : Opener → Option ScopeId} {o o' : Opener}
  {ev ev' : BlockScope.Event}

theorem Openers.mono (h : r.Openers scopeOf scopeOf' o o') (hle : r.Le r') : r'.Openers scopeOf scopeOf' o o' := by
  obtain ⟨s, s', hs, hs', hpair⟩ := h
  exact ⟨s, s', hs, hs', hle.scope s s' hpair⟩

theorem Event.mono (h : r.Event arena scopeOf scopeOf' ev ev') (hle : r.Le r') : r'.Event arena scopeOf scopeOf' ev ev' := by
  cases h with
  | method h => exact .method (h.mono hle)
  | node h hblock => exact .node (h.mono hle) fun hb => (hblock hb).mono hle

/-- The parts of a node lie in paired openers if the node does. -/
theorem Event.parts {role : Role} {id : NodeId} (h : r.Event arena scopeOf scopeOf' (.node o role id) (.node o' role id)) :
    r.Openers scopeOf scopeOf' (arena.openerOfParts o id) (arena.openerOfParts o' id) := by
  cases h with
  | node h hblock =>
    unfold Arena.openerOfParts
    by_cases hb : (arena.blockCode? id).isSome
    · rw [if_pos hb, if_pos hb]
      exact hblock hb
    · rw [if_neg hb, if_neg hb]
      exact h

end Pairing

/-! ## In step -/

/-- Runs over the first events, from below the first opener, and over the second ones, from below the second, go from twins
to twins. -/
def InStep (p q : Program) (scopeOf scopeOf' : Opener → Option ScopeId) (o o' : Opener) (evs evs' : List Event) : Prop :=
  ∀ (r : Pairing) (t₀ t₀' : ScopeTree) (a a' b b' : Analysis), r.Abreast t₀ t₀' a.scopes a'.scopes →
    r.Openers scopeOf scopeOf' o o' → Steps p scopeOf a evs b → Steps q scopeOf' a' evs' b' → b.scopes.Outermost →
    b'.scopes.Outermost → ∃ r', r.Le r' ∧ r'.Abreast t₀ t₀' b.scopes b'.scopes ∧
      List.Forall₂ (r'.Event p.arena scopeOf scopeOf') evs evs'

namespace InStep
variable {p q : Program} {scopeOf scopeOf' : Opener → Option ScopeId} {o o' : Opener} {evs evs' fs fs' : List Event}
  {r : Pairing} {t₀ t₀' : ScopeTree} {a a' b b' : Analysis} {role : Role} {id : NodeId}

theorem nil : InStep p q scopeOf scopeOf' o o' [] [] := by
  intro r t₀ t₀' a a' b b' hab _ h h' _ _
  cases h
  cases h'
  exact ⟨r, .refl r, hab, .nil⟩

theorem append (h : InStep p q scopeOf scopeOf' o o' evs evs') (h' : InStep p q scopeOf scopeOf' o o' fs fs') :
    InStep p q scopeOf scopeOf' o o' (evs ++ fs) (evs' ++ fs') := by
  intro r t₀ t₀' a a' b b' hab ho hs hs' hout hout'
  obtain ⟨c, hs₁, hs₂⟩ := hs.split
  obtain ⟨c', hs₁', hs₂'⟩ := hs'.split
  have hg := (hs₂.wf_grows (hs₁.wf_grows hab.wf).1).2
  have hg' := (hs₂'.wf_grows (hs₁'.wf_grows hab.wf').1).2
  obtain ⟨r₁, hle, hab₁, hevs⟩ := h r t₀ t₀' a a' c c' hab ho hs₁ hs₁' (hout.of_grows hg) (hout'.of_grows hg')
  obtain ⟨r₂, hle', hab₂, hfs⟩ := h' r₁ t₀ t₀' c c' b b' hab₁ (ho.mono hle) hs₂ hs₂' hout hout'
  exact ⟨r₂, hle.trans hle', hab₂, List.rel_append (hevs.imp fun _ _ hev => hev.mono hle') hfs⟩

theorem flatMap {α : Type} {f f' : α → List Event} (l : List α) (h : ∀ x ∈ l, InStep p q scopeOf scopeOf' o o' (f x) (f' x)) :
    InStep p q scopeOf scopeOf' o o' (l.flatMap f) (l.flatMap f') := by
  induction l with
  | nil => exact .nil
  | cons x l ih =>
    rw [List.flatMap_cons, List.flatMap_cons]
    exact (h x (by simp)).append (ih fun y hy => h y (List.mem_cons_of_mem _ hy))

/-- One node. -/
theorem node (harena : q.arena = p.arena) (hab : r.Abreast t₀ t₀' a.scopes a'.scopes) (ho : r.Openers scopeOf scopeOf' o o')
    (hs : Step p scopeOf a (.node o role id) b) (hs' : Step q scopeOf' a' (.node o' role id) b') (hout : a.scopes.Outermost)
    (hout' : a'.scopes.Outermost) : ∃ r', r.Le r' ∧ r'.Abreast t₀ t₀' b.scopes b'.scopes ∧
      r'.Event p.arena scopeOf scopeOf' (.node o role id) (.node o' role id) := by
  have hw := (hs.wf_grows hab.wf).1
  have hw' := (hs'.wf_grows hab.wf').1
  have ⟨U, U', hU, hU', hpair⟩ := ho
  cases hb : p.arena.blockCode? id with
  | some code =>
    -- The block opens a scope in both trees, in paired ones.
    obtain ⟨_, s, hU₁, hs, ⟨_, k, f, hcode⟩, hopens⟩ := hs.block_scopes hb
    obtain ⟨_, s', hU₁', hs', ⟨_, k', f', hcode'⟩, hopens'⟩ := hs'.block_scopes (by rw [harena, hb])
    cases hU.symm.trans hU₁
    cases hU'.symm.trans hU₁'
    obtain ⟨r', hle, hnew, htwins, hnew'⟩ := hab.twins.opens hab.new hab.wf hab.wf' (fun _ => hpair) hcode hcode'
      (fun _ => ⟨k, f, rfl⟩) (fun _ => ⟨k', f', rfl⟩) hopens hopens'
    exact ⟨r', hle, ⟨htwins, hnew', hw, hw'⟩, .node (ho.mono hle) fun _ => ⟨s, s', hs, hs', hnew⟩⟩
  | none =>
    have hno : (p.arena.blockCode? id).isSome → r.Openers scopeOf scopeOf' (.block id) (.block id) := by simp [hb]
    by_cases hi : ∃ name, p.arena.expr? id = some (.ident name)
    · -- The name is found at paired places, or at none in code.
      obtain ⟨name, he⟩ := hi
      obtain ⟨_, found, hU₁, hf, heq⟩ := hs.use_scopes he
      obtain ⟨_, found', hU₁', hf', heq'⟩ := hs'.use_scopes (by rw [harena, he])
      cases hU.symm.trans hU₁
      cases hU'.symm.trans hU₁'
      have hfound := hab.twins.find (n := name) hab.wf.nested hab.wf'.nested hout hout' hpair false
      rw [hf, hf'] at hfound
      obtain ⟨htwins, hspares, hspares'⟩ := hab.twins.markFound hfound (hab.wf.direct_of_find hf) (role = .target)
      rw [heq] at hw ⊢
      rw [heq'] at hw' ⊢
      exact ⟨r, .refl r, ⟨htwins, hab.new.spares hspares hspares', hw, hw'⟩, .node ho hno⟩
    · have hi' : ∀ name, p.arena.expr? id ≠ some (.ident name) := fun name he => hi ⟨name, he⟩
      rw [hs.other_scopes hi' hb, hs'.other_scopes (by rw [harena]; exact hi') (by rw [harena, hb])]
      exact ⟨r, .refl r, hab, .node ho hno⟩

/-- One node, then its parts. -/
theorem cons (harena : q.arena = p.arena)
    (h : InStep p q scopeOf scopeOf' (p.arena.openerOfParts o id) (p.arena.openerOfParts o' id) evs evs') :
    InStep p q scopeOf scopeOf' o o' (.node o role id :: evs) (.node o' role id :: evs') := by
  intro r t₀ t₀' a a' b b' hab ho hs hs' hout hout'
  cases hs with
  | @cons _ c _ _ _ hs hrest =>
    cases hs' with
    | @cons _ c' _ _ _ hs' hrest' =>
      obtain ⟨hw, hg⟩ := hs.wf_grows hab.wf
      obtain ⟨hw', hg'⟩ := hs'.wf_grows hab.wf'
      obtain ⟨r₁, hle, hab₁, hev⟩ := node harena hab ho hs hs' (hout.of_grows (hg.trans (hrest.wf_grows hw).2))
        (hout'.of_grows (hg'.trans (hrest'.wf_grows hw').2))
      obtain ⟨r₂, hle', hab₂, hevs⟩ := h r₁ t₀ t₀' c c' b b' hab₁ hev.parts hrest hrest' hout hout'
      exact ⟨r₂, hle.trans hle', hab₂, .cons (hev.mono hle') hevs⟩

/-- A node with its parts. -/
theorem events (harena : q.arena = p.arena) (n : Nat) (o o' : Opener) (role : Role) (id : NodeId) :
    InStep p q scopeOf scopeOf' o o' (p.arena.events n o role id) (p.arena.events n o' role id) := by
  induction n generalizing o o' role id with
  | zero => exact .nil
  | succ n ih => exact .cons harena (.flatMap _ fun part _ => ih _ _ part.1 part.2)

end InStep

/-! ## Methods -/

section
variable {p q : Program} {scopeOf scopeOf' : Opener → Option ScopeId} {a a' b b' : Analysis} {i j place place' : Nat} {m : Method}

/-- A method that is resolved in two runs. -/
theorem abreast_of_method (harena : q.arena = p.arena) (hm : p.method? i place = some m) (hm' : q.method? j place' = some m)
    (hw : a.scopes.Wf) (hw' : a'.scopes.Wf) (hs : Steps p scopeOf a (p.methodEvents i place m) b)
    (hs' : Steps q scopeOf' a' (q.methodEvents j place' m) b') (hout : b.scopes.Outermost) (hout' : b'.scopes.Outermost) :
    ∃ r : Pairing, r.Abreast a.scopes a'.scopes b.scopes b'.scopes ∧
      List.Forall₂ (r.Event p.arena scopeOf scopeOf') (p.methodEvents i place m) (q.methodEvents j place' m) := by
  cases hs with
  | @cons _ c _ _ _ hs hrest =>
    cases hs' with
    | @cons _ c' _ _ _ hs' hrest' =>
      have hwc := (hs.wf_grows hw).1
      have hwc' := (hs'.wf_grows hw').1
      obtain ⟨side, so, s, hscope, hside, hopens⟩ := hs.method_scopes hm
      obtain ⟨side', so', s', hscope', hside', hopens'⟩ := hs'.method_scopes hm'
      -- The sides are whatever they are: what a method lies in is left open.
      obtain ⟨r, -, hpair, htwins, hnew⟩ := (Twins.empty a.scopes a'.scopes).opens (Pairing.new_empty _ _) hw hw' (by simp)
        hside hside' (by simp) (by simp) hopens hopens'
      have hopeners : r.Openers scopeOf scopeOf' (.method i place) (.method j place') := ⟨s, s', hscope, hscope', hpair⟩
      rw [harena] at hrest'
      obtain ⟨r', hle, hab, hevs⟩ := InStep.flatMap m.body (fun x _ => .events harena (x.index + 1) _ _ .plain x) r _ _ c c' b b'
        ⟨htwins, hnew, hwc, hwc'⟩ hopeners hrest hrest' hout hout'
      rw [Program.methodEvents, Program.methodEvents, harena]
      exact ⟨r', hab, .cons (.method (hopeners.mono hle)) hevs⟩

/-- Methods leave all that was there before them as it was. -/
theorem Steps.intact {jobs : List Job} (hjobs : ∀ job ∈ jobs, p.method? job.cls job.place = some job.method) (hw : a.scopes.Wf)
    (hs : Steps p scopeOf a (jobs.flatMap (Job.events p)) b) (hout : b.scopes.Outermost) : a.scopes.Intact b.scopes := by
  induction jobs generalizing a with
  | nil =>
    cases hs
    exact .refl _
  | cons job jobs ih =>
    rw [List.flatMap_cons] at hs
    obtain ⟨c, hs, hrest⟩ := hs.split
    have hwc := (hs.wf_grows hw).1
    have hout' := hout.of_grows (hrest.wf_grows hwc).2
    have hm := hjobs job (by simp)
    obtain ⟨r, hab, -⟩ := abreast_of_method rfl hm hm hw hw hs hs hout' hout'
    exact hab.new.left.intact.trans (ih (fun x hx => hjobs x (List.mem_cons_of_mem _ hx)) hwc hrest)

end
end BlockScope
