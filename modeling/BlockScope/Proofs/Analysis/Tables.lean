import BlockScope.Proofs.Analysis.Linking
import BlockScope.Proofs.Analysis.Methods
/-!
# What a run of events leaves

The tables and scopes after a run of events. A node is entered in a table at its own event and at no other, and
what an event found or opened is still there in the end: `Steps.binding` for names, `Steps.opened` for blocks
and `Steps.started` for methods. No other scope of a method or block is there (`Steps.enters`).
-/
namespace BlockScope

/-- The same class, but for the scopes of its methods. -/
def ClassInfo.SameClass (c c' : ClassInfo) : Prop :=
  c' = { c with instanceMethods := c'.instanceMethods, classMethods := c'.classMethods }

namespace ClassInfo.SameClass
variable {c c' : ClassInfo}

theorem side (h : c.SameClass c') (side : Bool) : c'.side side = c.side side := by
  rw [h]
  rfl

theorem slots (h : c.SameClass c') (side : Bool) : c'.slots side = c.slots side := by
  rw [h]
  rfl

theorem member (h : c.SameClass c') : c'.member = c.member := by rw [h]

end ClassInfo.SameClass

namespace Step
variable {p : Program} {scopeOf : Opener → Option ScopeId} {a b : Analysis} {ev : Event} {id : NodeId}

theorem bindings_eq (h : Step p scopeOf a ev b)
    (hid : ∀ o role name, ev = .node o role id → p.arena.expr? id ≠ some (.ident name)) :
    b.bindings.get? id = a.bindings.get? id := by
  cases h with
  | method | block | other => rfl
  | @use o role id' name _ _ he =>
    rw [Table.get?_insert, if_neg]
    rintro rfl
    exact hid o role name rfl he

theorem blockScopes_eq (h : Step p scopeOf a ev b)
    (hid : ∀ o role, ev = .node o role id → p.arena.blockCode? id = none) :
    b.blockScopes.get? id = a.blockScopes.get? id := by
  cases h with
  | method | use | other => rfl
  | @block o role id' code _ _ _ hb =>
    rw [Table.get?_insert, if_neg]
    rintro rfl
    rw [hid o role rfl] at hb
    cases hb

theorem classes_eq (h : Step p scopeOf a ev b) {i : Nat} {info : ClassInfo} (hi : a.classes[i]? = some info) :
    ∃ info', b.classes[i]? = some info' ∧ info.SameClass info' := by
  cases h with
  | block | use | other => exact ⟨info, hi, rfl⟩
  | @method cls place m info' scope so t =>
    refine ⟨if cls = i then info.addMethod m.classSide scope else info, by simp [Analysis.getElem?_modifyClass, hi], ?_⟩
    split
    · unfold ClassInfo.addMethod ClassInfo.SameClass
      cases m.classSide <;> rfl
    · rfl

/-- A scope of a method or block is there before, or the event opens it. -/
theorem enters {s : ScopeId} (h : Step p scopeOf a ev b) (hw : a.scopes.Wf) (hs : b.scopes.IsCode s) :
    a.scopes.IsCode s ∨ Site.enter s ∈ ev.sites p.arena scopeOf := by
  -- Opening adds one scope, so any other was there before and was code then.
  have old : ∀ {outer k code scope t so}, a.scopes.Opens outer k code scope t → a.scopes.scope? outer = some so →
      (k = .inlinedBlock → ∃ k' f, so.body = .code k' f) → t.IsCode s → a.scopes.IsCode s ∨ s = scope := by
    intro outer k code scope t so hopens hso hk hs
    obtain ⟨-, hg, -, -, -, hsize⟩ := hopens.spec hw hso hk
    by_cases hlt : s.index < a.scopes.scopes.size
    · obtain ⟨s₀, hs₀⟩ := ScopeTree.scope?_of_lt hlt
      exact .inl (hs.of_grows hg hs₀)
    · right
      obtain ⟨o', k', f', hs⟩ := hs
      have := ScopeTree.scope?_lt hs
      rw [hopens.scope]
      obtain ⟨n⟩ := s
      simp only at hlt this
      simp only [ScopeId.mk.injEq]
      omega
  cases h with
  | method hm hinfo hscope hside hopens =>
    rcases old hopens hside nofun hs with h | rfl
    · exact .inl h
    · exact .inr (by simp [Event.sites, hscope])
  | block hb hscope ho hcode hopens =>
    obtain ⟨o', k', f', hout⟩ := hcode
    rcases old hopens hout (fun _ => ⟨k', f', rfl⟩) hs with h | rfl
    · exact .inl h
    · exact .inr (by simp [Event.sites, Arena.blockCode?_eq_some.1 hb, hscope])
  | use he ho hcode hf hwrite =>
    obtain ⟨o', k', f', hs⟩ := hs
    rw [ScopeTree.scope?_markFound] at hs
    exact .inl ⟨o', k', f', hs⟩
  | other => exact .inl hs

end Step

namespace Steps
variable {p : Program} {scopeOf : Opener → Option ScopeId} {a b : Analysis} {ev : Event} {evs pre post : List Event} {id : NodeId}

/-- A run taken apart at one of its events. Scopes stay as they should be all along. -/
theorem wf_at_event (h : Steps p scopeOf a (pre ++ ev :: post) b) (hw : a.scopes.Wf) :
    ∃ c d, Steps p scopeOf a pre c ∧ Step p scopeOf c ev d ∧ Steps p scopeOf d post b ∧
      c.scopes.Wf ∧ b.scopes.Wf ∧ c.scopes.Grows d.scopes ∧ d.scopes.Grows b.scopes := by
  obtain ⟨c, hpre, hrest⟩ := h.split
  cases hrest with
  | cons hstep hpost =>
    obtain ⟨hwc, -⟩ := hpre.wf_grows hw
    obtain ⟨hwd, hgd⟩ := hstep.wf_grows hwc
    obtain ⟨hwb, hgb⟩ := hpost.wf_grows hwd
    exact ⟨c, _, hpre, hstep, hpost, hwc, hwb, hgd, hgb⟩

theorem bindings_eq (h : Steps p scopeOf a evs b)
    (hid : ∀ o role name, .node o role id ∈ evs → p.arena.expr? id ≠ some (.ident name)) :
    b.bindings.get? id = a.bindings.get? id := by
  induction h with
  | nil => rfl
  | cons h _ ih =>
    rw [ih fun o role name hmem => hid o role name (List.mem_cons_of_mem _ hmem)]
    exact h.bindings_eq fun o role name he => hid o role name (by simp [he])

theorem blockScopes_eq (h : Steps p scopeOf a evs b)
    (hid : ∀ o role, .node o role id ∈ evs → p.arena.blockCode? id = none) :
    b.blockScopes.get? id = a.blockScopes.get? id := by
  induction h with
  | nil => rfl
  | cons h _ ih =>
    rw [ih fun o role hmem => hid o role (List.mem_cons_of_mem _ hmem)]
    exact h.blockScopes_eq fun o role he => hid o role (by simp [he])

theorem classes_eq (h : Steps p scopeOf a evs b) {i : Nat} {info : ClassInfo} (hi : a.classes[i]? = some info) :
    ∃ info', b.classes[i]? = some info' ∧ info.SameClass info' := by
  induction h generalizing info with
  | nil => exact ⟨info, hi, rfl⟩
  | cons h _ ih =>
    obtain ⟨info₁, h₁, e₁⟩ := h.classes_eq hi
    obtain ⟨info₂, h₂, e₂⟩ := ih h₁
    exact ⟨info₂, h₂, by rw [e₂, e₁]; rfl⟩

theorem root_eq (h : Steps p scopeOf a evs b) : b.root = a.root := by
  induction h with
  | nil => rfl
  | cons h _ ih => rw [ih, h.root]

theorem returns_eq (h : Steps p scopeOf a evs b) : b.returns = a.returns := by
  induction h with
  | nil => rfl
  | cons h _ ih => rw [ih, h.returns]

/-- A scope of a method or block is there before, or an event opens it. -/
theorem enters {s : ScopeId} (h : Steps p scopeOf a evs b) (hw : a.scopes.Wf) (hs : b.scopes.IsCode s) :
    a.scopes.IsCode s ∨ ∃ ev ∈ evs, Site.enter s ∈ ev.sites p.arena scopeOf := by
  induction h with
  | nil => exact .inl hs
  | cons h _ ih =>
    rcases ih (h.wf_grows hw).1 hs with hs | ⟨ev, hev, hs⟩
    · rcases h.enters hw hs with hs | hs
      · exact .inl hs
      · exact .inr ⟨_, by simp, hs⟩
    · exact .inr ⟨ev, List.mem_cons_of_mem _ hev, hs⟩

/-- No node has a second event. -/
theorem not_mem_post {o o' : Opener} {role role' : Role} (hn : ((pre ++ .node o role id :: post).filterMap Event.node?).Nodup) :
    .node o' role' id ∉ post := by
  rw [List.filterMap_append, List.nodup_append] at hn
  intro hmem
  have hn' := hn.2.1
  simp only [List.filterMap_cons, Event.node?, List.nodup_cons] at hn'
  exact hn'.1 (List.mem_filterMap.2 ⟨_, hmem, rfl⟩)

/-- A name is found from its scope, and bound to what is found. -/
theorem binding {o : Opener} {role : Role} {name : String} (h : Steps p scopeOf a evs b) (hw : a.scopes.Wf)
    (hn : (evs.filterMap Event.node?).Nodup) (hname : Spelled name) (hev : .node o role id ∈ evs)
    (he : p.arena.expr? id = some (.ident name)) :
    ∃ scope found, scopeOf o = some scope ∧ b.scopes.IsCode scope ∧ b.scopes.find scope name false = some found ∧
      b.bindings.get? id = some found.var := by
  obtain ⟨pre, post, rfl⟩ := List.append_of_mem hev
  obtain ⟨c, d, hpre, hstep, hpost, hwc, hwb, hgd, hgb⟩ := h.wf_at_event hw
  have hlast : b.bindings.get? id = d.bindings.get? id :=
    hpost.bindings_eq fun o' role' name' hmem => absurd hmem (not_mem_post hn)
  cases hstep with
  | @use _ _ _ name' scope found he' ho hcode hf hwrite =>
    rw [he] at he'
    cases he'
    obtain ⟨o', k', f', hs⟩ := hcode
    refine ⟨scope, found, ho, ScopeTree.IsCode.grow ⟨o', k', f', hs⟩ (hgd.trans hgb), ?_, ?_⟩
    · rw [(hgd.trans hgb).find_eq hwc.nested hwb.nested hwc.listed hname hs, hf]
    · rw [hlast, Table.get?_insert, if_pos rfl]
  | block hb =>
    rw [Arena.blockCode?_eq_some.1 hb] at he
    cases he
  | other hi => exact absurd he (hi name)

/-- A block has its scope, inside that of the opener around it. -/
theorem opened {o : Opener} {role : Role} {code : Code} (h : Steps p scopeOf a evs b) (hw : a.scopes.Wf)
    (hn : (evs.filterMap Event.node?).Nodup) (hev : .node o role id ∈ evs) (hb : p.arena.blockCode? id = some code) :
    ∃ scope outer, scopeOf (.block id) = some scope ∧ scopeOf o = some outer ∧ b.blockScopes.get? id = some scope ∧
      b.scopes.IsCode outer ∧ b.scopes.Entered scope outer role.blockKind code.params code.temps := by
  obtain ⟨pre, post, rfl⟩ := List.append_of_mem hev
  obtain ⟨c, d, hpre, hstep, hpost, hwc, hwb, hgd, hgb⟩ := h.wf_at_event hw
  have hlast : b.blockScopes.get? id = d.blockScopes.get? id :=
    hpost.blockScopes_eq fun o' role' hmem => absurd hmem (not_mem_post hn)
  cases hstep with
  | block hb' hscope ho hcode hopens =>
    rw [hb] at hb'
    cases hb'
    have ⟨o', k', f', hs⟩ := hcode
    obtain ⟨-, -, -, hentered, -⟩ := hopens.spec hwc hs fun _ => ⟨k', f', rfl⟩
    exact ⟨_, _, hscope, ho, by rw [hlast, Table.get?_insert, if_pos rfl], hcode.grow (hgd.trans hgb), hentered.grow hgb⟩
  | use he =>
    rw [Arena.blockCode?_eq_some.1 hb] at he
    cases he
  | other _ hb' =>
    rw [hb] at hb'
    cases hb'

/-- A method has its scope, inside that of its side. -/
theorem started {cls place : Nat} (h : Steps p scopeOf a evs b) (hw : a.scopes.Wf) (hev : .method cls place ∈ evs) :
    ∃ m info scope, p.method? cls place = some m ∧ b.classes[cls]? = some info ∧ scopeOf (.method cls place) = some scope ∧
      b.scopes.Entered scope (info.side m.classSide) .method m.params m.temps := by
  obtain ⟨pre, post, rfl⟩ := List.append_of_mem hev
  obtain ⟨c, d, hpre, hstep, hpost, hwc, hwb, hgd, hgb⟩ := h.wf_at_event hw
  obtain ⟨info, hinfo⟩ : ∃ info, c.classes[cls]? = some info := by
    cases hstep with
    | method hm hinfo => exact ⟨_, hinfo⟩
  obtain ⟨info₁, h₁, e₁⟩ := hstep.classes_eq hinfo
  obtain ⟨info₂, h₂, e₂⟩ := hpost.classes_eq h₁
  cases hstep with
  | @method _ _ m _ scope so t hm hinfo' hscope hside hopens =>
    rw [hinfo] at hinfo'
    cases hinfo'
    obtain ⟨-, -, -, hentered, -⟩ := hopens.spec hwc hside nofun
    refine ⟨m, info₂, scope, hm, h₂, hscope, ?_⟩
    rw [e₂.side, e₁.side]
    exact hentered.grow hgb

end Steps
end BlockScope
