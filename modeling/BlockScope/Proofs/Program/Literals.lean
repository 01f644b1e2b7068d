import BlockScope.Proofs.Program.Forest
/-!
# The literal around a node

A program whose method bodies fill its arena is a `Forest`. Scopes are opened by methods and by blocks, its
`Opener`s, and in a forest every node lies directly in the body of at most one of them
(`Forest.encloses_unique`). A name that is assigned to is nothing but that (`Forest.target_of_child`), and a
walk over all methods visits no node twice (`Forest.nodup_reached`).
-/
namespace BlockScope

/-- What opens a scope: a method, by the place of its class and its own place there, or a block. -/
inductive Opener where
  | method (cls place : Nat)
  | block (id : NodeId)
  deriving DecidableEq, Repr

/-- What an opener declares and what it runs. -/
structure Code where
  params : List Declaration
  temps : List Declaration
  body : List NodeId

/-- Every name an opener declares, parameters first. -/
def Code.declared (c : Code) : List Declaration := c.params ++ c.temps

def Method.code (m : Method) : Code := ⟨m.params, m.temps, m.body⟩

/-- The method at a place of a class. -/
def Program.method? (p : Program) (cls place : Nat) : Option Method := p.classes[cls]?.bind (·.methods[place]?)

def Arena.blockCode? (a : Arena) (id : NodeId) : Option Code :=
  match a.expr? id with
  | some (.block params temps body) => some ⟨params, temps, body⟩
  | _ => none

def Program.code? (p : Program) : Opener → Option Code
  | .method cls place => (p.method? cls place).map Method.code
  | .block id => p.arena.blockCode? id

/-- The bodies of these methods fill the places one after the other. -/
def Arena.Bodies (a : Arena) : Nat → List Method → Nat → Prop
  | lo, [], hi => lo = hi
  | lo, m :: ms, hi => ∃ mid, a.Fills (.row .statement m.body) lo mid ∧ a.Bodies mid ms hi

/-- Every method of a program, class by class. -/
def Program.methods (p : Program) : List Method := p.classes.flatMap (·.methods)

/-- The bodies of all methods, in some order, fill the arena. -/
def Program.Forest (p : Program) : Prop :=
  ∃ order : List Method, order.Perm p.methods ∧ p.arena.Bodies 0 order p.arena.size

/-- A node of a body that lies in no further block of that body. -/
inductive Arena.Inside (a : Arena) (body : List NodeId) : NodeId → Prop where
  | statement {id : NodeId} (h : id ∈ body) : a.Inside body id
  | part {id x : NodeId} (h : a.Inside body id) (hid : a.blockCode? id = none) (hx : x ∈ a.children id) :
    a.Inside body x

/-- The node lies in the body of the opener and in no block of that body. -/
def Program.Encloses (p : Program) (o : Opener) (id : NodeId) : Prop :=
  ∃ code, p.code? o = some code ∧ p.arena.Inside code.body id

/-- The openers around a node, the innermost first. -/
inductive Program.Around (p : Program) : NodeId → List Opener → Prop where
  | method {id : NodeId} {cls place : Nat} (h : p.Encloses (.method cls place) id) : p.Around id [.method cls place]
  | block {id b : NodeId} {outer : List Opener} (h : p.Encloses (.block b) id) (rest : p.Around b outer) :
    p.Around id (.block b :: outer)

/-- The node is a name that is assigned to. -/
def Arena.IsTarget (a : Arena) (id : NodeId) : Prop := ∃ d value, a.expr? d = some (.assign id value)

namespace Arena
variable {a : Arena} {lo mid hi : Nat} {ms : List Method} {m : Method} {id x : NodeId} {body : List NodeId}

namespace Bodies

theorem le (h : a.Bodies lo ms hi) : lo ≤ hi := by
  induction ms generalizing lo with
  | nil => exact Nat.le_of_eq h
  | cons m ms ih =>
    obtain ⟨mid, first, rest⟩ := h
    exact Nat.le_trans first.le (ih rest)

theorem append {ms' : List Method} (h : a.Bodies lo ms mid) (h' : a.Bodies mid ms' hi) : a.Bodies lo (ms ++ ms') hi := by
  induction ms generalizing lo with
  | nil => exact (show lo = mid from h) ▸ h'
  | cons m ms ih =>
    obtain ⟨mid', first, rest⟩ := h
    exact ⟨mid', first, ih rest⟩

theorem mono {b : Arena} (h : a.Bodies lo ms hi) (hab : a.Before b) : b.Bodies lo ms hi := by
  induction ms generalizing lo with
  | nil => exact h
  | cons m ms ih =>
    obtain ⟨mid, first, rest⟩ := h
    exact ⟨mid, first.mono hab, ih rest⟩

theorem fills (h : a.Bodies lo ms hi) (hm : m ∈ ms) :
    ∃ lo' hi', lo ≤ lo' ∧ hi' ≤ hi ∧ a.Fills (.row .statement m.body) lo' hi' := by
  induction ms generalizing lo with
  | nil => cases hm
  | cons m' ms ih =>
    obtain ⟨mid, first, rest⟩ := h
    rcases List.mem_cons.1 hm with rfl | hm
    · exact ⟨lo, mid, Nat.le_refl _, rest.le, first⟩
    · obtain ⟨lo', hi', hlo, hhi, h⟩ := ih rest hm
      exact ⟨lo', hi', Nat.le_trans first.le hlo, hhi, h⟩

theorem at_node {d : NodeId} (h : a.Bodies lo ms hi) (hlo : lo ≤ d.index) (hhi : d.index < hi) :
    ∃ st lo', a.Fills (.one st d) lo' (d.index + 1) := by
  induction ms generalizing lo with
  | nil =>
    have : lo = hi := h
    omega
  | cons m ms ih =>
    obtain ⟨mid, first, rest⟩ := h
    by_cases hm : d.index < mid
    · obtain ⟨st, lo', -, h⟩ := first.at_node hlo hm
      exact ⟨st, lo', h⟩
    · exact ih rest (by omega)

theorem closed (h : a.Bodies lo ms hi) : a.Closed lo hi none := by
  induction ms generalizing lo with
  | nil => exact (show lo = hi from h) ▸ Closed.empty
  | cons m ms ih =>
    obtain ⟨mid, first, rest⟩ := h
    exact first.closed.append (ih rest) first.le (by simp)

theorem spread (h : a.Bodies lo ms hi) (ho : a.Ordered) :
    Spread lo hi (ms.flatMap fun m => m.body.flatMap a.reached) := by
  induction ms generalizing lo with
  | nil => exact .nil
  | cons m ms ih =>
    obtain ⟨mid, first, rest⟩ := h
    rw [List.flatMap_cons]
    exact (first.spread ho).append (ih rest) first.le rest.le

theorem labels {L : Type} {down : NodeId → L → NodeId → L} {keep : L → L} (h : a.Bodies lo ms hi)
    (hk : a.Keeps down keep) : a.Labels down keep none lo hi (ms.flatMap (·.body)) := by
  induction ms generalizing lo with
  | nil => exact (show lo = hi from h) ▸ Labels.nil
  | cons m ms ih =>
    obtain ⟨mid, first, rest⟩ := h
    rw [List.flatMap_cons]
    exact (first.labels hk).append (ih rest) first.le rest.le fun b hb => hb

end Bodies

theorem Inside.range (h : a.Inside body id) (hf : a.Fills (.row .statement body) lo hi) : lo ≤ id.index ∧ id.index < hi := by
  induction h with
  | statement h => exact hf.row_mem h
  | part _ _ hx ih =>
    rcases hf.closed _ _ ih.1 ih.2 hx with h | h
    · omega
    · cases h

/-- No node lies directly in both bodies. -/
def Apart (a : Arena) (m m' : Method) : Prop := ∀ id, a.Inside m.body id → ¬ a.Inside m'.body id

theorem Apart.symm {m m' : Method} (h : a.Apart m m') : a.Apart m' m := fun id hm' hm => h id hm hm'

/-- What each body has in its own places, no two bodies have in common. -/
theorem Bodies.pairwise {R : Method → NodeId → Prop} (h : a.Bodies lo ms hi)
    (hR : ∀ m x lo hi, a.Fills (.row .statement m.body) lo hi → R m x → lo ≤ x.index ∧ x.index < hi) :
    ms.Pairwise fun m m' => ∀ x, R m x → ¬ R m' x := by
  induction ms generalizing lo with
  | nil => exact .nil
  | cons m ms ih =>
    obtain ⟨mid, first, rest⟩ := h
    refine List.pairwise_cons.2 ⟨?_, ih rest⟩
    intro m' hm' x hx hx'
    obtain ⟨lo', hi', hlo, -, hf⟩ := rest.fills hm'
    have := hR m x lo mid first hx
    have := hR m' x lo' hi' hf hx'
    omega

theorem Bodies.apart (h : a.Bodies lo ms hi) : ms.Pairwise a.Apart :=
  h.pairwise fun _ _ _ _ hf hx => hx.range hf

theorem blockCode?_eq_some {code : Code} :
    a.blockCode? id = some code ↔ a.expr? id = some (.block code.params code.temps code.body) := by
  unfold blockCode?
  split
  · next params temps body h =>
    rw [h]
    constructor
    · rintro ⟨⟩
      rfl
    · intro h'
      cases h'
      rfl
  · next h =>
    constructor
    · intro h'
      cases h'
    · intro h'
      exact absurd h' (h _ _ _)

theorem lt_size_of_expr {e : Expr} (h : a.expr? id = some e) : id.index < a.size := by
  obtain ⟨node, hn, -⟩ := Option.map_eq_some_iff.1 h
  exact (Array.getElem?_eq_some_iff.1 hn).1

theorem expr_of_mem_children (h : x ∈ a.children id) : ∃ e, a.expr? id = some e ∧ x ∈ e.children := by
  unfold children at h
  cases he : a.expr? id with
  | none => simp [he] at h
  | some e => exact ⟨e, rfl, by simpa [he] using h⟩

/-- The innermost block around a part: its node if that is a block, else the block around the node. -/
def blockAround (a : Arena) (d : NodeId) (outer : Option NodeId) (_ : NodeId) : Option NodeId :=
  if (a.blockCode? d).isSome then some d else outer

/-- Whether a part is what its node assigns to. -/
def assignedBy (a : Arena) (d : NodeId) (_ : Bool) (x : NodeId) : Bool :=
  match a.expr? d with
  | some (.assign target _) => target = x
  | _ => false

theorem keeps_blockAround (a : Arena) : a.Keeps a.blockAround fun o => o where
  idem _ := rfl
  send d receiver selector args h o x := by simp [blockAround, blockCode?, h]
  cascade d receiver messages h o x := by simp [blockAround, blockCode?, h]

theorem keeps_assignedBy (a : Arena) : a.Keeps a.assignedBy fun _ => false where
  idem _ := rfl
  send d receiver selector args h o x := by simp [assignedBy, h]
  cascade d receiver messages h o x := by simp [assignedBy, h]

end Arena

namespace Program.Forest
open Arena
variable {p : Program} {L : Type} {down : NodeId → L → NodeId → L} {keep : L → L} {d x id : NodeId}
  {i i' j j' : Nat} {m m' : Method} {o o' : Opener}

theorem ordered (hf : p.Forest) : p.arena.Ordered := by
  obtain ⟨order, -, hb⟩ := hf
  intro d x hx
  obtain ⟨e, he, -⟩ := expr_of_mem_children hx
  rcases hb.closed d x (Nat.zero_le _) (lt_size_of_expr he) hx with h | h
  · exact h.2
  · cases h

theorem nodup_reached (hf : p.Forest) : (p.methods.flatMap fun m => m.body.flatMap p.arena.reached).Nodup := by
  have ho := hf.ordered
  obtain ⟨order, hperm, hb⟩ := hf
  exact (hperm.flatMap_right _).nodup_iff.1 (hb.spread ho).1

/-- A label handed down from statements of methods is well defined everywhere. -/
theorem label (hf : p.Forest) (hk : p.arena.Keeps down keep) (start : L) :
    ∃ lab : NodeId → L, (∀ m ∈ p.methods, ∀ x ∈ m.body, lab x = start) ∧
      ∀ d x, x ∈ p.arena.children d → lab x = down d (lab d) x := by
  obtain ⟨order, hperm, hb⟩ := hf
  obtain ⟨lab, -, htop, hl⟩ := (hb.labels hk).extend (fun _ => start) (fun _ => start) (by simp)
  refine ⟨lab, ?_, ?_⟩
  · intro m hm x hx
    exact htop x (List.mem_flatMap.2 ⟨m, hperm.mem_iff.2 hm, hx⟩)
  · intro d x hx
    obtain ⟨e, he, -⟩ := expr_of_mem_children hx
    exact hl d x (Nat.zero_le _) (lt_size_of_expr he) hx

/-! ## The opener around a node -/

theorem mem_methods (h : p.method? i j = some m) : m ∈ p.methods := by
  obtain ⟨c, hc, hm⟩ := Option.bind_eq_some_iff.1 h
  exact List.mem_flatMap.2 ⟨c, List.mem_of_getElem? hc, List.mem_of_getElem? hm⟩

theorem fills (hf : p.Forest) (hm : m ∈ p.methods) :
    ∃ lo hi, hi ≤ p.arena.size ∧ p.arena.Fills (.row .statement m.body) lo hi := by
  obtain ⟨order, hperm, hb⟩ := hf
  obtain ⟨lo, hi, -, hhi, h⟩ := hb.fills (hperm.mem_iff.2 hm)
  exact ⟨lo, hi, hhi, h⟩

theorem apart (hf : p.Forest) : p.methods.Pairwise p.arena.Apart := by
  obtain ⟨order, hperm, hb⟩ := hf
  exact (hperm.pairwise_iff Apart.symm).1 hb.apart

theorem rel_of_getElem? {α : Type} {R : α → α → Prop} {l : List α} {x y : α} (h : l.Pairwise R)
    (hs : ∀ {x y}, R x y → R y x) (hx : l[i]? = some x) (hy : l[j]? = some y) (hne : i ≠ j) : R x y := by
  obtain ⟨hi, rfl⟩ := List.getElem?_eq_some_iff.1 hx
  obtain ⟨hj, rfl⟩ := List.getElem?_eq_some_iff.1 hy
  rcases Nat.lt_or_gt_of_ne hne with hlt | hlt
  · exact List.pairwise_iff_getElem.1 h i j hi hj hlt
  · exact hs (List.pairwise_iff_getElem.1 h j i hj hi hlt)

/-- Where no two methods have a node in common, a node has one method at most. -/
theorem method_unique_of_pairwise {R : Method → NodeId → Prop} (h : p.methods.Pairwise fun m m' => ∀ x, R m x → ¬ R m' x)
    (hm : p.method? i j = some m) (hm' : p.method? i' j' = some m') (hx : R m x) (hx' : R m' x) : i = i' ∧ j = j' := by
  have hsymm : ∀ {m m' : Method}, (∀ x, R m x → ¬ R m' x) → ∀ x, R m' x → ¬ R m x := fun h x hm' hm => h x hm hm'
  obtain ⟨hin, hbetween⟩ := List.pairwise_flatMap.1 h
  obtain ⟨c, hc, hcm⟩ := Option.bind_eq_some_iff.1 hm
  obtain ⟨c', hc', hcm'⟩ := Option.bind_eq_some_iff.1 hm'
  by_cases hi : i = i'
  · subst hi
    obtain rfl : c = c' := by rw [hc] at hc'; exact Option.some.inj hc'
    refine ⟨rfl, ?_⟩
    by_contra hj
    exact rel_of_getElem? (hin c (List.mem_of_getElem? hc)) hsymm hcm hcm' hj x hx hx'
  · have h := rel_of_getElem? hbetween (fun h m hm m' hm' => hsymm (h m' hm' m hm)) hc hc' hi
    exact absurd hx' (h m (List.mem_of_getElem? hcm) m' (List.mem_of_getElem? hcm') x hx)

theorem method_unique (hf : p.Forest) (hm : p.method? i j = some m) (hm' : p.method? i' j' = some m')
    (hx : p.arena.Inside m.body x) (hx' : p.arena.Inside m'.body x) : i = i' ∧ j = j' :=
  method_unique_of_pairwise hf.apart hm hm' hx hx'

/-- A node has one innermost block, or else lies directly in methods only. -/
theorem block_label (hf : p.Forest) : ∃ lab : NodeId → Option NodeId,
    (∀ m ∈ p.methods, ∀ x, p.arena.Inside m.body x → lab x = none) ∧
    ∀ b code x, p.arena.blockCode? b = some code → p.arena.Inside code.body x → lab x = some b := by
  obtain ⟨lab, htop, hl⟩ := hf.label (keeps_blockAround p.arena) none
  -- Inside one body, a part that is no block hands its own label on.
  have hstep : ∀ d x, p.arena.blockCode? d = none → x ∈ p.arena.children d → lab x = lab d := by
    intro d x hd hx
    rw [hl d x hx, blockAround, hd]
    rfl
  refine ⟨lab, ?_, ?_⟩
  · intro m hm x hx
    induction hx with
    | statement h => exact htop m hm _ h
    | part _ hid hx ih => rw [hstep _ _ hid hx, ih]
  · intro b code x hb hx
    induction hx with
    | @statement y h =>
      have hy : y ∈ p.arena.children b := by
        rw [children_of_expr (blockCode?_eq_some.1 hb)]
        exact h
      rw [hl b y hy, blockAround, hb]
      rfl
    | part _ hid hx ih => rw [hstep _ _ hid hx, ih]

/-- A node lies directly in the body of one opener only. -/
theorem encloses_unique (hf : p.Forest) (h : p.Encloses o x) (h' : p.Encloses o' x) : o = o' := by
  obtain ⟨lab, hmethod, hblock⟩ := hf.block_label
  obtain ⟨code, hc, hx⟩ := h
  obtain ⟨code', hc', hx'⟩ := h'
  cases o with
  | method i j =>
    obtain ⟨m, hm, rfl⟩ := Option.map_eq_some_iff.1 hc
    cases o' with
    | method i' j' =>
      obtain ⟨m', hm', rfl⟩ := Option.map_eq_some_iff.1 hc'
      obtain ⟨rfl, rfl⟩ := hf.method_unique hm hm' hx hx'
      rfl
    | block b =>
      have := hmethod m (mem_methods hm) x hx
      rw [hblock b code' x hc' hx'] at this
      cases this
  | block b =>
    have hb := hblock b code x hc hx
    cases o' with
    | method i' j' =>
      obtain ⟨m', hm', rfl⟩ := Option.map_eq_some_iff.1 hc'
      rw [hmethod m' (mem_methods hm') x hx'] at hb
      cases hb
    | block b' =>
      rw [hblock b' code' x hc' hx'] at hb
      cases hb
      rfl

theorem around_unique (hf : p.Forest) {outer outer' : List Opener} (h : p.Around x outer)
    (h' : p.Around x outer') : outer = outer' := by
  induction h generalizing outer' with
  | method h =>
    cases h' with
    | method h' => rw [hf.encloses_unique h h']
    | block h' _ => cases hf.encloses_unique h h'
  | block h _ ih =>
    cases h' with
    | method h' => cases hf.encloses_unique h h'
    | block h' rest =>
      cases hf.encloses_unique h h'
      rw [ih rest]

/-! ## Targets of assignments -/

/-- An assignment is to a name, and not to the value it assigns. -/
theorem assign_parts {target value : NodeId} (hf : p.Forest) (hd : p.arena.expr? d = some (.assign target value)) :
    (∃ name, p.arena.expr? target = some (.ident name)) ∧ target ≠ value := by
  obtain ⟨order, -, hb⟩ := hf
  obtain ⟨st, lo, h⟩ := hb.at_node (Nat.zero_le _) (lt_size_of_expr hd)
  obtain ⟨hname, hlt⟩ := h.of_assign hd
  refine ⟨hname, ?_⟩
  rintro rfl
  omega

/-- Statements of methods are no targets. -/
theorem not_target_of_mem_body (hf : p.Forest) (hm : m ∈ p.methods) (hx : x ∈ m.body) : ¬ p.arena.IsTarget x := by
  obtain ⟨lab, htop, hl⟩ := hf.label (keeps_assignedBy p.arena) false
  rintro ⟨d, value, hd⟩
  have := hl d x (by rw [children_of_expr hd]; simp [Expr.children])
  rw [htop m hm x hx, assignedBy, hd] at this
  simp at this

/-- A part is a target if its own node assigns to it, whatever else names it. -/
theorem target_of_child (hf : p.Forest) (hx : x ∈ p.arena.children d) (ht : p.arena.IsTarget x) :
    ∃ value, p.arena.expr? d = some (.assign x value) := by
  obtain ⟨lab, htop, hl⟩ := hf.label (keeps_assignedBy p.arena) false
  obtain ⟨d', value, hd'⟩ := ht
  have h' := hl d' x (by rw [children_of_expr hd']; simp [Expr.children])
  have h := hl d x hx
  have : lab x = true := by rw [h', assignedBy, hd']; simp
  rw [h, assignedBy] at this
  split at this
  · next target value' hd =>
    obtain rfl : target = x := by simpa using this
    exact ⟨value', hd⟩
  · cases this

end Program.Forest
end BlockScope
