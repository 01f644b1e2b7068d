import BlockScope.Expr
/-!
# Tables of nodes

What a stage learns about nodes, as entries ascending by node with at most one for each. Entering a
node again replaces its entry.
-/
namespace BlockScope

/-- A value for some nodes. -/
structure Table (α : Type) where
  entries : List (NodeId × α)
  deriving DecidableEq, Repr

namespace Table
variable {α : Type}

def empty : Table α := ⟨[]⟩

def get? (t : Table α) (id : NodeId) : Option α := (t.entries.find? (·.1 = id)).map (·.2)

/-- Puts an entry in its place. -/
def insertEntry (id : NodeId) (value : α) : List (NodeId × α) → List (NodeId × α)
  | [] => [(id, value)]
  | (other, old) :: rest =>
    if id.index < other.index then (id, value) :: (other, old) :: rest
    else if id = other then (id, value) :: rest
    else (other, old) :: insertEntry id value rest

def insert (t : Table α) (id : NodeId) (value : α) : Table α := ⟨insertEntry id value t.entries⟩

def size (t : Table α) : Nat := t.entries.length

@[simp] theorem get?_empty (id : NodeId) : (empty : Table α).get? id = none := rfl

theorem get?_insert (t : Table α) (id other : NodeId) (value : α) :
    (t.insert id value).get? other = if id = other then some value else t.get? other := by
  unfold insert get?
  induction t.entries with
  | nil => simp only [insertEntry, List.find?_cons]; split <;> simp_all
  | cons e rest ih =>
    obtain ⟨key, old⟩ := e
    simp only [insertEntry]
    split
    · simp only [List.find?_cons]; split <;> simp_all
    · split
      · subst_vars; simp only [List.find?_cons]; split <;> simp_all
      · simp only [List.find?_cons] at ih ⊢
        by_cases h : key = other
        · subst h; simp_all
        · simp [h, ih]

end Table
end BlockScope
