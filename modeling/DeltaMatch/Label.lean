/-! Labels are the 16-bit tags carried by edges and vertices. One code is
reserved as the wildcard: it appears in filters and is never stored. -/
namespace DeltaMatch

/-- A tag that an outside interner assigns to an edge or to a vertex. -/
structure Label where
  code : Int16
  deriving DecidableEq, Hashable

namespace Label

/-- The wildcard filter, which nothing stored carries. -/
def any : Label := ⟨-1⟩

/-- The label of edges and vertices that were given none. -/
def plain : Label := ⟨0⟩

instance : Inhabited Label := ⟨plain⟩

/-- Whether the label is the wildcard. -/
def isAny (l : Label) : Bool := l == any

/-- Whether a stored label passes the filter. -/
def accepts (filter stored : Label) : Bool := filter.isAny || filter == stored

/-- Labels are ordered by their signed codes. -/
instance : LT Label := ⟨fun a b => a.code < b.code⟩

/-- Labels are ordered by their signed codes. -/
instance : LE Label := ⟨fun a b => a.code ≤ b.code⟩

instance (a b : Label) : Decidable (a < b) :=
  inferInstanceAs (Decidable (a.code < b.code))

instance (a b : Label) : Decidable (a ≤ b) :=
  inferInstanceAs (Decidable (a.code ≤ b.code))

/-- The wildcard is written as a star, every other label as its code. -/
def text (l : Label) : String := if l.isAny then "*" else toString l.code.toInt

theorem isAny_iff {l : Label} : l.isAny = true ↔ l = any := by
  simp [isAny]

theorem accepts_iff {filter stored : Label} :
    filter.accepts stored = true ↔ filter = any ∨ filter = stored := by
  simp [accepts, isAny]

@[simp] theorem any_accepts (l : Label) : any.accepts l = true := by
  simp [accepts_iff]

@[simp] theorem accepts_self (l : Label) : l.accepts l = true := by
  simp [accepts_iff]

/-- A concrete filter accepts its own label and no other. -/
theorem accepts_of_concrete {filter stored : Label} (h : filter.isAny = false) :
    filter.accepts stored = decide (filter = stored) := by
  simp [accepts, h]; rfl

theorem lt_iff {a b : Label} : a < b ↔ a.code.toInt < b.code.toInt :=
  Int16.lt_iff_toInt_lt

theorem le_iff {a b : Label} : a ≤ b ↔ a.code.toInt ≤ b.code.toInt :=
  Int16.le_iff_toInt_le

theorem eq_iff {a b : Label} : a = b ↔ a.code.toInt = b.code.toInt := by
  cases a; cases b; simp [Int16.toInt_inj]

end Label
end DeltaMatch
