import DeltaMatch.NeighbourList.Columns

/-! Neighbour lists with reserved room: columns that are known to be in order. They are changed as
columns and read as the list that stands in them. -/
namespace DeltaMatch

/-- A neighbour list in its columns. -/
structure ReservedList where
  columns : NeighbourColumns
  ordered : columns.Ordered

namespace ReservedList

/-- The list that stands in the columns. -/
def list (r : ReservedList) : NeighbourList := ⟨r.columns.entries, r.ordered.sorted⟩

/-- The number of entries there is room for. -/
def capacity (r : ReservedList) : Nat := r.columns.capacity

/-- An empty list with room for some entries. -/
def withCapacity (capacity : Nat) : ReservedList := ⟨.withCapacity capacity, .withCapacity capacity⟩

/-- An empty list without room. -/
def empty : ReservedList := withCapacity 0

/-- Inserts one entry, growing when there is no room left. -/
def add (r : ReservedList) (n : Neighbour) : ReservedList := ⟨r.columns.add n, r.ordered.add n⟩

/-- Drops one occurrence of an entry, keeps the room and tells whether there was one. -/
def remove (r : ReservedList) (n : Neighbour) : ReservedList × Bool :=
  (⟨(r.columns.remove n).1, r.ordered.remove n⟩, (r.columns.remove n).2)

/-- The list of the given entries, added one after the other. -/
def ofList (entries : List Neighbour) : ReservedList := entries.foldl add empty

/-- Whether the lists have the same entries. -/
def sameEntries (r r' : ReservedList) : Bool := r.columns.sameEntries r'.columns

end ReservedList
end DeltaMatch
