import DeltaMatch.NeighbourList

/-! Neighbour lists as they are stored. The neighbours and the labels of the entries stand in two
columns, side by side, with room reserved for more. The room never shrinks; full columns reserve a
fifth more, the product being that of double precision numbers. An entry is added at the end and
moved down, one place at a time, until the entry below is not above it. -/
namespace DeltaMatch

/-! ## Room -/

/-- A number divided by a power of two and rounded to the nearest, a tie going to
the even neighbour. -/
def shiftToEven (n shift : Nat) : Nat :=
  let unit := Nat.pow 2 shift
  let quotient := n / unit
  let twice := 2 * (n % unit)
  if twice > unit ∨ (twice = unit ∧ quotient % 2 = 1) then quotient + 1 else quotient

/-- A number rounded to 53 significant binary digits, as double precision keeps it. -/
def roundToDouble (n : Nat) : Nat :=
  let shift := Nat.log2 n + 1 - 53
  shiftToEven n shift * Nat.pow 2 shift

/-- A count times 1.2, rounded up. The factor is the double nearest to 1.2, which
is 5404319552844595 / 2 ^ 52. -/
def grownByFifth (count : Nat) : Nat :=
  (roundToDouble (roundToDouble count * 5404319552844595) + (Nat.pow 2 52 - 1)) / Nat.pow 2 52

/-! ## Columns -/

/-- The columns of a neighbour list and the number of entries they have room for. -/
structure NeighbourColumns where
  ids : Array VertexId
  labels : Array Label
  capacity : Nat

namespace NeighbourColumns

/-- Empty columns with room for some entries. -/
def withCapacity (capacity : Nat) : NeighbourColumns := ⟨#[], #[], capacity⟩

/-- Empty columns without room. -/
def empty : NeighbourColumns := withCapacity 0

/-- Number of entries. -/
def size (c : NeighbourColumns) : Nat := c.ids.size

/-- The entry at a position of both columns. -/
def entry (c : NeighbourColumns) (i : Nat) : Neighbour := ⟨c.ids.getD i 0, c.labels.getD i .plain⟩

/-- The entries from the first to the last. -/
def entries (c : NeighbourColumns) : Array Neighbour := Array.zipWith Neighbour.mk c.ids c.labels

/-- Whether the same entries stand in the columns. The room is not compared. -/
def sameEntries (c c' : NeighbourColumns) : Bool := c.ids == c'.ids && c.labels == c'.labels

/-- The room after one more entry: unchanged while there is some left. -/
def capacityAfterAdd (c : NeighbourColumns) : Nat :=
  if c.size < c.capacity then c.capacity
  else max (max (grownByFifth c.capacity) 2) (c.size + 1)

/-- Puts an entry behind the last one, growing when there is no room left. -/
def push (c : NeighbourColumns) (n : Neighbour) : NeighbourColumns :=
  let capacity := c.capacityAfterAdd
  let ⟨ids, labels, _⟩ := c
  ⟨ids.push n.id, labels.push n.label, capacity⟩

/-- Puts an entry in the place of another. -/
def write (c : NeighbourColumns) (i : Nat) (n : Neighbour) : NeighbourColumns :=
  let ⟨ids, labels, capacity⟩ := c
  ⟨ids.setIfInBounds i n.id, labels.setIfInBounds i n.label, capacity⟩

/-- Finds the place of an entry from a position down. What is above the entry moves up by one, so
the position that is reached is free. -/
def settle (n : Neighbour) : Nat → NeighbourColumns → NeighbourColumns
  | 0, c => c.write 0 n
  | i + 1, c =>
    let below := c.entry i
    if n < below then settle n i (c.write (i + 1) below) else c.write (i + 1) n

/-- Inserts one entry at its place in the order. -/
def add (c : NeighbourColumns) (n : Neighbour) : NeighbourColumns :=
  settle n c.size (c.push n)

/-- Drops one occurrence of an entry and tells whether there was one. The room is kept. -/
def remove (c : NeighbourColumns) (n : Neighbour) : NeighbourColumns × Bool :=
  let i := NeighbourList.lowerBoundIn c.entries n 0 c.entries.size (Nat.le_refl _)
  if i < c.size ∧ c.entry i = n then
    let ⟨ids, labels, capacity⟩ := c
    (⟨ids.eraseIdxIfInBounds i, labels.eraseIdxIfInBounds i, capacity⟩, true)
  else (c, false)

/-- The columns of the given entries, added one after the other. -/
def ofList (entries : List Neighbour) : NeighbourColumns := entries.foldl add empty

/-! ## Columns of one length -/

theorem zipWith_set {α β γ : Type} (f : α → β → γ) (xs : List α) (ys : List β) (i : Nat) (x : α)
    (y : β) : List.zipWith f (xs.set i x) (ys.set i y) = (List.zipWith f xs ys).set i (f x y) := by
  induction xs generalizing ys i with
  | nil => rfl
  | cons _ xs ih => cases ys <;> cases i <;> simp [ih]

theorem zipWith_eraseIdx {α β γ : Type} (f : α → β → γ) (xs : List α) (ys : List β) (i : Nat) :
    List.zipWith f (xs.eraseIdx i) (ys.eraseIdx i) = (List.zipWith f xs ys).eraseIdx i := by
  induction xs generalizing ys i with
  | nil => rfl
  | cons _ xs ih => cases ys <;> cases i <;> simp [ih]

/-- The columns are of one length, and their entries ascend. -/
structure Ordered (c : NeighbourColumns) : Prop where
  aligned : c.ids.size = c.labels.size
  sorted : c.entries.toList.Pairwise (· ≤ ·)

variable {c : NeighbourColumns} {n hole : Neighbour} {below above : List Neighbour} {i : Nat}

theorem toList_entries (c : NeighbourColumns) :
    c.entries.toList = List.zipWith Neighbour.mk c.ids.toList c.labels.toList := by
  rw [entries, Array.toList_zipWith]

theorem size_entries (h : c.ids.size = c.labels.size) : c.entries.size = c.size := by
  rw [entries, Array.size_zipWith, ← h, Nat.min_self, size]

theorem getElem?_entries (h : c.ids.size = c.labels.size) (hi : i < c.size) :
    c.entries[i]? = some (c.entry i) := by
  have hids : i < c.ids.size := hi
  have hlabels : i < c.labels.size := h ▸ hi
  rw [entries, Array.getElem?_zipWith, Array.getElem?_eq_getElem hids,
    Array.getElem?_eq_getElem hlabels]
  simp [entry, hids, hlabels]

theorem toList_entries_push (h : c.ids.size = c.labels.size) :
    (c.push n).entries.toList = c.entries.toList ++ [n] := by
  simp [push, toList_entries, List.zipWith_append, h]

theorem toList_entries_write (c : NeighbourColumns) (i : Nat) (n : Neighbour) :
    (c.write i n).entries.toList = c.entries.toList.set i n := by
  simp [write, toList_entries, zipWith_set]

theorem aligned_push (h : c.ids.size = c.labels.size) :
    (c.push n).ids.size = (c.push n).labels.size := by
  simp [push, h]

theorem aligned_write (h : c.ids.size = c.labels.size) :
    (c.write i n).ids.size = (c.write i n).labels.size := by
  simp [write, h]

/-! ## Adding -/

theorem aligned_settle (h : c.ids.size = c.labels.size) :
    (settle n i c).ids.size = (settle n i c).labels.size := by
  induction i generalizing c with
  | zero => exact aligned_write h
  | succ i ih =>
    rw [settle]
    split
    · exact ih (aligned_write h)
    · exact aligned_write h

/-- **An entry finds its place.** It comes to stand right above the last of the entries below
the free position that is not above it, and those that are above it move into the free position. -/
theorem exists_settled (h : c.ids.size = c.labels.size)
    (hentries : c.entries.toList = below ++ hole :: above) (hi : below.length = i) :
    ∃ kept moved, below = kept ++ moved ∧
      (settle n i c).entries.toList = kept ++ n :: (moved ++ above) ∧
      (∀ m ∈ moved, n < m) ∧ ∀ m ∈ kept.getLast?, ¬ n < m := by
  induction i generalizing c below hole above with
  | zero =>
    obtain rfl := List.eq_nil_of_length_eq_zero hi
    refine ⟨[], [], rfl, ?_, nofun, nofun⟩
    rw [settle, toList_entries_write, hentries]
    rfl
  | succ i ih =>
    obtain ⟨rest, m, rfl⟩ : ∃ rest m, below = rest ++ [m] := by
      rcases List.eq_nil_or_concat below with rfl | ⟨rest, m, rfl⟩
      · cases hi
      · exact ⟨rest, m, List.concat_eq_append⟩
    have hrest : rest.length = i := by simpa using hi
    have hm : c.entry i = m := by
      have hlt : i < c.size := by
        rw [← size_entries h, ← Array.length_toList, hentries]
        simp [hrest]
      have hget := getElem?_entries h hlt
      rw [← Array.getElem?_toList, hentries, ← hrest] at hget
      simpa [hrest] using hget.symm
    have hwrite : ∀ x, (c.write (i + 1) x).entries.toList = rest ++ m :: x :: above := by
      intro x
      rw [toList_entries_write, hentries, ← hi, List.set_append_right _ _ (Nat.le_refl _)]
      simp
    rw [settle]
    simp only [hm]
    split
    · -- the entry below moves up and leaves its own position free
      rename_i hlt
      obtain ⟨kept, moved, rfl, hsettled, hmoved, hkept⟩ := ih (aligned_write h) (hwrite m) hrest
      refine ⟨kept, moved ++ [m], by simp, by simpa using hsettled, ?_, hkept⟩
      intro m' hm'
      rcases List.mem_append.mp hm' with hm' | hm'
      · exact hmoved m' hm'
      · exact List.mem_singleton.mp hm' ▸ hlt
    · rename_i hnot
      refine ⟨rest ++ [m], [], by simp, by simpa using hwrite n, nofun, ?_⟩
      rw [List.getLast?_concat]
      rintro m' ⟨⟩
      exact hnot

/-- Adding puts the entry in between the entries that are not above it and those that are. -/
theorem exists_toList_add (h : c.ids.size = c.labels.size) : ∃ kept moved,
    c.entries.toList = kept ++ moved ∧ (c.add n).entries.toList = kept ++ n :: moved ∧
      (∀ m ∈ moved, n < m) ∧ ∀ m ∈ kept.getLast?, ¬ n < m := by
  have hlength : c.entries.toList.length = c.size := by
    rw [Array.length_toList, size_entries h]
  obtain ⟨kept, moved, heq, hadd, hmoved, hkept⟩ :=
    exists_settled (aligned_push h) (toList_entries_push h) hlength
  rw [List.append_nil] at hadd
  exact ⟨kept, moved, heq, hadd, hmoved, hkept⟩

/-- In a sorted list nothing is above its last entry. -/
theorem le_getLast? {ns : List Neighbour} (h : ns.Pairwise (· ≤ ·)) {m last : Neighbour}
    (hm : m ∈ ns) (hlast : last ∈ ns.getLast?) : m ≤ last := by
  obtain ⟨rest, rfl⟩ := List.getLast?_eq_some_iff.mp hlast
  rcases List.mem_append.mp hm with hm | hm
  · exact (List.pairwise_append.mp h).2.2 m hm last (by simp)
  · exact List.mem_singleton.mp hm ▸ Neighbour.le_refl m

theorem Ordered.add (h : c.Ordered) (n : Neighbour) : (c.add n).Ordered := by
  refine ⟨aligned_settle (aligned_push h.aligned), ?_⟩
  obtain ⟨kept, moved, heq, hadd, hmoved, hkept⟩ := exists_toList_add (n := n) h.aligned
  have hsorted := h.sorted
  rw [heq, List.pairwise_append] at hsorted
  obtain ⟨hsorted, hsorted', hbetween⟩ := hsorted
  have hle : ∀ m ∈ kept, m ≤ n := by
    intro m hm
    have hlast := List.getLast?_eq_some_getLast (List.ne_nil_of_mem hm)
    exact Neighbour.le_trans (le_getLast? hsorted hm hlast) (Neighbour.not_lt.mp (hkept _ hlast))
  rw [hadd, List.pairwise_append, List.pairwise_cons]
  refine ⟨hsorted, ⟨fun m hm => Neighbour.le_of_lt (hmoved m hm), hsorted'⟩, fun m hm m' hm' => ?_⟩
  rcases List.mem_cons.mp hm' with rfl | hm'
  · exact hle m hm
  · exact hbetween m hm m' hm'

/-! ## Removing -/

theorem toList_entries_eraseIdx (c : NeighbourColumns) (i : Nat) :
    (mk (c.ids.eraseIdxIfInBounds i) (c.labels.eraseIdxIfInBounds i) c.capacity).entries.toList =
      c.entries.toList.eraseIdx i := by
  simp [toList_entries, Array.toList_eraseIdxIfInBounds, zipWith_eraseIdx]

theorem Ordered.eraseIdx (h : c.Ordered) (i : Nat) : Ordered
    ⟨c.ids.eraseIdxIfInBounds i, c.labels.eraseIdxIfInBounds i, c.capacity⟩ := by
  constructor
  · rw [← Array.length_toList, ← Array.length_toList, Array.toList_eraseIdxIfInBounds,
      Array.toList_eraseIdxIfInBounds, List.length_eraseIdx, List.length_eraseIdx]
    simp [h.aligned]
  · rw [toList_entries_eraseIdx]
    exact h.sorted.sublist (List.eraseIdx_sublist _ _)

theorem Ordered.remove (h : c.Ordered) (n : Neighbour) : (c.remove n).1.Ordered := by
  rw [NeighbourColumns.remove]
  split
  · exact h.eraseIdx _
  · exact h

theorem toList_entries_withCapacity (capacity : Nat) :
    (withCapacity capacity).entries.toList = [] := by
  rw [toList_entries]
  rfl

theorem Ordered.withCapacity (capacity : Nat) : (withCapacity capacity).Ordered :=
  ⟨rfl, by rw [toList_entries_withCapacity]; exact List.Pairwise.nil⟩

end NeighbourColumns
end DeltaMatch
