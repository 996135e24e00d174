import DeltaMatch.Error

/-! Neighbour lists: the neighbours of one vertex in one direction, sorted by
neighbour and then by label. A pair of vertices may be joined under several
labels, and an entry may be repeated; callers decide whether an edge is already
present before they add it. The order is part of the type, and it is what makes
the halving search, the early stops and the forward-only intersection right. -/
namespace DeltaMatch

/-- One entry of a neighbour list. -/
structure Neighbour where
  id : VertexId
  label : Label
  deriving DecidableEq, Hashable

namespace Neighbour

/-- Entries are ordered by neighbour and then by label. -/
instance : LT Neighbour :=
  ⟨fun a b => a.id < b.id ∨ (a.id = b.id ∧ a.label < b.label)⟩

/-- Entries are ordered by neighbour and then by label. -/
instance : LE Neighbour :=
  ⟨fun a b => a.id < b.id ∨ (a.id = b.id ∧ a.label ≤ b.label)⟩

instance (a b : Neighbour) : Decidable (a < b) :=
  inferInstanceAs (Decidable (a.id < b.id ∨ (a.id = b.id ∧ a.label < b.label)))

instance (a b : Neighbour) : Decidable (a ≤ b) :=
  inferInstanceAs (Decidable (a.id < b.id ∨ (a.id = b.id ∧ a.label ≤ b.label)))

/-- The least entry of a neighbour, below every label it may carry. -/
def first (id : VertexId) : Neighbour := ⟨id, ⟨Int16.minValue⟩⟩

theorem lt_iff {a b : Neighbour} : a < b ↔
    a.id.toNat < b.id.toNat ∨
      (a.id.toNat = b.id.toNat ∧ a.label.code.toInt < b.label.code.toInt) := by
  show (a.id < b.id ∨ (a.id = b.id ∧ a.label < b.label)) ↔ _
  rw [UInt32.lt_iff_toNat_lt, Label.lt_iff, ← UInt32.toNat_inj]

theorem le_iff {a b : Neighbour} : a ≤ b ↔
    a.id.toNat < b.id.toNat ∨
      (a.id.toNat = b.id.toNat ∧ a.label.code.toInt ≤ b.label.code.toInt) := by
  show (a.id < b.id ∨ (a.id = b.id ∧ a.label ≤ b.label)) ↔ _
  rw [UInt32.lt_iff_toNat_lt, Label.le_iff, ← UInt32.toNat_inj]

theorem eq_iff {a b : Neighbour} : a = b ↔
    a.id.toNat = b.id.toNat ∧ a.label.code.toInt = b.label.code.toInt := by
  cases a; cases b; simp [UInt32.toNat_inj, ← Label.eq_iff]

theorem le_refl (a : Neighbour) : a ≤ a := by
  rw [le_iff]; omega

theorem le_trans {a b c : Neighbour} (h : a ≤ b) (h' : b ≤ c) : a ≤ c := by
  rw [le_iff] at *; omega

theorem le_antisymm {a b : Neighbour} (h : a ≤ b) (h' : b ≤ a) : a = b := by
  rw [le_iff] at *; rw [eq_iff]; omega

theorem le_of_lt {a b : Neighbour} (h : a < b) : a ≤ b := by
  rw [lt_iff] at h; rw [le_iff]; omega

theorem lt_of_le_of_lt {a b c : Neighbour} (h : a ≤ b) (h' : b < c) : a < c := by
  rw [lt_iff] at *; rw [le_iff] at h; omega

theorem not_lt {a b : Neighbour} : ¬ a < b ↔ b ≤ a := by
  rw [lt_iff, le_iff]; omega

theorem lt_iff_le_and_ne {a b : Neighbour} : a < b ↔ a ≤ b ∧ a ≠ b := by
  rw [lt_iff, le_iff, Ne, eq_iff]; omega

theorem id_le_of_le {a b : Neighbour} (h : a ≤ b) : a.id ≤ b.id := by
  rw [le_iff] at h; rw [UInt32.le_iff_toNat_le]; omega

theorem first_le {id : VertexId} {n : Neighbour} : first id ≤ n ↔ id ≤ n.id := by
  have hmin := Int16.minValue_le_toInt n.label.code
  rw [le_iff, UInt32.le_iff_toNat_le]
  simp only [first]
  have : (Int16.minValue).toInt = -2 ^ 15 := by decide
  omega

end Neighbour

/-- The neighbours of one vertex in one direction. -/
@[ext] structure NeighbourList where
  entries : Array Neighbour
  sorted : entries.toList.Pairwise (· ≤ ·)

namespace NeighbourList

/-- The list without entries. -/
def empty : NeighbourList := ⟨#[], List.Pairwise.nil⟩

instance : Inhabited NeighbourList := ⟨empty⟩

instance : DecidableEq NeighbourList := fun a b =>
  decidable_of_iff (a.entries = b.entries) NeighbourList.ext_iff.symm

/-- The entries in ascending order. -/
def toList (l : NeighbourList) : List Neighbour := l.entries.toList

/-- Number of labelled entries. -/
def size (l : NeighbourList) : Nat := l.entries.size

/-- Whether there are no entries. -/
def isEmpty (l : NeighbourList) : Bool := l.entries.isEmpty

instance : Membership Neighbour NeighbourList := ⟨fun l n => n ∈ l.toList⟩

instance (n : Neighbour) (l : NeighbourList) : Decidable (n ∈ l) :=
  inferInstanceAs (Decidable (n ∈ l.toList))

/-- The neighbours in order, one for each labelled entry. -/
def ids (l : NeighbourList) : List VertexId := l.toList.map (·.id)

/-! ## Positions -/

/-- The first position of the interval whose entry is not below the key, found
by halving the interval. -/
def lowerBoundIn (entries : Array Neighbour) (key : Neighbour) (lo hi : Nat)
    (h : hi ≤ entries.size) : Nat :=
  if hlt : lo < hi then
    if entries[lo + (hi - lo) / 2] < key then
      lowerBoundIn entries key (lo + (hi - lo) / 2 + 1) hi h
    else
      lowerBoundIn entries key lo (lo + (hi - lo) / 2) (by omega)
  else lo
termination_by hi - lo

/-- The number of entries below the key. -/
def lowerBound (l : NeighbourList) (key : Neighbour) : Nat :=
  lowerBoundIn l.entries key 0 l.entries.size (Nat.le_refl _)

/-- All entries before the position are below the key and none from it on. -/
def SplitsAt (entries : Array Neighbour) (key : Neighbour) (p : Nat) : Prop :=
  (∀ i (h : i < entries.size), i < p → entries[i] < key) ∧
    ∀ i (h : i < entries.size), p ≤ i → key ≤ entries[i]

theorem getElem_le_getElem {entries : Array Neighbour}
    (hs : entries.toList.Pairwise (· ≤ ·)) {i j : Nat} (hij : i ≤ j)
    (hj : j < entries.size) : entries[i] ≤ entries[j] := by
  rcases Nat.lt_or_eq_of_le hij with h | rfl
  · have := (List.pairwise_iff_getElem.mp hs) i j (by simp; omega) (by simpa) h
    simpa using this
  · exact Neighbour.le_refl _

theorem lowerBoundIn_spec {entries : Array Neighbour} {key : Neighbour}
    (hs : entries.toList.Pairwise (· ≤ ·)) {lo hi : Nat} (h : hi ≤ entries.size)
    (hle : lo ≤ hi)
    (hbelow : ∀ i (h : i < entries.size), i < lo → entries[i] < key)
    (habove : ∀ i (h : i < entries.size), hi ≤ i → key ≤ entries[i]) :
    lowerBoundIn entries key lo hi h ≤ entries.size ∧
      SplitsAt entries key (lowerBoundIn entries key lo hi h) := by
  fun_induction lowerBoundIn entries key lo hi h with
  | case1 lo hi h hlt hmid ih =>
    refine ih (by omega) (fun i hi' hlt' => ?_) habove
    exact Neighbour.lt_of_le_of_lt (getElem_le_getElem hs (by omega) (by omega)) hmid
  | case2 lo hi h hlt hmid ih =>
    refine ih (by omega) hbelow (fun i hi' hle' => ?_)
    exact Neighbour.le_trans (Neighbour.not_lt.mp hmid) (getElem_le_getElem hs hle' hi')
  | case3 lo hi h hlt =>
    have : lo = hi := by omega
    subst this
    exact ⟨h, hbelow, habove⟩

theorem lowerBound_le (l : NeighbourList) (key : Neighbour) :
    l.lowerBound key ≤ l.entries.size :=
  (lowerBoundIn_spec l.sorted (Nat.le_refl _) (Nat.zero_le _)
    (fun _ _ h => absurd h (Nat.not_lt_zero _))
    (fun _ h h' => absurd h (Nat.not_lt.mpr h'))).1

theorem lowerBound_splits (l : NeighbourList) (key : Neighbour) :
    SplitsAt l.entries key (l.lowerBound key) :=
  (lowerBoundIn_spec l.sorted (Nat.le_refl _) (Nat.zero_le _)
    (fun _ _ h => absurd h (Nat.not_lt_zero _))
    (fun _ h h' => absurd h (Nat.not_lt.mpr h'))).2

theorem lt_of_mem_take {entries : Array Neighbour} {key n : Neighbour} {p : Nat}
    (h : SplitsAt entries key p) (hn : n ∈ entries.toList.take p) : n < key := by
  obtain ⟨i, hi, rfl⟩ := List.mem_iff_getElem.mp hn
  simp only [List.length_take, Array.length_toList] at hi
  simpa using h.1 i (by omega) (by omega)

theorem le_of_mem_drop {entries : Array Neighbour} {key n : Neighbour} {p : Nat}
    (h : SplitsAt entries key p) (hn : n ∈ entries.toList.drop p) : key ≤ n := by
  obtain ⟨i, hi, rfl⟩ := List.mem_iff_getElem.mp hn
  simp only [List.length_drop, Array.length_toList] at hi
  simpa using h.2 (p + i) (by omega) (by omega)

/-! ## Changes -/

theorem insertIdx_eq_take_drop {α : Type} (x : α) :
    ∀ (i : Nat) (xs : List α), i ≤ xs.length →
      xs.insertIdx i x = xs.take i ++ x :: xs.drop i
  | 0, _, _ => by simp
  | i + 1, [], h => by simp at h
  | i + 1, y :: ys, h => by
    simp only [List.length_cons, Nat.add_le_add_iff_right] at h
    simp [List.insertIdx_succ_cons, insertIdx_eq_take_drop x i ys h]

theorem sorted_insertIdx {entries : Array Neighbour} {n : Neighbour} {p : Nat}
    (hs : entries.toList.Pairwise (· ≤ ·)) (hp : p ≤ entries.size)
    (hsplit : SplitsAt entries n p) :
    (entries.insertIdx p n hp).toList.Pairwise (· ≤ ·) := by
  rw [Array.toList_insertIdx, insertIdx_eq_take_drop n p _ (by simpa)]
  refine List.pairwise_append.mpr ⟨hs.sublist (List.take_sublist _ _), ?_, ?_⟩
  · exact List.pairwise_cons.mpr ⟨fun _ hb => le_of_mem_drop hsplit hb,
      hs.sublist (List.drop_sublist _ _)⟩
  · intro a ha b hb
    have han := Neighbour.le_of_lt (lt_of_mem_take hsplit ha)
    rcases List.mem_cons.mp hb with rfl | hb
    · exact han
    · exact Neighbour.le_trans han (le_of_mem_drop hsplit hb)

/-- Inserts one entry at its place in the order. -/
def add (l : NeighbourList) (n : Neighbour) : NeighbourList where
  entries := l.entries.insertIdx (l.lowerBound n) n (l.lowerBound_le n)
  sorted := sorted_insertIdx l.sorted (l.lowerBound_le n) (l.lowerBound_splits n)

/-- Drops one occurrence of the entry, or nothing when there is none. -/
def erase (l : NeighbourList) (n : Neighbour) : NeighbourList :=
  if h : l.lowerBound n < l.entries.size then
    if l.entries[l.lowerBound n] = n then
      { entries := l.entries.eraseIdx (l.lowerBound n) h
        sorted := by
          rw [Array.toList_eraseIdx]
          exact l.sorted.sublist (List.eraseIdx_sublist _ _) }
    else l
  else l

/-- Whether the entry occurs, decided at its one possible place. -/
def hasEntry (l : NeighbourList) (n : Neighbour) : Bool :=
  l.entries[l.lowerBound n]? == some n

/-- The list of the given entries, added one after the other. -/
def ofList (entries : List Neighbour) : NeighbourList := entries.foldl add empty

/-! ## Queries -/

/-- The entry at a position. -/
def entryAt (l : NeighbourList) (index : Nat) : Except GraphError Neighbour :=
  match l.entries[index]? with
  | some n => .ok n
  | none => .error (.indexOutOfBounds index l.size)

/-- Where a forward scan for a neighbour ends. -/
inductive Scan where
  /-- At an entry of the neighbour whose label passes the filter. -/
  | hit (position : Nat)
  /-- At the first entry past the neighbour, or at the end of the list. -/
  | past (position : Nat)
  deriving DecidableEq

/-- The position of a successful scan. -/
def Scan.found? : Scan → Option Nat
  | .hit i => some i
  | .past _ => none

/-- Scans forward for an entry of the neighbour that passes the filter. Entries
of one neighbour are walked one by one, since each has its own label. -/
def scan (l : NeighbourList) (id : VertexId) (filter : Label) (start : Nat) : Scan :=
  if h : start < l.entries.size then
    if id < l.entries[start].id then .past start
    else if l.entries[start].id = id ∧ filter.accepts l.entries[start].label then .hit start
    else l.scan id filter (start + 1)
  else .past l.entries.size
termination_by l.entries.size - start

/-- The first position from the start on that holds the neighbour under a label
passing the filter. -/
def search (l : NeighbourList) (id : VertexId) (filter : Label) (start : Nat) : Option Nat :=
  (l.scan id filter start).found?

/-- Whether the neighbour occurs under some label that passes the filter. -/
def contains (l : NeighbourList) (id : VertexId) (filter : Label) : Bool :=
  (l.search id filter (l.lowerBound (Neighbour.first id))).isSome

/-- The neighbours of the entries that pass the filter; an entry whose
neighbour was the last one listed is skipped. -/
def distinctIds (filter : Label) : Option VertexId → List Neighbour → List VertexId
  | _, [] => []
  | last, n :: rest =>
    if filter.accepts n.label ∧ last ≠ some n.id then
      n.id :: distinctIds filter (some n.id) rest
    else distinctIds filter last rest

/-- The neighbours that occur under a label passing the filter, each once. -/
def filteredIds (l : NeighbourList) (filter : Label) : List VertexId :=
  distinctIds filter none l.toList

/-- Keeps the candidates met by a cursor that only moves forward: it stays on a
hit and moves past a missed candidate. -/
def intersectFrom (l : NeighbourList) (filter : Label) : List VertexId → Nat → List VertexId
  | [], _ => []
  | c :: rest, cursor =>
    if cursor < l.size then
      match l.scan c filter cursor with
      | .hit i => c :: l.intersectFrom filter rest i
      | .past i => l.intersectFrom filter rest i
    else []

/-- Keeps the candidates that are neighbours under the filter. The candidates
are to be ascending. -/
def intersection (l : NeighbourList) (candidates : List VertexId) (filter : Label) :
    List VertexId :=
  l.intersectFrom filter candidates 0

end NeighbourList
end DeltaMatch
