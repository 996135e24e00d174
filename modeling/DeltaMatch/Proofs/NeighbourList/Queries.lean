import DeltaMatch.Proofs.NeighbourList.Search
import Mathlib.Data.Nat.Log
import Mathlib.Order.Bounds.Basic

/-!
# Queries of a neighbour list

A search ends at the least position that answers it, a lookup starts close to the entries of its
neighbour without skipping one, and neighbours are listed once each. A scan looks at no entry
twice, and the halving search looks at few.
-/

namespace DeltaMatch
namespace NeighbourList

variable {l : NeighbourList} {id : VertexId} {filter : Label} {start i : Nat}

/-! ## Rounds -/

/-- A scan looks at a number of entries from a position on and ends. It passes the entries of
smaller neighbours and those that fail the filter. -/
inductive Scans (l : NeighbourList) (id : VertexId) (filter : Label) : Nat → Nat → Scan → Prop
  | finish {i : Nat} : l.entries.size ≤ i → Scans l id filter 0 i (.past l.entries.size)
  | stop {i : Nat} {n : Neighbour} : l.entries[i]? = some n → id < n.id →
      Scans l id filter 1 i (.past i)
  | hit {i : Nat} {n : Neighbour} : l.entries[i]? = some n → n.Meets id filter →
      Scans l id filter 1 i (.hit i)
  | pass {i rounds : Nat} {n : Neighbour} {result : Scan} : l.entries[i]? = some n →
      n.id ≤ id → ¬ n.Meets id filter → Scans l id filter rounds (i + 1) result →
        Scans l id filter (rounds + 1) i result

/-- The halving search looks at a number of entries of an interval and ends. -/
inductive Halves (entries : Array Neighbour) (key : Neighbour) : Nat → Nat → Nat → Nat → Prop
  | finish {lo hi : Nat} : hi ≤ lo → Halves entries key 0 lo hi lo
  | upper {lo hi rounds result : Nat} {n : Neighbour} : lo < hi →
      entries[lo + (hi - lo) / 2]? = some n → n < key →
        Halves entries key rounds (lo + (hi - lo) / 2 + 1) hi result →
          Halves entries key (rounds + 1) lo hi result
  | lower {lo hi rounds result : Nat} {n : Neighbour} : lo < hi →
      entries[lo + (hi - lo) / 2]? = some n → ¬ n < key →
        Halves entries key rounds lo (lo + (hi - lo) / 2) result →
          Halves entries key (rounds + 1) lo hi result

/-- **A scan ends**, and looks at no entry twice. -/
theorem exists_scans (l : NeighbourList) (id : VertexId) (filter : Label) (start : Nat) :
    ∃ rounds ≤ l.size - start, Scans l id filter rounds start (l.scan id filter start) := by
  rw [size]
  fun_induction NeighbourList.scan l id filter start with
  | case1 start hs hlt =>
    exact ⟨1, by omega, .stop (Array.getElem?_eq_getElem hs) hlt⟩
  | case2 start hs _ hmeets =>
    exact ⟨1, by omega, .hit (Array.getElem?_eq_getElem hs) hmeets⟩
  | case3 start hs hnlt hne ih =>
    obtain ⟨rounds, hrounds, hscans⟩ := ih
    refine ⟨rounds + 1, by omega, ?_⟩
    exact .pass (Array.getElem?_eq_getElem hs) (UInt32.not_lt.mp hnlt) hne hscans
  | case4 start hs =>
    exact ⟨0, Nat.zero_le _, .finish (Nat.not_lt.mp hs)⟩

/-- One round more leaves half of the interval. -/
theorem clog_half {n : Nat} (h : 0 < n) : Nat.clog 2 (n / 2 + 1) + 1 = Nat.clog 2 (n + 1) := by
  have hhalf : (n + 1 + 2 - 1) / 2 = n / 2 + 1 := by omega
  rw [Nat.clog_of_one_lt (n := n + 1) (by decide) (by omega), hhalf]

/-- **The halving search ends** after a logarithmic number of rounds. -/
theorem exists_halves {entries : Array Neighbour} {key : Neighbour} {lo hi : Nat}
    (h : hi ≤ entries.size) : ∃ rounds ≤ Nat.clog 2 (hi - lo + 1),
      Halves entries key rounds lo hi (lowerBoundIn entries key lo hi h) := by
  fun_induction lowerBoundIn entries key lo hi h with
  | case1 lo hi h hlt hmid ih =>
    obtain ⟨rounds, hrounds, hhalves⟩ := ih
    refine ⟨rounds + 1, ?_, .upper hlt (Array.getElem?_eq_getElem (by omega)) hmid hhalves⟩
    have hrest := Nat.clog_mono_right 2
      (show hi - (lo + (hi - lo) / 2 + 1) + 1 ≤ (hi - lo) / 2 + 1 by omega)
    have := clog_half (n := hi - lo) (by omega)
    omega
  | case2 lo hi h hlt hmid ih =>
    obtain ⟨rounds, hrounds, hhalves⟩ := ih
    refine ⟨rounds + 1, ?_, .lower hlt (Array.getElem?_eq_getElem (by omega)) hmid hhalves⟩
    rw [Nat.add_sub_cancel_left] at hrounds
    have := clog_half (n := hi - lo) (by omega)
    omega
  | case3 lo hi h hlt =>
    exact ⟨0, Nat.zero_le _, .finish (Nat.not_lt.mp hlt)⟩

/-! ## Searches -/

/-- The positions from a start on that hold the neighbour under a label passing the filter. -/
def positionsFrom (l : NeighbourList) (id : VertexId) (filter : Label) (start : Nat) : Set Nat :=
  {i | start ≤ i ∧ ∃ n, l.entries[i]? = some n ∧ n.Meets id filter}

theorem mem_positionsFrom : i ∈ l.positionsFrom id filter start ↔
    start ≤ i ∧ ∃ hi : i < l.entries.size, l.entries[i].Meets id filter := by
  simp only [positionsFrom, Set.mem_ofPred_eq, Array.getElem?_eq_some_iff]
  constructor
  · rintro ⟨hle, n, ⟨hi, rfl⟩, hmeets⟩
    exact ⟨hle, hi, hmeets⟩
  · rintro ⟨hle, hi, hmeets⟩
    exact ⟨hle, _, ⟨hi, rfl⟩, hmeets⟩

/-- **A search that finds something** finds the least position. -/
theorem isLeast_of_search (h : l.search id filter start = some i) :
    IsLeast (l.positionsFrom id filter start) i := by
  cases hscan : l.scan id filter start with
  | hit j =>
    rw [search, hscan] at h
    cases h
    obtain ⟨hle, hi, hmeets, hfirst⟩ := scan_hit hscan
    refine ⟨mem_positionsFrom.mpr ⟨hle, hi, hmeets⟩, fun j hj => Nat.not_lt.mp fun hji => ?_⟩
    obtain ⟨hle, hj, hmeets⟩ := mem_positionsFrom.mp hj
    exact hfirst j hj hle hji hmeets
  | past j =>
    rw [search, hscan] at h
    cases h

theorem search_isSome : (l.search id filter start).isSome = true ↔
    (l.positionsFrom id filter start).Nonempty := by
  rw [search, found?_scan_isSome]
  constructor
  · rintro ⟨j, hj, hle, hmeets⟩
    exact ⟨j, mem_positionsFrom.mpr ⟨hle, hj, hmeets⟩⟩
  · rintro ⟨j, hj⟩
    obtain ⟨hle, hj, hmeets⟩ := mem_positionsFrom.mp hj
    exact ⟨j, hj, hle, hmeets⟩

theorem search_eq_some_iff :
    l.search id filter start = some i ↔ IsLeast (l.positionsFrom id filter start) i := by
  refine ⟨isLeast_of_search, fun hleast => ?_⟩
  obtain ⟨j, hj⟩ := Option.isSome_iff_exists.mp (search_isSome.mpr ⟨i, hleast.1⟩)
  rw [hj, (isLeast_of_search hj).unique hleast]

theorem search_eq_none_iff :
    l.search id filter start = none ↔ l.positionsFrom id filter start = ∅ := by
  rw [← Option.not_isSome_iff_eq_none, search_isSome, Set.not_nonempty_iff_eq_empty]

/-! ## Queries -/

/-- **Queries are exact.** A search gives the least position from its start on that holds the
neighbour under a label passing the filter, and nothing when there is none. A lookup holds exactly
when some entry is one, for none of them stands before the place where it starts. The listed
neighbours ascend, each of them once, and are those with such an entry. The scan and the halving
search come to an end, the one after a round for each entry at most, the other after
logarithmically many. -/
theorem queries_exact (l : NeighbourList) (id : VertexId) (filter : Label) (start : Nat) :
    (∀ i, l.search id filter start = some i ↔ IsLeast (l.positionsFrom id filter start) i) ∧
    (l.search id filter start = none ↔ l.positionsFrom id filter start = ∅) ∧
    (l.contains id filter = true ↔ ∃ n ∈ l, n.Meets id filter) ∧
    (∀ i ∈ l.positionsFrom id filter 0, l.lowerBound (Neighbour.first id) ≤ i) ∧
    (l.filteredIds filter).Pairwise (· < ·) ∧
    (id ∈ l.filteredIds filter ↔ ∃ n ∈ l, n.Meets id filter) ∧
    (∃ rounds ≤ l.size - start, Scans l id filter rounds start (l.scan id filter start)) ∧
    (∃ rounds ≤ Nat.clog 2 (l.size + 1), Halves l.entries (Neighbour.first id) rounds 0 l.size
      (l.lowerBound (Neighbour.first id))) := by
  refine ⟨fun i => search_eq_some_iff, search_eq_none_iff, contains_iff, fun i hi => ?_,
    filteredIds_ascending l filter, mem_filteredIds.trans contains_iff,
    exists_scans l id filter start, ?_⟩
  · obtain ⟨-, hi, hmeets⟩ := mem_positionsFrom.mp hi
    exact lowerBound_first_le hi hmeets
  · have hhalves : ∃ rounds ≤ Nat.clog 2 (l.size - 0 + 1), Halves l.entries (Neighbour.first id)
        rounds 0 l.size (l.lowerBound (Neighbour.first id)) := exists_halves (Nat.le_refl l.size)
    rwa [Nat.sub_zero] at hhalves

/-- A neighbour under a negative label and twice under another one: a search starts at an entry
that fails the filter, between the two that pass it, and behind the only one that passes it. -/
theorem queries_exact_tied :
    let l : NeighbourList :=
      ⟨#[⟨1, ⟨-3⟩⟩, ⟨4, ⟨-7⟩⟩, ⟨4, ⟨2⟩⟩, ⟨4, ⟨2⟩⟩, ⟨6, ⟨0⟩⟩], by decide⟩
    l.search 4 ⟨2⟩ 1 = some 2 ∧ l.search 4 ⟨2⟩ 3 = some 3 ∧ l.search 4 ⟨-7⟩ 2 = none ∧
      l.contains 4 ⟨-7⟩ = true ∧ l.lowerBound (Neighbour.first 4) ≤ 1 ∧
        4 ∈ l.filteredIds ⟨2⟩ := by
  intro l
  obtain ⟨hfound, -, -, -, -, hlisted, -⟩ := queries_exact l 4 ⟨2⟩ 1
  obtain ⟨hinside, -⟩ := queries_exact l 4 ⟨2⟩ 3
  obtain ⟨-, hmissed, hcontains, hstart, -⟩ := queries_exact l 4 ⟨-7⟩ 2
  have hfirst : IsLeast (l.positionsFrom 4 ⟨2⟩ 1) 2 := by
    refine ⟨mem_positionsFrom.mpr (by decide), fun j hj => ?_⟩
    obtain ⟨hle, hj, hmeets⟩ := mem_positionsFrom.mp hj
    have hfails : ¬ l.entries[1].Meets 4 ⟨2⟩ := by decide
    rcases Nat.eq_or_lt_of_le hle with rfl | hlt
    · exact absurd hmeets hfails
    · exact hlt
  have hsecond : IsLeast (l.positionsFrom 4 ⟨2⟩ 3) 3 :=
    ⟨mem_positionsFrom.mpr (by decide), fun j hj => hj.1⟩
  have hnone : ∀ j (_ : j < l.entries.size), 2 ≤ j → ¬ l.entries[j].Meets 4 ⟨-7⟩ := by decide
  refine ⟨(hfound 2).mpr hfirst, (hinside 3).mpr hsecond, hmissed.mpr ?_,
    hcontains.mpr (by decide), hstart 1 (mem_positionsFrom.mpr (by decide)),
    hlisted.mpr (by decide)⟩
  refine Set.eq_empty_of_forall_notMem fun j hj => ?_
  obtain ⟨hle, hj, hmeets⟩ := mem_positionsFrom.mp hj
  exact hnone j hj hle hmeets

end NeighbourList
end DeltaMatch
