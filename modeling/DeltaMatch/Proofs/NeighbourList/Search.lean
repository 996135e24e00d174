import DeltaMatch.Proofs.NeighbourList.Entries

/-!
# Searching a neighbour list

The order of the entries lets a scan stop early, a lookup start from a halving
search, and an intersection move one cursor forward only. Each of them answers
as if it looked at every entry: a lookup holds when some entry of the neighbour
passes the filter, and an intersection keeps what single lookups would keep.
-/

namespace DeltaMatch

/-- The entry is one of the neighbour, under a label that passes the filter. -/
def Neighbour.Meets (n : Neighbour) (id : VertexId) (filter : Label) : Prop :=
  n.id = id ∧ filter.accepts n.label = true

instance (n : Neighbour) (id : VertexId) (filter : Label) : Decidable (n.Meets id filter) :=
  inferInstanceAs (Decidable (_ ∧ _))

namespace NeighbourList

/-! ## Scans -/

/-- A scan that hits stops at the first entry from its start on that it looks for. -/
theorem scan_hit {l : NeighbourList} {id : VertexId} {filter : Label} {start i : Nat}
    (h : l.scan id filter start = .hit i) :
    start ≤ i ∧ ∃ hi : i < l.entries.size, l.entries[i].Meets id filter ∧
      ∀ j (_ : j < l.entries.size), start ≤ j → j < i → ¬ l.entries[j].Meets id filter := by
  fun_induction NeighbourList.scan l id filter start with
  | case1 => cases h
  | case2 start hs _ hmeets =>
    cases h
    exact ⟨Nat.le_refl _, hs, hmeets, fun j _ hij hji => by omega⟩
  | case3 start hs _ hne ih =>
    obtain ⟨hle, hi, hmeets, hfirst⟩ := ih h
    refine ⟨by omega, hi, hmeets, fun j hj hij hji => ?_⟩
    rcases Nat.eq_or_lt_of_le hij with rfl | hlt
    · exact hne
    · exact hfirst j hj hlt hji
  | case4 => cases h

/-- A scan that misses has passed the entries up to the neighbour, and stops where
all entries are past it. -/
theorem scan_past {l : NeighbourList} {id : VertexId} {filter : Label} {start i : Nat}
    (h : l.scan id filter start = .past i) :
    (∀ j (_ : j < l.entries.size), i ≤ j → id < l.entries[j].id) ∧
      ∀ j (_ : j < l.entries.size), start ≤ j → j < i →
        l.entries[j].id ≤ id ∧ ¬ l.entries[j].Meets id filter := by
  fun_induction NeighbourList.scan l id filter start with
  | case1 start hs hlt =>
    cases h
    refine ⟨fun j hj hij => ?_, fun j _ hij hji => by omega⟩
    exact UInt32.lt_of_lt_of_le hlt (l.id_le_of_le_index hij hj)
  | case2 => cases h
  | case3 start hs hnlt hne ih =>
    obtain ⟨hpast, hbefore⟩ := ih h
    refine ⟨hpast, fun j hj hij hji => ?_⟩
    rcases Nat.eq_or_lt_of_le hij with rfl | hlt
    · exact ⟨UInt32.not_lt.mp hnlt, hne⟩
    · exact hbefore j hj hlt hji
  | case4 start hs =>
    cases h
    exact ⟨fun j hj hij => by omega, fun j hj hij hji => by omega⟩

/-- A scan finds something exactly when some entry from its start on is looked for. -/
theorem found?_scan_isSome {l : NeighbourList} {id : VertexId} {filter : Label} {start : Nat} :
    (l.scan id filter start).found?.isSome = true ↔
      ∃ (j : Nat) (_ : j < l.entries.size), start ≤ j ∧ l.entries[j].Meets id filter := by
  cases h : l.scan id filter start with
  | hit i =>
    obtain ⟨hle, hi, hmeets, -⟩ := scan_hit h
    exact ⟨fun _ => ⟨i, hi, hle, hmeets⟩, fun _ => rfl⟩
  | past i =>
    obtain ⟨hpast, hbefore⟩ := scan_past h
    refine ⟨fun hnone => Bool.noConfusion hnone, ?_⟩
    intro h
    obtain ⟨j, hj, hle, hmeets⟩ := h
    rcases Nat.lt_or_ge j i with hlt | hge
    · exact absurd hmeets (hbefore j hj hle hlt).2
    · exact absurd (hmeets.1 ▸ hpast j hj hge) (UInt32.lt_irrefl _)

/-- The halving search starts a lookup before every entry of the neighbour. -/
theorem lowerBound_first_le {l : NeighbourList} {id : VertexId} {filter : Label} {j : Nat}
    (hj : j < l.entries.size) (h : l.entries[j].Meets id filter) :
    l.lowerBound (Neighbour.first id) ≤ j := by
  refine Nat.not_lt.mp fun hlt => ?_
  have hbelow := (l.lowerBound_splits (Neighbour.first id)).1 j hj hlt
  refine (Neighbour.lt_iff_le_and_ne.mp hbelow).2 ?_
  refine Neighbour.le_antisymm (Neighbour.le_of_lt hbelow) (Neighbour.first_le.mpr ?_)
  rw [h.1]
  exact UInt32.le_refl id

/-- A lookup holds exactly when some entry of the neighbour passes the filter. -/
theorem contains_iff {l : NeighbourList} {id : VertexId} {filter : Label} :
    l.contains id filter = true ↔ ∃ n ∈ l, n.Meets id filter := by
  rw [contains, search, found?_scan_isSome]
  constructor
  · intro h
    obtain ⟨j, hj, -, hmeets⟩ := h
    exact ⟨_, l.mem_of_getElem hj, hmeets⟩
  · intro h
    obtain ⟨n, hn, hmeets⟩ := h
    obtain ⟨j, hj, rfl⟩ := exists_getElem_of_mem hn
    exact ⟨j, hj, lowerBound_first_le hj hmeets, hmeets⟩

/-- A lookup answers as a pass over all entries would. -/
theorem contains_eq_any (l : NeighbourList) (id : VertexId) (filter : Label) :
    l.contains id filter = l.toList.any fun n => n.id == id && filter.accepts n.label := by
  rw [Bool.eq_iff_iff, contains_iff, List.any_eq_true]
  simp [Neighbour.Meets, mem_iff]

/-- Under a concrete filter, a lookup is membership of the one possible entry. -/
theorem contains_concrete {l : NeighbourList} {id : VertexId} {label : Label}
    (h : label.isAny = false) : l.contains id label = true ↔ ⟨id, label⟩ ∈ l := by
  rw [contains_iff]
  constructor
  · intro h
    obtain ⟨⟨id', label'⟩, hn, rfl, haccepts⟩ := h
    rw [Label.accepts_of_concrete h, decide_eq_true_iff] at haccepts
    exact haccepts ▸ hn
  · intro hn
    exact ⟨⟨id, label⟩, hn, rfl, Label.accepts_self label⟩

/-! ## Distinct neighbours -/

/-- From a sorted run past the last listed neighbour, each further neighbour that
passes the filter is listed once, in ascending order. -/
theorem distinctIds_spec (filter : Label) {last : Option VertexId} {ns : List Neighbour}
    (hs : ns.Pairwise (· ≤ ·)) (hlast : ∀ v ∈ last, ∀ n ∈ ns, v ≤ n.id) :
    (distinctIds filter last ns).Pairwise (· < ·) ∧
      (∀ id ∈ distinctIds filter last ns, ∀ v ∈ last, v < id) ∧
      ∀ id, id ∈ distinctIds filter last ns ↔ last ≠ some id ∧ ∃ n ∈ ns, n.Meets id filter := by
  fun_induction distinctIds filter last ns with
  | case1 => simp
  | case2 last n rest hcond ih =>
    obtain ⟨hle, hs⟩ := List.pairwise_cons.mp hs
    obtain ⟨hasc, habove, hmem⟩ := ih hs (by
      rintro v hv m hm
      cases hv
      exact Neighbour.id_le_of_le (hle m hm))
    have hlt : ∀ v ∈ last, v < n.id := fun v hv =>
      UInt32.lt_of_le_of_ne (hlast v hv n List.mem_cons_self) (fun heq =>
        hcond.2 (heq ▸ hv))
    -- the neighbour is listed, and what follows is compared with it from here on
    refine ⟨List.pairwise_cons.mpr ⟨fun id hid => habove id hid _ rfl, hasc⟩, ?_, fun id => ?_⟩
    · intro id hid v hv
      rcases List.mem_cons.mp hid with rfl | hid
      · exact hlt v hv
      · exact UInt32.lt_trans (hlt v hv) (habove id hid _ rfl)
    · rw [List.mem_cons, hmem]
      constructor
      · rintro (rfl | ⟨hne, m, hm, hmeets⟩)
        · exact ⟨hcond.2, n, List.mem_cons_self, rfl, hcond.1⟩
        · refine ⟨fun hv => ?_, m, List.mem_cons_of_mem _ hm, hmeets⟩
          have hmn := Neighbour.id_le_of_le (hle m hm)
          rw [hmeets.1] at hmn
          exact UInt32.not_le.mpr (hlt id hv) hmn
      · intro h
        obtain ⟨_, m, hm, hmeets⟩ := h
        by_cases heq : id = n.id
        · exact Or.inl heq
        · refine Or.inr ⟨fun h => heq (Option.some.inj h).symm, m, ?_, hmeets⟩
          rcases List.mem_cons.mp hm with rfl | hm
          · exact absurd hmeets.1.symm heq
          · exact hm
  | case3 last n rest hcond ih =>
    obtain ⟨-, hs⟩ := List.pairwise_cons.mp hs
    -- the entry fails the filter or repeats the last listed neighbour
    obtain ⟨hasc, habove, hmem⟩ := ih hs fun v hv m hm => hlast v hv m (List.mem_cons_of_mem _ hm)
    refine ⟨hasc, habove, fun id => ?_⟩
    rw [hmem]
    constructor
    · intro h
      obtain ⟨hne, m, hm, hmeets⟩ := h
      exact ⟨hne, m, List.mem_cons_of_mem _ hm, hmeets⟩
    · intro h
      obtain ⟨hne, m, hm, hmeets⟩ := h
      rcases List.mem_cons.mp hm with rfl | hm
      · exact absurd ⟨hmeets.2, fun h => hne (h.trans (congrArg some hmeets.1))⟩ hcond
      · exact ⟨hne, m, hm, hmeets⟩

theorem filteredIds_ascending (l : NeighbourList) (filter : Label) :
    (l.filteredIds filter).Pairwise (· < ·) :=
  (distinctIds_spec filter l.sorted (by simp)).1

theorem mem_filteredIds {l : NeighbourList} {filter : Label} {id : VertexId} :
    id ∈ l.filteredIds filter ↔ l.contains id filter = true := by
  have hnone : ∀ v ∈ (none : Option VertexId), ∀ n ∈ l.entries.toList, v ≤ n.id := by simp
  have hmem := (distinctIds_spec filter l.sorted hnone).2.2 id
  rw [filteredIds, contains_iff]
  exact hmem.trans ⟨fun h => h.2, fun h => ⟨Option.some_ne_none id |>.symm, h⟩⟩

/-! ## Intersection -/

/-- The candidates that are not below an earlier one and pass a single lookup. -/
def advancingHits (l : NeighbourList) (filter : Label) :
    List VertexId → List VertexId → List VertexId
  | _, [] => []
  | seen, c :: rest =>
    if seen.all (· ≤ c) && l.contains c filter then
      c :: l.advancingHits filter (c :: seen) rest
    else l.advancingHits filter (c :: seen) rest

section AdvancingHits

variable {l : NeighbourList} {filter : Label} {seen rest : List VertexId} {c : VertexId}

theorem advancingHits_cons_hit (hc : ∀ s ∈ seen, s ≤ c) (h : l.contains c filter = true) :
    l.advancingHits filter seen (c :: rest) = c :: l.advancingHits filter (c :: seen) rest := by
  have hall : seen.all (· ≤ c) = true := by simpa using hc
  rw [advancingHits, hall, h]
  rfl

theorem advancingHits_cons_miss (h : l.contains c filter = false) :
    l.advancingHits filter seen (c :: rest) = l.advancingHits filter (c :: seen) rest := by
  rw [advancingHits, h, Bool.and_false]
  rfl

theorem advancingHits_cons_below {s : VertexId} (hs : s ∈ seen) (hcs : c < s) :
    l.advancingHits filter seen (c :: rest) = l.advancingHits filter (c :: seen) rest := by
  have hall : seen.all (· ≤ c) = false := by
    rw [List.all_eq_false]
    exact ⟨s, hs, by simpa [UInt32.not_le] using hcs⟩
  rw [advancingHits, hall, Bool.false_and]
  rfl

end AdvancingHits

/-- What a cursor knows after the candidates seen so far: what lies before it is
of no use to any candidate from those on, what lies from it on is below none. -/
structure CursorAt (l : NeighbourList) (filter : Label) (seen : List VertexId) (p : Nat) :
    Prop where
  before : ∀ j (_ : j < l.entries.size), j < p →
    ∃ c ∈ seen, l.entries[j].id ≤ c ∧ ¬ l.entries[j].Meets c filter
  after : ∀ j (_ : j < l.entries.size), p ≤ j → ∀ c ∈ seen, c ≤ l.entries[j].id

theorem CursorAt.start (l : NeighbourList) (filter : Label) : l.CursorAt filter [] 0 where
  before := fun j _ hj => absurd hj (Nat.not_lt_zero j)
  after := fun _ _ _ _ hc => absurd hc List.not_mem_nil

/-- Nothing before the cursor is an entry of an advancing candidate. -/
theorem CursorAt.not_meets {l : NeighbourList} {filter : Label} {seen : List VertexId}
    {p j : Nat} {c : VertexId} (h : l.CursorAt filter seen p) (hc : ∀ s ∈ seen, s ≤ c)
    (hj : j < l.entries.size) (hjp : j < p) : ¬ l.entries[j].Meets c filter := by
  intro hmeets
  obtain ⟨s, hs, hle, hnot⟩ := h.before j hj hjp
  have heq : s = c := UInt32.le_antisymm (hc s hs) (hmeets.1 ▸ hle)
  exact hnot (heq ▸ hmeets)

/-- A cursor stays where it is for a candidate below an earlier one. -/
theorem CursorAt.stay {l : NeighbourList} {filter : Label} {seen : List VertexId} {p : Nat}
    {c s : VertexId} (h : l.CursorAt filter seen p) (hs : s ∈ seen) (hcs : c < s) :
    l.CursorAt filter (c :: seen) p where
  before := fun j hj hjp => by
    obtain ⟨s', hs', hrest⟩ := h.before j hj hjp
    exact ⟨s', List.mem_cons_of_mem _ hs', hrest⟩
  after := fun j hj hpj c' hc' => by
    rcases List.mem_cons.mp hc' with rfl | hc'
    · exact UInt32.le_of_lt (UInt32.lt_of_lt_of_le hcs (h.after j hj hpj s hs))
    · exact h.after j hj hpj c' hc'

theorem CursorAt.scan_stay {l : NeighbourList} {filter : Label} {seen : List VertexId} {p : Nat}
    {c s : VertexId} (h : l.CursorAt filter seen p) (hp : p < l.entries.size) (hs : s ∈ seen)
    (hcs : c < s) : l.scan c filter p = .past p := by
  have hlt := UInt32.lt_of_lt_of_le hcs (h.after p hp (Nat.le_refl p) s hs)
  rw [scan, dif_pos hp, if_pos hlt]

/-- A cursor that hits an advancing candidate. -/
theorem CursorAt.hit {l : NeighbourList} {filter : Label} {seen : List VertexId} {p i : Nat}
    {c : VertexId} (h : l.CursorAt filter seen p) (hc : ∀ s ∈ seen, s ≤ c)
    (hscan : l.scan c filter p = .hit i) :
    l.contains c filter = true ∧ l.CursorAt filter (c :: seen) i := by
  obtain ⟨-, hi, hmeets, hfirst⟩ := scan_hit hscan
  refine ⟨contains_iff.mpr ⟨_, l.mem_of_getElem hi, hmeets⟩, ⟨fun j hj hji => ?_, ?_⟩⟩
  -- the cursor stops on the hit, so the entry hit stays in reach of an equal candidate
  · refine ⟨c, List.mem_cons_self, hmeets.1 ▸ l.id_le_of_le_index (Nat.le_of_lt hji) hi, ?_⟩
    rcases Nat.lt_or_ge j p with hlt | hge
    · exact h.not_meets hc hj hlt
    · exact hfirst j hj hge hji
  · intro j hj hij c' hc'
    have hle : c ≤ l.entries[j].id := hmeets.1 ▸ l.id_le_of_le_index hij hj
    rcases List.mem_cons.mp hc' with rfl | hc'
    · exact hle
    · exact UInt32.le_trans (hc c' hc') hle

/-- A cursor that moves past an advancing candidate. -/
theorem CursorAt.miss {l : NeighbourList} {filter : Label} {seen : List VertexId} {p i : Nat}
    {c : VertexId} (h : l.CursorAt filter seen p) (hc : ∀ s ∈ seen, s ≤ c)
    (hscan : l.scan c filter p = .past i) :
    l.contains c filter = false ∧ l.CursorAt filter (c :: seen) i := by
  obtain ⟨hpast, hbetween⟩ := scan_past hscan
  have hnone : ∀ j (hj : j < l.entries.size), ¬ l.entries[j].Meets c filter := by
    intro j hj hmeets
    rcases Nat.lt_or_ge j p with hlt | hge
    · exact h.not_meets hc hj hlt hmeets
    · rcases Nat.lt_or_ge j i with hji | hij
      · exact (hbetween j hj hge hji).2 hmeets
      · exact UInt32.lt_irrefl _ (hmeets.1 ▸ hpast j hj hij)
  refine ⟨?_, ⟨fun j hj hji => ?_, ?_⟩⟩
  · rw [Bool.eq_false_iff, ne_eq, contains_iff]
    intro h
    obtain ⟨n, hn, hmeets⟩ := h
    obtain ⟨j, hj, rfl⟩ := exists_getElem_of_mem hn
    exact hnone j hj hmeets
  · refine ⟨c, List.mem_cons_self, ?_, hnone j hj⟩
    rcases Nat.lt_or_ge j p with hlt | hge
    · obtain ⟨s, hs, hle, -⟩ := h.before j hj hlt
      exact UInt32.le_trans hle (hc s hs)
    · exact (hbetween j hj hge hji).1
  · intro j hj hij c' hc'
    have hle := UInt32.le_of_lt (hpast j hj hij)
    rcases List.mem_cons.mp hc' with rfl | hc'
    · exact hle
    · exact UInt32.le_trans (hc c' hc') hle

/-- A cursor at the end of the list has nothing left to hit. -/
theorem CursorAt.advancingHits_eq_nil {l : NeighbourList} {filter : Label}
    {seen candidates : List VertexId} {p : Nat} (h : l.CursorAt filter seen p)
    (hp : l.entries.size ≤ p) : l.advancingHits filter seen candidates = [] := by
  induction candidates generalizing seen with
  | nil => rfl
  | cons c rest ih =>
    have hrest : l.CursorAt filter (c :: seen) p := by
      refine ⟨fun j hj hjp => ?_, fun j hj hpj => by omega⟩
      obtain ⟨s, hs, hs'⟩ := h.before j hj hjp
      exact ⟨s, List.mem_cons_of_mem _ hs, hs'⟩
    -- an advancing candidate has no entry left, any other is not looked for
    by_cases hc : ∀ s ∈ seen, s ≤ c
    · cases hcontains : l.contains c filter with
      | false => rw [advancingHits_cons_miss hcontains, ih hrest]
      | true =>
        obtain ⟨n, hn, hmeets⟩ := contains_iff.mp hcontains
        obtain ⟨j, hj, rfl⟩ := exists_getElem_of_mem hn
        exact absurd hmeets (h.not_meets hc hj (by omega))
    · obtain ⟨s, hs, hcs⟩ : ∃ s ∈ seen, c < s := by
        simpa [UInt32.not_le] using hc
      rw [advancingHits_cons_below hs hcs, ih hrest]

/-- **The forward cursor agrees with single lookups**: whatever the candidates, an
intersection keeps those that are not below an earlier one and occur in the list. -/
theorem intersectFrom_eq {l : NeighbourList} {filter : Label} {seen candidates : List VertexId}
    {p : Nat} (h : l.CursorAt filter seen p) :
    l.intersectFrom filter candidates p = l.advancingHits filter seen candidates := by
  induction candidates generalizing seen p with
  | nil => rfl
  | cons c rest ih =>
    rw [intersectFrom]
    split
    · rename_i hp
      by_cases hc : ∀ s ∈ seen, s ≤ c
      · cases hscan : l.scan c filter p with
        | hit i =>
          obtain ⟨hcontains, hnext⟩ := h.hit hc hscan
          rw [advancingHits_cons_hit hc hcontains]
          exact congrArg (c :: ·) (ih hnext)
        | past i =>
          obtain ⟨hcontains, hnext⟩ := h.miss hc hscan
          rw [advancingHits_cons_miss hcontains]
          exact ih hnext
      -- the entry under the cursor is past such a candidate, so the scan ends at once
      · obtain ⟨s, hs, hcs⟩ : ∃ s ∈ seen, c < s := by
          simpa [UInt32.not_le] using hc
        rw [h.scan_stay hp hs hcs, advancingHits_cons_below hs hcs]
        exact ih (h.stay hs hcs)
    · rename_i hp
      exact (h.advancingHits_eq_nil (Nat.not_lt.mp hp)).symm

theorem advancingHits_of_ascending {l : NeighbourList} {filter : Label}
    {seen candidates : List VertexId} (h : candidates.Pairwise (· ≤ ·))
    (hseen : ∀ c ∈ candidates, ∀ s ∈ seen, s ≤ c) :
    l.advancingHits filter seen candidates = candidates.filter (l.contains · filter) := by
  induction candidates generalizing seen with
  | nil => rfl
  | cons c rest ih =>
    obtain ⟨hle, h⟩ := List.pairwise_cons.mp h
    have hrest : l.advancingHits filter (c :: seen) rest = rest.filter (l.contains · filter) := by
      refine ih h fun c' hc' s hs => ?_
      rcases List.mem_cons.mp hs with rfl | hs
      · exact hle c' hc'
      · exact hseen c' (List.mem_cons_of_mem _ hc') s hs
    have hc := hseen c List.mem_cons_self
    cases hcontains : l.contains c filter with
    | true =>
      rw [advancingHits_cons_hit hc hcontains, hrest]
      simp [hcontains]
    | false =>
      rw [advancingHits_cons_miss hcontains, hrest]
      simp [hcontains]

/-- On ascending candidates an intersection is the filter by single lookups. -/
theorem intersection_of_ascending {l : NeighbourList} {filter : Label}
    {candidates : List VertexId} (h : candidates.Pairwise (· < ·)) :
    l.intersection candidates filter = candidates.filter (l.contains · filter) := by
  rw [intersection, intersectFrom_eq (CursorAt.start l filter)]
  exact advancingHits_of_ascending (h.imp UInt32.le_of_lt) (by simp)

/-- The candidates that advance, picked out by their positions. -/
theorem advancingHits_eq_filter (l : NeighbourList) (filter : Label)
    (seen candidates : List VertexId) : l.advancingHits filter seen candidates =
      (candidates.zipIdx.filter fun (c, i) =>
        (seen ++ candidates.take i).all (· ≤ c) && l.contains c filter).map (·.1) := by
  induction candidates generalizing seen with
  | nil => rfl
  | cons c rest ih =>
    -- behind the first candidate, positions are one further on and that candidate is seen
    have hrest : ∀ x : VertexId × Nat, (seen ++ (c :: rest).take (x.2 + 1)).all (· ≤ x.1) =
        ((c :: seen) ++ rest.take x.2).all (· ≤ x.1) := fun x => by
      simp [List.all_append, Bool.and_left_comm]
    rw [advancingHits, ih, List.zipIdx_cons, List.zipIdx_succ, List.filter_cons, List.filter_map]
    simp only [Function.comp_def, hrest, List.take_zero, List.append_nil]
    split <;> simp [Function.comp_def]

/-- **An intersection keeps what single lookups keep**: of any candidates, those that are not
below an earlier one and occur in the list under the filter, whether the earlier ones occur or
not. Ascending candidates all advance, and what is kept is the filter by single lookups. -/
theorem intersection_exact (l : NeighbourList) (filter : Label) (candidates : List VertexId) :
    l.intersection candidates filter =
      (candidates.zipIdx.filter fun (c, i) =>
        (candidates.take i).all (· ≤ c) && l.contains c filter).map (·.1) ∧
    (candidates.Pairwise (· ≤ ·) →
      l.intersection candidates filter = candidates.filter (l.contains · filter)) := by
  rw [intersection, intersectFrom_eq (CursorAt.start l filter)]
  exact ⟨advancingHits_eq_filter l filter [] candidates,
    fun h => advancingHits_of_ascending h (by simp)⟩

/-- Two neighbours, one of them under two labels. -/
def joinedTwice : NeighbourList := ⟨#[⟨1, ⟨2⟩⟩, ⟨1, ⟨3⟩⟩, ⟨4, ⟨2⟩⟩], by decide⟩

/-- A candidate is kept as often as it is repeated, though only the later of its entries passes;
once the candidates have gone past it, it is not looked for any more. -/
theorem intersection_exact_repeated :
    ([1, 1, 2, 4] : List VertexId).Pairwise (· ≤ ·) ∧
    joinedTwice.intersection [1, 1, 2, 4] ⟨3⟩ = [1, 1] ∧
    joinedTwice.intersection [1, 3, 1, 4, 4, 1] ⟨2⟩ = [1, 4, 4] := by
  have hasc : ([1, 1, 2, 4] : List VertexId).Pairwise (· ≤ ·) := by decide
  refine ⟨hasc, ?_, ?_⟩
  · rw [(intersection_exact joinedTwice ⟨3⟩ _).2 hasc]
    simp only [contains_eq_any]
    decide
  · rw [(intersection_exact joinedTwice ⟨2⟩ _).1]
    simp only [contains_eq_any]
    decide

end NeighbourList
end DeltaMatch
