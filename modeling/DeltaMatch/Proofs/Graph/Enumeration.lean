import DeltaMatch.Proofs.Graph.Relation

/-!
# The order of enumeration

The edges of a state are listed by the vertex whose lists are walked and then by entry:
forward by source, target and label, and backward by target, source and label. A list in
this order is known by its members.
-/

namespace DeltaMatch

/-- The edge is listed before the other one, walking the lists of a direction: forward by source,
target and label, backward by target, source and label. -/
def Edge.Precedes (d : Direction) (e e' : Edge) : Prop :=
  e.anchor d < e'.anchor d ∨ (e.anchor d = e'.anchor d ∧ e.entry d < e'.entry d)

namespace Edge

variable {d : Direction} {e e' : Edge} {edges edges' : List Edge}

instance (d : Direction) : DecidableRel (Precedes d) := fun e e' =>
  inferInstanceAs (Decidable (e.anchor d < e'.anchor d ∨
    (e.anchor d = e'.anchor d ∧ e.entry d < e'.entry d)))

theorem Precedes.asymm (h : Precedes d e e') : ¬ Precedes d e' e := by
  simp only [Precedes, UInt32.lt_iff_toNat_lt, ← UInt32.toNat_inj, Neighbour.lt_iff] at h ⊢
  omega

theorem nodup_of_ascending (h : edges.Pairwise (Precedes d)) : edges.Nodup := by
  refine h.imp ?_
  rintro e e' hlt rfl
  exact hlt.asymm hlt

/-- **Ascending lists with the same members are equal.** -/
theorem eq_of_ascending (h : edges.Pairwise (Precedes d)) (h' : edges'.Pairwise (Precedes d))
    (hmem : ∀ e, e ∈ edges ↔ e ∈ edges') : edges = edges' := by
  have hperm : edges.Perm edges' :=
    (List.perm_ext_iff_of_nodup (nodup_of_ascending h) (nodup_of_ascending h')).mpr hmem
  refine hperm.eq_of_pairwise ?_ h h'
  intro e e' _ _ hlt hgt
  exact absurd hgt hlt.asymm

end Edge

namespace Graph

variable {g : Graph} {view : View}

/-- **The edges of a state are listed in order.** -/
theorem Coherent.ascending_listedEdges (h : g.Coherent)
    (hsize : g.vertexCount view ≤ UInt32.size) (d : Direction) :
    (g.listedEdges view d).Pairwise (Edge.Precedes d) := by
  rw [listedEdges, List.pairwise_flatMap]
  constructor
  · intro i _
    rw [List.pairwise_map]
    refine (h.ascending view d _).imp ?_
    intro n n' hlt
    exact Or.inr ⟨by simp, by simpa using hlt⟩
  · refine List.pairwise_lt_range.imp_of_mem ?_
    intro i j hi hj hij e he e' he'
    obtain ⟨n, -, rfl⟩ := List.mem_map.mp he
    obtain ⟨n', -, rfl⟩ := List.mem_map.mp he'
    -- the lists of different vertices follow one another
    rw [List.mem_range] at hi hj
    refine Or.inl ?_
    rw [Neighbour.anchor_edgeOf, Neighbour.anchor_edgeOf, UInt32.lt_iff_toNat_lt,
      UInt32.toNat_ofNat_of_lt' (by omega), UInt32.toNat_ofNat_of_lt' (by omega)]
    exact hij

end Graph
end DeltaMatch
