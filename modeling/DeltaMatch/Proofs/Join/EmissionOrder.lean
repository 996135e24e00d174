import DeltaMatch.Proofs.Join.Rejection

/-!
# The order of the matches

Nothing sorts the matches, and yet they come in order. The pairs of a state seed their prefixes
in ascending order, the candidates of a slot ascend as well, and batches go on in the order in
which they are filled. A log seeds in its own order, and the matches of one seed ascend.
-/

namespace DeltaMatch
namespace Join

variable {g : Graph} {seed : Rule} {checks : List Rule} {stages : List Stage} {s t t' : Tuple}

theorem length_of_mem_seeds (hs : s ∈ seeds g seed checks) : s.length = 2 := by
  obtain ⟨hs, -⟩ := List.mem_filter.mp hs
  obtain ⟨pair, -, rfl⟩ := List.mem_map.mp hs
  cases seed.direction <;> rfl

/-- A completion of a seed starts with it. -/
theorem take_of_mem_completions (hs : s ∈ seeds g seed checks) (ht : t ∈ completions g stages s) :
    t.take 2 = s := by
  obtain ⟨x, rfl⟩ := isPrefix_of_mem_completions ht
  exact List.take_left' (length_of_mem_seeds hs)

/-! ## Seeds from a state -/

theorem ascending_seeds (hg : g.WellFormed) (hview : seed.view.isIndexable = true) :
    (seeds g seed checks).Pairwise (· < ·) := by
  refine List.Pairwise.filter _ ?_
  rw [List.pairwise_map]
  exact (ascending_distinctPairs hg hview).filter _

theorem ascending_completions_seeds (hg : g.WellFormed) (hview : seed.view.isIndexable = true)
    (hfit : Plan.LaterFit 2 stages) :
    ((seeds g seed checks).flatMap (completions g stages)).Pairwise (· < ·) := by
  rw [List.pairwise_flatMap]
  refine ⟨fun s _ => ascending_completions hfit s, ?_⟩
  refine (ascending_seeds hg hview).imp_of_mem fun {s s'} hs hs' hlt t ht t' ht' => ?_
  have hlength := (length_of_mem_seeds hs).trans (length_of_mem_seeds hs').symm
  exact lt_of_isPrefix hlt hlength (isPrefix_of_mem_completions ht)
    (isPrefix_of_mem_completions ht')

/-! ## Seeds from a log -/

/-- The place in a log of the first edge that passes the filter of the seed and has its endpoints
in the first two slots of the tuple. -/
def seedRank (seed : Rule) (log : EditLog) (t : Tuple) : Nat :=
  log.toList.findIdx fun e =>
    seed.filter.accepts e.label && seedPrefix seed.direction e.pair == t.take 2

/-- Tuples in the order of a log. Those that share their first two slots are next to each other
and ascend. Before them are those whose first two slots come from an earlier edge, and all have
an edge that they come from. -/
structure FollowsLog (seed : Rule) (log : EditLog) (tuples : List Tuple) : Prop where
  logged : ∀ t ∈ tuples, seedRank seed log t < log.toList.length
  ordered : tuples.Pairwise fun t t' =>
    seedRank seed log t < seedRank seed log t' ∨ (t.take 2 = t'.take 2 ∧ t < t')

theorem FollowsLog.sublist {log : EditLog} {tuples tuples' : List Tuple}
    (h : FollowsLog seed log tuples) (hsub : tuples'.Sublist tuples) :
    FollowsLog seed log tuples' :=
  ⟨fun t ht => h.logged t (hsub.subset ht), h.ordered.sublist hsub⟩

theorem seedRank_congr {log : EditLog} (h : t.take 2 = t'.take 2) :
    seedRank seed log t = seedRank seed log t' := by
  rw [seedRank, seedRank, h]

theorem seedRank_seedPrefix (log : EditLog) (pair : VertexId × VertexId) :
    seedRank seed log (seedPrefix seed.direction pair) =
      log.toList.findIdx fun e => seed.filter.accepts e.label && e.pair == pair := by
  have htake : (seedPrefix seed.direction pair).take 2 = seedPrefix seed.direction pair := by
    cases seed.direction <;> rfl
  have hkey : ∀ e : Edge,
      (seedPrefix seed.direction e.pair == seedPrefix seed.direction pair) = (e.pair == pair) :=
    fun e => by
      rw [Bool.eq_iff_iff, beq_iff_eq, beq_iff_eq]
      exact (seedPrefix_injective seed.direction).eq_iff
  rw [seedRank, htake]
  simp only [hkey]

theorem seedRank_lt_of_mem_seeds {log : EditLog} (hlog : g.diff seed.view = .ok log)
    (hs : s ∈ seeds g seed checks) : seedRank seed log s < log.toList.length := by
  obtain ⟨hs, -⟩ := List.mem_filter.mp hs
  obtain ⟨pair, hpair, rfl⟩ := List.mem_map.mp hs
  obtain ⟨hpair, -⟩ := List.mem_filter.mp hpair
  obtain ⟨e, he, rfl⟩ := List.mem_map.mp (mem_distinctPairs.mp hpair)
  rw [seedEdges, Graph.edges_of_diff hlog, List.mem_filter] at he
  obtain ⟨hmem, hpass⟩ := he
  have hpass : seed.filter.accepts e.label = true := by
    simpa [Graph.passes, EdgeFilter.onLabel, EdgeFilter.all] using hpass
  rw [seedRank_seedPrefix]
  exact List.findIdx_lt_length_of_exists ⟨e, hmem, by simp [hpass]⟩

theorem pairwise_seedRank_seeds {log : EditLog} (hlog : g.diff seed.view = .ok log) :
    (seeds g seed checks).Pairwise fun s s' => seedRank seed log s < seedRank seed log s' := by
  refine List.Pairwise.filter _ ?_
  rw [List.pairwise_map]
  refine List.Pairwise.filter _ ?_
  simp only [seedRank_seedPrefix]
  exact pairwise_findIdx_distinctPairs hlog

theorem followsLog_completions_seeds {log : EditLog} (hlog : g.diff seed.view = .ok log)
    (hfit : Plan.LaterFit 2 stages) :
    FollowsLog seed log ((seeds g seed checks).flatMap (completions g stages)) := by
  have hrank : ∀ {s t}, s ∈ seeds g seed checks → t ∈ completions g stages s →
      seedRank seed log t = seedRank seed log s := by
    intro s t hs ht
    refine seedRank_congr ?_
    rw [take_of_mem_completions hs ht,
      List.take_of_length_le (Nat.le_of_eq (length_of_mem_seeds hs))]
  constructor
  · intro t ht
    obtain ⟨s, hs, ht⟩ := List.mem_flatMap.mp ht
    rw [hrank hs ht]
    exact seedRank_lt_of_mem_seeds hlog hs
  · rw [List.pairwise_flatMap]
    constructor
    · intro s hs
      refine (ascending_completions hfit s).imp_of_mem fun {t t'} ht ht' hlt => ?_
      refine Or.inr ⟨?_, hlt⟩
      rw [take_of_mem_completions hs ht, take_of_mem_completions hs ht']
    · refine (pairwise_seedRank_seeds hlog).imp_of_mem fun {s s'} hs hs' hlt t ht t' ht' => ?_
      rw [hrank hs ht, hrank hs' ht']
      exact Or.inl hlt

end Join

namespace Plan

variable {σ : Type} {g : Graph} {p : Plan}

/-- What a sink is offered is a beginning of the depth-first evaluation. -/
theorem flatten_offered_isPrefix (hg : g.WellFormed) (hp : p.Valid) (n : Nat)
    (sink : TupleSink σ) (s : σ) : (p.offered g n sink s).flatten <+: p.depthFirst g := by
  rcases Nat.lt_or_ge batchLimit n with hn | hn
  · rw [(overflows hp g hn).offered_eq]
    exact List.nil_prefix
  · rw [offered_eq_heard hg hp hn, ← flatten_batches p n]
    obtain ⟨unheard, heq⟩ := Sink.heard_isPrefix sink s (p.batches g n)
    exact ⟨unheard.flatten, by rw [← List.flatten_append, heq]⟩

/-- **The order of emission.** A plan that is seeded from a state offers its matches in strictly
ascending order. A plan that is seeded from a log offers them grouped by their first two slots,
the groups in the order of the log and each of them strictly ascending. The size of the batches
has no influence, and neither has the sink. -/
theorem emission_order (hg : g.Reachable) (hp : p.validate = .ok ()) (n : Nat)
    (sink : TupleSink σ) (s : σ) : ∃ seed checks rest, p.stages = (seed :: checks) :: rest ∧
      (seed.view.isIndexable = true → (p.offered g n sink s).flatten.Pairwise (· < ·)) ∧
      ∀ log, g.diff seed.view = .ok log →
        Join.FollowsLog seed log (p.offered g n sink s).flatten := by
  have hg := hg.wellFormed
  have hp := validate_eq_ok_iff.mp hp
  have hsub := (flatten_offered_isPrefix hg hp n sink s).sublist
  cases hp with
  | @intro seed checks rest hslot hchecks hrest =>
    refine ⟨seed, checks, rest, rfl, fun hview => ?_, fun log hlog => ?_⟩
    · exact (Join.ascending_completions_seeds hg hview hrest).sublist hsub
    · exact (Join.followsLog_completions_seeds hlog hrest).sublist hsub

/-- A triangle whose edges are added in another order than that of its vertices, seeded from the
log, and one of its edges twice under different labels. -/
theorem emission_order_triangle :
    let g := ([.add ⟨2, 0, ⟨3⟩⟩, .add ⟨0, 1, ⟨3⟩⟩, .add ⟨1, 2, ⟨3⟩⟩, .add ⟨0, 1, ⟨4⟩⟩] :
      List Graph.Op).foldl Graph.step .empty
    let p : Plan := ⟨[[⟨0, .forward, .diffPlus, .any⟩],
      [⟨0, .backward, .merged, .any⟩, ⟨1, .forward, .merged, .any⟩]]⟩
    ∃ seed checks rest, p.stages = (seed :: checks) :: rest ∧
      ∀ log, g.diff seed.view = .ok log →
        Join.FollowsLog seed log (p.offered g 2 collectTuples #[]).flatten := by
  intro g p
  have hg : g.Reachable := (Graph.Reachable.origin .empty).foldl _
  obtain ⟨seed, checks, rest, hstages, -, hlog⟩ :=
    emission_order hg (p := p) rfl 2 collectTuples #[]
  exact ⟨seed, checks, rest, hstages, hlog⟩

end Plan
end DeltaMatch
