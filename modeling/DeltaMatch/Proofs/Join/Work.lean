import DeltaMatch.Proofs.Join.Intersections
import DeltaMatch.Proofs.Join.Rejection
import DeltaMatch.Proofs.Join.Safety
import Mathlib.Algebra.BigOperators.Intervals

/-!
# The work of an execution

The partial matches of a plan satisfy the rules of its first stages. Each of them is handed to
the next stage once, in whatever batch, and all that is reported of the work of an execution can
be counted by them.
-/

namespace DeltaMatch

theorem JoinStats.sum_extensions {ι : Type} (s : Finset ι) (a b : ι → Nat) :
    ∑ i ∈ s, ({ prefixesExtended := a i, intersections := b i } : JoinStats) =
      { prefixesExtended := ∑ i ∈ s, a i, intersections := ∑ i ∈ s, b i } := by
  classical
  induction s using Finset.induction_on with
  | empty => rfl
  | insert i s hi ih =>
    rw [Finset.sum_insert hi, Finset.sum_insert hi, Finset.sum_insert hi, ih]
    rfl

namespace Plan

variable {M : Type} [AddCommMonoid M] {amount : Join.Event → M} {each : M} {g : Graph} {p : Plan}
  {size : Nat} {seed : Rule} {checks : List Rule} {rest : List Stage}

/-- The partial matches that the first stages yield. -/
def partials (p : Plan) (g : Graph) (s : Nat) : Finset Tuple := ((p.upTo s).depthFirst g).toFinset

/-- **The partial matches** are the tuples that satisfy the rules of these stages. -/
theorem mem_partials (hg : g.WellFormed) (hp : p.Valid) {s : Nat} (hs : 1 ≤ s) {t : Tuple} :
    t ∈ p.partials g s ↔ (p.upTo s).Matches g t := by
  obtain ⟨s, rfl⟩ := Nat.exists_eq_add_of_le' hs
  rw [partials, List.mem_toFinset, mem_depthFirst hg (hp.upTo s)]

theorem sum_partials (hg : g.WellFormed) (hp : Valid ⟨(seed :: checks) :: rest⟩) (s : Nat)
    (f : Tuple → M) : ∑ t ∈ partials ⟨(seed :: checks) :: rest⟩ g (s + 1), f t =
      (((Join.seeds g seed checks).flatMap (Join.completions g (rest.take s))).map f).sum :=
  List.sum_toFinset f (nodup_depthFirst hg (hp.upTo s))

theorem card_partials (hg : g.WellFormed) (hp : p.Valid) :
    (p.partials g p.stages.length).card = (p.depthFirst g).length := by
  rw [partials, upTo, List.take_length, List.toFinset_card_of_nodup (nodup_depthFirst hg hp)]

theorem Valid.exists_stages (hp : p.Valid) :
    ∃ seed checks rest, p.stages = (seed :: checks) :: rest := by
  cases hp with
  | intro => exact ⟨_, _, _, rfl⟩

/-- The rules of the stage with a number; past the last stage there are none. -/
def stageAt (p : Plan) (s : Nat) : Stage := p.stages.getD s []

/-- A later stage has rules, and they read states. -/
theorem stageAt_fits (hp : p.Valid) {s : Nat} (hs : s ∈ Finset.Ico 1 p.stages.length) :
    p.stageAt s ≠ [] ∧ ∀ r ∈ p.stageAt s, r.view.isIndexable = true := by
  obtain ⟨hone, hlt⟩ := Finset.mem_Ico.mp hs
  obtain ⟨s, rfl⟩ := Nat.exists_eq_add_of_le' hone
  cases hp with
  | @intro seed checks rest hslot hchecks hrest =>
    have hlt : s < rest.length := Nat.lt_of_succ_lt_succ hlt
    have hget : rest[s]? = some (stageAt ⟨(seed :: checks) :: rest⟩ (s + 1)) := by
      rw [stageAt, List.getD_cons_succ, List.getD_eq_getElem?_getD, List.getElem?_eq_getElem hlt]
      rfl
    obtain ⟨hne, hrules⟩ := laterFit_iff_getElem?.mp hrest s _ hget
    exact ⟨hne, fun r hr => (hrules r hr).2⟩

/-- **An execution amounts to its first stage, to the extension of each partial match by the next
stage, and to the matches.** -/
theorem total_planEvents (hemits : Join.Emits amount each) (hg : g.WellFormed) (hp : p.Valid)
    (hstages : p.stages = (seed :: checks) :: rest) :
    Join.total amount (Join.planEvents g size p) = Join.seedTotal amount g seed checks +
      (∑ s ∈ Finset.Ico 1 p.stages.length, ∑ t ∈ p.partials g s,
        Join.total amount (Join.extensionEvents g (p.stageAt s) t) +
      (p.partials g p.stages.length).card • each) := by
  rw [card_partials hg hp]
  obtain ⟨stages⟩ := p
  obtain rfl : stages = (seed :: checks) :: rest := hstages
  rw [Join.total_planEvents hemits, Join.sum_completionTotal, Finset.sum_Ico_eq_sum_range]
  congr 2
  refine Finset.sum_congr rfl fun s _ => ?_
  rw [Nat.add_comm 1 s, sum_partials hg hp]
  rfl

/-! ## Reports -/

/-- **The work of an execution, counted by partial matches.** -/
theorem depthFirstWork_eq (hg : g.WellFormed) (hp : p.Valid)
    (hstages : p.stages = (seed :: checks) :: rest) : p.depthFirstWork g =
      { seedsScanned := (g.edges seed.view seed.direction (.onLabel seed.filter)).length
        prefixesExtended := ∑ s ∈ Finset.Ico 1 p.stages.length, (p.partials g s).card
        intersections := ∑ s ∈ Finset.Ico 1 p.stages.length, ∑ t ∈ p.partials g s,
          (Join.intersected g (p.stageAt s) t).ncard
        tuplesEmitted := (p.partials g p.stages.length).card } := by
  have hextension : ∀ s ∈ Finset.Ico 1 p.stages.length, ∑ t ∈ p.partials g s,
      Join.total Join.Event.work (Join.extensionEvents g (p.stageAt s) t) =
        { prefixesExtended := (p.partials g s).card
          intersections := ∑ t ∈ p.partials g s, (Join.intersected g (p.stageAt s) t).ncard } := by
    intro s hs
    obtain ⟨hne, hview⟩ := stageAt_fits hp hs
    simp only [Join.total_work_extensionEvents, Join.snd_candidatesAt hg hne hview,
      JoinStats.sum_extensions, Finset.card_eq_sum_ones]
  have hwork : Join.total Join.Event.work (Join.planEvents g 1 p) = p.depthFirstWork g :=
    Join.total_work_planEvents p
  rw [← hwork, total_planEvents Join.emits_work hg hp hstages,
    Join.seedTotal_work, Finset.sum_congr rfl hextension, JoinStats.sum_extensions,
    Join.nsmul_emitted]
  simp [JoinStats.add_def, Join.seedEdges]

theorem lookups_planEvents (hg : g.WellFormed) (hp : p.Valid) :
    Join.total Join.Event.lookups (Join.planEvents g size p) =
      Join.total Join.Event.lookups (Join.planEvents g size (p.upTo 1)) +
        ∑ s ∈ Finset.Ico 1 p.stages.length, ∑ _t ∈ p.partials g s,
          ((p.stageAt s).map fun r => Lookups.one r.view).sum := by
  have hextension : ∀ (stage : Stage) (t : Tuple),
      Join.total Join.Event.lookups (Join.extensionEvents g stage t) =
        (stage.map fun r => Lookups.one r.view).sum := by
    intro stage t
    simp [Join.extensionEvents, Join.total, Join.Event.lookups, Function.comp_def]
  obtain ⟨seed, checks, rest, hstages⟩ := hp.exists_stages
  have hfirst : (p.upTo 1).stages = (seed :: checks) :: [] := by rw [upTo, hstages]; rfl
  rw [total_planEvents Join.emits_lookups hg hp hstages,
    total_planEvents Join.emits_lookups hg (hp.upTo 0) hfirst, hfirst]
  simp [hextension]

/-- An accepted execution makes all the lookups of its transcript. -/
theorem lookups_execute (hg : g.WellFormed) (hp : p.Valid) {n : Nat} (hn : n ≤ batchLimit)
    {σ : Type} {sink : TupleSink σ} {s : σ} (haccepts : sink.Accepts s) :
    (p.execute g n sink s).lookups =
      Join.total Join.Event.lookups (Join.planEvents g (batchSizeOf n) p) := by
  have hrun := Join.run_play_of_accepted (p := { sink := s })
    (haccepts (Join.offers (Join.planEvents g (batchSizeOf n) p)))
  rw [execute, Join.run_eq_play hg hp (batchSizeOf_le hn), hrun]
  exact zero_add _

/-- **The work of an execution is counted by its partial matches.** Each of them is handed to the
next stage once, which looks up one list for each of its rules, and intersects as long as the
rules so far admit a vertex. What is emitted is what the sink is offered, the matches. With a size
for which no batch can be reserved there is no report, and no work either. -/
theorem work_exact (hg : g.Reachable) (hp : p.validate = .ok ()) :
    ∃ seed checks rest, p.stages = (seed :: checks) :: rest ∧ ∃ P : Nat → Finset Tuple,
      (∀ s, 1 ≤ s → s ≤ p.stages.length → ∀ t, t ∈ P s ↔ (p.upTo s).Matches g t) ∧
      (∀ n, n ≤ batchLimit → ∀ {σ : Type} (sink : TupleSink σ) (s : σ), sink.Accepts s →
        (p.execute g n sink s).result = .ok
          { seedsScanned := (g.edges seed.view seed.direction (.onLabel seed.filter)).length
            prefixesExtended := ∑ s ∈ Finset.Ico 1 p.stages.length, (P s).card
            intersections := ∑ s ∈ Finset.Ico 1 p.stages.length, ∑ t ∈ P s,
              (Join.intersected g (p.stageAt s) t).ncard
            tuplesEmitted := (P p.stages.length).card } ∧
        (p.offered g n sink s).flatten.length = (P p.stages.length).card ∧
        (p.execute g n sink s).lookups = ((p.upTo 1).execute g n sink s).lookups +
          ∑ s ∈ Finset.Ico 1 p.stages.length, ∑ _t ∈ P s,
            ((p.stageAt s).map fun r => Lookups.one r.view).sum) ∧
      ∀ n, batchLimit < n → p.Overflows g n := by
  have hp := validate_eq_ok_iff.mp hp
  have hg := hg.wellFormed
  obtain ⟨seed, checks, rest, hstages⟩ := hp.exists_stages
  refine ⟨seed, checks, rest, hstages, p.partials g, fun s hs _ t => mem_partials hg hp hs,
    fun n hn σ sink s haccepts => ⟨?_, ?_, ?_⟩, fun n => overflows hp g⟩
  · rw [(executes_batches hg hp hn sink s).2, haccepts, depthFirstWork_eq hg hp hstages]
  · rw [offered_eq_heard hg hp hn, haccepts.heard_eq, flatten_batches, card_partials hg hp]
  · rw [lookups_execute hg hp hn haccepts, lookups_execute hg (hp.upTo 0) hn haccepts,
      lookups_planEvents hg hp]

/-- Prefixes from a pair joined twice and from a pending edge, extended in both states. -/
theorem work_exact_mixed_views :
    let g := ([.add ⟨0, 1, ⟨2⟩⟩, .add ⟨0, 1, ⟨3⟩⟩, .add ⟨1, 0, ⟨2⟩⟩, .add ⟨1, 2, ⟨3⟩⟩, .commit,
      .add ⟨0, 2, ⟨5⟩⟩] : List Graph.Op).foldl Graph.step .empty
    let p : Plan := ⟨[[⟨0, .forward, .merged, .any⟩],
      [⟨1, .forward, .merged, .any⟩, ⟨0, .forward, .permanent, .any⟩]]⟩
    ∃ P : Nat → Finset Tuple,
      (∀ t, t ∈ P 1 ↔ (p.upTo 1).Matches g t) ∧ (∀ t, t ∈ P 2 ↔ p.Matches g t) ∧
      (p.execute g 3 collectTuples #[]).result = .ok
        ⟨(g.edges .merged .forward (.onLabel .any)).length, (P 1).card,
          ∑ t ∈ P 1, (Join.intersected g (p.stageAt 1) t).ncard, (P 2).card⟩ ∧
      (p.offered g 3 collectTuples #[]).flatten.length = (P 2).card ∧
      (p.execute g 3 collectTuples #[]).lookups =
        ((p.upTo 1).execute g 3 collectTuples #[]).lookups + (P 1).card • (⟨1, 1⟩ : Lookups) := by
  intro g p
  have hg : g.Reachable := (Graph.Reachable.origin .empty).foldl _
  obtain ⟨seed, checks, rest, hstages, P, hmem, hrun, -⟩ := work_exact hg (p := p) rfl
  obtain ⟨hresult, hoffered, hlookups⟩ :=
    hrun 3 (by decide) collectTuples #[] (collectTuples_accepts #[])
  cases hstages
  have hlater : Finset.Ico 1 p.stages.length = {1} := rfl
  have hboth : ((p.stageAt 1).map fun r => Lookups.one r.view).sum = ⟨1, 1⟩ := rfl
  rw [hlater, Finset.sum_singleton, Finset.sum_singleton] at hresult
  rw [hlater, Finset.sum_singleton, hboth, Finset.sum_const] at hlookups
  exact ⟨P, hmem 1 (by decide) (by decide), hmem 2 (by decide) (by decide), hresult, hoffered,
    hlookups⟩

/-- The first stage yields a partial match, for which the second one has a list to look up. With the
largest size that a word can hold, no list is looked up and no work is reported. -/
theorem partial_match_not_extended :
    let p : Plan := ⟨[[⟨0, .forward, .merged, .any⟩], [⟨1, .forward, .merged, .any⟩]]⟩
    oneEdge.Reachable ∧ p.validate = .ok () ∧ collectTuples.Accepts #[] ∧
      (p.upTo 1).Matches oneEdge [0, 1] ∧
      (p.execute oneEdge 18446744073709551615 collectTuples #[]).lookups = {} ∧
      (p.execute oneEdge 18446744073709551615 collectTuples #[]).result =
        .error .batchTooLarge := by
  intro p
  have hoverflows : p.Overflows oneEdge 18446744073709551615 :=
    overflows (validate_eq_ok_iff.mp rfl) oneEdge (by decide)
  have hexecute := hoverflows.execute_eq collectTuples #[]
  exact ⟨oneEdge_reachable, rfl, collectTuples_accepts #[], anyEdge_matches, by rw [hexecute],
    by rw [hexecute]⟩

end Plan
end DeltaMatch
