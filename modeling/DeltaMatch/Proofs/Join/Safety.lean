import DeltaMatch.Proofs.Join.Delivery

/-!
# Validated plans do not fail

A faulty plan is turned down before the graph is read. A plan that passes the check asks of
every prefix only for slots that are bound, and looks up only vertices of the merged view in
views that have lists. So nothing but its sink can make it fail.
-/

namespace DeltaMatch

/-! ## Parts of valid plans -/

namespace Plan

theorem LaterFit.take {width : Nat} {stages : List Stage} (h : LaterFit width stages) (n : Nat) :
    LaterFit width (stages.take n) := by
  induction stages generalizing width n with
  | nil => simpa using h
  | cons stage rest ih =>
    obtain ⟨hne, hrules, hrest⟩ := h
    cases n with
    | zero => exact trivial
    | succ n => exact ⟨hne, hrules, ih hrest n⟩

/-- The plan of the first stages. -/
def upTo (p : Plan) (stage : Nat) : Plan := ⟨p.stages.take stage⟩

theorem Valid.upTo {p : Plan} (hp : p.Valid) (s : Nat) : (p.upTo (s + 1)).Valid := by
  cases hp with
  | intro hslot hchecks hrest => exact Valid.intro hslot hchecks (hrest.take s)

/-- A later stage reads slots that the stages before it have bound. -/
theorem Valid.slot_lt {p : Plan} (hp : p.Valid) {s : Nat} {stage : Stage}
    (hs : p.stages[s + 1]? = some stage) :
    ∀ r ∈ stage, r.slot < s + 2 ∧ r.view.isIndexable = true := by
  cases hp with
  | intro hslot hchecks hrest =>
    rw [Nat.add_comm s 2]
    exact (laterFit_iff_getElem?.mp hrest s stage hs).2

theorem width_upTo {p : Plan} {s : Nat} {stage : Stage} (hs : p.stages[s + 1]? = some stage) :
    (p.upTo (s + 1)).width = s + 2 := by
  have hlt := (List.getElem?_eq_some_iff.mp hs).1
  rw [width, upTo, List.length_take]
  omega

end Plan

/-! ## Prefixes -/

namespace Join

variable {g : Graph}

/-- What a rule reads for a prefix is there: the slot is bound, and to a vertex of the merged
view, the view of the rule has lists, and the lookup succeeds. -/
def Readable (g : Graph) (t : Tuple) (r : Rule) : Prop :=
  ∃ v list, slotOf t r.slot = .ok v ∧ v.toNat < g.mergedBound ∧ r.view.isIndexable = true ∧
    g.neighbours v r.direction r.view = .ok list

theorem Fits.slotOf {width slot : Nat} {t : Tuple} (ht : Fits g width t) (h : slot < width) :
    ∃ v, Join.slotOf t slot = .ok v ∧ v.toNat < g.mergedBound := by
  have hslot : slot < t.length := by rw [ht.length]; exact h
  have hget := getElem?_eq_vertexAt hslot
  refine ⟨vertexAt t slot, ?_, ht.bounded _ (List.mem_of_getElem? hget)⟩
  rw [Join.slotOf, hget]

theorem Fits.readable {width : Nat} {t : Tuple} (ht : Fits g width t) {r : Rule}
    (hr : r.slot < width ∧ r.view.isIndexable = true) : Readable g t r := by
  obtain ⟨v, hv, hlt⟩ := ht.slotOf hr.1
  exact ⟨v, _, hv, hlt, hr.2, Graph.WellFormed.neighbours_eq_ok hr.2 hlt⟩

theorem fits_of_mem_completions (hg : g.WellFormed) {stages : List Stage} {width : Nat}
    {t t' : Tuple} (hfit : Plan.LaterFit width stages) (ht : Fits g width t)
    (h : t' ∈ completions g stages t) : Fits g (width + stages.length) t' := by
  induction stages generalizing width t with
  | nil =>
    rw [completions, List.mem_singleton] at h
    rwa [h]
  | cons stage rest ih =>
    obtain ⟨hne, hrules, hrest⟩ := hfit
    rw [completions, List.mem_flatMap] at h
    obtain ⟨v, hv, h⟩ := h
    have hnext := ht.snoc hg hne (fun r hr => (hrules r hr).2) hv
    have hfits := ih hrest hnext h
    rwa [List.length_cons, ← Nat.succ_add_eq_add_succ]

theorem fits_of_mem_seeds (hg : g.WellFormed) {seed : Rule} {checks : List Rule} {t : Tuple}
    (h : t ∈ seeds g seed checks) : Fits g 2 t := by
  obtain ⟨h, -⟩ := List.mem_filter.mp h
  obtain ⟨pair, hpair, rfl⟩ := List.mem_map.mp h
  obtain ⟨hpair, -⟩ := List.mem_filter.mp hpair
  exact fits_seedPrefix _ (lt_of_mem_seedEdges hg (mem_distinctPairs.mp hpair))

end Join

namespace Plan

variable {g : Graph} {p : Plan}

/-- **Whatever a plan has bound is a vertex**, be it read from a state or from a log. -/
theorem fits_of_mem_depthFirst (hg : g.WellFormed) (hp : p.Valid) {t : Tuple}
    (ht : t ∈ p.depthFirst g) : Join.Fits g p.width t := by
  cases hp with
  | @intro seed checks rest hslot hchecks hrest =>
    obtain ⟨s, hs, ht⟩ := List.mem_flatMap.mp ht
    have hfits := Join.fits_of_mem_completions hg hrest (Join.fits_of_mem_seeds hg hs) ht
    have hwidth : width ⟨(seed :: checks) :: rest⟩ = 2 + rest.length := by
      rw [width, List.length_cons]
      omega
    rwa [hwidth]

/-! ## What an execution asks for -/

/-- Whatever an execution asks for is there. -/
structure FindsAll (p : Plan) (g : Graph) : Prop where
  /-- A pair from a log is looked up in a state. -/
  seeds : ∀ seed checks rest, p.stages = (seed :: checks) :: rest →
    ∀ e ∈ Join.seedEdges g seed, ∀ view : View, view.isIndexable = true →
      e.source.toNat < g.mergedBound ∧ ∃ list, g.neighbours e.source .forward view = .ok list
  /-- The other rules of the first stage are checked for the vertex in slot 1. -/
  checks : ∀ seed checks rest, p.stages = (seed :: checks) :: rest →
    ∀ e ∈ Join.seedEdges g seed,
      (∃ v, Join.slotOf (Join.seedPrefix seed.direction e.pair) 1 = .ok v) ∧
      ∀ r ∈ checks, Join.Readable g (Join.seedPrefix seed.direction e.pair) r
  /-- The rules of a later stage are read for the prefixes that the stages before it yield. -/
  extensions : ∀ s stage, p.stages[s + 1]? = some stage →
    ∀ t ∈ (p.upTo (s + 1)).depthFirst g, ∀ r ∈ stage, Join.Readable g t r

theorem findsAll (hg : g.WellFormed) (hp : p.Valid) : p.FindsAll g where
  seeds := fun seed checks rest _ e he view hview => by
    have hlt := (Join.lt_of_mem_seedEdges hg (List.mem_map_of_mem he)).1
    exact ⟨hlt, _, Graph.WellFormed.neighbours_eq_ok hview hlt⟩
  checks := fun seed checks rest hstages e he => by
    have hfits := Join.fits_seedPrefix seed.direction
      (Join.lt_of_mem_seedEdges hg (List.mem_map_of_mem he))
    cases hp with
    | intro hslot hchecks hrest =>
      cases hstages
      obtain ⟨v, hv, -⟩ := hfits.slotOf (by decide : 1 < 2)
      refine ⟨⟨v, hv⟩, fun r hr => hfits.readable ⟨?_, (hchecks r hr).2⟩⟩
      rw [(hchecks r hr).1]
      decide
  extensions := fun s stage hs t ht r hr => by
    have hfits := fits_of_mem_depthFirst hg (hp.upTo s) ht
    rw [width_upTo hs] at hfits
    exact hfits.readable (hp.slot_lt hs r hr)

/-! ## Results -/

/-- A faulty plan leaves sink and graph alone. -/
theorem execute_of_fault {fault : PlanError} (h : p.validate = .error fault) (g : Graph) (n : Nat)
    {σ : Type} (sink : TupleSink σ) (s : σ) :
    p.execute g n sink s = ⟨.error (.plan fault), s, {}⟩ := by
  have hfault : p.fault? = some fault := by
    rw [validate] at h
    split at h
    · rename_i hfault
      cases h
      exact hfault
    · cases h
  rw [execute, Join.run, hfault]
  rfl

/-- **Validated plans are safe.** A plan with a fault fails with that fault, with no lookup
counted and no batch offered. A plan without one finds whatever it asks for. So it succeeds
with every accepting sink, and with other sinks it fails only for reasons of the sink, as long as
batches of the size can be reserved. With a larger size it panics. -/
theorem execute_safe (hg : g.Reachable) (p : Plan) :
    (∀ fault, p.validate = .error fault → ∀ (n : Nat) {σ : Type} (sink : TupleSink σ) (s : σ),
      p.execute g n sink s = ⟨.error (.plan fault), s, {}⟩) ∧
    (p.validate = .ok () → p.FindsAll g ∧
      (∀ n, n ≤ batchLimit → ∀ {σ : Type} (sink : TupleSink σ) (s : σ),
        (sink.Accepts s → ∃ stats, (p.execute g n sink s).result = .ok stats) ∧
        ∀ e, (p.execute g n sink s).result = .error e → ∃ s' batch, (sink s' batch).2 = some e) ∧
      ∀ n, batchLimit < n → p.Overflows g n) := by
  refine ⟨fun fault hfault n σ sink s => execute_of_fault hfault g n sink s, fun hp => ?_⟩
  have hp := validate_eq_ok_iff.mp hp
  refine ⟨findsAll hg.wellFormed hp, fun n hn σ sink s => ?_, fun n => overflows hp g⟩
  obtain ⟨-, stats, hresult⟩ := execute_eq_offerAll hg.wellFormed hp hn sink s
  constructor
  · intro haccepts
    rw [haccepts] at hresult
    exact ⟨stats, hresult⟩
  · intro e he
    rw [hresult] at he
    cases hrejection : (sink.offerAll s (p.batches g n)).2 with
    | none =>
      rw [hrejection] at he
      cases he
    | some e' =>
      rw [hrejection] at he
      cases he
      exact Sink.exists_rejected hrejection

/-- The seed reads the log backwards, a check reads the committed state and the next stage
both states, at a vertex beyond the committed ones. A seed that reads slot 1 is a fault. -/
theorem execute_safe_mixed_views :
    let g := ([.add ⟨0, 1, ⟨2⟩⟩, .commit, .add ⟨0, 7, ⟨2⟩⟩, .add ⟨7, 1, ⟨3⟩⟩, .delete ⟨0, 1, ⟨2⟩⟩] :
      List Graph.Op).foldl Graph.step .empty
    let p : Plan := ⟨[[⟨0, .backward, .diffPlus, .any⟩, ⟨0, .backward, .permanent, .any⟩],
      [⟨1, .forward, .merged, .any⟩, ⟨0, .backward, .permanent, .any⟩]]⟩
    let faulty : Plan := ⟨[[⟨1, .backward, .diffPlus, .any⟩]]⟩
    (p.validate = .ok () ∧ p.FindsAll g ∧
      ∃ stats, (p.execute g 2 collectTuples #[]).result = .ok stats) ∧
    faulty.validate = .error (.seedSlot 1) ∧
      faulty.execute g 2 collectTuples #[] = ⟨.error (.plan (.seedSlot 1)), #[], {}⟩ := by
  intro g p faulty
  have hg : g.Reachable := (Graph.Reachable.origin .empty).foldl _
  obtain ⟨hfinds, hresult, -⟩ := (execute_safe hg p).2 rfl
  have hsafe := (hresult 2 (by decide) collectTuples #[]).1 (collectTuples_accepts #[])
  exact ⟨⟨rfl, hfinds, hsafe⟩, rfl, (execute_safe hg faulty).1 _ rfl 2 collectTuples #[]⟩

/-- A plan that passes the check panics on the graph without vertices, with the largest size that a
word can hold. -/
theorem validated_plan_panics :
    Graph.empty.Reachable ∧ anyEdge.validate = .ok () ∧ collectTuples.Accepts #[] ∧
      (anyEdge.execute .empty 18446744073709551615 collectTuples #[]).result =
        .error .batchTooLarge :=
  ⟨.origin .empty, rfl, collectTuples_accepts #[], by rw [(anyEdge_overflows _).execute_eq]⟩

end Plan
end DeltaMatch
