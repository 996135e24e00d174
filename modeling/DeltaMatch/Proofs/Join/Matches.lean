import DeltaMatch.Proofs.Join.Candidates
import DeltaMatch.Proofs.Join.SeedPairs
import DeltaMatch.Proofs.Plan.Validity
import Mathlib.Data.List.Nodup

/-!
# The matches of a plan

A tuple matches a plan when each rule admits the vertex bound by its stage next to the
vertex in its slot. The matches are reached by depth-first completion: prefixes are
seeded from pairs of vertices, and each stage extends a prefix by its candidates. Every
match is reached once.
-/

namespace DeltaMatch
namespace Join

/-- Each rule of the stages holds in the tuple, the first stage binding slot `width`. -/
def Satisfies (g : Graph) (width : Nat) (stages : List Stage) (t : Tuple) : Prop :=
  ∀ s stage, stages[s]? = some stage → ∀ r ∈ stage,
    ∃ u v, t[r.slot]? = some u ∧ t[s + width]? = some v ∧ r.Admits g u v

end Join

/-- The tuple has one vertex for each slot, and every rule of every stage holds in it:
stage `s` binds slot `s + 1`. -/
def Plan.Matches (p : Plan) (g : Graph) (t : Tuple) : Prop :=
  t.length = p.width ∧ Join.Satisfies g 1 p.stages t

namespace Join

variable {g : Graph}

theorem satisfies_nil {width : Nat} {t : Tuple} : Satisfies g width [] t := by
  intro s stage hs
  cases hs

theorem satisfies_cons {width : Nat} {stage : Stage} {rest : List Stage} {t : Tuple} :
    Satisfies g width (stage :: rest) t ↔
      (∀ r ∈ stage, ∃ u v, t[r.slot]? = some u ∧ t[width]? = some v ∧ r.Admits g u v) ∧
        Satisfies g (width + 1) rest t := by
  constructor
  · intro h
    refine ⟨fun r hr => ?_, fun s stage' hs r hr => ?_⟩
    · have := h 0 stage rfl r hr
      rwa [Nat.zero_add] at this
    · have := h (s + 1) stage' hs r hr
      rwa [Nat.succ_add_eq_add_succ] at this
  · rintro ⟨hstage, hrest⟩ s stage' hs r hr
    cases s with
    | zero =>
      cases hs
      rw [Nat.zero_add]
      exact hstage r hr
    | succ s =>
      rw [Nat.succ_add_eq_add_succ]
      exact hrest s stage' hs r hr

/-! ## Completions -/

/-- The completions of a prefix by some stages, one prefix after the other. -/
def completions (g : Graph) : List Stage → Tuple → List Tuple
  | [], t => [t]
  | stage :: rest, t => (candidatesAt g stage t).1.flatMap fun v => completions g rest (t ++ [v])

theorem isPrefix_of_mem_completions {stages : List Stage} {t t' : Tuple}
    (h : t' ∈ completions g stages t) : t <+: t' := by
  induction stages generalizing t with
  | nil =>
    rw [completions, List.mem_singleton] at h
    exact h ▸ List.prefix_rfl
  | cons stage rest ih =>
    rw [completions, List.mem_flatMap] at h
    obtain ⟨v, -, h⟩ := h
    exact (List.prefix_append t [v]).trans (ih h)

theorem getElem?_of_isPrefix {t t' : Tuple} (h : t <+: t') {i : Nat} (hi : i < t.length) :
    t'[i]? = t[i]? := by
  obtain ⟨s, rfl⟩ := h
  exact List.getElem?_append_left hi

/-- A prefix with one more vertex is a prefix when the vertex is the next one. -/
theorem snoc_isPrefix_iff {t t' : Tuple} {v : VertexId} :
    t ++ [v] <+: t' ↔ t <+: t' ∧ t'[t.length]? = some v := by
  constructor
  · intro h
    refine ⟨(List.prefix_append t [v]).trans h, ?_⟩
    rw [getElem?_of_isPrefix h (by simp)]
    simp
  · intro h
    obtain ⟨⟨s, rfl⟩, hv⟩ := h
    cases s with
    | nil => simp at hv
    | cons w s =>
      rw [List.getElem?_append_right (Nat.le_refl _), Nat.sub_self] at hv
      cases hv
      exact ⟨s, by simp⟩

/-- **Completion is sound and complete** for the rules of the stages. -/
theorem mem_completions (hg : g.WellFormed) {stages : List Stage} {t t' : Tuple}
    (hfit : Plan.LaterFit t.length stages) : t' ∈ completions g stages t ↔
      t <+: t' ∧ t'.length = t.length + stages.length ∧ Satisfies g t.length stages t' := by
  induction stages generalizing t with
  | nil =>
    rw [completions, List.mem_singleton]
    constructor
    · rintro rfl
      exact ⟨List.prefix_rfl, rfl, satisfies_nil⟩
    · intro h
      obtain ⟨hstart, hlength, -⟩ := h
      exact (hstart.eq_of_length hlength.symm).symm
  | cons stage rest ih =>
    obtain ⟨hne, hrules, hrest⟩ := hfit
    have hview : ∀ r ∈ stage, r.view.isIndexable = true := fun r hr => (hrules r hr).2
    have hlength : ∀ v : VertexId, (t ++ [v]).length = t.length + 1 := fun v => by simp
    -- the first stage asks for its new vertex, the others ask the same of the longer prefix
    rw [completions, List.mem_flatMap, satisfies_cons]
    constructor
    · intro h
      obtain ⟨v, hv, ht'⟩ := h
      rw [mem_candidatesAt hg hne hview] at hv
      rw [ih (by rwa [hlength]), hlength, snoc_isPrefix_iff] at ht'
      obtain ⟨⟨hstart, hget⟩, hlen, hsat⟩ := ht'
      refine ⟨hstart, by rw [hlen, List.length_cons]; omega, fun r hr => ?_, hsat⟩
      have hslot := (hrules r hr).1
      exact ⟨_, v, (getElem?_of_isPrefix hstart hslot).trans (getElem?_eq_vertexAt hslot), hget,
        hv r hr⟩
    · intro h
      obtain ⟨hstart, hlen, hstage, hsat⟩ := h
      rw [List.length_cons] at hlen
      have hget : t'[t.length]? = some (vertexAt t' t.length) := getElem?_eq_vertexAt (by omega)
      refine ⟨vertexAt t' t.length, (mem_candidatesAt hg hne hview).mpr fun r hr => ?_,
        (ih (by rwa [hlength])).mpr ⟨snoc_isPrefix_iff.mpr ⟨hstart, hget⟩, ?_, ?_⟩⟩
      · obtain ⟨u, v, hu, hv, hadmits⟩ := hstage r hr
        rw [getElem?_of_isPrefix hstart (hrules r hr).1] at hu
        rwa [vertexAt_eq hu, vertexAt_eq hv]
      · rw [hlength]
        omega
      · rwa [hlength]

/-- Tuples that start differently are ordered as their starts are. -/
theorem lt_of_isPrefix {s s' t t' : Tuple} (h : s < s') (hlength : s.length = s'.length)
    (hs : s <+: t) (hs' : s' <+: t') : t < t' := by
  obtain ⟨x, rfl⟩ := hs
  obtain ⟨y, rfl⟩ := hs'
  induction s generalizing s' with
  | nil =>
    rw [List.eq_nil_of_length_eq_zero hlength.symm] at h
    exact absurd h (List.lt_irrefl [])
  | cons v s ih =>
    cases s' with
    | nil => cases hlength
    | cons v' s' =>
      rw [List.cons_lt_cons_iff] at h
      rw [List.cons_append, List.cons_append, List.cons_lt_cons_iff]
      rcases h with h | ⟨heq, h⟩
      · exact Or.inl h
      · exact Or.inr ⟨heq, ih h (Nat.succ.inj hlength)⟩

/-- **The completions of a prefix ascend**, slot by slot. -/
theorem ascending_completions {stages : List Stage} {width : Nat}
    (hfit : Plan.LaterFit width stages) (t : Tuple) :
    (completions g stages t).Pairwise (· < ·) := by
  induction stages generalizing t width with
  | nil => exact List.pairwise_singleton _ t
  | cons stage rest ih =>
    obtain ⟨hne, -, hrest⟩ := hfit
    rw [completions, List.pairwise_flatMap]
    refine ⟨fun v _ => ih hrest (t ++ [v]), ?_⟩
    refine (candidatesAt_ascending hne).imp fun {v w} hlt x hx y hy => ?_
    have hnext : t ++ [v] < t ++ [w] :=
      List.append_left_lt (List.cons_lt_cons_iff.mpr (Or.inl hlt))
    exact lt_of_isPrefix hnext (by simp) (isPrefix_of_mem_completions hx)
      (isPrefix_of_mem_completions hy)

theorem nodup_completions {stages : List Stage} {width : Nat} {t : Tuple}
    (hfit : Plan.LaterFit width stages) : (completions g stages t).Nodup := by
  refine (ascending_completions hfit t).imp ?_
  rintro t' t'' hlt rfl
  exact List.lt_irrefl _ hlt

/-! ## Seeds -/

/-- Whether a pair that the seed enumerates belongs to its relation. -/
def changed (g : Graph) (seed : Rule) (pair : VertexId × VertexId) : Bool :=
  match seed.view with
  | .permanent | .merged => true
  | .diffPlus => !(g.list .permanent .forward pair.1).contains pair.2 seed.filter
  | .diffMinus => !(g.list .merged .forward pair.1).contains pair.2 seed.filter

/-- Whether a prefix passes the other rules of the first stage. -/
def passes (g : Graph) (checks : List Rule) (t : Tuple) : Bool :=
  checks.all fun r => (listAt g t r).contains (vertexAt t 1) r.filter

/-- The pairs of the relation of the seed, in the order of their enumeration. -/
def seedPairs (g : Graph) (seed : Rule) : List (VertexId × VertexId) :=
  (distinctPairs seed.view (seedEdges g seed)).filter (changed g seed)

/-- The prefixes that the first stage yields. -/
def seeds (g : Graph) (seed : Rule) (checks : List Rule) : List Tuple :=
  ((seedPairs g seed).map (seedPrefix seed.direction)).filter (passes g checks)

theorem mem_map_pair_seedEdges {seed : Rule} {u v : VertexId} :
    (u, v) ∈ (seedEdges g seed).map Edge.pair ↔
      ∃ label, seed.filter.accepts label = true ∧
        ⟨u, v, label⟩ ∈ g.allEdges seed.view seed.direction := by
  rw [List.mem_map]
  constructor
  · intro h
    obtain ⟨⟨u', v', label⟩, he, heq⟩ := h
    cases heq
    exact ⟨label, (Graph.WellFormed.mem_edges_onLabel.mp he).symm⟩
  · intro h
    obtain ⟨label, haccepts, he⟩ := h
    exact ⟨⟨u, v, label⟩, Graph.WellFormed.mem_edges_onLabel.mpr ⟨he, haccepts⟩, rfl⟩

/-- **The seed yields its relation**: for a log, the pairs whose membership has changed. -/
theorem mem_seedPairs (hg : g.WellFormed) {seed : Rule} {u v : VertexId} :
    (u, v) ∈ seedPairs g seed ↔ g.Relates seed.view seed.filter u v := by
  rw [seedPairs, List.mem_filter, mem_distinctPairs, mem_map_pair_seedEdges]
  simp only [hg.mem_allEdges, changed, Graph.Relates]
  cases seed.view with
  | permanent | merged => simp [Graph.Joined]
  | diffPlus | diffMinus =>
    simp only [Bool.not_eq_true', Bool.eq_false_iff, ne_eq, hg.contains_forward]
    refine and_congr_left fun hnot => exists_congr fun label => ?_
    -- a pair unjoined in the other state has all its edges in the log
    exact and_congr_right fun haccepts =>
      ⟨And.left, fun hhas => ⟨hhas, fun hother => hnot ⟨label, haccepts, hother⟩⟩⟩

theorem mem_map_seedPrefix (hg : g.WellFormed) {seed : Rule} {t : Tuple} :
    t ∈ (seedPairs g seed).map (seedPrefix seed.direction) ↔
      ∃ a b, t = [a, b] ∧ seed.Admits g a b := by
  rw [List.mem_map]
  simp only [Rule.Admits]
  cases seed.direction with
  | forward =>
    constructor
    · intro h
      obtain ⟨⟨u, v⟩, huv, rfl⟩ := h
      exact ⟨u, v, rfl, (mem_seedPairs hg).mp huv⟩
    · intro h
      obtain ⟨u, v, rfl, huv⟩ := h
      exact ⟨(u, v), (mem_seedPairs hg).mpr huv, rfl⟩
  | backward =>
    constructor
    · intro h
      obtain ⟨⟨u, v⟩, huv, rfl⟩ := h
      exact ⟨v, u, rfl, (mem_seedPairs hg).mp huv⟩
    · intro h
      obtain ⟨v, u, rfl, huv⟩ := h
      exact ⟨(u, v), (mem_seedPairs hg).mpr huv, rfl⟩

theorem mem_seeds (hg : g.WellFormed) {seed : Rule} {checks : List Rule}
    (hchecks : ∀ r ∈ checks, r.slot = 0 ∧ r.view.isIndexable = true) {t : Tuple} :
    t ∈ seeds g seed checks ↔
      ∃ a b, t = [a, b] ∧ seed.Admits g a b ∧ ∀ r ∈ checks, r.Admits g a b := by
  have hpasses : ∀ a b, passes g checks [a, b] = true ↔ ∀ r ∈ checks, r.Admits g a b := by
    intro a b
    rw [passes, List.all_eq_true]
    refine forall_congr' fun r => forall_congr' fun hr => ?_
    rw [listAt, (hchecks r hr).1]
    exact hg.contains_rule (hchecks r hr).2
  rw [seeds, List.mem_filter, mem_map_seedPrefix hg]
  constructor
  · intro h
    obtain ⟨⟨a, b, rfl, hseed⟩, hpass⟩ := h
    exact ⟨a, b, rfl, hseed, (hpasses a b).mp hpass⟩
  · intro h
    obtain ⟨a, b, rfl, hseed, hpass⟩ := h
    exact ⟨⟨a, b, rfl, hseed⟩, (hpasses a b).mpr hpass⟩

theorem nodup_seeds (hg : g.WellFormed) {seed : Rule} {checks : List Rule} :
    (seeds g seed checks).Nodup :=
  (((nodup_distinctPairs hg).filter _).map (seedPrefix_injective _)).filter _

end Join

/-! ## Matches -/

namespace Plan

variable {g : Graph}

/-- The matches of a plan in the order of a depth-first evaluation. -/
def depthFirst (p : Plan) (g : Graph) : List Tuple :=
  match p.stages with
  | (seed :: checks) :: rest => (Join.seeds g seed checks).flatMap (Join.completions g rest)
  | _ => []

/-- **The depth-first evaluation yields exactly the matches.** -/
theorem mem_depthFirst (hg : g.WellFormed) {p : Plan} (hp : p.Valid) {t : Tuple} :
    t ∈ p.depthFirst g ↔ p.Matches g t := by
  cases hp with
  | @intro seed checks rest hslot hchecks hrest =>
    show t ∈ (Join.seeds g seed checks).flatMap (Join.completions g rest) ↔
      t.length = (rest.length + 1) + 1 ∧ Join.Satisfies g 1 ((seed :: checks) :: rest) t
    rw [List.mem_flatMap, Join.satisfies_cons, List.forall_mem_cons, hslot]
    constructor
    · intro h
      obtain ⟨s, hs, ht⟩ := h
      obtain ⟨a, b, rfl, hseed, hpass⟩ := (Join.mem_seeds hg hchecks).mp hs
      obtain ⟨hstart, hlength, hsat⟩ := (Join.mem_completions (t := [a, b]) hg hrest).mp ht
      have h0 : t[0]? = some a := Join.getElem?_of_isPrefix hstart (by simp)
      have h1 : t[1]? = some b := Join.getElem?_of_isPrefix hstart (by simp)
      refine ⟨by rw [hlength, List.length_cons, List.length_cons, List.length_nil]; omega,
        ⟨⟨a, b, h0, h1, hseed⟩, fun r hr => ⟨a, b, ?_, h1, hpass r hr⟩⟩, hsat⟩
      rw [(hchecks r hr).1, h0]
    · intro h
      obtain ⟨hlength, ⟨⟨a, b, h0, h1, hseed⟩, hpass⟩, hsat⟩ := h
      have hstart : [a, b] <+: t := by
        match t, h0, h1 with
        | a' :: b' :: t', h0, h1 =>
          cases h0
          cases h1
          exact ⟨t', rfl⟩
      refine ⟨[a, b], (Join.mem_seeds hg hchecks).mpr ⟨a, b, rfl, hseed, fun r hr => ?_⟩,
        (Join.mem_completions (t := [a, b]) hg hrest).mpr ⟨hstart, ?_, hsat⟩⟩
      · obtain ⟨u, v, hu, hv, hadmits⟩ := hpass r hr
        rw [(hchecks r hr).1, h0] at hu
        rw [h1] at hv
        cases hu
        cases hv
        exact hadmits
      · rw [hlength, List.length_cons, List.length_cons, List.length_nil]
        omega

theorem nodup_depthFirst (hg : g.WellFormed) {p : Plan} (hp : p.Valid) :
    (p.depthFirst g).Nodup := by
  cases hp with
  | @intro seed checks rest hslot hchecks hrest =>
    show ((Join.seeds g seed checks).flatMap (Join.completions g rest)).Nodup
    rw [List.nodup_flatMap]
    refine ⟨fun s _ => Join.nodup_completions hrest, ?_⟩
    -- a common completion has both seeds as its first two vertices
    refine (Join.nodup_seeds hg).imp_of_mem fun {s s'} hs hs' hne t ht ht' => hne ?_
    obtain ⟨a, b, rfl, -⟩ := (Join.mem_seeds hg hchecks).mp hs
    obtain ⟨a', b', rfl, -⟩ := (Join.mem_seeds hg hchecks).mp hs'
    have hstart := Join.isPrefix_of_mem_completions ht
    have hstart' := Join.isPrefix_of_mem_completions ht'
    exact (List.prefix_of_prefix_length_le hstart hstart' (by simp)).eq_of_length (by simp)

end Plan
end DeltaMatch
