import DeltaMatch.Plan

/-!
# Valid plans

The check of a plan walks its rules in order. What it accepts has a shape that follows
the execution: a seed that reads slot 0, checks of the seed that read slot 0 of a state,
and then stages, each of which binds one more slot from the slots bound before it.
-/

namespace DeltaMatch
namespace Plan

/-- Later stages for prefixes of a width: each has rules, and these read bound slots of
a state. -/
def LaterFit : Nat → List Stage → Prop
  | _, [] => True
  | width, stage :: rest =>
    stage ≠ [] ∧ (∀ r ∈ stage, r.slot < width ∧ r.view.isIndexable = true) ∧
      LaterFit (width + 1) rest

/-- A plan that can be executed. -/
inductive Valid : Plan → Prop
  | intro {seed : Rule} {checks : List Rule} {rest : List Stage} :
      seed.slot = 0 → (∀ r ∈ checks, r.slot = 0 ∧ r.view.isIndexable = true) →
      LaterFit 2 rest → Valid ⟨(seed :: checks) :: rest⟩

/-! ## The faults of single rules -/

theorem ruleFault?_eq_none_iff {stage position : Nat} {r : Rule} :
    ruleFault? stage position r = none ↔
      r.slot ≤ stage ∧ (stage = 0 ∧ position = 0 ∨ r.view.isIndexable = true) := by
  unfold ruleFault?
  by_cases hseed : stage = 0 ∧ position = 0
  · obtain ⟨rfl, rfl⟩ := hseed
    by_cases hslot : r.slot = 0
    · simp [hslot]
    · simp [hslot]
  · by_cases hslot : stage + 1 ≤ r.slot
    · simp [hseed, hslot]
      omega
    · cases hview : r.view.isIndexable with
      | true => simp [hseed, hslot]; omega
      | false => simp [hseed, hslot]

theorem rulesFault?_cons_eq_none_iff {stage position : Nat} {r : Rule} {rest : List Rule} :
    rulesFault? stage position (r :: rest) = none ↔
      ruleFault? stage position r = none ∧ rulesFault? stage (position + 1) rest = none := by
  rw [rulesFault?]
  cases ruleFault? stage position r with
  | none => simp
  | some fault => simp

/-- Past the seed, all rules of a stage are held to the same. -/
theorem rulesFault?_eq_none_iff {stage position : Nat} (h : stage ≠ 0 ∨ position ≠ 0)
    {rules : List Rule} : rulesFault? stage position rules = none ↔
      ∀ r ∈ rules, r.slot ≤ stage ∧ r.view.isIndexable = true := by
  induction rules generalizing position with
  | nil => simp [rulesFault?]
  | cons r rest ih =>
    have hseed : ¬ (stage = 0 ∧ position = 0) := by omega
    rw [rulesFault?_cons_eq_none_iff, ruleFault?_eq_none_iff, ih (Or.inr (Nat.succ_ne_zero _))]
    simp [hseed]

/-! ## The faults of stages -/

theorem stagesFault?_cons_eq_none_iff {stage : Nat} {rules : Stage} {rest : List Stage} :
    stagesFault? stage (rules :: rest) = none ↔
      rules ≠ [] ∧ rulesFault? stage 0 rules = none ∧ stagesFault? (stage + 1) rest = none := by
  rw [stagesFault?, stageFault?]
  cases rules with
  | nil => simp
  | cons r rules =>
    cases rulesFault? stage 0 (r :: rules) with
    | none => simp
    | some fault => simp

theorem stagesFault?_eq_none_iff {stage : Nat} {stages : List Stage} :
    stagesFault? (stage + 1) stages = none ↔ LaterFit (stage + 2) stages := by
  induction stages generalizing stage with
  | nil => simp [stagesFault?, LaterFit]
  | cons rules rest ih =>
    rw [stagesFault?_cons_eq_none_iff, rulesFault?_eq_none_iff (Or.inl (Nat.succ_ne_zero _)), ih,
      LaterFit]
    simp only [Nat.lt_succ_iff]

/-- **The check accepts exactly the valid plans.** -/
theorem fault?_eq_none_iff {p : Plan} : p.fault? = none ↔ p.Valid := by
  obtain ⟨stages⟩ := p
  constructor
  · intro h
    cases stages with
    | nil => cases h
    | cons rules rest =>
      have h : stagesFault? 0 (rules :: rest) = none := h
      obtain ⟨hne, hrules, hrest⟩ := stagesFault?_cons_eq_none_iff.mp h
      cases rules with
      | nil => exact absurd rfl hne
      | cons seed checks =>
        rw [rulesFault?_cons_eq_none_iff, ruleFault?_eq_none_iff,
          rulesFault?_eq_none_iff (Or.inr (by decide))] at hrules
        refine Valid.intro (Nat.le_zero.mp hrules.1.1) (fun r hr => ?_)
          (stagesFault?_eq_none_iff.mp hrest)
        exact (hrules.2 r hr).imp_left Nat.le_zero.mp
  · intro h
    obtain ⟨hseed, hchecks, hrest⟩ := h
    rename_i seed checks rest
    show stagesFault? 0 ((seed :: checks) :: rest) = none
    rw [stagesFault?_cons_eq_none_iff, rulesFault?_cons_eq_none_iff, ruleFault?_eq_none_iff,
      rulesFault?_eq_none_iff (Or.inr (by decide))]
    refine ⟨List.cons_ne_nil _ _, ⟨⟨Nat.le_of_eq hseed, Or.inl ⟨rfl, rfl⟩⟩, fun r hr => ?_⟩,
      stagesFault?_eq_none_iff.mpr hrest⟩
    exact (hchecks r hr).imp_left Nat.le_of_eq

theorem validate_eq_ok_iff {p : Plan} : p.validate = .ok () ↔ p.Valid := by
  rw [← fault?_eq_none_iff, validate]
  cases p.fault? with
  | none => simp
  | some fault => simp

/-! ## Stages by their numbers -/

theorem laterFit_iff_getElem? {width : Nat} {stages : List Stage} :
    LaterFit width stages ↔ ∀ s stage, stages[s]? = some stage →
      stage ≠ [] ∧ ∀ r ∈ stage, r.slot < width + s ∧ r.view.isIndexable = true := by
  induction stages generalizing width with
  | nil => simp [LaterFit]
  | cons rules rest ih =>
    rw [LaterFit, ih]
    constructor
    · rintro ⟨hne, hrules, hrest⟩ s stage hs
      cases s with
      | zero =>
        cases hs
        exact ⟨hne, hrules⟩
      | succ s =>
        obtain ⟨hstage, hr⟩ := hrest s stage hs
        refine ⟨hstage, fun r hmem => ?_⟩
        have := hr r hmem
        exact ⟨by omega, this.2⟩
    · intro h
      obtain ⟨hne, hrules⟩ := h 0 rules rfl
      refine ⟨hne, hrules, fun s stage hs => ?_⟩
      obtain ⟨hstage, hr⟩ := h (s + 1) stage hs
      refine ⟨hstage, fun r hmem => ?_⟩
      have := hr r hmem
      exact ⟨by omega, this.2⟩

end Plan
end DeltaMatch
