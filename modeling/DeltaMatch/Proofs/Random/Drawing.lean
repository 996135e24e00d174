import DeltaMatch.Random.EdgeList
import Mathlib.Algebra.Group.Nat.Defs

/-!
# Drawings

A drawing may turn down any number of words, so that it need not end within a limit. What is said
of it is said of the runs that end: these have a result, which has some property, and have it under
every larger limit. That a result is possible at all is shown by words from which it is drawn.
-/

namespace DeltaMatch
namespace Random

variable {γ α β : Type} {source : Source γ} {P : α → Prop} {Q : β → Prop} {d d' : Drawing γ α}
  {f f' : α → Drawing γ β} {zone : UInt32 → UInt32} {a : α} {b : β} {v bound : UInt32}
  {tries tries' : Nat}

/-! ## Runs that end -/

/-- Whenever the drawing ends, it has a result with the property. -/
def Yields (d : Drawing γ α) (P : α → Prop) : Prop :=
  ∀ s outcome, d s = some outcome → ∃ a s', outcome = .ok (a, s') ∧ P a

theorem Yields.of_ok {s s' : γ} (hd : Yields d P) (hends : d s = some (.ok (a, s'))) : P a := by
  obtain ⟨_, _, hok, ha⟩ := hd s _ hends
  cases hok
  exact ha

theorem Yields.ne_error {s : γ} {cause : DrawError} (hd : Yields d P) :
    d s ≠ some (.error cause) := by
  intro hends
  obtain ⟨_, _, hok, -⟩ := hd s _ hends
  cases hok

theorem Yields.pure (h : P a) : Yields (pure a : Drawing γ α) P := by
  intro s outcome hends
  cases hends
  exact ⟨a, s, rfl, h⟩

theorem pure_apply (a : α) (s : γ) : (pure a : Drawing γ α) s = some (.ok (a, s)) := rfl

theorem bind_apply (d : Drawing γ α) (f : α → Drawing γ β) (s : γ) :
    (d >>= f) s = match (d s : Option (Except DrawError (α × γ))) with
      | none => none
      | some (.error cause) => some (.error cause)
      | some (.ok (a, s')) => f a s' := by
  change Option.bind (d s) _ = _
  cases d s with
  | none => rfl
  | some outcome => cases outcome <;> rfl

theorem Yields.bind (hd : Yields d P) (hf : ∀ a, P a → Yields (f a) Q) : Yields (d >>= f) Q := by
  intro s outcome hends
  rw [bind_apply] at hends
  cases hfirst : d s with
  | none => simp [hfirst] at hends
  | some first =>
    obtain ⟨a, s', rfl, ha⟩ := hd s first hfirst
    rw [hfirst] at hends
    exact hf a ha s' outcome hends

/-- Whenever the first drawing ends, the second one ends in the same way. -/
def Extends (d d' : Drawing γ α) : Prop := ∀ s outcome, d s = some outcome → d' s = some outcome

theorem Extends.refl (d : Drawing γ α) : Extends d d := fun _ _ hends => hends

theorem Extends.bind (hd : Extends d d') (hf : ∀ a, Extends (f a) (f' a)) :
    Extends (d >>= f) (d' >>= f') := by
  intro s outcome hends
  rw [bind_apply] at hends ⊢
  cases hfirst : d s with
  | none => simp [hfirst] at hends
  | some first =>
    rw [hfirst] at hends
    rw [hd s first hfirst]
    cases first with
    | error cause => exact hends
    | ok drawn => exact hf drawn.1 drawn.2 outcome hends

/-! ## Runs on given words -/

/-- The source that hands out the given words, and zeros behind them. -/
def fromWords : Source (List UInt32)
  | [] => (0, [])
  | w :: rest => (w, rest)

/-- The result is drawn from the words, whatever words follow. -/
def Reads (d : Drawing (List UInt32) α) (words : List UInt32) (a : α) : Prop :=
  ∀ rest, d (words ++ rest) = some (.ok (a, rest))

theorem Reads.pure (a : α) : Reads (pure a) [] a := fun _ => rfl

theorem Reads.bind {d : Drawing (List UInt32) α} {f : α → Drawing (List UInt32) β}
    {words words' : List UInt32} (hd : Reads d words a) (hf : Reads (f a) words' b) :
    Reads (d >>= f) (words ++ words') b := by
  intro rest
  rw [bind_apply, List.append_assoc, hd]
  exact hf rest

/-! ## Numbers below a bound -/

theorem toNat_highHalf (w bound : UInt32) :
    (highHalf w bound).toNat = w.toNat * bound.toNat / 2 ^ 32 := by
  have hproduct : w.toNat * bound.toNat < 2 ^ 64 :=
    Nat.mul_lt_mul'' (c := 2 ^ 32) (d := 2 ^ 32) w.toNat_lt bound.toNat_lt
  have hhigh : w.toNat * bound.toNat / 2 ^ 32 < 2 ^ 32 := by omega
  simp only [highHalf, UInt64.toNat_toUInt32, UInt64.toNat_shiftRight, UInt64.toNat_mul,
    UInt32.toNat_toUInt64, Nat.shiftRight_eq_div_pow]
  rw [Nat.mod_eq_of_lt hproduct]
  exact Nat.mod_eq_of_lt hhigh

theorem toNat_lowHalf (w bound : UInt32) :
    (lowHalf w bound).toNat = w.toNat * bound.toNat % 2 ^ 32 := by
  simp only [lowHalf, UInt64.toNat_toUInt32, UInt64.toNat_mul, UInt32.toNat_toUInt64]
  exact Nat.mod_mod_of_dvd _ (by decide)

theorem highHalf_lt (w : UInt32) (h : bound ≠ 0) : highHalf w bound < bound := by
  have hbound : 0 < bound.toNat := UInt32.pos_iff_ne_zero.mpr h
  rw [UInt32.lt_iff_toNat_lt, toNat_highHalf]
  exact Nat.div_lt_of_lt_mul (Nat.mul_lt_mul_of_pos_right w.toNat_lt hbound)

theorem drawAccepted_lt (h : bound ≠ 0) {zone n : UInt32} {s s' : γ}
    (hdraw : drawAccepted source bound zone tries s = some (n, s')) : n < bound := by
  induction tries generalizing s with
  | zero => cases hdraw
  | succ tries ih =>
    simp only [drawAccepted] at hdraw
    split at hdraw
    · cases hdraw
      exact highHalf_lt _ h
    · exact ih hdraw

/-- **A number that is drawn is below its bound**, however many words were turned down. -/
theorem drawBelow_yields (tries : Nat) (source : Source γ) (zone : UInt32 → UInt32)
    (h : bound ≠ 0) : Yields (drawBelow tries source zone bound) (· < bound) := by
  intro s outcome hends
  rw [drawBelow, if_neg h] at hends
  obtain ⟨⟨n, s'⟩, hdraw, rfl⟩ := Option.map_eq_some_iff.mp hends
  exact ⟨n, s', rfl, drawAccepted_lt h hdraw⟩

theorem drawAccepted_of_le {zone n : UInt32} {s s' : γ} (h : tries ≤ tries')
    (hdraw : drawAccepted source bound zone tries s = some (n, s')) :
    drawAccepted source bound zone tries' s = some (n, s') := by
  induction tries generalizing tries' s with
  | zero => cases hdraw
  | succ tries ih =>
    obtain ⟨more, rfl⟩ := Nat.exists_eq_add_of_lt h
    simp only [drawAccepted] at hdraw ⊢
    split at hdraw
    · rwa [if_pos ‹_›]
    · rw [if_neg ‹_›]
      exact ih (Nat.le_add_right ..) hdraw

theorem drawBelow_extends (source : Source γ) (zone : UInt32 → UInt32) (bound : UInt32)
    (h : tries ≤ tries') :
    Extends (drawBelow tries source zone bound) (drawBelow tries' source zone bound) := by
  intro s outcome hends
  rw [drawBelow] at hends ⊢
  split at hends
  · rwa [if_pos ‹_›]
  · rw [if_neg ‹_›]
    obtain ⟨⟨n, s'⟩, hdraw, rfl⟩ := Option.map_eq_some_iff.mp hends
    exact Option.map_eq_some_iff.mpr ⟨(n, s'), drawAccepted_of_le h hdraw, rfl⟩

/-- Every number is the high half of a product whose low half is less than the bound. -/
theorem exists_halves (h : v < bound) :
    ∃ w, highHalf w bound = v ∧ (lowHalf w bound).toNat < bound.toNat := by
  have hv : v.toNat < bound.toNat := UInt32.lt_iff_toNat_lt.mp h
  have hbound := bound.toNat_lt
  -- The least word that reaches the number.
  let q := (v.toNat * 2 ^ 32 + (bound.toNat - 1)) / bound.toNat
  have hq : bound.toNat * q + (v.toNat * 2 ^ 32 + (bound.toNat - 1)) % bound.toNat =
      v.toNat * 2 ^ 32 + (bound.toNat - 1) := Nat.div_add_mod ..
  have hmod := Nat.mod_lt (v.toNat * 2 ^ 32 + (bound.toNat - 1)) (show bound.toNat > 0 by omega)
  have hword : q < 2 ^ 32 := by
    refine Nat.lt_of_not_le fun hge => ?_
    have hmul := Nat.mul_le_mul_left bound.toNat hge
    omega
  have hofNat : (UInt32.ofNat q).toNat = q := UInt32.toNat_ofNat_of_lt' hword
  refine ⟨.ofNat q, UInt32.toNat.inj ?_, ?_⟩
  · rw [toNat_highHalf, hofNat, Nat.mul_comm q]
    omega
  · rw [toNat_lowHalf, hofNat, Nat.mul_comm q]
    omega

/-- **Every number below a bound may be drawn** when the low halves below the bound are accepted. -/
theorem exists_drawBelow_reads (h : v < bound) (hzone : bound.toNat ≤ (zone bound).toNat + 1) :
    ∃ w, Reads (drawBelow (tries + 1) fromWords zone bound) [w] v := by
  obtain ⟨w, hhigh, hlow⟩ := exists_halves h
  refine ⟨w, fun rest => ?_⟩
  have hbound : bound ≠ 0 := by
    rintro rfl
    exact absurd h (by simp)
  have haccepted : lowHalf w bound ≤ zone bound := UInt32.le_iff_toNat_le.mpr (by omega)
  simp only [drawBelow, if_neg hbound, List.singleton_append, drawAccepted, fromWords,
    if_pos haccepted, hhigh]
  rfl

theorem le_shiftedZone (bound : UInt32) : bound.toNat ≤ (shiftedZone bound).toNat + 1 := by
  by_cases h : bound = 0
  · subst h
    exact Nat.zero_le _
  have hpos : 0 < bound.toNat := UInt32.pos_iff_ne_zero.mpr h
  have hlog : bound.toNat.log2 < 32 := (Nat.log2_lt (by omega)).mpr bound.toNat_lt
  have hshift : ((31 - bound.toNat.log2).toUInt32).toNat % 32 = 31 - bound.toNat.log2 := by
    rw [Nat.toUInt32_eq, UInt32.toNat_ofNat_of_lt' (by simp only [UInt32.size]; omega)]
    omega
  -- The bound has no more bits than its logarithm says, so that none is shifted out.
  have hfits : bound.toNat * 2 ^ (31 - bound.toNat.log2) < 2 ^ 32 := by
    calc bound.toNat * 2 ^ (31 - bound.toNat.log2)
        < 2 ^ (bound.toNat.log2 + 1) * 2 ^ (31 - bound.toNat.log2) :=
          Nat.mul_lt_mul_of_pos_right Nat.lt_log2_self (Nat.two_pow_pos _)
      _ = 2 ^ 32 := by
        rw [← Nat.pow_add]
        congr 1
        omega
  have hshifted : (bound <<< (31 - bound.toNat.log2).toUInt32).toNat =
      bound.toNat * 2 ^ (31 - bound.toNat.log2) := by
    rw [UInt32.toNat_shiftLeft, hshift, Nat.shiftLeft_eq, Nat.mod_eq_of_lt hfits]
  have hle : bound.toNat ≤ bound.toNat * 2 ^ (31 - bound.toNat.log2) :=
    Nat.le_mul_of_pos_right _ (Nat.two_pow_pos _)
  rw [shiftedZone, UInt32.toNat_sub_of_le, hshifted]
  · simp only [UInt32.reduceToNat]
    omega
  · rw [UInt32.le_iff_toNat_le, hshifted]
    simp only [UInt32.reduceToNat]
    omega

theorem le_exactZone (h : bound.toNat ≤ 2 ^ 31) : bound.toNat ≤ (exactZone bound).toNat + 1 := by
  by_cases hzero : bound = 0
  · subst hzero
    exact Nat.zero_le _
  have hpos : 0 < bound.toNat := UInt32.pos_iff_ne_zero.mpr hzero
  have hmod : ((0 - bound) % bound).toNat < bound.toNat := by
    rw [UInt32.toNat_mod]
    exact Nat.mod_lt _ hpos
  rw [exactZone, UInt32.toNat_sub_of_le]
  · simp only [UInt32.reduceToNat]
    omega
  · rw [UInt32.le_iff_toNat_le]
    simp only [UInt32.reduceToNat]
    omega

end Random
end DeltaMatch
