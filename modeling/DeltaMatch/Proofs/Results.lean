import Mathlib.Data.List.Forall2

/-!
# Results of steps

A chain of steps succeeds when each of its steps does, and so does a pass over a list.
-/

namespace DeltaMatch

variable {ε α β : Type}

theorem bind_eq_ok_iff {x : Except ε α} {f : α → Except ε β} {b : β} :
    x >>= f = .ok b ↔ ∃ a, x = .ok a ∧ f a = .ok b := by
  cases x with
  | error e => exact ⟨nofun, fun ⟨_, h, _⟩ => nomatch h⟩
  | ok a => exact ⟨fun h => ⟨a, rfl, h⟩, fun ⟨_, rfl, h⟩ => h⟩

theorem bind_eq_error_iff {x : Except ε α} {f : α → Except ε β} {err : ε} :
    x >>= f = .error err ↔ x = .error err ∨ ∃ a, x = .ok a ∧ f a = .error err := by
  cases x with
  | error e =>
    refine ⟨fun h => Or.inl (congrArg _ (Except.error.inj h)), ?_⟩
    rintro (h | ⟨a, h, -⟩)
    · exact congrArg _ (Except.error.inj h)
    · cases h
  | ok a =>
    refine ⟨fun h => Or.inr ⟨a, rfl, h⟩, ?_⟩
    rintro (h | ⟨a', h, h'⟩)
    · cases h
    · cases h
      exact h'

theorem map_eq_ok_iff {x : Except ε α} {f : α → β} {b : β} :
    x.map f = .ok b ↔ ∃ a, x = .ok a ∧ f a = b := by
  cases x with
  | error e => exact ⟨nofun, fun ⟨_, h, _⟩ => nomatch h⟩
  | ok a => exact ⟨fun h => ⟨a, rfl, Except.ok.inj h⟩, fun ⟨_, rfl, h⟩ => congrArg _ h⟩

/-- A step with one way to fail fails where it has no result. -/
theorem eq_error_iff {x : Except ε α} {cause err : ε} (h : ∀ err, x = .error err → err = cause) :
    x = .error err ↔ (∀ a, x ≠ .ok a) ∧ err = cause := by
  cases x with
  | error e =>
    cases h e rfl
    simp [eq_comm]
  | ok a => exact ⟨nofun, fun hnone => absurd rfl (hnone.1 a)⟩

/-! ## Passes over lists -/

theorem exists_forall₂ {related : β → α → Prop} {xs : List α}
    (h : ∀ x ∈ xs, ∃ y, related y x) : ∃ ys, List.Forall₂ related ys xs := by
  induction xs with
  | nil => exact ⟨[], .nil⟩
  | cons x rest ih =>
    obtain ⟨⟨y, hy⟩, hrest⟩ := List.forall_mem_cons.mp h
    obtain ⟨ys, hys⟩ := ih hrest
    exact ⟨y :: ys, .cons hy hys⟩

/-- A pass over a list succeeds exactly where each of its steps does. -/
theorem mapM_eq_ok_iff {f : α → Except ε β} {xs : List α} {ys : List β} :
    xs.mapM f = .ok ys ↔ List.Forall₂ (fun y x => f x = .ok y) ys xs := by
  induction xs generalizing ys with
  | nil => simp [pure, Except.pure, eq_comm]
  | cons x rest ih =>
    rw [List.mapM_cons, bind_eq_ok_iff, List.forall₂_cons_right_iff]
    constructor
    · rintro ⟨y, hy, hrest⟩
      obtain ⟨ys', hys, heq⟩ := bind_eq_ok_iff.mp hrest
      cases heq
      exact ⟨y, ys', hy, ih.mp hys, rfl⟩
    · rintro ⟨y, ys', hy, hys, rfl⟩
      exact ⟨y, hy, bind_eq_ok_iff.mpr ⟨ys', ih.mpr hys, rfl⟩⟩

/-- A pass over a list fails where its first failing step does. -/
theorem mapM_error_of_first {f : α → Except ε β} {before after : List α} {x : α} {err : ε}
    (hbefore : ∀ y ∈ before, ∃ b, f y = .ok b) (hx : f x = .error err) :
    (before ++ x :: after).mapM f = .error err := by
  induction before with
  | nil => exact List.mapM_cons.trans (bind_eq_error_iff.mpr (.inl hx))
  | cons y rest ih =>
    obtain ⟨⟨b, hb⟩, hrest⟩ := List.forall_mem_cons.mp hbefore
    refine List.mapM_cons.trans (bind_eq_error_iff.mpr (.inr ⟨b, hb, ?_⟩))
    exact bind_eq_error_iff.mpr (.inl (ih hrest))

theorem exists_mapM_ok {f : α → Except ε β} {related : β → α → Prop} {xs : List α}
    (h : ∀ x ∈ xs, ∃ y, f x = .ok y ∧ related y x) :
    ∃ ys, xs.mapM f = .ok ys ∧ List.Forall₂ related ys xs := by
  obtain ⟨ys, hys⟩ := exists_forall₂ h
  exact ⟨ys, mapM_eq_ok_iff.mpr (hys.imp fun _ _ hstep => hstep.1),
    hys.imp fun _ _ hstep => hstep.2⟩

/-- Each member of the one list is related to a member of the other. -/
theorem exists_of_forall₂ {related : α → β → Prop} {xs : List α} {ys : List β}
    (h : List.Forall₂ related xs ys) :
    (∀ x ∈ xs, ∃ y ∈ ys, related x y) ∧ (∀ y ∈ ys, ∃ x ∈ xs, related x y) := by
  induction h with
  | nil => exact ⟨fun _ hx => (nomatch hx), fun _ hy => (nomatch hy)⟩
  | @cons x y xs ys hrelated _ ih =>
    constructor
    · intro x' hx'
      rcases List.mem_cons.mp hx' with rfl | hx'
      · exact ⟨y, List.mem_cons_self, hrelated⟩
      · obtain ⟨y', hy', h⟩ := ih.1 x' hx'
        exact ⟨y', List.mem_cons_of_mem _ hy', h⟩
    · intro y' hy'
      rcases List.mem_cons.mp hy' with rfl | hy'
      · exact ⟨x, List.mem_cons_self, hrelated⟩
      · obtain ⟨x', hx', h⟩ := ih.2 y' hy'
        exact ⟨x', List.mem_cons_of_mem _ hx', h⟩

end DeltaMatch
