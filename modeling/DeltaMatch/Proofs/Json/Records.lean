import DeltaMatch.Proofs.Json.RoundTrip

/-!
# Records, numbers and lists of written text

What is written as a record is decoded by the names of its fields, each of which stands there
once. Numbers within their bounds and lists of decoded values come back as they were.
-/

namespace DeltaMatch
namespace Json

/-! ## Records -/

theorem hasText_record {fields : List (String × Json)} (h : ∀ f ∈ fields, f.2.HasText) :
    (record fields).HasText := by
  refine .object (fun f hf => ?_) fun f hf => ?_
  · obtain ⟨f, -, rfl⟩ := List.mem_map.mp hf
    rfl
  · obtain ⟨f', hf', rfl⟩ := List.mem_map.mp hf
    exact h f' hf'

/-- Fields under different names are all taken, if their names are asked for. -/
theorem namedFields?_record {names : List String} {fields : List (String × Json)}
    (hnodup : (fields.map (·.1)).Nodup) (hnames : ∀ f ∈ fields, f.1 ∈ names) :
    namedFields? names (fields.map fun (name, value) => (some name, value)) = some fields := by
  induction fields with
  | nil => rfl
  | cons f rest ih =>
    obtain ⟨name, v⟩ := f
    rw [List.map_cons, List.nodup_cons] at hnodup
    obtain ⟨hname, hrest⟩ := List.forall_mem_cons.mp hnames
    have hfresh : rest.any (·.1 == name) = false := by
      simp only [List.any_eq_false, beq_iff_eq]
      intro f hf heq
      exact hnodup.1 (List.mem_map.mpr ⟨f, hf, heq⟩)
    rw [List.map_cons, namedFields?, ih hnodup.2 hrest]
    simp [hname, hfresh]

theorem lookup_of_nodup {fields : List (String × Json)} (hnodup : (fields.map (·.1)).Nodup) :
    fields.map (fun f => fields.lookup f.1) = fields.map fun f => some f.2 := by
  induction fields with
  | nil => rfl
  | cons f rest ih =>
    obtain ⟨hfresh, hnodup⟩ := List.nodup_cons.mp hnodup
    rw [List.map_cons, List.map_cons, List.lookup_cons, BEq.rfl, ← ih hnodup]
    refine congrArg _ (List.map_congr_left fun f' hf' => ?_)
    have hne : (f'.1 == f.1) = false := by
      rw [beq_eq_false_iff_ne]
      exact fun heq => hfresh (List.mem_map.mpr ⟨f', hf', heq⟩)
    rw [List.lookup_cons, hne]

/-- **A written record is decoded by its names.** -/
theorem fields?_record {names : List String} {fields : List (String × Json)} {v : Json}
    (hv : v = record fields) (hnames : fields.map (·.1) = names) (hnodup : names.Nodup) :
    fields? names v = some (fields.map fun f => some f.2) := by
  subst hv hnames
  have hnamed := namedFields?_record hnodup fun f hf => List.mem_map_of_mem hf
  rw [record, fields?, hnamed, ← lookup_of_nodup hnodup]
  exact congrArg some List.map_map

/-! ## Numbers -/

theorem hasText_nat (n : Nat) : (nat n).HasText := .integer n

theorem integer?_of_bounds {low high n : Int} (hlow : low ≤ n) (hhigh : n ≤ high) :
    integer? low high (.integer n) = some n := if_pos ⟨hlow, hhigh⟩

theorem nat64?_nat {n : Nat} (h : n < UInt64.size) : nat64? (nat n) = some n := by
  rw [nat64?, nat, integer?_of_bounds (by omega) (by omega)]
  rfl

theorem word32?_nat (v : UInt32) : word32? (nat v.toNat) = some v := by
  have hlt := v.toNat_lt_size
  rw [word32?, nat, integer?_of_bounds (by omega) (by omega)]
  simp

theorem int16?_integer (n : Int16) : int16? (.integer n.toInt) = some n := by
  rw [int16?, integer?_of_bounds n.minValue_le_toInt n.toInt_le]
  simp

/-! ## Lists -/

theorem hasText_array {α : Type} {toJson : α → Json} (h : ∀ x, (toJson x).HasText) (xs : List α) :
    (array (xs.map toJson)).HasText := by
  refine .array fun v hv => ?_
  obtain ⟨x, -, rfl⟩ := List.mem_map.mp hv
  exact h x

theorem list?_array {α : Type} {toJson : α → Json} {ofJson? : Json → Option α} (xs : List α)
    (h : ∀ x ∈ xs, ofJson? (toJson x) = some x) :
    list? ofJson? (.array (xs.map toJson)) = some xs := by
  rw [list?]
  induction xs with
  | nil => rfl
  | cons x rest ih =>
    obtain ⟨hx, hrest⟩ := List.forall_mem_cons.mp h
    simp [hx, ih hrest]

end Json
end DeltaMatch
