import DeltaMatch.Text.Blank
import DeltaMatch.Text.Numeral
import Mathlib.Data.List.TakeWhile

/-!
# Blanks, separators and numerals

What a text is without the blanks around it, which parts a separator cuts it into, and what a
numeral stands for, each said apart from how it is found out.
-/

namespace DeltaMatch

/-! ## Blanks -/

/-- The text is the core with blanks around it, and the core neither starts nor ends with one. -/
structure Trimmed (text core : List Char) : Prop where
  around : ∃ before after, text = before ++ (core ++ after) ∧
    (∀ c ∈ before, isBlank c = true) ∧ ∀ c ∈ after, isBlank c = true
  start : ∀ c ∈ core.head?, isBlank c = false
  stop : ∀ c ∈ core.getLast?, isBlank c = false

variable {text core cs : List Char}

/-- A core has nothing to trim. -/
theorem Trimmed.refl (h : Trimmed text core) : Trimmed core core :=
  ⟨⟨[], [], by simp, nofun, nofun⟩, h.start, h.stop⟩

theorem Trimmed.subset (h : Trimmed text core) : core ⊆ text := by
  obtain ⟨before, after, rfl, -, -⟩ := h.around
  intro c hc
  simp [hc]

/-- A text without blanks is its own core. -/
theorem trimmed_of_not_blank (h : ∀ c ∈ core, isBlank c = false) : Trimmed core core :=
  ⟨⟨[], [], by simp, nofun, nofun⟩, fun c hc => h c (List.mem_of_mem_head? hc),
    fun c hc => h c (List.mem_of_mem_getLast? hc)⟩

theorem trimStart_eq_self (h : ∀ c ∈ cs.head?, isBlank c = false) : trimStart cs = cs := by
  cases cs with
  | nil => rfl
  | cons c rest => rw [trimStart, List.dropWhile_cons_of_neg (by simp [h c rfl])]

theorem head?_trimStart {c : Char} (hc : c ∈ (trimStart cs).head?) : isBlank c = false := by
  have hhead := List.head?_dropWhile_not isBlank cs
  rw [trimStart] at hc
  rwa [hc] at hhead

theorem trimmed_trim (cs : List Char) : Trimmed cs (trim cs) := by
  have hstart := List.takeWhile_append_dropWhile (p := isBlank) (l := cs)
  have hstop := List.takeWhile_append_dropWhile (p := isBlank) (l := (trimStart cs).reverse)
  have hcore : trimStart cs =
      trim cs ++ ((trimStart cs).reverse.takeWhile isBlank).reverse := by
    rw [trim, ← List.reverse_append]
    exact ((congrArg List.reverse hstop).trans (List.reverse_reverse _)).symm
  refine ⟨⟨cs.takeWhile isBlank, ((trimStart cs).reverse.takeWhile isBlank).reverse, ?_,
    fun c hc => List.mem_takeWhile_imp hc,
    fun c hc => List.mem_takeWhile_imp (List.mem_reverse.mp hc)⟩, fun c hc => ?_, fun c hc => ?_⟩
  · rw [← hcore]
    exact hstart.symm
  · refine @head?_trimStart cs c ?_
    rw [hcore, List.head?_append, hc]
    rfl
  · rw [trim, List.getLast?_reverse] at hc
    exact head?_trimStart hc

/-- **Trimming finds the core**, and there is only one. -/
theorem trim_eq_iff : trim text = core ↔ Trimmed text core := by
  refine ⟨fun h => h ▸ trimmed_trim text, fun h => ?_⟩
  obtain ⟨before, after, rfl, hbefore, hafter⟩ := h.around
  have hskip : ∀ {skipped rest : List Char}, (∀ c ∈ skipped, isBlank c = true) →
      trimStart (skipped ++ rest) = trimStart rest := fun h => List.dropWhile_append_of_pos h
  rw [trim, hskip hbefore]
  -- an empty core leaves nothing but blanks
  cases core with
  | nil =>
    have hblank : trimStart after = [] := List.dropWhile_eq_nil_iff.mpr hafter
    rw [List.nil_append, hblank]
    rfl
  | cons c rest =>
    have hfirst : trimStart (c :: rest ++ after) = c :: rest ++ after :=
      trimStart_eq_self fun c' hc' => h.start c' hc'
    have hlast : trimStart (c :: rest).reverse = (c :: rest).reverse :=
      trimStart_eq_self fun c' hc' => h.stop c' (by rwa [List.head?_reverse] at hc')
    rw [hfirst, List.reverse_append, hskip fun c' hc' => hafter c' (List.mem_reverse.mp hc'),
      hlast, List.reverse_reverse]

/-- The core stands in the text with nothing but blanks around it. -/
def Padded (core text : List Char) : Prop :=
  ∃ before after, text = before ++ (core ++ after) ∧ (∀ c ∈ before, isBlank c = true) ∧
    ∀ c ∈ after, isBlank c = true

theorem Padded.mem (h : Padded core text) {c : Char} (hc : c ∈ text) :
    c ∈ core ∨ isBlank c = true := by
  obtain ⟨before, after, rfl, hbefore, hafter⟩ := h
  rcases List.mem_append.mp hc with hc | hc
  · exact Or.inr (hbefore c hc)
  rcases List.mem_append.mp hc with hc | hc
  · exact Or.inl hc
  · exact Or.inr (hafter c hc)

/-- A text with nothing to trim is the core of what it is padded to. -/
theorem Padded.trimmed (h : Padded core text) (hcore : Trimmed core core) : Trimmed text core :=
  ⟨h, hcore.start, hcore.stop⟩

/-! ## Separators -/

theorem mem_intercalate {α : Type} {x y : α} {piece : List α} {pieces : List (List α)}
    (hpiece : piece ∈ pieces) (hy : y ∈ piece) : y ∈ [x].intercalate pieces := by
  induction pieces with
  | nil => cases hpiece
  | cons first rest ih =>
    cases rest with
    | nil =>
      obtain rfl := List.mem_singleton.mp hpiece
      rwa [List.intercalate_singleton]
    | cons second rest =>
      rw [List.intercalate_cons_cons, List.mem_append, List.mem_append]
      rcases List.mem_cons.mp hpiece with rfl | hpiece
      · exact .inl (.inl hy)
      · exact .inr (ih hpiece)

section Split

variable {α : Type} [BEq α] [LawfulBEq α] {x : α} {xs piece : List α} {pieces : List (List α)}

theorem not_mem_of_mem_splitOn (h : piece ∈ xs.splitOn x) : x ∉ piece := by
  induction xs generalizing piece with
  | nil =>
    rw [List.splitOn_nil, List.mem_singleton] at h
    exact h ▸ List.not_mem_nil
  | cons y rest ih =>
    rw [List.splitOn_cons_eq_if_modifyHead] at h
    split at h
    · rcases List.mem_cons.mp h with rfl | h
      · exact List.not_mem_nil
      · exact ih h
    · rename_i hne
      obtain ⟨first, others, hsplit⟩ := List.exists_cons_of_ne_nil (List.splitOn_ne_nil x rest)
      rw [hsplit] at h ih
      rcases List.mem_cons.mp h with rfl | h
      · have hfirst := ih List.mem_cons_self
        simp only [List.mem_cons, not_or]
        exact ⟨fun heq => hne (by simp [heq]), hfirst⟩
      · exact ih (List.mem_cons_of_mem _ h)

/-- A separator cuts a text into the pieces that it joins, and that it does not occur in. -/
theorem splitOn_eq_iff (hne : pieces ≠ []) :
    xs.splitOn x = pieces ↔ [x].intercalate pieces = xs ∧ ∀ piece ∈ pieces, x ∉ piece := by
  constructor
  · rintro rfl
    exact ⟨List.intercalate_splitOn x, fun _ => not_mem_of_mem_splitOn⟩
  · rintro ⟨rfl, hpieces⟩
    exact List.splitOn_intercalate x hpieces hne

end Split

/-! ## Numerals -/

namespace Numeral

/-- One digit or more. -/
def Digits (cs : List Char) : Prop := cs ≠ [] ∧ ∀ c ∈ cs, c.isDigit = true

theorem isBlank_of_isDigit {c : Char} (h : c.isDigit = true) : isBlank c = false := by
  rw [Char.isDigit, Bool.and_eq_true, decide_eq_true_eq, decide_eq_true_eq] at h
  have hlow : 48 ≤ c.toNat := UInt32.le_iff_toNat_le.mp h.1
  have hhigh : c.toNat ≤ 57 := UInt32.le_iff_toNat_le.mp h.2
  simp [isBlank]
  omega

/-- What a numeral stands for that may have a sign. -/
inductive Signed : List Char → Int → Prop
  | plain {cs : List Char} : Digits cs → Signed cs (valueOf cs)
  | plus {cs : List Char} : Digits cs → Signed ('+' :: cs) (valueOf cs)
  | minus {cs : List Char} : Digits cs → Signed ('-' :: cs) (-(valueOf cs : Int))

/-- What a numeral stands for that has no minus sign. -/
inductive Unsigned : List Char → Nat → Prop
  | plain {cs : List Char} : Digits cs → Unsigned cs (valueOf cs)
  | plus {cs : List Char} : Digits cs → Unsigned ('+' :: cs) (valueOf cs)

/-- A numeral may always have a sign. -/
theorem Unsigned.signed {n : Nat} (h : Unsigned cs n) : Signed cs n := by
  cases h with
  | plain hdigits => exact .plain hdigits
  | plus hdigits => exact .plus hdigits

theorem Signed.ne_nil {n : Int} (h : Signed cs n) : cs ≠ [] := by
  cases h with
  | plain hdigits => exact hdigits.1
  | plus => exact List.cons_ne_nil _ _
  | minus => exact List.cons_ne_nil _ _

/-- A numeral is made up of digits and signs. -/
theorem Signed.mem {n : Int} (h : Signed cs n) {c : Char} (hc : c ∈ cs) :
    c.isDigit = true ∨ c = '+' ∨ c = '-' := by
  cases h with
  | plain hdigits => exact Or.inl (hdigits.2 c hc)
  | plus hdigits =>
    rcases List.mem_cons.mp hc with rfl | hc
    · exact Or.inr (Or.inl rfl)
    · exact Or.inl (hdigits.2 c hc)
  | minus hdigits =>
    rcases List.mem_cons.mp hc with rfl | hc
    · exact Or.inr (Or.inr rfl)
    · exact Or.inl (hdigits.2 c hc)

theorem Signed.isBlank {n : Int} (h : Signed cs n) : ∀ c ∈ cs, isBlank c = false := by
  intro c hc
  rcases h.mem hc with hdigit | rfl | rfl
  · exact isBlank_of_isDigit hdigit
  · rfl
  · rfl

theorem digits?_eq_some_iff {n : Nat} : digits? cs = some n ↔ Digits cs ∧ n = valueOf cs := by
  rw [digits?, Digits]
  split
  · rename_i hdigits
    simp only [Bool.and_eq_true, Bool.not_eq_true', List.isEmpty_eq_false_iff, List.all_eq_true]
      at hdigits
    exact ⟨fun h => ⟨hdigits, (Option.some.inj h).symm⟩, fun h => congrArg some h.2.symm⟩
  · rename_i hdigits
    refine iff_of_false nofun fun h => hdigits ?_
    simpa using h.1

theorem Digits.ne_cons {c : Char} {rest : List Char} (h : Digits cs) (hc : c.isDigit = false) :
    cs ≠ c :: rest := by
  rintro rfl
  rw [h.2 c List.mem_cons_self] at hc
  cases hc

/-- **A numeral without a minus sign is read as what it stands for**, if that is below the
bound. -/
theorem natural?_eq_some_iff {bound n : Nat} :
    natural? bound cs = some n ↔ Unsigned cs n ∧ n < bound := by
  unfold natural?
  rw [Option.filter_eq_some_iff, decide_eq_true_eq]
  refine and_congr_left fun _ => ?_
  split
  · rw [digits?_eq_some_iff]
    constructor
    · rintro ⟨hdigits, rfl⟩
      exact .plus hdigits
    · intro h
      cases h with
      | plain hdigits => exact absurd rfl (hdigits.ne_cons rfl)
      | plus hdigits => exact ⟨hdigits, rfl⟩
  · rename_i hplus
    rw [digits?_eq_some_iff]
    constructor
    · rintro ⟨hdigits, rfl⟩
      exact .plain hdigits
    · intro h
      cases h with
      | plain hdigits => exact ⟨hdigits, rfl⟩
      | plus => exact absurd rfl (hplus _)

theorem word32?_eq_some_iff {n : UInt32} : word32? cs = some n ↔ Unsigned cs n.toNat := by
  rw [word32?, Option.map_eq_some_iff]
  simp only [natural?_eq_some_iff]
  constructor
  · rintro ⟨m, ⟨hunsigned, hlt⟩, rfl⟩
    rwa [UInt32.toNat_ofNat_of_lt' hlt]
  · intro h
    exact ⟨n.toNat, ⟨h, n.toNat_lt_size⟩, UInt32.ofNat_toNat⟩

/-- **A signed numeral is read as what it stands for**, if that is within the bounds. -/
theorem integer?_eq_some_iff {low high n : Int} :
    integer? low high cs = some n ↔ Signed cs n ∧ low ≤ n ∧ n ≤ high := by
  unfold integer?
  rw [Option.filter_eq_some_iff, decide_eq_true_eq]
  refine and_congr_left fun _ => ?_
  split
  · rename_i rest
    rw [Option.map_eq_some_iff]
    simp only [digits?_eq_some_iff]
    constructor
    · rintro ⟨m, ⟨hdigits, rfl⟩, rfl⟩
      exact .plus hdigits
    · intro h
      cases h with
      | plain hdigits => exact absurd rfl (hdigits.ne_cons rfl)
      | plus hdigits => exact ⟨_, ⟨hdigits, rfl⟩, rfl⟩
  · rename_i rest
    rw [Option.map_eq_some_iff]
    simp only [digits?_eq_some_iff]
    constructor
    · rintro ⟨m, ⟨hdigits, rfl⟩, rfl⟩
      exact .minus hdigits
    · intro h
      cases h with
      | plain hdigits => exact absurd rfl (hdigits.ne_cons rfl)
      | minus hdigits => exact ⟨_, ⟨hdigits, rfl⟩, rfl⟩
  · rename_i hplus hminus
    rw [Option.map_eq_some_iff]
    simp only [digits?_eq_some_iff]
    constructor
    · rintro ⟨m, ⟨hdigits, rfl⟩, rfl⟩
      exact .plain hdigits
    · intro h
      cases h with
      | plain hdigits => exact ⟨_, ⟨hdigits, rfl⟩, rfl⟩
      | plus => exact absurd rfl (hplus _)
      | minus => exact absurd rfl (hminus _)

theorem int16?_eq_some_iff {n : Int16} : int16? cs = some n ↔ Signed cs n.toInt := by
  rw [int16?, Option.map_eq_some_iff]
  simp only [integer?_eq_some_iff]
  constructor
  · rintro ⟨m, ⟨hsigned, hlow, hhigh⟩, rfl⟩
    rwa [Int16.toInt_ofInt_of_le hlow (Int.lt_of_le_sub_one hhigh)]
  · intro h
    exact ⟨n.toInt, ⟨h, n.minValue_le_toInt, n.toInt_le⟩, Int16.ofInt_toInt n⟩

/-! ## Written numbers -/

theorem toList_toString (n : Int) : (toString n).toList =
    if 0 ≤ n then Nat.toDigits 10 n.toNat else '-' :: Nat.toDigits 10 (-n).toNat := by
  rw [Int.toString_eq_repr, Int.repr_eq_if]
  split
  · rw [Nat.toList_repr]
  · rw [String.toList_append, Nat.toList_repr]
    rfl

theorem digits_toDigits (n : Nat) : Digits (Nat.toDigits 10 n) :=
  ⟨Nat.toDigits_ne_nil, fun _ hc => Nat.isDigit_of_mem_toDigits (by decide) (by decide) hc⟩

theorem valueOf_toDigits (n : Nat) : valueOf (Nat.toDigits 10 n) = n :=
  Nat.ofDigitChars_ten_toDigits

/-- A written number is a numeral for itself. -/
theorem unsigned_toString (n : Nat) : Unsigned (toString n).toList n := by
  have hunsigned := Unsigned.plain (digits_toDigits n)
  rw [valueOf_toDigits] at hunsigned
  rwa [Nat.toString_eq_repr, Nat.toList_repr]

/-- A written number is a numeral for itself. -/
theorem signed_toString (n : Int) : Signed (toString n).toList n := by
  have hsigned := fun m : Nat => Signed.plain (digits_toDigits m)
  have hnegated := fun m : Nat => Signed.minus (digits_toDigits m)
  simp only [valueOf_toDigits] at hsigned hnegated
  rw [toList_toString]
  split
  · rename_i hn
    have h := hsigned n.toNat
    rwa [Int.toNat_of_nonneg hn] at h
  · rename_i hn
    have h := hnegated (-n).toNat
    rwa [Int.toNat_of_nonneg (by omega), Int.neg_neg] at h

end Numeral
end DeltaMatch
