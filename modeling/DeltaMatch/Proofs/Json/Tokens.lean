import DeltaMatch.Json.Reader
import DeltaMatch.Proofs.Text

/-!
# Tokens of written text

Each piece of a written value is one token, and the token has the value that was written. A
string ends at its quote. A numeral or a word ends where the text goes on with a character that
belongs to neither, as it does wherever a value is written.
-/

namespace DeltaMatch
namespace Json

/-! ## Strings -/

/-- The code of a control character is read back from its digits. -/
theorem codeUnit?_hexDigits : ∀ n < 32, ∃ a b c d, hexDigits n = [a, b, c, d] ∧
    codeUnit? a b c d = some n := by
  have hdigits : ∀ n < 32, hexDigits n = ['0', '0', (n / 16).digitChar, (n % 16).digitChar] ∧
      codeUnit? '0' '0' (n / 16).digitChar (n % 16).digitChar = some n := by decide
  exact fun n hn => ⟨_, _, _, _, hdigits n hn⟩

/-- A letter after a backslash is read as the character that it stands for. -/
theorem stringBody_letter {e c : Char} (hu : e ≠ 'u') (h : escape? e = some c)
    (rest : List Char) : stringBody ('\\' :: e :: rest) =
      (stringBody rest).map fun (pieces, rest) => (.char c :: pieces, rest) := by
  rw [stringBody]
  · rw [h]
    cases stringBody rest <;> rfl
  · intro _ _ _ _ _ he _
    exact hu he

theorem stringBody_code {n : Nat} (hn : n < 32) (rest : List Char) :
    stringBody ('\\' :: 'u' :: hexDigits n ++ rest) =
      (stringBody rest).map fun (pieces, rest) => (.unit n :: pieces, rest) := by
  obtain ⟨a, b, c, d, hdigits, hcode⟩ := codeUnit?_hexDigits n hn
  rw [hdigits]
  simp only [List.cons_append, List.nil_append, stringBody, hcode]
  cases stringBody rest <;> rfl

theorem stringBody_plain {c : Char} (hquote : c ≠ '"') (hslash : c ≠ '\\')
    (hcontrol : ¬ c.toNat < 32) (rest : List Char) : stringBody (c :: rest) =
      (stringBody rest).map fun (pieces, rest) => (.char c :: pieces, rest) := by
  rw [stringBody]
  · rw [if_neg hcontrol]
    cases stringBody rest <;> rfl
  · exact hquote
  · intro _ _ _ _ _ hc _
    exact hslash hc
  · intro _ _ hc _
    exact hslash hc

/-- The code of a control character stands alone, whatever comes after it. -/
theorem textOf?_unit {n : Nat} (hn : n < 32) (pieces : List Piece) :
    textOf? (.unit n :: pieces) = (textOf? pieces).map (Char.ofNat n :: ·) := by
  have hleading : isLeading n = false := by
    simp only [isLeading, Bool.and_eq_false_iff, decide_eq_false_iff_not]
    omega
  have htrailing : isTrailing n = false := by
    simp only [isTrailing, Bool.and_eq_false_iff, decide_eq_false_iff_not]
    omega
  match pieces with
  | [] | .char _ :: _ | .unit _ :: _ => simp [textOf?, hleading, htrailing]

/-- A written character is read as the piece, and the piece stands for the character. -/
structure ReadAs (c : Char) (piece : Piece) : Prop where
  body : ∀ rest, stringBody (escaped c ++ rest) =
    (stringBody rest).map fun (pieces, rest) => (piece :: pieces, rest)
  text : ∀ pieces, textOf? (piece :: pieces) = (textOf? pieces).map (c :: ·)

theorem ReadAs.letter {e c : Char} (hescaped : escaped c = ['\\', e]) (hu : e ≠ 'u')
    (he : escape? e = some c) : ReadAs c (.char c) where
  body := fun rest => by
    rw [hescaped]
    exact stringBody_letter hu he rest
  text := fun _ => rfl

/-- **A written character is read back.** -/
theorem exists_readAs (c : Char) : ∃ piece, ReadAs c piece := by
  by_cases hquote : c = '"'
  · subst hquote
    exact ⟨_, .letter rfl (by decide) rfl⟩
  by_cases hslash : c = '\\'
  · subst hslash
    exact ⟨_, .letter rfl (by decide) rfl⟩
  by_cases hcontrol : c.toNat < 32
  · -- the five common control characters have letters, the others are written by their code
    by_cases hcommon : c.toNat ∈ [8, 9, 10, 12, 13]
    · have hc : c = Char.ofNat c.toNat := (Char.ofNat_toNat c).symm
      simp only [List.mem_cons, List.not_mem_nil, or_false] at hcommon
      rcases hcommon with h | h | h | h | h <;> rw [h] at hc <;> subst hc
      · exact ⟨_, .letter (e := 'b') rfl (by decide) rfl⟩
      · exact ⟨_, .letter (e := 't') rfl (by decide) rfl⟩
      · exact ⟨_, .letter (e := 'n') rfl (by decide) rfl⟩
      · exact ⟨_, .letter (e := 'f') rfl (by decide) rfl⟩
      · exact ⟨_, .letter (e := 'r') rfl (by decide) rfl⟩
    · simp only [List.mem_cons, List.not_mem_nil, or_false, not_or] at hcommon
      obtain ⟨hb, ht, hn, hf, hr⟩ := hcommon
      have hescaped : escaped c = '\\' :: 'u' :: hexDigits c.toNat := by
        simp [escaped, hquote, hslash, hb, ht, hn, hf, hr, hcontrol]
      refine ⟨.unit c.toNat, fun rest => ?_, fun pieces => ?_⟩
      · rw [hescaped]
        exact stringBody_code hcontrol rest
      · rw [textOf?_unit hcontrol, Char.ofNat_toNat]
  · have hescaped : escaped c = [c] := by
      have hne : ∀ n, n < 32 → c.toNat ≠ n := fun n hn heq => hcontrol (by omega)
      simp [escaped, hquote, hslash, hne, hcontrol]
    refine ⟨.char c, fun rest => ?_, fun _ => rfl⟩
    rw [hescaped]
    exact stringBody_plain hquote hslash hcontrol rest

/-- **A quoted text is read back.** -/
theorem exists_pieces (cs rest : List Char) : ∃ pieces,
    stringBody (cs.flatMap escaped ++ '"' :: rest) = some (pieces, rest) ∧
      textOf? pieces = some cs := by
  induction cs with
  | nil => exact ⟨[], rfl, rfl⟩
  | cons c cs ih =>
    obtain ⟨pieces, hbody, htext⟩ := ih
    obtain ⟨piece, hpiece⟩ := exists_readAs c
    refine ⟨piece :: pieces, ?_, ?_⟩
    · rw [List.flatMap_cons, List.append_assoc, hpiece.body, hbody]
      rfl
    · rw [hpiece.text, htext]
      rfl

theorem nextToken_quoted (s : String) (rest : List Char) :
    nextToken '"' (s.toList.flatMap escaped ++ '"' :: rest) =
      some (.scalar (.string (some s)), rest) := by
  obtain ⟨pieces, hbody, htext⟩ := exists_pieces s.toList rest
  simp [nextToken, hbody, htext]

/-! ## Runs of characters -/

/-- The text does not go on with a character of a numeral or of a word. -/
def Delimited (rest : List Char) : Prop :=
  ∀ c ∈ rest.head?, isNumeral c = false ∧ c.isAlpha = false

theorem delimited_nil : Delimited [] := nofun

theorem delimited_cons {c : Char} (h : isNumeral c = false ∧ c.isAlpha = false)
    (rest : List Char) : Delimited (c :: rest) := by
  intro c' hc'
  cases hc'
  exact h

/-- No numeral and no word has a blank in it. -/
theorem isSpace_delimits {c : Char} (h : isSpace c = true) :
    isNumeral c = false ∧ c.isAlpha = false := by
  simp only [isSpace, Bool.or_eq_true, beq_iff_eq] at h
  rcases h with ((rfl | rfl) | rfl) | rfl <;> exact ⟨rfl, rfl⟩

/-- A run of characters ends where they do. -/
theorem span_append {p : Char → Bool} {cs rest : List Char} (hcs : ∀ c ∈ cs, p c = true)
    (hrest : ∀ c ∈ rest.head?, p c = false) :
    (cs ++ rest).takeWhile p = cs ∧ (cs ++ rest).dropWhile p = rest := by
  rw [List.takeWhile_append_of_pos hcs, List.dropWhile_append_of_pos hcs]
  cases rest with
  | nil => simp
  | cons c rest => simp [hrest c rfl]

theorem nextToken_numeral {c : Char} {cs rest : List Char} {v : Json}
    (hcs : ∀ x ∈ c :: cs, isNumeral x = true) (hrest : Delimited rest)
    (hv : numeral? (c :: cs) = some v) : nextToken c (cs ++ rest) = some (.scalar v, rest) := by
  have hc := hcs c List.mem_cons_self
  obtain ⟨htake, hdrop⟩ := span_append (fun x hx => hcs x (List.mem_cons_of_mem c hx))
    fun x hx => (hrest x hx).1
  have hne : ∀ x, isNumeral x = false → c ≠ x := by
    rintro x hx rfl
    rw [hc] at hx
    cases hx
  simp [nextToken, hc, htake, hdrop, hv, hne '[' rfl, hne ']' rfl, hne '\x7b' rfl,
    hne '\x7d' rfl, hne ',' rfl, hne ':' rfl, hne '"' rfl]

theorem nextToken_word {c : Char} {cs rest : List Char} {v : Json}
    (hc : isNumeral c = false) (hcs : ∀ x ∈ c :: cs, x.isAlpha = true) (hrest : Delimited rest)
    (hv : word? (c :: cs) = some v) : nextToken c (cs ++ rest) = some (.scalar v, rest) := by
  obtain ⟨htake, hdrop⟩ := span_append (fun x hx => hcs x (List.mem_cons_of_mem c hx))
    fun x hx => (hrest x hx).2
  have hne : ∀ x, x.isAlpha = false → c ≠ x := by
    rintro x hx rfl
    rw [hcs c List.mem_cons_self] at hx
    cases hx
  simp [nextToken, hc, htake, hdrop, hv, hne '[' rfl, hne ']' rfl, hne '\x7b' rfl,
    hne '\x7d' rfl, hne ',' rfl, hne ':' rfl, hne '"' rfl]

/-! ## Numerals -/

/-- A number starts with a zero only when it is zero. -/
theorem eq_zero_of_head?_toDigits {n : Nat} (h : (Nat.toDigits 10 n).head? = some '0') :
    n = 0 := by
  induction n using Nat.strongRecOn with
  | _ n ih =>
    rw [Nat.toDigits_eq_if (by decide)] at h
    split at h
    · simpa using h
    · rename_i hle
      obtain ⟨c, cs, hcs⟩ :=
        List.exists_cons_of_ne_nil (Nat.toDigits_ne_nil (n := n / 10) (b := 10))
      have hquotient : n / 10 = 0 := by
        refine ih (n / 10) (Nat.div_lt_self (by omega) (by decide)) ?_
        rw [hcs] at h ⊢
        exact h
      omega

theorem unsigned?_toDigits (negative : Bool) (n : Nat) :
    unsigned? negative (Nat.toDigits 10 n) =
      if !negative then some (.integer n)
      else if n = 0 then some .fractional
      else some (.integer (-n)) := by
  have hdigit : ∀ c ∈ Nat.toDigits 10 n, c.isDigit = true := fun c hc =>
    Nat.isDigit_of_mem_toDigits (by decide) (by decide) hc
  have hend : ∀ c ∈ ([] : List Char).head?, c.isDigit = false := nofun
  obtain ⟨htake, hdrop⟩ := span_append hdigit hend
  rw [List.append_nil] at htake hdrop
  have hne : (Nat.toDigits 10 n).isEmpty = false := by simp
  have hzero : (decide (1 < (Nat.toDigits 10 n).length) &&
      (Nat.toDigits 10 n).head? == some '0') = false := by
    rw [Bool.and_eq_false_iff]
    by_cases hhead : (Nat.toDigits 10 n).head? = some '0'
    · rw [eq_zero_of_head?_toDigits hhead]
      exact Or.inl rfl
    · exact Or.inr (by simpa using hhead)
  have hvalue : (Nat.toDigits 10 n).foldl (fun n c => 10 * n + (c.toNat - '0'.toNat)) 0 = n :=
    Nat.ofDigitChars_ten_toDigits
  rw [unsigned?]
  simp only [htake, hdrop, hne, hzero, hvalue, Bool.or_self, Bool.false_eq_true, if_false,
    List.isEmpty_nil, if_true]

/-- The characters of a written integer. -/
theorem integerText_eq (n : Int) : integerText n =
    if 0 ≤ n then Nat.toDigits 10 n.toNat else '-' :: Nat.toDigits 10 (-n).toNat :=
  Numeral.toList_toString n

theorem isNumeral_of_isDigit {c : Char} (h : c.isDigit = true) : isNumeral c = true := by
  simp [isNumeral, h]

theorem isNumeral_of_mem_integerText {n : Int} : ∀ c ∈ integerText n, isNumeral c = true := by
  have hdigits : ∀ {m : Nat}, ∀ c ∈ Nat.toDigits 10 m, isNumeral c = true := fun c hc =>
    isNumeral_of_isDigit (Nat.isDigit_of_mem_toDigits (by decide) (by decide) hc)
  intro c hc
  rw [integerText_eq] at hc
  split at hc
  · exact hdigits c hc
  · rcases List.mem_cons.mp hc with rfl | hc
    · rfl
    · exact hdigits c hc

/-- **A written integer is read back.** -/
theorem numeral?_integerText (n : Int) : numeral? (integerText n) = some (.integer n) := by
  rw [integerText_eq]
  split
  · rename_i hn
    have hunsigned := unsigned?_toDigits false n.toNat
    obtain ⟨c, cs, hcs⟩ := List.exists_cons_of_ne_nil (Nat.toDigits_ne_nil (n := n.toNat) (b := 10))
    have hminus : c ≠ '-' := by
      have hdigit : c.isDigit = true := Nat.isDigit_of_mem_toDigits (b := 10) (n := n.toNat)
        (by decide) (by decide) (by rw [hcs]; exact List.mem_cons_self)
      rintro rfl
      cases hdigit
    rw [hcs] at hunsigned ⊢
    rw [numeral?, hunsigned]
    · simp [Int.toNat_of_nonneg hn]
    · intro _ heq
      exact hminus (List.head_eq_of_cons_eq heq)
  · rename_i hn
    have hne : (-n).toNat ≠ 0 := by omega
    have hvalue : -((-n).toNat : Int) = n := by omega
    rw [numeral?, unsigned?_toDigits, Bool.not_true, if_neg (by decide), if_neg hne, hvalue]

theorem exists_integerText_cons (n : Int) : ∃ c cs, integerText n = c :: cs := by
  rw [integerText_eq]
  split
  · exact List.exists_cons_of_ne_nil Nat.toDigits_ne_nil
  · exact ⟨_, _, rfl⟩

end Json
end DeltaMatch
