import DeltaMatch.Proofs.Json.Tokens

/-!
# Written text is read back

The reader has no recursion over values: it goes through the tokens with a stack of what is
open. So the text of a value takes it from expecting a value to having completed this one,
whatever is open around it and whatever comes after.
-/

namespace DeltaMatch
namespace Json

/-- The value has a text of its own: no numeral in it is without a value, and no string without
a text. -/
inductive HasText : Json → Prop
  | null : HasText .null
  | bool (value : Bool) : HasText (.bool value)
  | integer (value : Int) : HasText (.integer value)
  | string (s : String) : HasText (.string (some s))
  | array {items : List Json} : (∀ v ∈ items, HasText v) → HasText (.array items)
  | object {fields : List (Option String × Json)} : (∀ f ∈ fields, f.1.isSome = true) →
      (∀ f ∈ fields, HasText f.2) → HasText (.object fields)

namespace Reader

variable {r r' : Reader} {frames : List Frame} {expected : Expectation} {c : Char}
  {cs rest : List Char} {t : Token} {v : Json}

/-- One token is taken. -/
theorem takeAll_token (hspace : isSpace c = false) (htoken : nextToken c cs = some (t, rest))
    (htake : r.take t = some r') : r.takeAll (c :: cs) = r'.takeAll rest := by
  rw [takeAll]
  simp only [hspace, Bool.false_eq_true, if_false]
  split
  · rename_i hnone
    rw [htoken] at hnone
    cases hnone
  · rename_i t' rest' hsome
    rw [htoken] at hsome
    cases hsome
    rw [htake]

/-- A value may come next. -/
def AwaitsValue (expected : Expectation) : Prop := expected = .value ∨ expected = .firstItem

/-- A name may come next. -/
def AwaitsName (expected : Expectation) : Prop :=
  expected = .fieldName ∨ expected = .firstField

theorem takeAll_scalar (hawaits : AwaitsValue expected) (hspace : isSpace c = false)
    (htoken : nextToken c cs = some (.scalar v, rest)) :
    takeAll ⟨expected, frames⟩ (c :: cs) = (complete v frames).takeAll rest := by
  refine takeAll_token hspace htoken ?_
  rcases hawaits with rfl | rfl <;> rfl

theorem takeAll_name (hawaits : AwaitsName expected) {fields : List (Option String × Json)}
    {name : Option String} (s : String) (rest : List Char) :
    takeAll ⟨expected, .object fields name :: frames⟩ (quoted (some s) ++ ':' :: rest) =
      takeAll ⟨.value, .object fields (some s) :: frames⟩ rest := by
  have hname : takeAll ⟨expected, .object fields name :: frames⟩ (quoted (some s) ++ ':' :: rest) =
      takeAll ⟨.colon, .object fields (some s) :: frames⟩ (':' :: rest) := by
    have htoken := nextToken_quoted s (':' :: rest)
    have hquoted : quoted (some s) ++ ':' :: rest =
        '"' :: (s.toList.flatMap escaped ++ '"' :: ':' :: rest) := by simp [quoted]
    rw [hquoted]
    refine takeAll_token rfl htoken ?_
    rcases hawaits with rfl | rfl <;> rfl
  rw [hname]
  exact takeAll_token rfl rfl rfl

/-- The text of the value takes the reader to having completed it. -/
def Reads (v : Json) : Prop :=
  ∀ (expected : Expectation) (frames : List Frame) (rest : List Char), AwaitsValue expected →
    Delimited rest → takeAll ⟨expected, frames⟩ (v.chars ++ rest) = (complete v frames).takeAll rest

/-! ## Scalars -/

theorem reads_word (hchars : v.chars = c :: cs) (hc : isNumeral c = false)
    (halphas : (c :: cs).all Char.isAlpha = true) (hv : word? (c :: cs) = some v) : Reads v := by
  intro expected frames rest hawaits hrest
  have hcs := List.all_eq_true.mp halphas
  have hspace : isSpace c = false := by
    rw [Bool.eq_false_iff]
    intro hspace
    have halpha := hcs c List.mem_cons_self
    rw [(isSpace_delimits hspace).2] at halpha
    cases halpha
  rw [hchars]
  exact takeAll_scalar hawaits hspace (nextToken_word hc hcs hrest hv)

theorem reads_integer (n : Int) : Reads (.integer n) := by
  intro expected frames rest hawaits hrest
  obtain ⟨c, cs, hcs⟩ := exists_integerText_cons n
  have hnumeral : ∀ x ∈ c :: cs, isNumeral x = true := by
    rw [← hcs]
    exact isNumeral_of_mem_integerText
  have hspace : isSpace c = false := by
    rw [Bool.eq_false_iff]
    intro hspace
    have hc := hnumeral c List.mem_cons_self
    rw [(isSpace_delimits hspace).1] at hc
    cases hc
  rw [chars, hcs]
  exact takeAll_scalar hawaits hspace
    (nextToken_numeral hnumeral hrest (by rw [← hcs, numeral?_integerText]))

theorem reads_string (s : String) : Reads (.string (some s)) := by
  intro expected frames rest hawaits _
  have hquoted : chars (.string (some s)) ++ rest =
      '"' :: (s.toList.flatMap escaped ++ '"' :: rest) := by simp [chars, quoted]
  rw [hquoted]
  exact takeAll_scalar hawaits rfl (nextToken_quoted s rest)

/-! ## Arrays -/

/-- After an item the array ends or goes on. -/
theorem takeAll_item {done : List Json} :
    (complete v (.array done :: frames)).takeAll (']' :: rest) =
        (complete (.array (done.reverse ++ [v])) frames).takeAll rest ∧
      (complete v (.array done :: frames)).takeAll (',' :: rest) =
        takeAll ⟨.value, .array (v :: done) :: frames⟩ rest := by
  refine ⟨takeAll_token rfl rfl ?_, takeAll_token rfl rfl rfl⟩
  simp [complete, take, takeContinuation, takeClose]

theorem reads_items {items done : List Json} (hne : items ≠ []) (h : ∀ v ∈ items, Reads v)
    (hawaits : AwaitsValue expected) :
    takeAll ⟨expected, .array done :: frames⟩ (itemChars items ++ rest) =
      (complete (.array (done.reverse ++ items)) frames).takeAll rest := by
  induction items generalizing expected done with
  | nil => exact absurd rfl hne
  | cons v tail ih =>
    obtain ⟨hv, htail⟩ := List.forall_mem_cons.mp h
    cases tail with
    | nil =>
      have hdelimited : Delimited (']' :: rest) := delimited_cons ⟨rfl, rfl⟩ rest
      have htext : itemChars [v] ++ rest = v.chars ++ ']' :: rest := by simp [itemChars]
      rw [htext, hv _ _ _ hawaits hdelimited, takeAll_item.1]
    | cons v' tail =>
      have hdelimited : Delimited (',' :: (itemChars (v' :: tail) ++ rest)) :=
        delimited_cons ⟨rfl, rfl⟩ _
      have htext : itemChars (v :: v' :: tail) ++ rest =
          v.chars ++ ',' :: (itemChars (v' :: tail) ++ rest) := by simp [itemChars]
      rw [htext, hv _ _ _ hawaits hdelimited, takeAll_item.2,
        ih (List.cons_ne_nil v' tail) htail (Or.inl rfl), List.reverse_cons, List.append_assoc]
      rfl

theorem reads_array {items : List Json} (h : ∀ v ∈ items, Reads v) : Reads (.array items) := by
  intro expected frames rest hawaits _
  have hopen : takeAll ⟨expected, frames⟩ ((Json.array items).chars ++ rest) =
      takeAll ⟨.firstItem, .array [] :: frames⟩ (itemChars items ++ rest) := by
    rw [chars, List.cons_append]
    refine takeAll_token rfl rfl ?_
    rcases hawaits with rfl | rfl <;> rfl
  rw [hopen]
  cases items with
  | nil => exact takeAll_token rfl rfl rfl
  | cons v tail => exact reads_items (List.cons_ne_nil v tail) h (Or.inr rfl)

/-! ## Objects -/

/-- After a field the object ends or goes on. -/
theorem takeAll_field {done : List (Option String × Json)} {name : Option String} :
    (complete v (.object done name :: frames)).takeAll ('\x7d' :: rest) =
        (complete (.object (done.reverse ++ [(name, v)])) frames).takeAll rest ∧
      (complete v (.object done name :: frames)).takeAll (',' :: rest) =
        takeAll ⟨.fieldName, .object ((name, v) :: done) none :: frames⟩ rest := by
  refine ⟨takeAll_token rfl rfl ?_, takeAll_token rfl rfl rfl⟩
  simp [complete, take, takeContinuation, takeClose]

theorem reads_fields {fields done : List (Option String × Json)} {name : Option String}
    (hne : fields ≠ []) (hnames : ∀ f ∈ fields, f.1.isSome = true) (h : ∀ f ∈ fields, Reads f.2)
    (hawaits : AwaitsName expected) : takeAll ⟨expected, .object done name :: frames⟩
      (fieldChars fields ++ rest) =
        (complete (.object (done.reverse ++ fields)) frames).takeAll rest := by
  induction fields generalizing expected done name with
  | nil => exact absurd rfl hne
  | cons f tail ih =>
    obtain ⟨hf, htail⟩ := List.forall_mem_cons.mp h
    obtain ⟨hname, hnamesTail⟩ := List.forall_mem_cons.mp hnames
    obtain ⟨fieldName, v⟩ := f
    obtain ⟨s, rfl⟩ := Option.isSome_iff_exists.mp hname
    cases tail with
    | nil =>
      have hdelimited : Delimited ('\x7d' :: rest) := delimited_cons ⟨rfl, rfl⟩ rest
      have htext : fieldChars [(some s, v)] ++ rest =
          quoted (some s) ++ ':' :: (v.chars ++ '\x7d' :: rest) := by simp [fieldChars]
      rw [htext, takeAll_name hawaits, hf _ _ _ (Or.inl rfl) hdelimited, takeAll_field.1]
    | cons f' tail =>
      have hdelimited : Delimited (',' :: (fieldChars (f' :: tail) ++ rest)) :=
        delimited_cons ⟨rfl, rfl⟩ _
      have htext : fieldChars ((some s, v) :: f' :: tail) ++ rest =
          quoted (some s) ++ ':' :: (v.chars ++ ',' :: (fieldChars (f' :: tail) ++ rest)) := by
        simp [fieldChars]
      rw [htext, takeAll_name hawaits, hf _ _ _ (Or.inl rfl) hdelimited, takeAll_field.2,
        ih (List.cons_ne_nil f' tail) hnamesTail htail (Or.inl rfl), List.reverse_cons,
        List.append_assoc]
      rfl

theorem reads_object {fields : List (Option String × Json)}
    (hnames : ∀ f ∈ fields, f.1.isSome = true) (h : ∀ f ∈ fields, Reads f.2) :
    Reads (.object fields) := by
  intro expected frames rest hawaits _
  have hopen : takeAll ⟨expected, frames⟩ ((Json.object fields).chars ++ rest) =
      takeAll ⟨.firstField, .object [] none :: frames⟩ (fieldChars fields ++ rest) := by
    rw [chars, List.cons_append]
    refine takeAll_token rfl rfl ?_
    rcases hawaits with rfl | rfl <;> rfl
  rw [hopen]
  cases fields with
  | nil => exact takeAll_token rfl rfl rfl
  | cons f tail => exact reads_fields (List.cons_ne_nil f tail) hnames h (Or.inr rfl)

/-! ## All values -/

/-- **The text of a value is read as that value**, inside whatever is open. -/
theorem reads_of_hasText (h : v.HasText) : Reads v := by
  induction h with
  | null => exact reads_word rfl rfl rfl rfl
  | bool value =>
    cases value with
    | true => exact reads_word rfl rfl rfl rfl
    | false => exact reads_word rfl rfl rfl rfl
  | integer n => exact reads_integer n
  | string s => exact reads_string s
  | array _ ih => exact reads_array ih
  | object hnames _ ih => exact reads_object hnames ih

end Reader

/-- **A written value is read back.** -/
theorem parse?_render {v : Json} (h : v.HasText) : parse? v.render = some v := by
  have hreads := Reader.reads_of_hasText h .value [] [] (Or.inl rfl) delimited_nil
  rw [List.append_nil] at hreads
  rw [parse?, render, String.toList_ofList, Reader.start, hreads]
  simp [Reader.complete, Reader.takeAll, Reader.result?]

end Json
end DeltaMatch
