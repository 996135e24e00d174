import DeltaMatch.Proofs.Text
import DeltaMatch.Proofs.Text.Encoding
import DeltaMatch.Text.Delimited

/-!
# Tables as delimited text

A table is written line by line, the fields of a row joined by a delimiter. The reader takes
bytes, and no field tells it where it ends before the delimiter or the line end comes; still it
finds the rows again, whatever lines come after, if no field holds a byte with a meaning.
-/

namespace DeltaMatch
namespace Delimited

variable {delimiter b : UInt8} {field : Field} {fields : List Field}

/-! ## Bytes -/

/-- The byte neither opens or closes quotes nor ends a line. -/
def Unmarked (b : UInt8) : Prop := b ≠ quote ∧ isTerminator b = false

/-- The bytes of the field mean nothing but themselves. -/
def Bare (delimiter : UInt8) (field : Field) : Prop :=
  ∀ b ∈ field, b ≠ delimiter ∧ Unmarked b

namespace Reader

variable {r : Reader}

/-- The reader stands before a field. -/
def BeforeField (r : Reader) : Prop :=
  (r.place = .recordStart ∨ r.place = .fieldStart) ∧ r.field = []

/-- The reader stands in a field outside quotes, or before one that is not the first. -/
def InField (r : Reader) : Prop := r.place = .fieldStart ∨ r.place = .plain

/-- The reader with the record that is under way completed by some fields. -/
def completed (r : Reader) (fields : List Field) : Reader :=
  { place := .recordStart, records := (r.record.reverse ++ fields) :: r.records }

/-- Outside quotes a byte is an ordinary one, unless it ends a line where no record has
started. -/
theorem step_eq_outside (hr : r.place = .recordStart ∨ r.InField) (hb : b ≠ quote)
    (hstart : r.place = .recordStart → isTerminator b = false) :
    r.step delimiter b = r.outside delimiter b := by
  have hquote : (b == quote) = false := beq_false_of_ne hb
  rcases hr with hplace | hplace | hplace
  · simp [step, hplace, hstart hplace, hquote]
  · simp [step, hplace, hquote]
  · simp [step, hplace]

theorem foldl_bare (hr : r.place = .recordStart ∨ r.InField) (hfield : Bare delimiter field) :
    field.foldl (step delimiter) r =
      { r with
        field := field.reverse ++ r.field
        place := if field = [] then r.place else .plain } := by
  induction field generalizing r with
  | nil => rfl
  | cons b rest ih =>
    obtain ⟨⟨hdelimiter, hquote, hterminator⟩, hrest⟩ := List.forall_mem_cons.mp hfield
    have hstep : r.step delimiter b = r.append b .plain := by
      rw [step_eq_outside hr hquote fun _ => hterminator, outside]
      simp [hdelimiter, hterminator]
    rw [List.foldl_cons, hstep, ih (.inr (.inr rfl)) hrest]
    simp [append]

theorem step_delimiter (hr : r.place = .recordStart ∨ r.InField) (hd : Unmarked delimiter) :
    r.step delimiter delimiter = r.endField := by
  rw [step_eq_outside hr hd.1 fun _ => hd.2, outside]
  simp

/-- A field before a delimiter is added to the record. -/
theorem foldl_field (hr : r.BeforeField) (hd : Unmarked delimiter)
    (hfield : Bare delimiter field) : (field ++ [delimiter]).foldl (step delimiter) r =
      { r with record := field :: r.record, place := .fieldStart } := by
  obtain ⟨hplace, hempty⟩ := hr
  have hout : r.place = .recordStart ∨ r.InField := hplace.imp_right .inl
  rw [List.foldl_append, foldl_bare hout hfield, List.foldl_cons, List.foldl_nil,
    step_delimiter ?_ hd]
  · simp [endField, hempty]
  · by_cases hnil : field = []
    · simpa [hnil, InField] using hout
    · simp [hnil, InField]

/-- **After a line** the reader stands in its last field, and to end the record there completes
the fields of the line. -/
theorem foldl_line (hr : r.BeforeField) (hd : Unmarked delimiter) (hne : fields ≠ [])
    (hblank : r.place = .recordStart → fields ≠ [[]])
    (hfields : ∀ field ∈ fields, Bare delimiter field) :
    (([delimiter].intercalate fields).foldl (step delimiter) r).InField ∧
      (([delimiter].intercalate fields).foldl (step delimiter) r).endRecord =
        r.completed fields := by
  induction fields generalizing r with
  | nil => exact absurd rfl hne
  | cons field rest ih =>
    obtain ⟨hfield, hrest⟩ := List.forall_mem_cons.mp hfields
    cases rest with
    | nil =>
      obtain ⟨hplace, hempty⟩ := hr
      rw [List.intercalate_singleton, foldl_bare (hplace.imp_right .inl) hfield, hempty]
      constructor
      · by_cases hnil : field = []
        · have hstart : r.place ≠ .recordStart := fun hstart => hblank hstart (by rw [hnil])
          simpa [hnil, InField] using Or.inl (hplace.resolve_left hstart)
        · simp [hnil, InField]
      · simp [endRecord, endField, completed]
    | cons field' rest =>
      have hline : [delimiter].intercalate (field :: field' :: rest) =
          (field ++ [delimiter]) ++ [delimiter].intercalate (field' :: rest) :=
        List.intercalate_cons_cons
      have hnext := ih (r := { r with record := field :: r.record, place := .fieldStart })
        ⟨.inr rfl, hr.2⟩ (List.cons_ne_nil _ _) nofun hrest
      rw [hline, List.foldl_append, foldl_field hr hd hfield]
      refine ⟨hnext.1, hnext.2.trans ?_⟩
      simp [completed]

/-! ## Line ends -/

/-- Blank lines are skipped. -/
theorem foldl_blank (hr : r.place = .recordStart) {blank : List UInt8}
    (hblank : ∀ b ∈ blank, isTerminator b = true) : blank.foldl (step delimiter) r = r := by
  induction blank with
  | nil => rfl
  | cons b rest ih =>
    obtain ⟨hb, hrest⟩ := List.forall_mem_cons.mp hblank
    have hstep : r.step delimiter b = r := by simp [step, hr, hb]
    rw [List.foldl_cons, hstep, ih hrest]

/-- A line end completes the record, and blank lines after it are skipped. -/
theorem foldl_stop (hr : r.InField) (hd : Unmarked delimiter) {stop : List UInt8}
    (hne : stop ≠ []) (hstop : ∀ b ∈ stop, isTerminator b = true) :
    stop.foldl (step delimiter) r = r.endRecord := by
  obtain ⟨b, rest, rfl⟩ := List.exists_cons_of_ne_nil hne
  obtain ⟨hb, hrest⟩ := List.forall_mem_cons.mp hstop
  have hquote : b ≠ quote := by
    rintro rfl
    cases hb
  have hdelimiter : b ≠ delimiter := by
    rintro rfl
    rw [hd.2] at hb
    cases hb
  have hstart : r.place = .recordStart → isTerminator b = false := by
    intro hplace
    rcases hr with hr | hr <;> rw [hplace] at hr <;> cases hr
  have hstep : r.step delimiter b = r.endRecord := by
    rw [step_eq_outside (.inr hr) hquote hstart, outside]
    simp [hdelimiter, hb]
  rw [List.foldl_cons, hstep, foldl_blank rfl hrest]

/-- The end of the text completes the record as well. -/
theorem finish_of_inField (hr : r.InField) : r.finish = r.endRecord.records.reverse := by
  rcases hr with hr | hr <;> simp [finish, hr]

/-- A byte adds at most one record to those that are complete. -/
theorem isPrefix_step (delimiter : UInt8) (r : Reader) (b : UInt8) :
    r.records.reverse <+: (r.step delimiter b).records.reverse := by
  have houtside : r.records.reverse <+: (r.outside delimiter b).records.reverse := by
    rw [outside]
    split
    · exact List.prefix_rfl
    split
    · simp [endRecord, endField]
    · exact List.prefix_rfl
  have hquoted : r.records.reverse <+: (if b == quote then { r with place := .quoted }
      else r.outside delimiter b).records.reverse := by
    split
    · exact List.prefix_rfl
    · exact houtside
  cases hplace : r.place with
  | recordStart =>
    simp only [step, hplace]
    split
    · exact List.prefix_rfl
    · exact hquoted
  | fieldStart => simpa only [step, hplace] using hquoted
  | plain => simpa only [step, hplace] using houtside
  | quoted =>
    simp only [step, hplace]
    split <;> exact List.prefix_rfl
  | afterQuote =>
    simp only [step, hplace]
    split
    · exact List.prefix_rfl
    · exact houtside

/-- What comes later only adds to the records that are complete. -/
theorem isPrefix_finish (delimiter : UInt8) (r : Reader) (bytes : List UInt8) :
    r.records.reverse <+: (bytes.foldl (step delimiter) r).finish := by
  induction bytes generalizing r with
  | nil =>
    rw [List.foldl_nil, finish]
    split
    · exact List.prefix_rfl
    · simp [endRecord, endField]
  | cons b rest ih =>
    rw [List.foldl_cons]
    exact (isPrefix_step delimiter r b).trans (ih _)

end Reader

/-! ## Tables -/

variable {d : Char} {row : List (List Char)} {rows : List (List (List Char))} {text : List Char}

/-- The character can be used between fields: it is a single byte without a meaning of its own. -/
structure IsDelimiter (d : Char) : Prop where
  isAscii : IsAscii d
  ne_quote : d ≠ '"'
  ne_feed : d ≠ '\n'
  ne_return : d ≠ '\r'

/-- The row can be written without quotes, and not as a blank line. -/
structure Plain (d : Char) (row : List (List Char)) : Prop where
  ne_nil : row ≠ []
  ne_blank : row ≠ [[]]
  bare : ∀ field ∈ row, ∀ c ∈ field, c ≠ d ∧ c ≠ '"' ∧ c ≠ '\n' ∧ c ≠ '\r'

/-- What a line may end with. Blank lines after it count as a part of its end. -/
def LineEnd (stop : List Char) : Prop := stop ≠ [] ∧ ∀ c ∈ stop, c = '\n' ∨ c = '\r'

/-- The text has a row on each of its lines, with the fields joined by the delimiter. The last
line may be without an end. -/
inductive Tabulates (d : Char) : List (List (List Char)) → List Char → Prop
  | nil : Tabulates d [] []
  | last (row : List (List Char)) : Tabulates d [row] ([d].intercalate row)
  | cons {row : List (List Char)} {rows : List (List (List Char))} {stop text : List Char} :
      LineEnd stop → Tabulates d rows text →
        Tabulates d (row :: rows) ([d].intercalate row ++ (stop ++ text))

/-- A table starts with its first row, and then the line ends or the text does. -/
theorem Tabulates.exists_first_line (h : Tabulates d (row :: rows) text) : ∃ rest : List Char,
    text = [d].intercalate row ++ rest ∧ ∀ b ∈ (bytesOf rest).head?, isTerminator b = true := by
  cases h with
  | last => exact ⟨[], (List.append_nil _).symm, nofun⟩
  | @cons _ _ stop text hstop =>
    obtain ⟨c, stop, rfl⟩ := List.exists_cons_of_ne_nil hstop.1
    refine ⟨_, rfl, ?_⟩
    rcases hstop.2 c List.mem_cons_self with rfl | rfl
    · rintro b ⟨⟩
      rfl
    · rintro b ⟨⟩
      rfl

theorem bytesOf_intercalate (hd : IsAscii d) (row : List (List Char)) :
    bytesOf ([d].intercalate row) = [d.toNat.toUInt8].intercalate (row.map bytesOf) := by
  induction row with
  | nil => rfl
  | cons field rest ih =>
    cases rest with
    | nil => simp
    | cons field' rest =>
      have hbyte : bytesOf [d] = [d.toNat.toUInt8] := by
        rw [bytesOf_cons, utf8EncodeChar_of_isAscii hd]
        rfl
      rw [List.intercalate_cons_cons, bytesOf_append, bytesOf_append, hbyte, ih]
      simp [List.intercalate_cons_cons]

/-- A text without quotes and line ends has none among its bytes. -/
theorem unmarked_of_mem_bytesOf {cs : List Char} (hquote : '"' ∉ cs) (hfeed : '\n' ∉ cs)
    (hreturn : '\r' ∉ cs) : ∀ b ∈ bytesOf cs, Unmarked b := by
  intro b hb
  have hfeed := ne_of_mem_bytesOf (by decide) hfeed hb
  have hreturn := ne_of_mem_bytesOf (by decide) hreturn hb
  exact ⟨ne_of_mem_bytesOf (by decide) hquote hb,
    by simpa [isTerminator] using And.intro hfeed hreturn⟩

/-- A byte outside the ASCII range has no meaning. -/
theorem unmarked_of_le (h : 128 ≤ b.toNat) : Unmarked b := by
  have hne : ∀ x : UInt8, x.toNat < 128 → b ≠ x := by
    rintro x hx rfl
    omega
  have hfeed : b ≠ 10 := hne 10 (by decide)
  have hreturn : b ≠ 13 := hne 13 (by decide)
  exact ⟨hne quote (by decide), by simpa [isTerminator] using And.intro hfeed hreturn⟩

theorem IsDelimiter.unmarked (hd : IsDelimiter d) : Unmarked d.toNat.toUInt8 := by
  have hmem : d.toNat.toUInt8 ∈ bytesOf [d] :=
    (mem_bytesOf_iff hd.isAscii).mpr (List.mem_singleton_self d)
  refine unmarked_of_mem_bytesOf ?_ ?_ ?_ _ hmem
  · simpa using hd.ne_quote.symm
  · simpa using hd.ne_feed.symm
  · simpa using hd.ne_return.symm

theorem Plain.bare_bytes (h : Plain d row) (hd : IsDelimiter d) :
    ∀ field ∈ row.map bytesOf, Bare d.toNat.toUInt8 field := by
  intro bytes hbytes b hb
  obtain ⟨field, hfield, rfl⟩ := List.mem_map.mp hbytes
  have hbare := h.bare field hfield
  refine ⟨ne_of_mem_bytesOf hd.isAscii (fun hmem => (hbare d hmem).1 rfl) hb,
    unmarked_of_mem_bytesOf ?_ ?_ ?_ b hb⟩
  · exact fun hmem => (hbare _ hmem).2.1 rfl
  · exact fun hmem => (hbare _ hmem).2.2.1 rfl
  · exact fun hmem => (hbare _ hmem).2.2.2 rfl

theorem LineEnd.bytes {stop : List Char} (h : LineEnd stop) :
    bytesOf stop ≠ [] ∧ ∀ b ∈ bytesOf stop, isTerminator b = true := by
  obtain ⟨hne, hstop⟩ := h
  constructor
  · exact mt bytesOf_eq_nil_iff.mp hne
  · intro b hb
    obtain ⟨c, hc, hb⟩ := List.mem_flatMap.mp hb
    rcases hstop c hc with rfl | rfl
    · obtain rfl := List.mem_singleton.mp hb
      rfl
    · obtain rfl := List.mem_singleton.mp hb
      rfl

/-- A text that starts with an ASCII character has no byte order mark. -/
theorem withoutMark_bytesOf (h : ∀ c ∈ text.head?, IsAscii c) :
    withoutMark (bytesOf text) = bytesOf text := by
  cases text with
  | nil => rfl
  | cons c rest =>
    have hc : IsAscii c := h c rfl
    rw [bytesOf_cons, utf8EncodeChar_of_isAscii hc, List.singleton_append, withoutMark]
    intro rest' heq
    have hbyte := toNat_toUInt8 hc.le
    rw [(List.cons.inj heq).1] at hbyte
    have hlt : c.toNat < 128 := hc
    rw [← hbyte] at hlt
    exact absurd hlt (by decide)

/-- **The reader finds the rows of a table**, and adds them to the records that it has. -/
theorem finish_of_tabulates (hd : IsDelimiter d) (h : Tabulates d rows text)
    (hrows : ∀ row ∈ rows, Plain d row) (records : List (List Field)) :
    ((bytesOf text).foldl (Reader.step d.toNat.toUInt8) { records }).finish =
      records.reverse ++ rows.map (·.map bytesOf) := by
  have hline : ∀ {row}, Plain d row → ∀ records : List (List Field),
      ((bytesOf ([d].intercalate row)).foldl (Reader.step d.toNat.toUInt8) { records }).InField ∧
        ((bytesOf ([d].intercalate row)).foldl (Reader.step d.toNat.toUInt8)
          { records }).endRecord = { records := row.map bytesOf :: records } := by
    intro row hrow records
    rw [bytesOf_intercalate hd.isAscii]
    have hne : row.map bytesOf ≠ [] := mt List.map_eq_nil_iff.mp hrow.ne_nil
    have hblank : row.map bytesOf ≠ [[]] := by
      intro hblank
      obtain ⟨field, hfield, hbytes⟩ := List.map_eq_singleton_iff.mp hblank
      exact hrow.ne_blank (by rw [hfield, bytesOf_eq_nil_iff.mp hbytes])
    exact Reader.foldl_line ⟨.inl rfl, rfl⟩ hd.unmarked hne (fun _ => hblank) (hrow.bare_bytes hd)
  induction h generalizing records with
  | nil => simp [bytesOf, Reader.finish]
  | last row =>
    obtain ⟨hplace, hend⟩ := hline (hrows row List.mem_cons_self) records
    rw [Reader.finish_of_inField hplace, hend]
    simp
  | @cons row rows stop text hstop _ ih =>
    obtain ⟨hrow, hrest⟩ := List.forall_mem_cons.mp hrows
    obtain ⟨hplace, hend⟩ := hline hrow records
    rw [bytesOf_append, bytesOf_append, List.foldl_append, List.foldl_append,
      Reader.foldl_stop hplace hd.unmarked hstop.bytes.1 hstop.bytes.2, hend, ih hrest]
    simp

/-- **The records of a table are its rows.** -/
theorem records_of_tabulates (hd : IsDelimiter d) (h : Tabulates d rows text)
    (hrows : ∀ row ∈ rows, Plain d row) (hstart : ∀ c ∈ text.head?, IsAscii c) :
    records d.toNat.toUInt8 (bytesOf text) = rows.map (·.map bytesOf) := by
  rw [records, withoutMark_bytesOf hstart, finish_of_tabulates hd h hrows, List.reverse_nil,
    List.nil_append]

/-- The first record is the first line, cut at each delimiter, whatever follows its end. -/
theorem head?_records {line rest : List UInt8} (hd : Unmarked delimiter) (hne : line ≠ [])
    (hline : ∀ b ∈ line, Unmarked b)
    (hrest : ∀ b ∈ rest.head?, isTerminator b = true)
    (hmark : withoutMark (line ++ rest) = line ++ rest) :
    (records delimiter (line ++ rest)).head? = some (line.splitOn delimiter) := by
  have hjoined : [delimiter].intercalate (line.splitOn delimiter) = line :=
    List.intercalate_splitOn delimiter
  have hblank : line.splitOn delimiter ≠ [[]] := by
    intro hblank
    rw [hblank] at hjoined
    exact hne hjoined.symm
  have hbare : ∀ field ∈ line.splitOn delimiter, Bare delimiter field := by
    intro field hfield b hb
    have hmem : b ∈ line := by
      rw [← hjoined]
      exact mem_intercalate hfield hb
    exact ⟨fun heq => not_mem_of_mem_splitOn hfield (heq ▸ hb), hline b hmem⟩
  obtain ⟨hplace, hend⟩ := Reader.foldl_line (r := {}) ⟨.inl rfl, rfl⟩ hd
    (List.splitOn_ne_nil delimiter line) (fun _ => hblank) hbare
  rw [hjoined] at hplace hend
  rw [records, hmark, List.foldl_append]
  cases rest with
  | nil =>
    rw [List.foldl_nil, Reader.finish_of_inField hplace, hend]
    rfl
  | cons b rest =>
    have hstop := Reader.foldl_stop hplace hd (List.cons_ne_nil b []) (by simpa using hrest)
    rw [List.foldl_cons, List.foldl_nil, hend] at hstop
    rw [List.foldl_cons, hstop]
    obtain ⟨more, hmore⟩ := Reader.isPrefix_finish delimiter
      (Reader.completed {} (line.splitOn delimiter)) rest
    rw [← hmore]
    rfl

end Delimited
end DeltaMatch
