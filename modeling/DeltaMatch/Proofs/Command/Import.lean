import DeltaMatch.Proofs.Command.Printing
import DeltaMatch.Proofs.Command.Reading
import DeltaMatch.Proofs.EdgeTable.RoundTrip

/-!
# Imports

An import reads a table of numerals whatever ASCII character stands between them, and leaves
a snapshot of its edges behind. Characters above U+00FF are turned down before the table is
opened. The characters between pass for single bytes, though each of them is stored as two: a
table that is joined by one of them is taken apart inside of it or not at all, and is refused.
-/

namespace DeltaMatch
namespace Command

open EdgeTable

variable {c : Char} {d d' : Directory} {edges : List Edge} {rows : List (List (List Char))}
  {table out name : String}

/-! ## Runs -/

theorem aftermath_import {content : ByteArray} (layout : Layout) {g : Graph} {summary : Summary}
    (hc : c.toNat ≤ 255) (hread : d.read? table = some content)
    (hload : EdgeTable.load { layout with delimiter := c.toNat.toUInt8 } content.data.toList =
      .ok (g, summary)) (hwrite : d.write? out g.snapshot.write = some d')
    (format : OutputFormat) : ∃ printed,
      (Request.importTable table out layout c).aftermath format d = ⟨d', printed, none⟩ := by
  rw [Request.aftermath, Request.action, importTable, if_neg (Nat.not_lt.mpr hc)]
  simp only [Action.runIn, hread, hload, hwrite]
  cases format with
  | text => exact ⟨_, rfl⟩
  | json => exact ⟨_, rfl⟩

theorem aftermath_import_of_error {content : ByteArray} (layout : Layout) {cause : TableError}
    (hc : c.toNat ≤ 255) (hread : d.read? table = some content)
    (hload : EdgeTable.load { layout with delimiter := c.toNat.toUInt8 } content.data.toList =
      .error cause) (format : OutputFormat) :
    (Request.importTable table out layout c).aftermath format d =
      ⟨d, "", some (.table cause)⟩ := by
  rw [Request.aftermath, Request.action, importTable, if_neg (Nat.not_lt.mpr hc)]
  simp only [Action.runIn, hread, hload]

/-- **A table of numerals is imported**, if a file can be written there at all. -/
theorem exists_import {text : String} (hc : Meaningless c) (hascii : IsAscii c)
    (htable : IsTable c edges text.toList) (hcodes : ∀ e ∈ edges, 0 ≤ e.label.code.toInt)
    (hread : d.read? table = some text.toUTF8) (hout : Directory.nameOf? out = some name)
    (format : OutputFormat) : ∃ d' printed g,
      (Request.importTable table out { labelColumn := some "type" } c).aftermath format d =
          ⟨d', printed, none⟩ ∧
        d'.Opens out g ∧ ∀ e, g.Has .permanent e ↔ e ∈ edges := by
  have hedges := read_typed hc hascii htable hcodes
  rw [← toList_data_toUTF8, numeralLayout] at hedges
  obtain ⟨g, hg⟩ := exists_load_of_read hedges
  have hload := load_eq_of_read rfl hedges hg
  have hwrite : d.write? out g.snapshot.write = some (d.put name g.snapshot.write.toUTF8) :=
    Directory.write?_eq_some_iff.mpr ⟨name, hout, rfl⟩
  obtain ⟨printed, hafter⟩ :=
    aftermath_import { labelColumn := some "type" } hascii.le hread hload hwrite format
  obtain ⟨g', hopens, hsame⟩ := exists_opens_of_write? (.origin (.load hg)) hwrite
  refine ⟨_, printed, g', hafter, hopens, fun e => ?_⟩
  rw [hsame, (Graph.LoadOf.of_load hg).has_iff]

/-! ## Characters of two bytes -/

/-- Why a table is refused whose fields are joined by a character of two bytes. Where the number
of the character is one of its bytes, the header is cut inside of characters and its fields are
no text; elsewhere it is not cut at all. -/
def twoByteFault (c : Char) : TableError :=
  if c.toNat < 192 ∨ c.toNat = 195 then .malformed else .missingColumn "from"

/-- The first line of a table, as it is stored. -/
def headerBytes (c : Char) : List UInt8 := bytesOf ([c].intercalate header)

theorem headerBytes_eq (c : Char) : headerBytes c =
    bytesOf "from".toList ++ (String.utf8EncodeChar c ++ (bytesOf "to".toList ++
      (String.utf8EncodeChar c ++ bytesOf "type".toList))) := by
  simp [headerBytes, header, bytesOf, List.intercalate_cons_cons]

/-- Up to U+00BF the number of the character is its second byte. -/
theorem splitOn_headerBytes_low (hascii : ¬ IsAscii c) (hlow : c.toNat < 192) :
    (headerBytes c).splitOn c.toNat.toUInt8 =
      [bytesOf "from".toList ++ [194], bytesOf "to".toList ++ [194], bytesOf "type".toList] := by
  have hge : 128 ≤ c.toNat := Nat.not_lt.mp hascii
  have hbytes : String.utf8EncodeChar c = [194, c.toNat.toUInt8] := by
    have hlead : c.toNat / 64 = 2 := by omega
    have hlast : c.toNat % 64 + 128 = c.toNat := by omega
    rw [utf8EncodeChar_of_le hascii (by omega), hlead, hlast]
    rfl
  have hnumber := toNat_toUInt8 (Nat.le_trans (Nat.le_of_lt hlow) (by decide))
  rw [headerBytes_eq, hbytes, splitOn_eq_iff (List.cons_ne_nil _ _)]
  constructor
  · rfl
  · have hall : [bytesOf "from".toList ++ [194], bytesOf "to".toList ++ [194],
        bytesOf "type".toList].all (·.all fun b => b.toNat < 128 || 192 ≤ b.toNat) = true := by
      decide
    intro field hfield hmem
    have hbyte := List.all_eq_true.mp (List.all_eq_true.mp hall field hfield) _ hmem
    rw [Bool.or_eq_true, decide_eq_true_eq, decide_eq_true_eq] at hbyte
    omega

/-- From U+00C0 on the number is neither of the bytes, but for U+00C3. -/
theorem not_mem_headerBytes (hhigh : 192 ≤ c.toNat) (hle : c.toNat ≤ 255) (hne : c.toNat ≠ 195) :
    c.toNat.toUInt8 ∉ headerBytes c := by
  have hascii : ¬ IsAscii c := Nat.not_lt.mpr (Nat.le_trans (by decide) hhigh)
  have hnumber := toNat_toUInt8 hle
  have hbyte : ∀ n, n < 256 → n ≠ c.toNat → c.toNat.toUInt8 ≠ UInt8.ofNat n := by
    intro n hn hne heq
    rw [← hnumber, heq, UInt8.toNat_ofNat_of_lt' hn] at hne
    exact hne rfl
  have hword : ∀ word ∈ header, c.toNat.toUInt8 ∉ bytesOf word := by
    have hall : (header.all fun word => (bytesOf word).all (·.toNat < 128)) = true := by decide
    intro word hword hmem
    have hbyte := List.all_eq_true.mp (List.all_eq_true.mp hall word hword) _ hmem
    rw [decide_eq_true_eq] at hbyte
    omega
  have hencoded : c.toNat.toUInt8 ∉ String.utf8EncodeChar c := by
    rw [utf8EncodeChar_of_le hascii hle]
    simp only [List.mem_cons, List.not_mem_nil, or_false, not_or]
    exact ⟨hbyte _ (by omega) (by omega), hbyte _ (by omega) (by omega)⟩
  simp only [headerBytes_eq, List.mem_append, not_or]
  exact ⟨hword _ (.head _), hencoded, hword _ (.tail _ (.head _)), hencoded,
    hword _ (.tail _ (.tail _ (.head _)))⟩

/-- A header that is not cut names no column. -/
theorem columnOf_uncut (c : Char) :
    columnOf [trim ([c].intercalate header)] "from" = .error (.missingColumn "from") := by
  have hline : trim ([c].intercalate header) = [c].intercalate header := by
    refine trim_eq_iff.mpr ⟨⟨[], [], by simp, nofun, nofun⟩, ?_, ?_⟩
    · rintro c ⟨⟩
      rfl
    · rintro c ⟨⟩
      rfl
  have hne : ([c].intercalate header).map foldCase ≠ "from".toList.map foldCase := fun h =>
    absurd (congrArg List.length h) (by simp [header, List.intercalate_cons_cons])
  rw [columnOf, hline, List.findIdx?_cons, beq_false_of_ne hne]
  rfl

/-- Whatever the character, the first record of such a table is its header, cut at the number of
the character. -/
theorem head?_records_twoByte {text : List Char} (hascii : ¬ IsAscii c) (hle : c.toNat ≤ 255)
    (htable : Delimited.Tabulates c (header :: rows) text) :
    (Delimited.records c.toNat.toUInt8 (bytesOf text)).head? =
      some ((headerBytes c).splitOn c.toNat.toUInt8) := by
  have hmark := Delimited.withoutMark_bytesOf (isAscii_head? htable)
  obtain ⟨rest, rfl, hrest⟩ := htable.exists_first_line
  rw [bytesOf_append] at hmark ⊢
  have hnumber := toNat_toUInt8 hle
  have hdelimiter : Delimited.Unmarked c.toNat.toUInt8 := by
    refine Delimited.unmarked_of_le ?_
    rw [hnumber]
    exact Nat.not_lt.mp hascii
  have hline : ∀ b ∈ headerBytes c, Delimited.Unmarked b := by
    -- an ASCII character of the line is one of the letters
    have hnot : ∀ x, IsAscii x → x.isAlpha = false → x ∉ [c].intercalate header := by
      intro x hx hletter hmem
      have hchars : ∀ y ∈ [c].intercalate header, y = c ∨ y.isAlpha = true := by
        simp [header, List.intercalate_cons_cons]
      rcases hchars x hmem with rfl | halpha
      · exact hascii hx
      · rw [hletter] at halpha
        cases halpha
    exact Delimited.unmarked_of_mem_bytesOf (hnot _ (by decide) rfl) (hnot _ (by decide) rfl)
      (hnot _ (by decide) rfl)
  have hne : headerBytes c ≠ [] :=
    mt bytesOf_eq_nil_iff.mp (by simp [header, List.intercalate_cons_cons])
  exact Delimited.head?_records hdelimiter hne hline hrest hmark

/-- **A table that is joined by a character of two bytes is refused.** -/
theorem read_twoByte {text : List Char} (hascii : ¬ IsAscii c) (hle : c.toNat ≤ 255)
    (htable : IsTable c edges text) :
    EdgeTable.read (numeralLayout (some "type") c) (bytesOf text) = .error (twoByteFault c) := by
  obtain ⟨rows, -, htable⟩ := htable
  have hheader := head?_records_twoByte hascii hle htable
  rw [EdgeTable.read, numeralLayout, List.headD_eq_head?_getD, hheader, Option.getD_some,
    twoByteFault]
  by_cases hlow : c.toNat < 192
  · rw [splitOn_headerBytes_low hascii hlow, if_pos (.inl hlow)]
    rfl
  by_cases hlead : c.toNat = 195
  · obtain rfl : c = 'Ã' := by
      rw [← Char.ofNat_toNat c, hlead]
    rfl
  · have huncut : (headerBytes c).splitOn c.toNat.toUInt8 = [headerBytes c] := by
      rw [splitOn_eq_iff (List.cons_ne_nil _ _)]
      refine ⟨List.intercalate_singleton, fun field hfield => ?_⟩
      obtain rfl := List.mem_singleton.mp hfield
      exact not_mem_headerBytes (Nat.not_lt.mp hlow) hle hlead
    rw [huncut, if_neg (not_or.mpr ⟨hlow, hlead⟩)]
    refine bind_eq_error_iff.mpr (.inr ⟨_, textOf_bytesOf [[c].intercalate header], ?_⟩)
    refine bind_eq_error_iff.mpr (.inl ?_)
    exact bind_eq_error_iff.mpr (.inl (columnOf_uncut c))

/-- **Imports and their delimiters.** With an ASCII character that does not occur in numerals,
in quotes or in line ends, every table of edges that can be stored is imported, and its snapshot
has exactly these edges. A character above U+00FF is turned down, whatever the table. Up to there
the other characters pass as well, though each of them is stored as two bytes, and every table
that is joined by one of them is refused. -/
theorem import_exact (d : Directory) (table out : String) (format : OutputFormat) :
    (∀ c edges name (text : String), IsAscii c → Meaningless c → IsTable c edges text.toList →
      (∀ e ∈ edges, 0 ≤ e.label.code.toInt) → d.read? table = some text.toUTF8 →
        Directory.nameOf? out = some name → ∃ d' printed g,
          (Request.importTable table out { labelColumn := some "type" } c).aftermath format d =
              ⟨d', printed, none⟩ ∧
            d'.Opens out g ∧ ∀ e, g.Has .permanent e ↔ e ∈ edges) ∧
    (∀ (c : Char) layout, 255 < c.toNat →
      (Request.importTable table out layout c).aftermath format d = ⟨d, "", some .delimiter⟩ ∧
        CommandError.delimiter.message = "delimiter must be a single-byte character") ∧
    (∀ c edges (text : String), ¬ IsAscii c → c.toNat ≤ 255 → IsTable c edges text.toList →
      d.read? table = some text.toUTF8 →
        (Request.importTable table out { labelColumn := some "type" } c).aftermath format d =
          ⟨d, "", some (.table (twoByteFault c))⟩) := by
  refine ⟨fun c edges name text hascii hc htable hcodes hread hout =>
    exists_import hc hascii htable hcodes hread hout format, fun c layout hc => ?_,
    fun c edges text hascii hle htable hread => ?_⟩
  · rw [Request.aftermath, Request.action, importTable, if_pos hc]
    exact ⟨rfl, rfl⟩
  · have hrefused := read_twoByte hascii hle htable
    rw [← toList_data_toUTF8, numeralLayout] at hrefused
    exact aftermath_import_of_error { labelColumn := some "type" } hle hread
      (bind_eq_error_iff.mpr (.inl hrefused)) format

/-- Two edges, one of them twice, with tabs between the numerals and an empty line. -/
theorem import_exact_tabs :
    let text := "from\tto\ttype\r\n0\t1\t7\n\n+2\t02\t0\n0\t1\t7"
    let d : Directory := ⟨[("edges.tsv", text.toUTF8)]⟩
    ∃ d' printed g,
      (Request.importTable "./edges.tsv" "g.json" { labelColumn := some "type" } '\t').aftermath
          .text d = ⟨d', printed, none⟩ ∧
        d'.Opens "g.json" g ∧
          ∀ e, g.Has .permanent e ↔ e ∈ [⟨0, 1, ⟨7⟩⟩, ⟨2, 2, .plain⟩, ⟨0, 1, ⟨7⟩⟩] := by
  intro text d
  obtain ⟨himport, -, -⟩ := import_exact d "./edges.tsv" "g.json" .text
  have hspells : ∀ (e : Edge) source target label, Numeral.word32? source = some e.source →
      Numeral.word32? target = some e.target → Numeral.int16? label = some e.label.code →
        Spells e [source, target, label] := fun e source target label hsource htarget hlabel =>
    .numerals (Numeral.word32?_eq_some_iff.mp hsource) (Numeral.word32?_eq_some_iff.mp htarget)
      (Numeral.int16?_eq_some_iff.mp hlabel)
  have htable : IsTable '\t' [⟨0, 1, ⟨7⟩⟩, ⟨2, 2, .plain⟩, ⟨0, 1, ⟨7⟩⟩] text.toList := by
    let first := [['0'], ['1'], ['7']]
    let second := [['+', '2'], ['0', '2'], ['0']]
    have htext : text.toList = ['\t'].intercalate header ++ (['\r', '\n'] ++
        (['\t'].intercalate first ++ (['\n', '\n'] ++
          (['\t'].intercalate second ++ (['\n'] ++ ['\t'].intercalate first))))) := by decide
    refine ⟨[first, second, first], ?_, ?_⟩
    · exact .cons (hspells _ _ _ _ (by decide) (by decide) (by decide))
        (.cons (hspells _ _ _ _ (by decide) (by decide) (by decide))
          (.cons (hspells _ _ _ _ (by decide) (by decide) (by decide)) .nil))
    · rw [htext]
      exact .cons ⟨by decide, by simp⟩ (.cons ⟨by decide, by simp⟩
        (.cons ⟨by decide, by simp⟩ (.last first)))
  refine himport '\t' _ "g.json" text (by decide) ⟨by decide, by decide⟩ htable ?_ rfl (by decide)
  · simp only [List.forall_mem_cons]
    exact ⟨by decide, by decide, by decide, List.forall_mem_nil _⟩

/-- A table that is joined by the division sign. -/
def dividedTable : Directory := ⟨[("edges.csv", "from÷to÷type\n0÷1÷2\n".toUTF8)]⟩

/-- The division sign is not turned down, though it is no single byte. -/
theorem division_sign_passes :
    (String.utf8EncodeChar '÷').length ≠ 1 ∧
    (runIn dividedTable ["import", "--edges", "edges.csv", "--out", "g.json", "--type-column",
      "type", "--delimiter", "÷"]).2 = ("", .failure (.table (.missingColumn "from"))) ∧
    (CommandError.table (.missingColumn "from")).message ≠
      "delimiter must be a single-byte character" := by
  exact ⟨by decide, by decide +kernel, by decide⟩

end Command
end DeltaMatch
