import DeltaMatch.Command.Action

/-!
# Files

A file that is written can be read back, and the other files stay as they are. What can be read
can be written.
-/

namespace DeltaMatch
namespace Command
namespace Directory

variable {d d' : Directory} {path content : String} {name other : String} {bytes : ByteArray}

theorem lookup_cons_of_ne {files : List (String × ByteArray)} (h : other ≠ name) :
    ((name, bytes) :: files).lookup other = files.lookup other := by
  rw [List.lookup_cons, beq_false_of_ne h]

theorem lookup_replaced (files : List (String × ByteArray)) :
    (files.map fun f => if f.1 == name then (name, bytes) else f).lookup other =
      if other = name ∧ files.any (·.1 == name) = true then some bytes else files.lookup other := by
  induction files with
  | nil => simp
  | cons f rest ih =>
    obtain ⟨key, value⟩ := f
    by_cases hkey : key = name
    · subst hkey
      rw [List.map_cons, if_pos BEq.rfl]
      by_cases hother : other = key
      · simp [hother]
      · rw [lookup_cons_of_ne hother, lookup_cons_of_ne hother, ih]
        simp [hother]
    · have hskip : (key == name) = false := beq_false_of_ne hkey
      rw [List.map_cons, hskip, if_neg (by decide)]
      by_cases hother : other = key
      · simp [hother, hkey]
      · rw [lookup_cons_of_ne hother, lookup_cons_of_ne hother, ih, List.any_cons, hskip,
          Bool.false_or]

/-- **A file that is put is there**, and the others are as before. -/
theorem lookup_put : (d.put name bytes).files.lookup other =
    if other = name then some bytes else d.files.lookup other := by
  rw [put]
  cases hany : d.files.any (·.1 == name) with
  | true =>
    rw [if_pos rfl, lookup_replaced, hany]
    simp
  | false =>
    rw [if_neg (by decide), List.lookup_append]
    by_cases hother : other = name
    · have hnone : d.files.lookup name = none := by
        rw [List.lookup_eq_none_iff]
        intro f hf
        rw [bne, Bool.not_eq_true', beq_eq_false_iff_ne]
        rintro rfl
        simpa using List.any_eq_false.mp hany f hf
      rw [if_pos hother, hother, hnone, List.lookup_cons_self, Option.none_or]
    · rw [if_neg hother, lookup_cons_of_ne hother, List.lookup_nil, Option.or_none]

theorem write?_eq_some_iff : d.write? path content = some d' ↔
    ∃ name, nameOf? path = some name ∧ d' = d.put name content.toUTF8 := by
  rw [write?, Option.map_eq_some_iff]
  exact exists_congr fun name => and_congr_right fun _ => eq_comm

/-- **What is written is read back.** -/
theorem read?_of_write? (h : d.write? path content = some d') :
    d'.read? path = some content.toUTF8 := by
  obtain ⟨name, hname, rfl⟩ := write?_eq_some_iff.mp h
  rw [read?, hname, Option.bind_some, lookup_put, if_pos rfl]

/-- A file that can be read can be replaced. -/
theorem exists_write? (h : d.read? path = some bytes) (content : String) :
    ∃ d', d.write? path content = some d' := by
  obtain ⟨name, hname, -⟩ := Option.bind_eq_some_iff.mp h
  exact ⟨_, write?_eq_some_iff.mpr ⟨name, hname, rfl⟩⟩

end Directory
end Command
end DeltaMatch
