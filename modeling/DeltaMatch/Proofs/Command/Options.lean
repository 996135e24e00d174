import DeltaMatch.Command.Options
import Mathlib.Data.List.Nodup
import Mathlib.Data.List.TakeWhile
import Mathlib.Data.Option.Basic

/-!
# Options and their spelling

A command line is read as some options exactly when it spells them, in their order: each with its
value attached to it or behind it, a switch without a value. Only repeatable options are given
more than once, and no required one is missing.
-/

namespace DeltaMatch
namespace Command

variable {forms : List OptionForm} {form : OptionForm} {before given rest : List Given}
  {g : Given} {arg name value : String} {attached : Option String} {args : List String}

/-! ## Long options -/

/-- The argument of an option, with the value that is attached to it. -/
def optionText (name : String) : Option String → String
  | none => "--" ++ name
  | some value => "--" ++ name ++ "=" ++ value

theorem toList_bare (name : String) :
    (optionText name none).toList = '-' :: '-' :: name.toList := by
  simp [optionText]

theorem toList_attached (name value : String) :
    (optionText name (some value)).toList = '-' :: '-' :: (name.toList ++ '=' :: value.toList) := by
  simp [optionText]

/-- A text is cut at its first equality sign. -/
theorem cut_of_not_mem {cs : List Char} (h : '=' ∉ cs) (rest : List Char) :
    (cs ++ rest).takeWhile (· ≠ '=') = cs ++ rest.takeWhile (· ≠ '=') ∧
      (cs ++ rest).dropWhile (· ≠ '=') = rest.dropWhile (· ≠ '=') := by
  have hall : ∀ c ∈ cs, decide (c ≠ '=') = true := by
    intro c hc
    rw [decide_eq_true_iff]
    rintro rfl
    exact h hc
  exact ⟨List.takeWhile_append_of_pos hall, List.dropWhile_append_of_pos hall⟩

theorem longOption?_optionText (h : '=' ∉ name.toList) (attached : Option String) :
    longOption? (optionText name attached) = some (name, attached) := by
  cases attached with
  | none =>
    obtain ⟨htake, hdrop⟩ := cut_of_not_mem h []
    rw [List.append_nil] at htake hdrop
    rw [longOption?, toList_bare]
    simp only [htake, hdrop]
    simp
  | some value =>
    obtain ⟨htake, hdrop⟩ := cut_of_not_mem h ('=' :: value.toList)
    rw [longOption?, toList_attached]
    simp only [htake, hdrop]
    simp

theorem eq_optionText_of_longOption? (h : longOption? arg = some (name, attached)) :
    '=' ∉ name.toList ∧ arg = optionText name attached := by
  rw [longOption?] at h
  split at h
  · rename_i rest harg
    have hcut := List.takeWhile_append_dropWhile (p := (· ≠ '=')) (l := rest)
    have hnot : '=' ∉ rest.takeWhile (· ≠ '=') := fun hmem => by
      simpa using List.mem_takeWhile_imp hmem
    split at h
    · rename_i hdrop
      cases h
      rw [hdrop, List.append_nil] at hcut
      rw [hcut, String.toList_ofList, ← hcut]
      refine ⟨hnot, String.toList_inj.mp ?_⟩
      rw [toList_bare, String.toList_ofList, hcut, harg]
    · rename_i c value hdrop
      cases h
      have hsign : c = '=' := by
        have hhead := List.head?_dropWhile_not (· ≠ '=') rest
        rw [hdrop] at hhead
        simpa using hhead
      subst hsign
      rw [String.toList_ofList]
      refine ⟨hnot, String.toList_inj.mp ?_⟩
      rw [toList_attached, String.toList_ofList, String.toList_ofList, ← hdrop, hcut, harg]
  · cases h

theorem longOption?_eq_some_iff : longOption? arg = some (name, attached) ↔
    '=' ∉ name.toList ∧ arg = optionText name attached := by
  constructor
  · exact eq_optionText_of_longOption?
  · rintro ⟨h, rfl⟩
    exact longOption?_optionText h attached

/-! ## Spelled options -/

/-- The forms have names of their own, which can be told from a value that is attached to them. -/
structure WellNamed (forms : List OptionForm) : Prop where
  distinct : (forms.map (·.name)).Nodup
  proper : ∀ form ∈ forms, form.name ≠ "" ∧ '=' ∉ form.name.toList

/-- The arguments of one option: its value is attached or follows, and a switch has none. -/
inductive Writes (forms : List OptionForm) : Given → List String → Prop
  | attached {form : OptionForm} {value : String} : form ∈ forms → form.takesValue = true →
      form.accepts value = true →
        Writes forms ⟨form.name, value⟩ [optionText form.name (some value)]
  | separate {form : OptionForm} {value : String} : form ∈ forms → form.takesValue = true →
      form.accepts value = true → isDashed value = false →
        Writes forms ⟨form.name, value⟩ [optionText form.name none, value]
  | switch {form : OptionForm} : form ∈ forms → form.takesValue = false →
      Writes forms ⟨form.name, ""⟩ [optionText form.name none]

/-- The arguments spell the options in their order. A double dash may stand at the end. -/
inductive SpellsOut (forms : List OptionForm) : List Given → List String → Prop
  | nil : SpellsOut forms [] []
  | dashes : SpellsOut forms [] ["--"]
  | option {g : Given} {rest : List Given} {own args : List String} :
      Writes forms g own → SpellsOut forms rest args → SpellsOut forms (g :: rest) (own ++ args)

/-- Options that are not repeatable are given at most once. -/
def Unrepeated (forms : List OptionForm) (given : List Given) : Prop :=
  ∀ form ∈ forms, form.repeatable = false → given.countP (·.name == form.name) ≤ 1

/-- Required options are given. -/
def Complete (forms : List OptionForm) (given : List Given) : Prop :=
  ∀ form ∈ forms, form.required = true → ∃ g ∈ given, g.name = form.name

theorem WellNamed.eq_of_name {other : OptionForm} (h : WellNamed forms) (hform : form ∈ forms)
    (hother : other ∈ forms) (hname : other.name = form.name) : other = form :=
  List.inj_on_of_nodup_map h.distinct hother hform hname

theorem WellNamed.find_eq_some_iff (h : WellNamed forms) :
    forms.find? (·.name == name) = some form ↔ form ∈ forms ∧ form.name = name := by
  constructor
  · intro hfind
    exact ⟨List.mem_of_find?_eq_some hfind, by simpa using List.find?_some hfind⟩
  · rintro ⟨hform, rfl⟩
    cases hfind : forms.find? (·.name == form.name) with
    | none => simpa using List.find?_eq_none.mp hfind form hform
    | some other =>
      have hname : other.name = form.name := by simpa using List.find?_some hfind
      rw [h.eq_of_name hform (List.mem_of_find?_eq_some hfind) hname]

theorem Unrepeated.of_append (h : Unrepeated forms (before ++ rest)) :
    Unrepeated forms before := by
  intro form hform hrepeatable
  have hcount := h form hform hrepeatable
  rw [List.countP_append] at hcount
  omega

/-- **One option more** may be given exactly when the options stay unrepeated. -/
theorem mayFollow_iff (h : WellNamed forms) (hbefore : Unrepeated forms before)
    (hform : form ∈ forms) (value : String) :
    mayFollow form before = true ↔ Unrepeated forms (before ++ [⟨form.name, value⟩]) := by
  have hany : before.any (·.name == form.name) = true ↔
      0 < before.countP (·.name == form.name) := by
    rw [List.countP_pos_iff, List.any_eq_true]
  rw [mayFollow, Bool.or_eq_true, Bool.not_eq_true', Bool.eq_false_iff, ne_eq, hany]
  constructor
  · intro hmay other hother hrepeatable
    rw [List.countP_append, List.countP_singleton]
    by_cases hname : form.name = other.name
    · cases h.eq_of_name hother hform hname
      rw [hrepeatable] at hmay
      have := hmay.resolve_left (by decide)
      split <;> omega
    · have := hbefore other hother hrepeatable
      rw [if_neg (by simpa using hname)]
      exact this
  · intro hsnoc
    cases hrepeatable : form.repeatable with
    | true => exact Or.inl rfl
    | false =>
      have hcount := hsnoc form hform hrepeatable
      rw [List.countP_append, List.countP_singleton, if_pos (by simp)] at hcount
      exact Or.inr (by omega)

/-! ## Reading -/

/-- The option that is written first is found. -/
theorem optionAt_of_writes {own : List String} {behind : Option String} (h : WellNamed forms)
    (hbefore : Unrepeated forms before) (hsnoc : Unrepeated forms (before ++ [g]))
    (hwrites : Writes forms g (arg :: own)) (hbehind : ∀ v ∈ own.head?, behind = some v) :
    optionAt forms before arg behind = some (g, !own.isEmpty) := by
  have hread : ∀ form ∈ forms, ∀ attached, g.name = form.name →
      longOption? (optionText form.name attached) = some (g.name, attached) ∧
        forms.find? (·.name == g.name) = some form ∧ mayFollow form before = true := by
    intro form hform attached hname
    refine ⟨hname ▸ longOption?_optionText (h.proper form hform).2 attached,
      h.find_eq_some_iff.mpr ⟨hform, hname.symm⟩, ?_⟩
    rw [mayFollow_iff h hbefore hform g.value, ← hname]
    exact hsnoc
  cases hwrites with
  | @attached form value hform htakes haccepts =>
    obtain ⟨hlong, hfind, hmay⟩ := hread form hform (some value) rfl
    simp [optionAt, hlong, hfind, hmay, htakes, haccepts]
  | @separate form value hform htakes haccepts hdashed =>
    obtain ⟨hlong, hfind, hmay⟩ := hread form hform none rfl
    simp [optionAt, hlong, hfind, hmay, htakes, haccepts, hdashed, hbehind value rfl]
  | @switch form hform htakes =>
    obtain ⟨hlong, hfind, hmay⟩ := hread form hform none rfl
    simp [optionAt, hlong, hfind, hmay, htakes]

/-- An option that is found is written there. -/
theorem writes_of_optionAt {behind : Option String} {follows : Bool} (h : WellNamed forms)
    (hbefore : Unrepeated forms before)
    (hfound : optionAt forms before arg behind = some (g, follows)) :
    Unrepeated forms (before ++ [g]) ∧ ((follows = false ∧ Writes forms g [arg]) ∨
      ∃ value, follows = true ∧ behind = some value ∧ Writes forms g [arg, value]) := by
  obtain ⟨⟨name, attached⟩, hlong, hnamed⟩ := Option.bind_eq_some_iff.mp hfound
  obtain ⟨form, hfind, hformed⟩ := Option.bind_eq_some_iff.mp hnamed
  obtain ⟨_, hmay, hvalued⟩ := Option.bind_eq_some_iff.mp hformed
  obtain ⟨-, rfl⟩ := longOption?_eq_some_iff.mp hlong
  obtain ⟨hform, rfl⟩ := h.find_eq_some_iff.mp hfind
  have hsnoc := fun value =>
    (mayFollow_iff h hbefore hform value).mp ((Option.guard_eq_some' _).mp hmay)
  split at hvalued
  · rename_i value htakes
    obtain ⟨_, haccepts, heq⟩ := Option.bind_eq_some_iff.mp hvalued
    cases heq
    exact ⟨hsnoc value, .inl ⟨rfl, .attached hform htakes ((Option.guard_eq_some' _).mp haccepts)⟩⟩
  · rename_i value htakes
    obtain ⟨_, hchecks, heq⟩ := Option.bind_eq_some_iff.mp hvalued
    cases heq
    obtain ⟨hdashed, haccepts⟩ : isDashed value = false ∧ form.accepts value = true := by
      simpa using (Option.guard_eq_some' _).mp hchecks
    exact ⟨hsnoc value, .inr ⟨value, rfl, rfl, .separate hform htakes haccepts hdashed⟩⟩
  · rename_i htakes
    cases hvalued
    exact ⟨hsnoc "", .inl ⟨rfl, .switch hform htakes⟩⟩
  · cases hvalued

theorem Writes.ne_nil {own : List String} (h : Writes forms g own) : own ≠ [] := by
  cases h <;> exact List.cons_ne_nil _ _

/-- No option is written as a double dash. -/
theorem Writes.ne_dashes {own : List String} (hnamed : WellNamed forms) (h : Writes forms g own) :
    own ≠ ["--"] := by
  intro hown
  have hbare : ∀ form ∈ forms, ∀ attached, optionText form.name attached ≠ "--" := by
    intro form hform attached heq
    have hlong := longOption?_optionText (hnamed.proper form hform).2 attached
    have hempty : longOption? "--" = some ("", none) := by decide
    rw [heq, hempty, Option.some.injEq, Prod.mk.injEq] at hlong
    exact (hnamed.proper form hform).1 hlong.1.symm
  cases h with
  | attached hform => exact hbare _ hform _ (List.cons.inj hown).1
  | separate hform => exact List.cons_ne_nil _ _ (List.cons.inj hown).2
  | switch hform => exact hbare _ hform _ (List.cons.inj hown).1

theorem spellsOut_nil_iff : SpellsOut forms given [] ↔ given = [] := by
  constructor
  · intro h
    generalize hargs : ([] : List String) = args at h
    cases h with
    | nil => rfl
    | dashes => cases hargs
    | option hwrites => exact absurd (List.append_eq_nil_iff.mp hargs.symm).1 hwrites.ne_nil
  · rintro rfl
    exact .nil

theorem spellsOut_dashes_iff (h : WellNamed forms) : SpellsOut forms given ["--"] ↔ given = [] := by
  constructor
  · intro hspells
    generalize hargs : ["--"] = args at hspells
    cases hspells with
    | nil => cases hargs
    | dashes => rfl
    | option hwrites =>
      rcases List.append_eq_singleton_iff.mp hargs.symm with ⟨hown, -⟩ | ⟨hown, -⟩
      · exact absurd hown hwrites.ne_nil
      · exact absurd hown (hwrites.ne_dashes h)
  · rintro rfl
    exact .dashes

/-- Arguments that go on spell the option that is found first and then the others. -/
theorem spellsOut_cons_iff (h : WellNamed forms) (hbefore : Unrepeated forms before)
    (hend : arg = "--" → args = [] → False) :
    (∃ rest, given = before ++ rest ∧ SpellsOut forms rest (arg :: args) ∧ Unrepeated forms given) ↔
      ∃ g follows, optionAt forms before arg args.head? = some (g, follows) ∧
        ∃ rest, given = before ++ [g] ++ rest ∧
          SpellsOut forms rest (if follows then args.tail else args) ∧ Unrepeated forms given := by
  constructor
  · rintro ⟨rest, rfl, hspells, hunrepeated⟩
    generalize hargs : arg :: args = all at hspells
    cases hspells with
    | nil => cases hargs
    | dashes => exact absurd (List.cons.inj hargs).2 (hend (List.cons.inj hargs).1)
    | @option g others own args' hwrites hothers =>
      obtain ⟨first, own, rfl⟩ := List.exists_cons_of_ne_nil hwrites.ne_nil
      obtain ⟨rfl, rfl⟩ : arg = first ∧ args = own ++ args' := List.cons.inj hargs
      rw [List.append_cons] at hunrepeated ⊢
      have hbehind : ∀ v ∈ own.head?, (own ++ args').head? = some v := by
        intro v hv
        rw [List.head?_append, hv, Option.some_or]
      have hfound := optionAt_of_writes h hbefore hunrepeated.of_append hwrites hbehind
      refine ⟨g, _, hfound, others, rfl, ?_, hunrepeated⟩
      -- an option has one argument or two
      cases hwrites with
      | attached | separate | switch => exact hothers
  · rintro ⟨g, follows, hfound, rest, rfl, hrest, hunrepeated⟩
    refine ⟨g :: rest, (List.append_cons ..).symm, ?_, hunrepeated⟩
    obtain ⟨-, ⟨rfl, hwrites⟩ | ⟨value, rfl, hvalue, hwrites⟩⟩ :=
      writes_of_optionAt h hbefore hfound
    · exact .option hwrites hrest
    · obtain ⟨args', rfl⟩ := List.head?_eq_some_iff.mp hvalue
      exact .option hwrites hrest

/-- **A scan takes what is spelled**, in the order in which it is given. -/
theorem scanOptions_eq_some_iff (h : WellNamed forms) (hbefore : Unrepeated forms before) :
    scanOptions forms before args = some given ↔
      ∃ rest, given = before ++ rest ∧ SpellsOut forms rest args ∧ Unrepeated forms given := by
  fun_induction scanOptions forms before args with
  | case1 before =>
    simp only [spellsOut_nil_iff, Option.some.injEq]
    constructor
    · rintro rfl
      exact ⟨[], (List.append_nil _).symm, rfl, hbefore⟩
    · rintro ⟨rest, rfl, rfl, -⟩
      exact (List.append_nil _).symm
  | case2 before =>
    simp only [spellsOut_dashes_iff h, Option.some.injEq]
    constructor
    · rintro rfl
      exact ⟨[], (List.append_nil _).symm, rfl, hbefore⟩
    · rintro ⟨rest, rfl, rfl, -⟩
      exact (List.append_nil _).symm
  | case3 before arg g rest hend hfound ih =>
    rw [spellsOut_cons_iff h hbefore hend, hfound]
    simpa using ih (writes_of_optionAt h hbefore hfound).1
  | case4 before arg g value rest hend hfound ih =>
    rw [spellsOut_cons_iff h hbefore hend, hfound]
    simpa using ih (writes_of_optionAt h hbefore hfound).1
  | case5 before arg args hend halone hbehind =>
    rw [spellsOut_cons_iff h hbefore hend]
    constructor
    · intro hscan
      split at hscan
      · rename_i hfound
        exact (halone _ hfound).elim
      · rename_i hfound
        exact (hbehind _ _ _ hfound rfl).elim
      · cases hscan
    · rintro ⟨g, follows, hfound, -⟩
      obtain ⟨-, ⟨rfl, -⟩ | ⟨value, rfl, hvalue, -⟩⟩ := writes_of_optionAt h hbefore hfound
      · exact (halone g hfound).elim
      · obtain ⟨args', rfl⟩ := List.head?_eq_some_iff.mp hvalue
        exact (hbehind g value args' hfound rfl).elim

/-- **A command line is read as the options that it spells.** -/
theorem readOptions_eq_some_iff (h : WellNamed forms) : readOptions forms args = some given ↔
    SpellsOut forms given args ∧ Unrepeated forms given ∧ Complete forms given := by
  have hnone : Unrepeated forms [] := fun _ _ _ => Nat.zero_le 1
  have hcomplete : ∀ given : List Given,
      (forms.all fun form => !form.required || given.any (·.name == form.name)) = true ↔
        Complete forms given := by
    simp [Complete, Classical.or_iff_not_imp_left]
  constructor
  · intro hread
    obtain ⟨given', hscan, hrest⟩ := Option.bind_eq_some_iff.mp hread
    obtain ⟨_, hrequired, heq⟩ := Option.bind_eq_some_iff.mp hrest
    cases heq
    obtain ⟨rest, rfl, hspells, hunrepeated⟩ := (scanOptions_eq_some_iff h hnone).mp hscan
    exact ⟨hspells, hunrepeated, (hcomplete _).mp ((Option.guard_eq_some' _).mp hrequired)⟩
  · rintro ⟨hspells, hunrepeated, hrequired⟩
    have hscan := (scanOptions_eq_some_iff h hnone).mpr ⟨given, rfl, hspells, hunrepeated⟩
    rw [List.nil_append] at hscan
    rw [readOptions, hscan, Option.bind_eq_bind, Option.bind_some,
      (Option.guard_eq_some' ()).mpr ((hcomplete given).mpr hrequired)]
    rfl

end Command
end DeltaMatch
