import AssemblyVersions.Proofs.Number
import AssemblyVersions.Proofs.Pattern

set_option autoImplicit false

namespace AssemblyVersions

namespace Pattern

def search? (pattern : Pattern) : Text → Option Reading
  | [] => pattern.match? []
  | c :: text => (pattern.match? (c :: text)).or (search? pattern text)

theorem match_seq (first second : Pattern) (text : Text) :
    (seq first second).match? text = (first.readings text).findSome? fun a =>
      (second.match? a.rest).map fun b => ⟨a.text ++ b.text, a.groups ++ b.groups, b.rest⟩ := by
  simp only [match?, readings, List.head?_flatMap, List.head?_map]

theorem match_seq_fixed (lead : Text) (second : Pattern) (text : Text) :
    (seq (oneOf [lead]) second).match? text = (Text.after? lead text).bind fun rest =>
      (second.match? rest).map fun b => ⟨lead ++ b.text, b.groups, b.rest⟩ := by
  rw [match_seq, readings]
  cases begun : Text.after? lead text <;> simp [begun]

theorem runs_eq (among : Char → Bool) (text : Text) :
    ∃ shorter, runs among text = (text.takeWhile among, text.dropWhile among) :: shorter ∧
      ∀ cut ∈ shorter, ∃ c rest, cut.2 = c :: rest ∧ among c = true := by
  induction text with
  | nil => exact ⟨[], rfl, fun cut inside => by cases inside⟩
  | cons c text ih =>
      by_cases inside : among c = true
      · obtain ⟨shorter, longest, stopped⟩ := ih
        refine ⟨shorter.map (fun cut => (c :: cut.1, cut.2)) ++ [([], c :: text)], ?_, ?_⟩
        · rw [runs, if_pos inside, longest, List.takeWhile_cons_of_pos inside,
            List.dropWhile_cons_of_pos inside, List.map_cons, List.cons_append]
        · intro cut listed
          rcases List.mem_append.mp listed with longer | last
          · obtain ⟨other, before, rfl⟩ := List.mem_map.mp longer
            exact stopped other before
          · rw [List.mem_singleton.mp last]
            exact ⟨c, text, rfl, inside⟩
      · refine ⟨[], ?_, fun cut listed => by cases listed⟩
        rw [runs, if_neg inside, List.takeWhile_cons_of_neg inside, List.dropWhile_cons_of_neg inside]

theorem match_group_run (among : Char → Bool) (text : Text) :
    (group (run among)).match? text =
      some ⟨text.takeWhile among, [text.takeWhile among], text.dropWhile among⟩ := by
  obtain ⟨shorter, longest, -⟩ := runs_eq among text
  rw [match?, readings, readings, longest]
  rfl

-- A run that stops before its end is followed by one of its own characters, so the mark stands behind
-- the longest one or behind none.
theorem match_run_mark {among : Char → Bool} {mark : Char} (apart : among mark = false)
    (second : Pattern) (text : Text) :
    (seq (group (run among)) (seq (oneOf [[mark]]) second)).match? text =
      (Text.after? [mark] (text.dropWhile among)).bind fun rest =>
        (second.match? rest).map fun b =>
          ⟨text.takeWhile among ++ mark :: b.text, text.takeWhile among :: b.groups, b.rest⟩ := by
  obtain ⟨shorter, longest, stopped⟩ := runs_eq among text
  have none_shorter (cut : Text × Text) (listed : cut ∈ shorter) : Text.after? [mark] cut.2 = none := by
    obtain ⟨c, rest, same, inside⟩ := stopped cut listed
    have other : mark ≠ c := by
      rintro rfl
      rw [apart] at inside
      cases inside
    rw [same, Text.after?, if_neg other]
  rw [match_seq, readings, readings, longest, List.map_cons, List.map_cons, List.findSome?_cons,
    List.findSome?_eq_none_iff.mpr]
  · simp only [match_seq_fixed]
    cases Text.after? [mark] (text.dropWhile among) with
    | none => rfl
    | some rest => cases after : second.match? rest <;> simp [after]
  · intro reading listed
    obtain ⟨inner, within, rfl⟩ := List.mem_map.mp listed
    obtain ⟨cut, before, rfl⟩ := List.mem_map.mp within
    rw [match_seq_fixed, none_shorter cut before]
    rfl

end Pattern

namespace Number

def groups (number : Number) : List Text :=
  [number.major, number.minor, number.build, number.revision]

def ofGroups? : List Text → Option Number
  | [major, minor, build, revision] => some ⟨major, minor, build, revision⟩
  | _ => none

def patternOf (part : Pattern) : Pattern :=
  dotted part (dotted part (dotted part (.group part)))
where
  dotted (part rest : Pattern) : Pattern := .seq (.group part) (.seq (.oneOf [['.']]) rest)

def pattern : Pattern := patternOf (.run Char.isDigit)

theorem dotted_eq (text : Text) : dotted? text =
    (Text.after? ['.'] (text.dropWhile Char.isDigit)).map fun rest =>
      (text.takeWhile Char.isDigit, rest) := by
  rw [dotted?, digits]
  cases text.dropWhile Char.isDigit with
  | nil => rfl
  | cons c rest =>
      by_cases dot : c = '.'
      · rw [dot]
        rfl
      · have other : '.' ≠ c := Ne.symm dot
        rw [Text.after?, if_neg other]
        simp [dot]

theorem match_dotted (rest : Pattern) (text : Text) :
    (patternOf.dotted (.run Char.isDigit) rest).match? text = (dotted? text).bind fun cut =>
      (rest.match? cut.2).map fun b => ⟨cut.1 ++ '.' :: b.text, cut.1 :: b.groups, b.rest⟩ := by
  have apart : ('.' : Char).isDigit = false := by decide
  rw [patternOf.dotted, Pattern.match_run_mark apart, dotted_eq, Option.bind_map]
  rfl

theorem match_eq_at_start (text : Text) : pattern.match? text =
    (atStart? text).map fun read => ⟨read.1.toText, read.1.groups, read.2⟩ := by
  rw [pattern, patternOf, match_dotted, atStart?]
  cases dotted? text with
  | none => rfl
  | some first =>
      simp only [Option.bind_eq_bind, Option.bind_some, match_dotted]
      cases dotted? first.2 with
      | none => rfl
      | some second =>
          simp only [Option.bind_some]
          cases dotted? second.2 with
          | none => rfl
          | some third => simp [Pattern.match_group_run, digits, toText, groups]

theorem search_eq_find (text : Text) :
    (pattern.search? text).bind (fun reading => ofGroups? reading.groups) = find? text := by
  induction text with
  | nil => rfl
  | cons c text ih =>
      rw [Pattern.search?, find?, match_eq_at_start]
      cases atStart? (c :: text) with
      | none => exact ih
      | some read => rfl

def Begins (text : Text) : Prop :=
  ∃ (number : Number) (after : Text), number.OnlyDigits ∧ text = number.toText ++ after

theorem at_start_is_some_iff {text : Text} : (atStart? text).isSome ↔ Begins text := by
  constructor
  · intro found
    obtain ⟨⟨number, after⟩, start⟩ := Option.isSome_iff_exists.mp found
    obtain ⟨same, plain⟩ := at_start_some start
    exact ⟨number, after, plain, same⟩
  · rintro ⟨number, after, plain, rfl⟩
    exact at_start_of_text plain after

theorem at_start_eq_some {text after : Text} {number : Number} :
    atStart? text = some (number, after) ↔
      number.OnlyDigits ∧ text = number.toText ++ after ∧ ∀ c ∈ after.head?, c.isDigit = false := by
  constructor
  · intro found
    obtain ⟨same, plain⟩ := at_start_some found
    refine ⟨plain, same, fun c first => ?_⟩
    simp only [atStart?, Option.bind_eq_bind, Option.bind_eq_some_iff, Option.some.injEq,
      Prod.mk.injEq] at found
    obtain ⟨_, -, _, -, third, -, -, rfl⟩ := found
    have stop := List.head?_dropWhile_not Char.isDigit third.2
    have met : (third.2.dropWhile Char.isDigit).head? = some c := first
    rw [met] at stop
    exact stop
  · rintro ⟨plain, rfl, stop⟩
    have last : digits (number.revision ++ after) = (number.revision, after) := by
      have every := List.all_eq_true.mp plain.revision
      rw [digits, List.takeWhile_append_of_pos every, List.dropWhile_append_of_pos every]
      cases after with
      | nil => simp
      | cons c after => simp [stop c rfl]
    simp [atStart?, toText, plain.major, plain.minor, plain.build, last]

structure FirstIn (text before : Text) (number : Number) (after : Text) : Prop where
  cut : text = before ++ (number.toText ++ after)
  digits : number.OnlyDigits
  leftmost : ∀ start < before.length, ¬ Begins (text.drop start)
  longest : ∀ c ∈ after.head?, c.isDigit = false

theorem FirstIn.behind {c : Char} {text before after : Text} {number : Number}
    (first : FirstIn text before number after) (here : ¬ Begins (c :: text)) :
    FirstIn (c :: text) (c :: before) number after := by
  refine ⟨congrArg (List.cons c) first.cut, first.digits, fun start within => ?_, first.longest⟩
  cases start with
  | zero => exact here
  | succ start => exact first.leftmost start (Nat.lt_of_succ_lt_succ within)

theorem first_in_of_find {text : Text} {number : Number} (found : find? text = some number) :
    ∃ before after, FirstIn text before number after := by
  induction text with
  | nil => cases found
  | cons c text ih =>
      rw [find?] at found
      cases here : atStart? (c :: text) with
      | some read =>
          rw [here] at found
          cases found
          obtain ⟨plain, same, stop⟩ := at_start_eq_some.mp here
          exact ⟨[], read.2, same, plain, fun start within => absurd within (Nat.not_lt_zero start), stop⟩
      | none =>
          rw [here] at found
          rw [← Option.not_isSome_iff_eq_none, at_start_is_some_iff] at here
          obtain ⟨before, after, first⟩ := ih found
          exact ⟨c :: before, after, first.behind here⟩

theorem FirstIn.length_le {text before after front back : Text} {number other : Number}
    (first : FirstIn text before number after) (again : FirstIn text front other back) :
    before.length ≤ front.length := by
  by_contra earlier
  refine first.leftmost front.length (Nat.lt_of_not_le earlier) ⟨other, back, again.digits, ?_⟩
  rw [again.cut, List.drop_left]

theorem FirstIn.unique {text before after front back : Text} {number other : Number}
    (first : FirstIn text before number after) (again : FirstIn text front other back) :
    before = front ∧ number = other ∧ after = back := by
  have size : before.length = front.length :=
    Nat.le_antisymm (first.length_le again) (again.length_le first)
  obtain ⟨same, rest⟩ := List.append_inj (first.cut.symm.trans again.cut) size
  have here := at_start_eq_some.mpr ⟨first.digits, rfl, first.longest⟩
  rw [rest, at_start_eq_some.mpr ⟨again.digits, rfl, again.longest⟩] at here
  cases here
  exact ⟨same, rfl, rfl⟩

theorem find_eq_some_iff {text : Text} {number : Number} :
    find? text = some number ↔ ∃ before after, FirstIn text before number after := by
  constructor
  · exact first_in_of_find
  · rintro ⟨before, after, first⟩
    have within : Within text := ⟨before, number, after, first.digits, first.cut⟩
    obtain ⟨other, found⟩ := Option.isSome_iff_exists.mp (find_is_some_iff.mpr within)
    obtain ⟨front, back, again⟩ := first_in_of_find found
    rw [found, (first.unique again).2.1]

-- A search is the one for the pattern, succeeds exactly if there is a number to find, and finds the
-- longest one of the leftmost place.
theorem found_leftmost_longest (text : Text) :
    find? text = (pattern.search? text).bind (fun reading => ofGroups? reading.groups) ∧
    ((find? text).isSome ↔ Within text) ∧
    (∀ number, find? text = some number ↔ ∃ before after, FirstIn text before number after) ∧
    { place : Text × Number × Text | FirstIn text place.1 place.2.1 place.2.2 }.Subsingleton := by
  refine ⟨(search_eq_find text).symm, find_is_some_iff, fun number => find_eq_some_iff, ?_⟩
  rintro ⟨before, number, after⟩ first ⟨front, other, back⟩ again
  obtain ⟨rfl, rfl, rfl⟩ := first.unique again
  rfl

example : find? "v1.2...7".toList = some ⟨['1'], ['2'], [], []⟩ := by decide +kernel

end Number

end AssemblyVersions
