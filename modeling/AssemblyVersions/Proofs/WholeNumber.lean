import AssemblyVersions.Proofs.NumberPattern
import AssemblyVersions.Proofs.ReadBack

set_option autoImplicit false

namespace AssemblyVersions

namespace Pattern

def whole? (pattern : Pattern) (text : Text) : Option Reading :=
  (pattern.readings text).find? fun reading => reading.rest.isEmpty

theorem takes_of_whole {pattern : Pattern} {text : Text} {reading : Reading}
    (read : pattern.whole? text = some reading) : pattern.Takes text reading.groups := by
  obtain ⟨same, taken⟩ := mem_readings.mp (List.mem_of_find?_eq_some read)
  have ended : reading.rest = [] := by simpa using List.find?_some read
  rw [ended, List.append_nil] at same
  rwa [same]

theorem whole_is_some_of_takes {pattern : Pattern} {text : Text} {groups : List Text}
    (taken : pattern.Takes text groups) : (pattern.whole? text).isSome := by
  rw [whole?, List.find?_isSome]
  exact ⟨⟨text, groups, []⟩, mem_readings.mpr ⟨(List.append_nil text).symm, taken⟩, rfl⟩

end Pattern

namespace Number

def wholePattern : Pattern :=
  patternOf (.seq (.oneOf ("0123456789".toList.map fun digit => [digit])) (.run Char.isDigit))

theorem is_digit_iff {c : Char} : c.isDigit ↔ c ∈ "0123456789".toList := by
  constructor
  · intro digit
    obtain ⟨least, greatest⟩ := is_digit_iff_range.mp digit
    rw [← Char.ofNat_toNat c]
    interval_cases c.toNat <;> decide
  · intro listed
    have every : "0123456789".toList.all Char.isDigit := by decide
    exact List.all_eq_true.mp every c listed

theorem takes_digits {text : Text} {groups : List Text} :
    (Pattern.seq (.oneOf ("0123456789".toList.map fun digit => [digit])) (.run Char.isDigit)).Takes
      text groups ↔ text ≠ [] ∧ text.all Char.isDigit ∧ groups = [] := by
  simp only [Pattern.Takes, List.mem_map]
  constructor
  · rintro ⟨_, _, back, _, ⟨⟨c, listed, rfl⟩, rfl⟩, ⟨every, rfl⟩, rfl, rfl⟩
    refine ⟨List.cons_ne_nil c back, ?_, rfl⟩
    rw [List.singleton_append, List.all_cons, is_digit_iff.mpr listed, Bool.true_and, List.all_eq_true]
    exact every
  · rintro ⟨filled, every, rfl⟩
    cases text with
    | nil => exact absurd rfl filled
    | cons c back =>
        rw [List.all_cons, Bool.and_eq_true, List.all_eq_true] at every
        exact ⟨[c], [], back, [], ⟨⟨c, is_digit_iff.mp every.1, rfl⟩, rfl⟩, ⟨every.2, rfl⟩, rfl, rfl⟩

section Parts

variable {part : Pattern}

theorem takes_dotted (bare : ∀ {text groups}, part.Takes text groups → groups = [])
    {rest : Pattern} {text : Text} {groups : List Text} :
    (patternOf.dotted part rest).Takes text groups ↔ ∃ run back after,
      part.Takes run [] ∧ rest.Takes back after ∧ text = run ++ '.' :: back ∧ groups = run :: after := by
  rw [patternOf.dotted, Pattern.takes_seq_group]
  constructor
  · rintro ⟨run, inner, back, after, taken, marked, rfl, rfl⟩
    obtain ⟨back, behind, rfl⟩ := Pattern.takes_seq_fixed.mp marked
    cases bare taken
    exact ⟨run, back, after, taken, behind, rfl, rfl⟩
  · rintro ⟨run, back, after, taken, behind, rfl, rfl⟩
    exact ⟨run, [], '.' :: back, after, taken, Pattern.takes_seq_fixed.mpr ⟨back, behind, rfl⟩, rfl, rfl⟩

theorem takes_pattern_of (bare : ∀ {text groups}, part.Takes text groups → groups = [])
    {text : Text} {groups : List Text} :
    (patternOf part).Takes text groups ↔ ∃ number : Number,
      (part.Takes number.major [] ∧ part.Takes number.minor [] ∧ part.Takes number.build [] ∧
        part.Takes number.revision []) ∧ text = number.toText ∧ groups = number.groups := by
  rw [patternOf]
  constructor
  · intro taken
    obtain ⟨major, _, _, first, from_minor, rfl, rfl⟩ := (takes_dotted bare).mp taken
    obtain ⟨minor, _, _, second, from_build, rfl, rfl⟩ := (takes_dotted bare).mp from_minor
    obtain ⟨build, revision, _, third, last, rfl, rfl⟩ := (takes_dotted bare).mp from_build
    obtain ⟨inner, fourth, rfl⟩ := last
    cases bare fourth
    exact ⟨⟨major, minor, build, revision⟩, ⟨first, second, third, fourth⟩, by simp [toText], rfl⟩
  · rintro ⟨⟨major, minor, build, revision⟩, ⟨first, second, third, fourth⟩, rfl, rfl⟩
    have last : (Pattern.group part).Takes revision [revision] := ⟨[], fourth, rfl⟩
    have from_build := (takes_dotted bare).mpr ⟨build, _, _, third, last, rfl, rfl⟩
    have from_minor := (takes_dotted bare).mpr ⟨minor, _, _, second, from_build, rfl, rfl⟩
    exact (takes_dotted bare).mpr ⟨major, _, _, first, from_minor, by simp [toText], rfl⟩

end Parts

theorem takes_whole_pattern {text : Text} {groups : List Text} :
    wholePattern.Takes text groups ↔ ∃ number : Number, number.OnlyDigits ∧ number.IsComplete ∧
      text = number.toText ∧ groups = number.groups := by
  rw [wholePattern, takes_pattern_of fun taken => (takes_digits.mp taken).2.2]
  refine exists_congr fun number => ?_
  refine (and_congr_left fun _ => ?_).trans and_assoc
  simp only [takes_digits, and_true]
  constructor
  · rintro ⟨major, minor, build, revision⟩
    exact ⟨⟨major.2, minor.2, build.2, revision.2⟩, major.1, minor.1, build.1, revision.1⟩
  · rintro ⟨plain, major, minor, build, revision⟩
    exact ⟨⟨major, plain.major⟩, ⟨minor, plain.minor⟩, ⟨build, plain.build⟩, revision, plain.revision⟩

theorem whole_eq_of_text (text : Text) :
    (wholePattern.whole? text).bind (fun reading => ofGroups? reading.groups) = ofText? text := by
  cases matched : wholePattern.whole? text with
  | some reading =>
      obtain ⟨number, plain, complete, same, named⟩ :=
        takes_whole_pattern.mp (Pattern.takes_of_whole matched)
      rw [of_text_eq_some.mpr ⟨same, plain, complete⟩, Option.bind_some, named]
      rfl
  | none =>
      cases read : ofText? text with
      | none => rfl
      | some number =>
          obtain ⟨same, plain, complete⟩ := of_text_eq_some.mp read
          have found := Pattern.whole_is_some_of_takes
            (takes_whole_pattern.mpr ⟨number, plain, complete, same, rfl⟩)
          rw [matched] at found
          cases found

end Number

theorem Record.scan_of_number {text : Text} {number : Number} (read : Number.ofText? text = some number)
    {kind : Kind} (numeric : kind.isNumeric) (path : Path) :
    scan path [Declaration.toText ⟨kind, text⟩] = [⟨kind, text, .numeric number, 0, path⟩] := by
  obtain ⟨found, plain⟩ := Number.of_text_some read
  have update : Update.Readable ⟨kind, text⟩ :=
    (Update.readable_of_plain plain (by rw [found]; rfl)).1
  rw [scan, scanFrom, of_form update.quoteless, Declaration.ownMeaning?, if_pos numeric, found]
  rfl

theorem Plan.number_of_set {assignment : Assignment} {updates : List Update}
    (accepted : set assignment = .ok updates) {kind : Kind} (numeric : kind.isNumeric) {value : Text}
    (supplied : assignment.value? kind = some value) : (Number.ofText? value).isSome :=
  (checked_all accepted).2 ⟨kind, value⟩ (Assignment.mem_entries.mpr supplied) numeric

namespace Number

-- Reading a whole text and writing a number are inverse to each other, and the scanner finds in a
-- declaration the number that was read before.
theorem whole_text_read_back (text : Text) (number : Number) :
    ofText? text = (wholePattern.whole? text).bind (fun reading => ofGroups? reading.groups) ∧
    (ofText? text = some number ↔
      number.OnlyDigits ∧ number.IsComplete ∧ text = number.toText) ∧
    (ofText? text = some number → find? text = some number ∧
      ∀ (kind : Kind) (path : Path), kind.isNumeric →
        Record.scan path [Declaration.toText ⟨kind, text⟩] =
          [⟨kind, text, .numeric number, 0, path⟩]) ∧
    ∀ (assignment : Assignment) (updates : List Update), Plan.set assignment = .ok updates →
      ∀ (kind : Kind) (value : Text), kind.isNumeric → assignment.value? kind = some value →
        ∃ accepted, ofText? value = some accepted ∧ ∀ path,
          Record.scan path [Declaration.toText ⟨kind, value⟩] =
            [⟨kind, value, .numeric accepted, 0, path⟩] := by
  refine ⟨(whole_eq_of_text text).symm, ?_, fun read => ⟨(of_text_some read).1, ?_⟩, ?_⟩
  · rw [of_text_eq_some, and_comm, and_assoc]
  · intro kind path numeric
    exact Record.scan_of_number read numeric path
  · intro assignment updates accepted kind value numeric supplied
    obtain ⟨number, read⟩ :=
      Option.isSome_iff_exists.mp (Plan.number_of_set accepted numeric supplied)
    exact ⟨number, read, Record.scan_of_number read numeric⟩

theorem whole_text_read_back_with_leading_zeros :
    let text := "007.0.18446744073709551616.00".toList
    let number : Number := ⟨"007".toList, "0".toList, "18446744073709551616".toList, "00".toList⟩
    let path : Path := ⟨"A.cs".toList⟩
    ofText? text = some number ∧ find? text = some number ∧
      Record.scan path ["[assembly: AssemblyFileVersion(\"007.0.18446744073709551616.00\")]".toList] =
        [⟨.file, text, .numeric number, 0, path⟩] ∧
      ∃ accepted, ofText? text = some accepted ∧
        Record.scan path [Declaration.toText ⟨.assembly, text⟩] =
          [⟨.assembly, text, .numeric accepted, 0, path⟩] := by
  intro text number path
  have complete : number.OnlyDigits ∧ number.IsComplete ∧ text = number.toText := by
    refine ⟨⟨?_, ?_, ?_, ?_⟩, ?_, ?_⟩ <;> decide +kernel
  obtain ⟨-, reads, scanned, sets⟩ := whole_text_read_back text number
  have read := reads.mpr complete
  obtain ⟨found, declared⟩ := scanned read
  obtain ⟨accepted, same, again⟩ :=
    sets { assembly := some text } [⟨.assembly, text⟩] (by decide +kernel) .assembly text rfl rfl
  exact ⟨read, found, declared .file path rfl, accepted, same, again path⟩

end Number

end AssemblyVersions
