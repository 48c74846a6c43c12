import AssemblyVersions.Proofs.LineOrder

set_option autoImplicit false

namespace AssemblyVersions

namespace Declaration

theorem within_line {declaration : Declaration} {line : Text} (read : ofLine? line = some declaration)
    (within : Number.Within declaration.value) : Number.Within line := by
  obtain ⟨-, tail, rfl⟩ := of_line_eq_some.mp read
  rw [toText, List.append_assoc, List.append_assoc]
  exact within.extend (opening declaration.kind) (closing ++ tail)

-- The number in the value need not be asked for: where it is, the line holds one too.
theorem meaning_is_some_iff {declaration : Declaration} {line : Text}
    (read : ofLine? line = some declaration) :
    (declaration.meaning? line).isSome ↔
      declaration.kind = .informational ∨ (Number.find? line).isSome := by
  have inside : (Number.find? declaration.value).isSome → (Number.find? line).isSome := by
    rw [Number.find_is_some_iff, Number.find_is_some_iff]
    exact within_line read
  rw [meaning?]
  by_cases numeric : declaration.kind.isNumeric
  · have other : declaration.kind ≠ .informational := by
      intro same
      rw [same] at numeric
      cases numeric
    rw [if_pos numeric, Option.isSome_map, Option.isSome_or, Bool.or_eq_true]
    constructor
    · exact fun found => .inr (found.elim inside id)
    · exact fun found => .inr (found.resolve_left other)
  · have plain : declaration.kind = .informational := by
      cases same : declaration.kind <;> simp [same, Kind.isNumeric] at numeric ⊢
    rw [if_neg numeric]
    exact iff_of_true rfl (.inl plain)

end Declaration

namespace Record

def moved (shift : Nat) (record : Record) : Record := { record with line := record.line + shift }

theorem of_line_moved (path : Path) (index shift : Nat) (line : Text) :
    ofLine? path (index + shift) line = (ofLine? path index line).map (moved shift) := by
  cases read : Declaration.ofLine? line with
  | none => simp [ofLine?, read]
  | some declaration =>
      cases meant : declaration.meaning? line with
      | none => simp [ofLine?, read, meant]
      | some meaning => simp [ofLine?, read, meant, moved]

theorem scan_from_moved (path : Path) (base shift : Nat) (lines : List Text) :
    scanFrom path (base + shift) lines = (scanFrom path base lines).map (moved shift) := by
  induction lines generalizing base with
  | nil => rfl
  | cons line lines ih =>
      have here : (ofLine? path (base + shift) line).toList =
          (ofLine? path base line).toList.map (moved shift) := by
        rw [of_line_moved, Option.toList_map]
      rw [scanFrom, scanFrom, List.map_append, here, Nat.add_right_comm, ih]

theorem scan_append (path : Path) (a b : List Text) :
    scan path (a ++ b) = scan path a ++ (scan path b).map (moved a.length) := by
  have second := scan_from_moved path 0 a.length b
  rw [scan, scan_from_append, second]
  rfl

theorem scan_from_increasing (path : Path) (base : Nat) (lines : List Text) :
    Edit.Increasing (scanFrom path base lines) := by
  induction lines generalizing base with
  | nil => exact List.Pairwise.nil
  | cons line lines ih =>
      rw [scanFrom]
      cases read : ofLine? path base line with
      | none => exact ih (base + 1)
      | some record =>
          refine List.pairwise_cons.mpr ⟨fun later among => ?_, ih (base + 1)⟩
          rw [(of_line_eq_some.mp read).1]
          exact line_of_scan_from among

theorem mem_scan {path : Path} {lines : List Text} {record : Record} :
    record ∈ scan path lines ↔
      ∃ line, lines[record.line]? = some line ∧ ofLine? path record.line line = some record := by
  rw [← Option.bind_eq_some_iff, ← at_scan]
  constructor
  · exact (scan_from_increasing path 0 lines).at_line
  · exact List.mem_of_find?_eq_some

theorem line_of_scan {path : Path} {lines : List Text} {record : Record}
    (among : record ∈ scan path lines) : record.line < lines.length := by
  obtain ⟨line, held, -⟩ := mem_scan.mp among
  exact (List.getElem?_eq_some_iff.mp held).1

theorem counted_scan (path : Path) (lines : List Text) :
    Edit.counted (scan path lines) lines.length = scan path lines :=
  Edit.counted_of_increasing (scan_from_increasing path 0 lines) fun _ => line_of_scan

theorem of_line_is_some_iff (path : Path) (index : Nat) (line : Text) :
    (ofLine? path index line).isSome ↔
      ∃ declaration, Declaration.ofLine? line = some declaration ∧
        (declaration.kind = .informational ∨ (Number.find? line).isSome) := by
  cases read : Declaration.ofLine? line with
  | none => simp [ofLine?, read]
  | some declaration =>
      have whole : (ofLine? path index line).isSome = (declaration.meaning? line).isSome := by
        cases meant : declaration.meaning? line <;> simp [ofLine?, read, meant]
      rw [whole, Declaration.meaning_is_some_iff read]
      simp

theorem meaning_of_scanned {path : Path} {index : Nat} {line : Text} {record : Record}
    (read : ofLine? path index line = some record) :
    (record.meaning = .plain ↔ record.kind = .informational) ∧
      (record.kind ≠ .informational → ∃ number : Number,
        record.meaning = .numeric number ∧ number.OnlyDigits ∧
          (Number.Within record.value → Number.find? record.value = some number) ∧
          (¬ Number.Within record.value → Number.find? line = some number)) := by
  obtain ⟨-, -, -, meant⟩ := of_line_eq_some.mp read
  rw [Declaration.meaning?] at meant
  by_cases plain : record.kind = .informational
  · rw [plain] at meant
    exact ⟨iff_of_true (Option.some.inj meant).symm plain, fun other => absurd plain other⟩
  · have numeric : record.kind.isNumeric = true := by
      cases same : record.kind <;> simp [same, Kind.isNumeric] at plain ⊢
    rw [if_pos numeric, Option.map_eq_some_iff] at meant
    obtain ⟨number, found, held⟩ := meant
    rw [← held]
    refine ⟨iff_of_false Value.noConfusion plain, fun _ => ⟨number, rfl, ?_, ?_, ?_⟩⟩
    · rcases Option.or_eq_some_iff.mp found with own | ⟨-, other⟩
      · exact Number.find_some own
      · exact Number.find_some other
    · intro within
      obtain ⟨own, value⟩ := Option.isSome_iff_exists.mp (Number.find_is_some_iff.mpr within)
      rw [value, Option.some_or] at found
      rw [value, found]
    · intro without
      have missing : Number.find? record.value = none := by
        rw [← Number.find_is_some_iff, Option.not_isSome_iff_eq_none] at without
        exact without
      rwa [missing, Option.none_or] at found

theorem scan_around (path : Path) (a b : List Text) (line : Text) :
    (scan path (a ++ line :: b)).filter (·.line != a.length) =
      (scan path a).filter (·.line != a.length) ++
        (scanFrom path (a.length + 1) b).filter (·.line != a.length) := by
  have own : (ofLine? path a.length line).toList.filter (·.line != a.length) = [] := by
    rw [List.filter_eq_nil_iff]
    intro record among
    simpa using (of_line_eq_some.mp (Option.mem_toList.mp among)).1
  rw [scan, scan_from_append, Nat.zero_add, scanFrom, List.filter_append, List.filter_append, own,
    List.nil_append, scan]

theorem scan_set (path : Path) (lines : List Text) (index : Nat) (line : Text) :
    (scan path (lines.set index line)).filter (·.line != index) =
      (scan path lines).filter (·.line != index) := by
  by_cases within : index < lines.length
  · have size : (lines.take index).length = index := by
      rw [List.length_take]
      omega
    have old : lines = lines.take index ++ lines[index] :: lines.drop (index + 1) := by
      rw [← List.drop_eq_getElem_cons within, List.take_append_drop]
    have before := scan_around path (lines.take index) (lines.drop (index + 1)) lines[index]
    have after := scan_around path (lines.take index) (lines.drop (index + 1)) line
    rw [size] at before after
    rw [List.set_eq_take_append_cons_drop, if_pos within, after, ← before, ← old]
  · rw [List.set_eq_of_length_le (Nat.le_of_not_lt within)]

-- The records of the lines, for all of them: their order, which lines have one, what each says about
-- its line, and that lines before, behind or beside a line do not matter to it.
theorem scan_by_line (path : Path) (lines : List Text) :
    let records := scan path lines
    (records.Pairwise fun a b => a.line < b.line) ∧
      (∀ (index : Nat) (line : Text), lines[index]? = some line →
        ((∃ record ∈ records, record.line = index) ↔
          ∃ declaration, Declaration.ofLine? line = some declaration ∧
            (declaration.kind = .informational ∨ (Number.find? line).isSome))) ∧
      (∀ record ∈ records, ∃ line, lines[record.line]? = some line ∧ record.path = path ∧
        Declaration.ofLine? line = some ⟨record.kind, record.value⟩ ∧
        record.declaration <+: line ∧
        (record.meaning = .plain ↔ record.kind = .informational) ∧
        (record.kind ≠ .informational → ∃ number : Number,
          record.meaning = .numeric number ∧ number.OnlyDigits ∧
            (Number.Within record.value → Number.find? record.value = some number) ∧
            (¬ Number.Within record.value → Number.find? line = some number))) ∧
      (∀ (line : Text) (declaration : Declaration), Declaration.ofLine? line = some declaration →
        (Number.find? declaration.value).isSome → (Number.find? line).isSome) ∧
      (∀ more, scan path (lines ++ more) = records ++ (scan path more).map fun record =>
        { record with line := record.line + lines.length }) ∧
      ∀ (index : Nat) (line : Text),
        (scan path (lines.set index line)).filter (·.line != index) =
          records.filter (·.line != index) := by
  intro records
  refine ⟨scan_from_increasing path 0 lines, fun index line held => ?_, fun record among => ?_,
    fun line declaration read => ?_, scan_append path lines, scan_set path lines⟩
  · rw [← of_line_is_some_iff path index line, Option.isSome_iff_exists]
    constructor
    · rintro ⟨record, among, rfl⟩
      obtain ⟨other, same, read⟩ := mem_scan.mp among
      cases held.symm.trans same
      exact ⟨record, read⟩
    · rintro ⟨record, read⟩
      have at_index := (of_line_eq_some.mp read).1
      refine ⟨record, mem_scan.mpr ⟨line, ?_, ?_⟩, at_index⟩
      · rwa [at_index]
      · rwa [at_index]
  · obtain ⟨line, held, read⟩ := mem_scan.mp among
    obtain ⟨-, at_path, declared, -⟩ := of_line_eq_some.mp read
    obtain ⟨-, tail, begun⟩ := Declaration.of_line_eq_some.mp declared
    exact ⟨line, held, at_path, declared, ⟨tail, begun.symm⟩, meaning_of_scanned read⟩
  · rw [Number.find_is_some_iff, Number.find_is_some_iff]
    exact Declaration.within_line read

-- The number of the first line stands behind its declaration, the second line has none at all.
theorem scan_around_malformed_line :
    let path : Path := ⟨"A.cs".toList⟩
    let first := "[assembly: AssemblyVersion(\"x\")] // 1..2.3".toList
    let second := "[assembly: AssemblyFileVersion(\"1.0\")]".toList
    Declaration.ofLine? second = some ⟨.file, "1.0".toList⟩ ∧
      (∃ record ∈ scan path [first, second], record.line = 0 ∧ record.value = "x".toList ∧
        record.meaning = .numeric ⟨"1".toList, [], "2".toList, "3".toList⟩) ∧
      ¬ ∃ record ∈ scan path [first, second], record.line = 1 := by
  intro path first second
  have declared : Declaration.ofLine? first = some ⟨.assembly, "x".toList⟩ := by decide +kernel
  have other : Declaration.ofLine? second = some ⟨.file, "1.0".toList⟩ := by decide +kernel
  have found : Number.find? first = some ⟨"1".toList, [], "2".toList, "3".toList⟩ := by
    decide +kernel
  have missing : Number.find? second = none := by decide +kernel
  have without : ¬ Number.Within "x".toList := by
    rw [← Number.find_is_some_iff]
    decide +kernel
  obtain ⟨-, placed, said, -⟩ := scan_by_line path [first, second]
  have start : [first, second][0]? = some first := rfl
  refine ⟨other, ?_, fun impossible => ?_⟩
  · obtain ⟨record, among, at_start⟩ :=
      (placed 0 first start).mpr ⟨_, declared, .inr (by rw [found]; rfl)⟩
    obtain ⟨line, held, -, read, -, -, numeric⟩ := said record among
    obtain rfl : first = line := by
      rw [at_start, start] at held
      exact Option.some.inj held
    obtain ⟨kind, value⟩ := Declaration.mk.inj (Option.some.inj (read.symm.trans declared))
    obtain ⟨number, meaning, -, -, outside⟩ := numeric (by rw [kind]; decide)
    rw [value, found] at outside
    exact ⟨record, among, at_start, value, by rw [meaning, Option.some.inj (outside without)]⟩
  · obtain ⟨declaration, read, plain | numbered⟩ := (placed 1 second rfl).mp impossible
    · rw [other] at read
      cases read
      cases plain
    · rw [missing] at numbered
      cases numbered

end Record

end AssemblyVersions
