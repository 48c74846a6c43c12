import AssemblyVersions.Proofs.EditRecords

set_option autoImplicit false

namespace AssemblyVersions

namespace Record

def standsAlone (record : Record) : Bool :=
  !record.kind.isNumeric || (Number.find? record.value).isSome

theorem read_again {path : Path} {line : Text} {record : Record}
    (read : ofLine? path record.line line = some record) :
    ofLine? path record.line record.declaration =
      if record.standsAlone then some record else none := by
  obtain ⟨-, at_path, declared, meant⟩ := of_line_eq_some.mp read
  obtain ⟨clear, -⟩ := Declaration.of_line_eq_some.mp declared
  rw [declaration, of_form clear, Declaration.ownMeaning?]
  simp only [Declaration.meaning?] at meant
  cases numeric : record.kind.isNumeric with
  | false =>
      simp only [numeric, Bool.false_eq_true, if_false, Option.some.injEq] at meant
      simp [standsAlone, numeric, meant, ← at_path]
  | true =>
      cases found : Number.find? record.value with
      | none => simp [standsAlone, numeric, found]
      | some number =>
          simp only [numeric, found, if_true, Option.some_or, Option.map_some, Option.some.injEq]
            at meant
          simp [standsAlone, numeric, found, meant, ← at_path]

end Record

namespace Edit

theorem refill_untouched {path : Path} {records : List Record}
    (scanned : ∀ record ∈ records, ∃ line, Record.ofLine? path record.line line = some record) :
    refill path records [] = records.filter Record.standsAlone := by
  induction records with
  | nil => rfl
  | cons record records ih =>
      obtain ⟨line, read⟩ := scanned record List.mem_cons_self
      have later := ih fun other among => scanned other (List.mem_cons_of_mem record among)
      have own : written record [] = record.declaration := rfl
      rw [refill, own, Record.read_again read, List.tail_nil, later]
      by_cases alone : record.standsAlone
      · simp [alone]
      · simp [alone]

end Edit

namespace Scanned

theorem untouched_records (path : Path) (bytes : Bytes) {updates : List Update} {kind : Kind}
    (clear : ∀ update ∈ updates, '\n' ∉ update.value)
    (untouched : ∀ update ∈ updates, update.kind ≠ kind) :
    Record.ofKind kind
        (Record.scan path (Document.ofBytes ((ofBytes path bytes).edited updates)).texts) =
      (Record.ofKind kind (Record.scan path (Document.ofBytes bytes).texts)).filter
        Record.standsAlone := by
  have none_asked : Edit.ofKind kind updates = [] := Edit.of_kind_eq_nil untouched
  obtain ⟨rest, left, same⟩ : ∃ rest, Edit.ofKind kind rest = _ ∧
      Record.ofKind kind (Record.scan path _) = _ :=
    Edit.records_of_edit path (Document.ofBytes bytes).texts updates
  rw [none_asked] at left same
  have scanned : ∀ record ∈ Record.ofKind kind (Record.scan path (Document.ofBytes bytes).texts),
      ∃ line, Record.ofLine? path record.line line = some record := by
    intro record among
    obtain ⟨line, -, read⟩ := Record.of_mem_scan_from (List.mem_of_mem_filter among)
    exact ⟨line, read⟩
  rw [Edit.refill_untouched scanned,
    Edit.records_of_additions kind path _ (left.trans List.drop_nil), List.append_nil] at same
  rw [scan_edited path bytes clear]
  exact same

-- A kind without an update keeps its records, with value, meaning and line, exactly if each of its
-- numeric records has its number between its quotes; otherwise only those that do are left.
theorem untouched_records_kept (path : Path) (bytes : Bytes) {updates : List Update} {kind : Kind}
    (clear : ∀ update ∈ updates, '\n' ∉ update.value)
    (untouched : ∀ update ∈ updates, update.kind ≠ kind) :
    let before := Record.ofKind kind (ofBytes path bytes).records
    let after := Record.ofKind kind (ofBytes path ((ofBytes path bytes).edited updates)).records
    after = before.filter (fun record =>
        !record.kind.isNumeric || (Number.find? record.value).isSome) ∧
      (after = before ↔
        ∀ record ∈ before, record.kind.isNumeric → (Number.find? record.value).isSome) := by
  intro before after
  have left : after = before.filter Record.standsAlone := untouched_records path bytes clear untouched
  refine ⟨left, ?_⟩
  rw [left, List.filter_eq_self]
  refine forall₂_congr fun record _ => ?_
  rw [Record.standsAlone, Bool.or_eq_true, Bool.not_eq_true', ← Bool.not_eq_true, ← imp_iff_not_or]

theorem untouched_records_kept_around_update :
    let path : Path := ⟨"A.cs".toList⟩
    let bytes := "[assembly: AssemblyVersion(\"1.0.0.0\")] // first\r\n".toList.map Utf8.octet
    let updates : List Update := [⟨.file, "2.0.0.0".toList⟩]
    (∀ update ∈ updates, '\n' ∉ update.value) ∧ (∀ update ∈ updates, update.kind ≠ .assembly) ∧
      Record.ofKind .assembly (ofBytes path ((ofBytes path bytes).edited updates)).records =
        Record.ofKind .assembly (ofBytes path bytes).records := by
  intro path bytes updates
  have clear : ∀ update ∈ updates, '\n' ∉ update.value := by decide +kernel
  have untouched : ∀ update ∈ updates, update.kind ≠ .assembly := by decide +kernel
  refine ⟨clear, untouched, (untouched_records_kept path bytes clear untouched).2.mpr ?_⟩
  decide +kernel

-- The number stands after the declaration, and the written form drops it.
theorem untouched_record_lost :
    let path : Path := ⟨"A.cs".toList⟩
    let bytes := "[assembly: AssemblyVersion(\"x\")] // was 2.0.1.9\n".toList.map Utf8.octet
    let updates : List Update := [⟨.file, "1.0.0.0".toList⟩]
    (∀ update ∈ updates, (Number.ofText? update.value).isSome ∧ update.kind ≠ .assembly) ∧
      (Record.ofKind .assembly (ofBytes path bytes).records).length = 1 ∧
      Record.ofKind .assembly (ofBytes path ((ofBytes path bytes).edited updates)).records = [] := by
  decide +kernel

end Scanned

end AssemblyVersions
