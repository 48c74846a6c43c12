import AssemblyVersions.Proofs.EditRecords
import AssemblyVersions.Proofs.Saved

set_option autoImplicit false

namespace AssemblyVersions

namespace Assignment

theorem of_kind_entries (assignment : Assignment) (kind : Kind) :
    Edit.ofKind kind assignment.entries =
      (assignment.value? kind).toList.map fun value => ⟨kind, value⟩ := by
  obtain ⟨assembly, file, informational⟩ := assignment
  cases kind <;> cases assembly <;> cases file <;> cases informational <;> rfl

theorem mem_entries {assignment : Assignment} {update : Update} :
    update ∈ assignment.entries ↔ assignment.value? update.kind = some update.value := by
  have same : update ∈ Edit.ofKind update.kind assignment.entries ↔ update ∈ assignment.entries := by
    simp [Edit.ofKind]
  rw [← same, of_kind_entries]
  obtain ⟨kind, value⟩ := update
  simp

end Assignment

namespace Plan

theorem check_eq_ok {update checked : Update} (accepted : check update = .ok checked) :
    checked = update ∧ (update.kind.isNumeric → (Number.ofText? update.value).isSome) := by
  rw [check] at accepted
  split at accepted
  · cases accepted
  · rename_i fits
    cases accepted
    refine ⟨rfl, fun numeric => ?_⟩
    cases read : Number.ofText? update.value with
    | none => exact absurd ⟨numeric, by rw [read]; rfl⟩ fits
    | some number => rfl

theorem checked_all {updates checked : List Update} (accepted : updates.mapM check = .ok checked) :
    checked = updates ∧
      ∀ update ∈ updates, update.kind.isNumeric → (Number.ofText? update.value).isSome := by
  induction updates generalizing checked with
  | nil =>
      cases accepted
      exact ⟨rfl, fun _ among => by cases among⟩
  | cons update updates ih =>
      rw [List.mapM_cons] at accepted
      cases first : check update with
      | error error =>
          rw [first] at accepted
          cases accepted
      | ok kept =>
          rw [first] at accepted
          cases later : updates.mapM check with
          | error error =>
              rw [later] at accepted
              cases accepted
          | ok rest =>
              rw [later] at accepted
              cases accepted
              obtain ⟨same, fits⟩ := check_eq_ok first
              obtain ⟨others, fit⟩ := ih later
              refine ⟨by rw [same, others], fun other among => ?_⟩
              rcases List.mem_cons.mp among with rfl | among
              · exact fits
              · exact fit other among

end Plan

namespace Update

structure Readable (update : Update) : Prop where
  quoteless : '"' ∉ update.value
  meant : update.kind.isNumeric → (Number.find? update.value).isSome

theorem readable_of_plain {update : Update} (plain : ∀ c ∈ update.value, c.isDigit ∨ c = '.')
    (found : (Number.find? update.value).isSome) : update.Readable ∧ '\n' ∉ update.value := by
  refine ⟨⟨fun quote => ?_, fun _ => found⟩, fun feed => ?_⟩
  · rcases plain _ quote with digit | dot
    · exact absurd digit (by decide)
    · exact absurd dot (by decide)
  · rcases plain _ feed with digit | dot
    · exact absurd digit (by decide)
    · exact absurd dot (by decide)

theorem readable_of_number {update : Update} (fits : (Number.ofText? update.value).isSome) :
    update.Readable ∧ '\n' ∉ update.value := by
  obtain ⟨number, read⟩ := Option.isSome_iff_exists.mp fits
  obtain ⟨found, plain⟩ := Number.of_text_some read
  exact readable_of_plain plain (by rw [found]; rfl)

theorem Readable.read {update : Update} (readable : update.Readable) (path : Path) (index : Nat) :
    ∃ record, Record.ofLine? path index update.declaration = some record ∧
      record.kind = update.kind ∧ record.value = update.value := by
  have quoteless : '"' ∉ (⟨update.kind, update.value⟩ : Declaration).value := readable.quoteless
  rw [declaration, Record.of_form quoteless, Declaration.ownMeaning?]
  cases numeric : update.kind.isNumeric with
  | false => exact ⟨_, rfl, rfl, rfl⟩
  | true =>
      obtain ⟨number, found⟩ := Option.isSome_iff_exists.mp (readable.meant numeric)
      refine ⟨⟨update.kind, update.value, .numeric number, index, path⟩, ?_, rfl, rfl⟩
      simp [found]

end Update

theorem Assignment.forall_entries {assignment : Assignment} {holds : Update → Prop}
    (numbers : ∀ update ∈ assignment.entries,
      update.kind.isNumeric → (Number.ofText? update.value).isSome)
    (numeric : ∀ update : Update, (Number.ofText? update.value).isSome → holds update)
    (plain : ∀ value, assignment.informational = some value → holds ⟨.informational, value⟩) :
    ∀ update ∈ assignment.entries, holds update := by
  intro update among
  obtain ⟨kind, value⟩ := update
  cases kind with
  | informational => exact plain value (mem_entries.mp among)
  | _ => exact numeric _ (numbers _ among rfl)

theorem Assignment.feedless_entries {assignment : Assignment}
    (numbers : ∀ update ∈ assignment.entries,
      update.kind.isNumeric → (Number.ofText? update.value).isSome)
    (clear : ∀ value, assignment.informational = some value → '\n' ∉ value) :
    ∀ update ∈ assignment.entries, '\n' ∉ update.value :=
  forall_entries numbers (fun _ fits => (Update.readable_of_number fits).2) clear

namespace Edit

variable {path : Path}

theorem first_of_additions {update : Update} (readable : update.Readable) {pending more : List Update}
    (base : Nat) (next : ofKind update.kind pending = update :: more) :
    (Record.first? (Record.scanFrom path base (pending.map Update.declaration)) update.kind).map
      Record.value = some update.value := by
  induction pending generalizing base with
  | nil => cases next
  | cons other pending ih =>
      obtain ⟨record, read, kind, value⟩ := readable.read path base
      rw [ofKind, List.filter_cons] at next
      rw [Record.first_of_kind, List.map_cons, Record.scanFrom, Record.of_kind_append]
      split at next
      · rename_i same
        injection next with first rest
        rw [first, read]
        simp [Record.ofKind, kind, value]
      · rename_i apart
        have different : ¬ other.kind = update.kind := by simpa using apart
        rw [Update.declaration, records_of_form, if_neg different, List.nil_append,
          ← Record.first_of_kind]
        exact ih (base + 1) next

theorem first_of_edit {update : Update} (readable : update.Readable) (at_path : Path)
    (lines : List Text) {updates more : List Update}
    (next : ofKind update.kind updates = update :: more) :
    (Record.first?
      (Record.scan path (ofRecords at_path lines (Record.scan path lines) updates).lines)
      update.kind).map Record.value = some update.value := by
  obtain ⟨rest, left, same⟩ : ∃ rest, ofKind update.kind rest = _ ∧
      Record.ofKind update.kind (Record.scan path _) = _ := records_of_edit at_path lines updates
  rw [Record.first_of_kind, same, next]
  rw [next] at left
  cases held : Record.ofKind update.kind (Record.scan path lines) with
  | nil =>
      rw [held] at left
      rw [refill, List.nil_append, ← Record.first_of_kind]
      exact first_of_additions readable lines.length left
  | cons record records =>
      obtain ⟨again, read, kind, value⟩ := readable.read path record.line
      have among : record ∈ Record.ofKind update.kind (Record.scan path lines) := by
        rw [held]
        exact List.mem_cons_self
      have mine : record.kind = update.kind := beq_iff_eq.mp (List.mem_filter.mp among).2
      have taken : written record (update :: more) = update.declaration := by
        simp [written, mine]
      rw [refill, taken, read]
      exact congrArg some value

end Edit

theorem Scanned.first_of_edited (path : Path) (bytes : Bytes) {updates more : List Update}
    {update : Update} (clear : ∀ update ∈ updates, '\n' ∉ update.value)
    (readable : update.Readable) (next : Edit.ofKind update.kind updates = update :: more) :
    (Record.first? (ofBytes path ((ofBytes path bytes).edited updates)).records update.kind).map
      Record.value = some update.value := by
  rw [ofBytes, scan_edited path bytes clear path]
  exact Edit.first_of_edit readable path (Document.ofBytes bytes).texts next

namespace Batch

section ReadBack

variable {σ : Type} [Store σ]

structure ReadsBack (paths : List Path) (store : σ) (update : Update) : Prop where
  everywhere : ∀ path ∈ paths, ∃ bytes, Store.read store path = .ok bytes ∧
    (Record.first? (Scanned.ofBytes path bytes).records update.kind).map Record.value =
      some update.value
  got : ∀ dryRun, run (.get update.kind) dryRun paths store =
    (store, .ok { version := some update.value })

theorem reads_back {paths : List Path} (listed : paths ≠ []) {store : σ} {held : Path → Bytes}
    (present : ∀ path ∈ paths, Store.read store path = .ok (held path)) {update : Update}
    (first : ∀ path ∈ paths,
      (Record.first? (Scanned.ofBytes path (held path)).records update.kind).map Record.value =
        some update.value) :
    ReadsBack paths store update := by
  refine ⟨fun path among => ⟨held path, present path among, first path among⟩, fun dryRun => ?_⟩
  obtain ⟨path, rest, rfl⟩ := List.exists_cons_of_ne_nil listed
  obtain ⟨record, found, value⟩ := Option.map_eq_some_iff.mp (first path List.mem_cons_self)
  have all := read_all_present present
  have overall : Record.first? (records ((path :: rest).map fun path =>
      Scanned.ofBytes path (held path))) update.kind = some record := by
    rw [Record.first?] at found
    rw [records, List.map_cons, List.flatMap_cons, Record.first?, List.find?_append, found,
      Option.some_or]
  have prepared : prepare (.get update.kind) (path :: rest) store =
      .ok ((path :: rest).map fun path => .ofBytes path (held path),
        .answer { version := some update.value }) := by
    have unasked : assigned (.get update.kind) = .ok [] := rfl
    rw [prepare, unasked, all]
    simp only [bind, Except.bind, task, overall, value]
  rw [run, prepared]

theorem clear_of_reads_back {paths : List Path} (listed : paths ≠ []) {store : σ} {update : Update}
    (back : ReadsBack paths store update) : '"' ∉ update.value ∧ '\n' ∉ update.value := by
  obtain ⟨path, rest, rfl⟩ := List.exists_cons_of_ne_nil listed
  obtain ⟨bytes, -, first⟩ := back.everywhere path List.mem_cons_self
  obtain ⟨record, found, value⟩ := Option.map_eq_some_iff.mp first
  rw [← value]
  exact Scanned.clear_of_record (List.mem_of_find?_eq_some found)

-- Only an informational version can be lost, and only by a quote or a line feed in it. Without a
-- line feed in it no other version is lost.
theorem set_reads_back {paths : List Path} {same : Path → Path → Prop} {served : σ → Prop}
    (serves : Serves paths same served) (listed : paths ≠ []) {store : σ} (healthy : served store)
    {assignment : Assignment} {updates : List Update}
    (accepted : Plan.set assignment = .ok updates) :
    ∃ after outcome, run (.set assignment) false paths store = (after, .ok outcome) ∧
      ((∀ kind value, assignment.value? kind = some value → ReadsBack paths after ⟨kind, value⟩) ↔
        ∀ value, assignment.informational = some value → '"' ∉ value ∧ '\n' ∉ value) ∧
      ((∀ value, assignment.informational = some value → '\n' ∉ value) →
        ∀ kind value, kind.isNumeric → assignment.value? kind = some value →
          ReadsBack paths after ⟨kind, value⟩) := by
  obtain ⟨after, outcome, ran, -, -, contents⟩ := run_set serves healthy accepted
  obtain ⟨entries, numbers⟩ := Plan.checked_all accepted
  subst entries
  have back (clear : ∀ value, assignment.informational = some value → '\n' ∉ value) (kind : Kind)
      (value : Text) (supplied : assignment.value? kind = some value)
      (readable : Update.Readable ⟨kind, value⟩) : ReadsBack paths after ⟨kind, value⟩ := by
    refine reads_back listed contents fun path among => ?_
    have next : Edit.ofKind kind assignment.entries = [⟨kind, value⟩] := by
      rw [Assignment.of_kind_entries, supplied]
      rfl
    exact Scanned.first_of_edited path (contentOf store path)
      (Assignment.feedless_entries numbers clear) readable next
  have numeric_back (clear : ∀ value, assignment.informational = some value → '\n' ∉ value)
      (kind : Kind) (value : Text) (numeric : kind.isNumeric)
      (supplied : assignment.value? kind = some value) : ReadsBack paths after ⟨kind, value⟩ := by
    have among : ⟨kind, value⟩ ∈ assignment.entries := Assignment.mem_entries.mpr supplied
    exact back clear kind value supplied (Update.readable_of_number (numbers _ among numeric)).1
  refine ⟨after, outcome, ran, ⟨fun all value supplied => ?_, fun clear kind value supplied => ?_⟩,
    numeric_back⟩
  · exact clear_of_reads_back listed (all .informational value supplied)
  · have feedless : ∀ value, assignment.informational = some value → '\n' ∉ value :=
      fun other given => (clear other given).2
    cases numeric : kind.isNumeric with
    | true => exact numeric_back feedless kind value numeric supplied
    | false =>
        cases kind with
        | informational =>
            refine back feedless _ value supplied ⟨(clear value supplied).1, fun impossible => ?_⟩
            cases impossible
        | _ => cases numeric

theorem set_reads_back_of_quoted_text :
    let path : Path := ⟨"A.cs".toList⟩
    let store : MemoryStore := { files := [(path, "// empty\n".toList.map Utf8.octet)] }
    let number := "1.2.3.4".toList
    let text := "1.0 \"beta\"".toList
    ∃ after outcome,
      run (.set { file := some number, informational := some text }) false [path] store =
        (after, .ok outcome) ∧
      ReadsBack [path] after ⟨.file, number⟩ ∧ ¬ ReadsBack [path] after ⟨.informational, text⟩ := by
  intro path store number text
  have healthy : MemoryStore.Served [path] store :=
    MemoryStore.served_of_present (fun _ _ => rfl) (by decide +kernel)
  have accepted : Plan.set { file := some number, informational := some text } =
      .ok [⟨.file, number⟩, ⟨.informational, text⟩] := by decide +kernel
  obtain ⟨after, outcome, ran, exact_condition, numeric⟩ :=
    set_reads_back (MemoryStore.serves [path]) (List.cons_ne_nil path []) healthy accepted
  have feedless : ∀ value, some text = some value → '\n' ∉ value := by
    rintro value ⟨⟩
    decide +kernel
  have first := numeric feedless .file number rfl rfl
  refine ⟨after, outcome, ran, first, fun back => ?_⟩
  have every : ∀ kind value, Assignment.value? { file := some number, informational := some text }
      kind = some value → ReadsBack [path] after ⟨kind, value⟩ := by
    intro kind value supplied
    cases kind with
    | assembly => cases supplied
    | file =>
        cases supplied
        exact first
    | informational =>
        cases supplied
        exact back
  exact (exact_condition.mp every text rfl).1 (by decide +kernel)

end ReadBack

end Batch

end AssemblyVersions
